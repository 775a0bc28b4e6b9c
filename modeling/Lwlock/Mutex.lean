import Lwlock.Handoff

/-!
# The mutex

A mutex is a word of two ids: its owner, and the youngest of those who wait. A
waiter's `next` names the one that came before it, so that the queue is reached from
the word in the wrong order: the oldest waiter, to whom the mutex is handed, is at
the end. An unlock walks there, and sets the `prev` fields on its way. It names the
new owner in the word by a swap that fails if somebody has queued meanwhile, and
takes the new owner out of the queue only after that, while others go on to queue.

A thread with its waiter is one index, and `none` stands for `LW_WAITER_ID_MAX`. The
steps are the reads and the swaps of a word, the writes of a `next` or a `prev`, and
the wake-up. A thread may hold any number of mutexes; it waits for one at a time,
possibly with other calls in between (`lw_mutex_lock_async`), among them none for the
mutex it waits for but `lw_mutex_lock_complete_wait`. A failed `lw_verify` leaves the
thread at `aborted`; `lw_assert` is compiled out, and so is `wait_src`, which nothing
else reads.
-/

namespace Mutex

variable {T M : Type}

/-- **The word of a mutex**: its owner and its youngest waiter. -/
structure Word (T : Type) where
  owner : Option T
  waitq : Option T
  deriving DecidableEq, Repr

/-- **The program points** of a thread. -/
inductive Pc (T M : Type)
  /-- Outside the mutexes, or with a deferred wait. -/
  | idle
  /-- `lw_mutex_lock` before the read of the word. -/
  | lockStart (m : M)
  /-- The loop of `lw_mutex_lock_async` with the word it read. -/
  | lockTry (m : M) (sync : Bool) (old : Word T)
  /-- Before its swap. -/
  | lockCas (m : M) (sync : Bool) (old : Word T)
  /-- `lw_mutex_lock_complete_wait`. -/
  | waiting (m : M)
  /-- `lw_mutex_trylock` before its swap, with the `waitq` it read. -/
  | tryCas (m : M) (waitq : Option T)
  /-- `lw_mutex_unlock` before the read of the word. -/
  | unlockStart (m : M)
  /-- `lw_mutex_setup_prev_id_pointers` at a waiter. -/
  | unlockScan (m : M) (old : Word T) (w : T)
  /-- `lw_mutex_unlock` before its swap, with the waiter to wake up. -/
  | unlockCas (m : M) (old : Word T) (w : Option T)
  /-- `lw_waiter_remove_from_id_list` before its writes to the next waiter. -/
  | unlinkNext (m : M) (w : T)
  /-- Before its write to the waiter before. -/
  | unlinkPrev (m : M) (w : T) (prev : Option T)
  /-- Before the write of `prev` of the waiter. -/
  | clearPrev (m : M) (w : T)
  /-- Before the write of its `next`. -/
  | clearNext (m : M) (w : T)
  /-- `lw_mutex_unlock` before the wake-up. -/
  | wakeup (m : M) (w : T)
  | aborted
  deriving DecidableEq, Repr

/-- The operations of `lw_mutex.h`. -/
inductive Op (M : Type)
  | lock (m : M)
  | lockAsync (m : M)
  | lockCompleteWait (m : M)
  | trylock (m : M)
  | lockIfNotHeld (m : M)
  | unlock (m : M)
  | unlockIfHeld (m : M)
  deriving DecidableEq, Repr

/-- An event: a call with its first step, or a further step of a thread. -/
inductive Event (T M : Type)
  | call (t : T) (op : Op M)
  | move (t : T)
  deriving DecidableEq, Repr

/-- **A state of the mutexes and the waiters.** -/
structure State (T M : Type) where
  word : M → Word T
  next : T → Option T
  prev : T → Option T
  /-- `signal_pending` of a waiter's event. -/
  signalled : T → Bool
  /-- The mutex for which a lock call returned `FALSE` or goes on to wait. -/
  waits : T → Option M
  /-- History: how often the thread was named owner by another one since it queued. -/
  made : T → ℕ
  /-- History: how often it was signalled since it queued. -/
  sent : T → ℕ
  pc : T → Pc T M

/-- `lw_mutex_init`, with no thread inside. -/
def init : State T M where
  word := fun _ => ⟨none, none⟩
  next := fun _ => none
  prev := fun _ => none
  signalled := fun _ => false
  waits := fun _ => none
  made := fun _ => 0
  sent := fun _ => 0
  pc := fun _ => .idle

variable [DecidableEq T] [DecidableEq M]

namespace State

/-- Move a thread to a program point. -/
def goto (s : State T M) (t : T) (pc : Pc T M) : State T M :=
  { s with pc := Function.update s.pc t pc }

/-- Store a word. -/
def setWord (s : State T M) (m : M) (w : Word T) : State T M :=
  { s with word := Function.update s.word m w }

/-- Write a `next`. -/
def setNext (s : State T M) (t : T) (v : Option T) : State T M :=
  { s with next := Function.update s.next t v }

/-- Write a `prev`. -/
def setPrev (s : State T M) (t : T) (v : Option T) : State T M :=
  { s with prev := Function.update s.prev t v }

end State

/-! ## Locking -/

/-- **The loop of `lw_mutex_lock_async`** up to its swap. -/
def lockTry (s : State T M) (t : T) (m : M) (sync : Bool) (old : Word T) : State T M :=
  if old.owner = none then (s.setNext t none).goto t (.lockCas m sync old)
  else if old.owner = some t then s.goto t .aborted
  else (s.setNext t old.waitq).goto t (.lockCas m sync old)

/-- **The swap of `lw_mutex_lock_async`.** -/
def lockCas (s : State T M) (t : T) (m : M) (sync : Bool) (old : Word T) : State T M :=
  if s.word m = old then
    if old.owner = none then (s.setWord m ⟨some t, old.waitq⟩).goto t .idle
    else
      { s.setWord m ⟨old.owner, some t⟩ with
        waits := Function.update s.waits t (some m)
        made := Function.update s.made t 0
        sent := Function.update s.sent t 0 }.goto t (if sync then .waiting m else .idle)
  else s.goto t (.lockTry m sync (s.word m))

/-- **`lw_mutex_lock_complete_wait`**, once the thread was signalled. -/
def completeWait (s : State T M) (t : T) (m : M) : State T M :=
  { s with
    signalled := Function.update s.signalled t false
    waits := Function.update s.waits t none }.goto t
    (if (s.word m).owner = some t then .idle else .aborted)

/-- **The swap of `lw_mutex_trylock`.** -/
def tryCas (s : State T M) (t : T) (m : M) (waitq : Option T) : State T M :=
  if s.word m = ⟨none, waitq⟩ then (s.setWord m ⟨some t, none⟩).goto t .idle else s.goto t .idle

/-! ## Unlocking -/

/-- **`lw_mutex_setup_prev_id_pointers`** at the youngest waiter. -/
def startScan (s : State T M) (t : T) (m : M) (old : Word T) : State T M :=
  match old.waitq with
  | none => s.goto t (.unlockCas m old none)
  | some w => s.goto t (.unlockScan m old w)

/-- `lw_mutex_unlock` up to the walk. -/
def unlockStart (s : State T M) (t : T) (m : M) : State T M :=
  if (s.word m).owner = some t then startScan s t m (s.word m) else s.goto t .aborted

/-- **An iteration of `lw_mutex_setup_prev_id_pointers`.** -/
def unlockScan (s : State T M) (t : T) (m : M) (old : Word T) (w : T) : State T M :=
  match s.next w with
  | none => s.goto t (.unlockCas m old (some w))
  | some n => (s.setPrev n (some w)).goto t (.unlockScan m old n)

/-- **The swap of `lw_mutex_unlock`.** -/
def unlockCas (s : State T M) (t : T) (m : M) (old : Word T) (w : Option T) : State T M :=
  if s.word m = old then
    match w with
    | none => (s.setWord m ⟨none, old.waitq⟩).goto t .idle
    | some w =>
      { s.setWord m ⟨some w, if old.waitq = some w then none else old.waitq⟩ with
        made := Function.update s.made w (s.made w + 1) }.goto t (.unlinkNext m w)
  else startScan s t m (s.word m)

/-- **`lw_waiter_remove_from_id_list`**, the next waiter. -/
def unlinkNext (s : State T M) (t : T) (m : M) (w : T) : State T M :=
  match s.next w with
  | none => s.goto t (.unlinkPrev m w (s.prev w))
  | some n => (s.setPrev n (s.prev w)).goto t (.unlinkPrev m w (s.prev w))

/-- **`lw_waiter_remove_from_id_list`**, the waiter before. -/
def unlinkPrev (s : State T M) (t : T) (m : M) (w : T) (prev : Option T) : State T M :=
  match prev with
  | none => s.goto t (.clearPrev m w)
  | some p => (s.setNext p (s.next w)).goto t (.clearPrev m w)

/-- `lw_waiter_wakeup`. -/
def wakeup (s : State T M) (t : T) (w : T) : State T M :=
  { s with
    signalled := Function.update s.signalled w true
    sent := Function.update s.sent w (s.sent w + 1) }.goto t .idle

/-! ## The machine -/

/-- **A call with its first step.** Who locks does not have the mutex, and waits for
no other one; who unlocks has it. -/
def call (s : State T M) (t : T) (op : Op M) : Option (State T M) :=
  if s.pc t = .idle then
    match op with
    | .lock m =>
      if s.waits t = none ∧ (s.word m).owner ≠ some t then
        some (s.goto t (.lockTry m true (s.word m)))
      else none
    | .lockAsync m =>
      if s.waits t = none ∧ (s.word m).owner ≠ some t then
        some (s.goto t (.lockTry m false (s.word m)))
      else none
    | .lockCompleteWait m => if s.waits t = some m then some (s.goto t (.waiting m)) else none
    | .trylock m =>
      if (s.word m).owner = none then some (s.goto t (.tryCas m (s.word m).waitq)) else some s
    | .lockIfNotHeld m =>
      if s.waits t = none then
        if (s.word m).owner = some t then some s else some (s.goto t (.lockStart m))
      else none
    | .unlock m =>
      if s.waits t ≠ some m ∧ (s.word m).owner = some t then some (unlockStart s t m) else none
    | .unlockIfHeld m =>
      if s.waits t ≠ some m then
        if (s.word m).owner = some t then some (s.goto t (.unlockStart m)) else some s
      else none
  else none

/-- **A further step of a thread.** -/
def move (s : State T M) (t : T) : Option (State T M) :=
  match s.pc t with
  | .idle | .aborted => none
  | .lockStart m => some (s.goto t (.lockTry m true (s.word m)))
  | .lockTry m sync old => some (lockTry s t m sync old)
  | .lockCas m sync old => some (lockCas s t m sync old)
  | .waiting m => if s.signalled t then some (completeWait s t m) else none
  | .tryCas m waitq => some (tryCas s t m waitq)
  | .unlockStart m => some (unlockStart s t m)
  | .unlockScan m old w => some (unlockScan s t m old w)
  | .unlockCas m old w => some (unlockCas s t m old w)
  | .unlinkNext m w => some (unlinkNext s t m w)
  | .unlinkPrev m w prev => some (unlinkPrev s t m w prev)
  | .clearPrev m w => some ((s.setPrev w none).goto t (.clearNext m w))
  | .clearNext m w => some ((s.setNext w none).goto t (.wakeup m w))
  | .wakeup _ w => some (wakeup s t w)

/-- **The mutexes as a machine.** -/
def machine (T M : Type) [DecidableEq T] [DecidableEq M] : Machine (State T M) (Event T M) where
  start := fun s => s = init
  step := fun s e => match e with
    | .call t op => call s t op
    | .move t => move s t

/-- **What a step does to a mutex**, if it is a swap that succeeds. -/
def label (s : State T M) : Event T M → Option (M × Handoff.Act T)
  | .call _ _ => none
  | .move t =>
    match s.pc t with
    | .lockCas m _ old =>
      if s.word m = old then some (m, if old.owner = none then .acquire t else .enqueue t) else none
    | .tryCas m waitq => if s.word m = ⟨none, waitq⟩ then some (m, .acquire t) else none
    | .unlockCas m old w =>
      if s.word m = old then
        some (m, match w with | none => .release t | some w => .pass t w)
      else none
    | _ => none

end Mutex
