import Lwlock.Handoff

/-!
# The mutex of two bytes

A mutex of two bytes has room for one id: the youngest waiter, or the owner if nobody
waits. A waiter's `next` names the one that came before it, and the first of them names
the owner, so the owner is known by its own id only: it walks from the word to the waiter
whose `next` is itself. It hands the mutex to that one by a swap that changes nothing,
which cannot be told from no swap at all, and clears its `next` after that.

A thread with its waiter is one index, and `none` stands for `LW_WAITER_ID_MAX`. The steps
are the reads and the swaps of a word, the writes of a `next`, and the wake-up. What the
owner of a mutex is cannot be read off the memory, so a thread remembers what it has: this
is what it may unlock. A thread locks what it does not have; the `lw_assert` that says so is
compiled out, as are the others and the checks of `LW_DEBUG`, and `wait_src` is read by
nothing else. The `lw_verify` at the end of an unlock leaves the thread at `aborted`.
-/

namespace Mutex2b

variable {T M : Type}

/-- **The program points** of a thread. -/
inductive Pc (T M : Type)
  | idle
  /-- `lw_mutex2b_lock_with_waiter` before the read of the word. -/
  | lockRead (m : M)
  /-- Before the write of its `next`, with the word it read. -/
  | lockLink (m : M) (old : Option T)
  /-- Before its swap. -/
  | lockCas (m : M) (old : Option T)
  /-- In `lw_waiter_wait`. -/
  | waiting (m : M)
  /-- `lw_mutex2b_trylock` before its swap. -/
  | tryCas (m : M)
  /-- `lw_mutex2b_unlock_with_waiter` before the read of the word, with the waiter to wake
  up if one was found. -/
  | unlockRead (m : M) (wake : Option T)
  /-- `lw_mutex2b_find_oldest_waiter` at a waiter. -/
  | unlockFind (m : M) (old : Option T) (w : T)
  /-- `lw_mutex2b_unlock_with_waiter` before its swap. -/
  | unlockCas (m : M) (old new wake : Option T)
  /-- Before the write of `next` of the waiter to wake up. -/
  | clearNext (m : M) (w : T)
  /-- Before the wake-up. -/
  | wakeup (m : M) (w : T)
  | aborted
  deriving DecidableEq, Repr

/-- The operations of `lw_mutex2b.h`. -/
inductive Op (M : Type)
  | lock (m : M)
  | trylock (m : M)
  | unlock (m : M)
  deriving DecidableEq, Repr

/-- An event: a call with its first step, or a further step of a thread. -/
inductive Event (T M : Type)
  | call (t : T) (op : Op M)
  | move (t : T)
  deriving DecidableEq, Repr

/-- **A state of the mutexes and the waiters.** -/
structure State (T M : Type) where
  word : M → Option T
  next : T → Option T
  /-- `signal_pending` of a waiter's event. -/
  signalled : T → Bool
  /-- The mutexes a thread has: those it locked, or was handed, and did not unlock. -/
  holds : T → M → Bool
  /-- History: how often a mutex was handed to the thread since it queued. -/
  made : T → ℕ
  /-- History: how often it was signalled since it queued. -/
  sent : T → ℕ
  pc : T → Pc T M

/-- `lw_mutex2b_init`, with no thread inside. -/
def init : State T M where
  word := fun _ => none
  next := fun _ => none
  signalled := fun _ => false
  holds := fun _ _ => false
  made := fun _ => 0
  sent := fun _ => 0
  pc := fun _ => .idle

variable [DecidableEq T] [DecidableEq M]

namespace State

/-- Move a thread to a program point. -/
def goto (s : State T M) (t : T) (pc : Pc T M) : State T M :=
  { s with pc := Function.update s.pc t pc }

/-- Store a word. -/
def setWord (s : State T M) (m : M) (w : Option T) : State T M :=
  { s with word := Function.update s.word m w }

/-- Write a `next`. -/
def setNext (s : State T M) (t : T) (v : Option T) : State T M :=
  { s with next := Function.update s.next t v }

/-- Remember whether a thread has a mutex. -/
def setHolds (s : State T M) (t : T) (m : M) (b : Bool) : State T M :=
  { s with holds := fun u j => if u = t ∧ j = m then b else s.holds u j }

end State

/-! ## Locking -/

/-- **The swap of `lw_mutex2b_lock_with_waiter`.** -/
def lockCas (s : State T M) (t : T) (m : M) (old : Option T) : State T M :=
  if s.word m = old then
    if old = none then ((s.setWord m (some t)).setHolds t m true).goto t .idle
    else
      { s.setWord m (some t) with
        made := Function.update s.made t 0
        sent := Function.update s.sent t 0 }.goto t (.waiting m)
  else s.goto t (.lockRead m)

/-- A thread that was signalled returns from `lw_waiter_wait` with the mutex. -/
def completeWait (s : State T M) (t : T) (m : M) : State T M :=
  ({ s with signalled := Function.update s.signalled t false }.setHolds t m true).goto t .idle

/-- **The swap of `lw_mutex2b_trylock`.** -/
def tryCas (s : State T M) (t : T) (m : M) : State T M :=
  if s.word m = none then ((s.setWord m (some t)).setHolds t m true).goto t .idle
  else s.goto t .idle

/-! ## Unlocking -/

/-- **An iteration of `lw_mutex2b_unlock_with_waiter`** up to the walk. -/
def unlockRead (s : State T M) (t : T) (m : M) (wake : Option T) : State T M :=
  if s.word m = some t then s.goto t (.unlockCas m (s.word m) none wake)
  else
    match s.word m, wake with
    | some w, none => s.goto t (.unlockFind m (s.word m) w)
    | _, _ => s.goto t (.unlockCas m (s.word m) (s.word m) wake)

/-- **An iteration of `lw_mutex2b_find_oldest_waiter`.** -/
def unlockFind (s : State T M) (t : T) (m : M) (old : Option T) (w : T) : State T M :=
  if s.next w = some t then s.goto t (.unlockCas m old old (some w))
  else
    match s.next w with
    | none => s.goto t (.unlockCas m old old none)
    | some n => s.goto t (.unlockFind m old n)

/-- **The swap of `lw_mutex2b_unlock_with_waiter`**, and its last check. -/
def unlockCas (s : State T M) (t : T) (m : M) (old new wake : Option T) : State T M :=
  if s.word m = old then
    match wake with
    | some w =>
      { (s.setWord m new).setHolds t m false with
        made := Function.update s.made w (s.made w + 1) }.goto t (.clearNext m w)
    | none =>
      ((s.setWord m new).setHolds t m false).goto t
        (if old = some t ∧ new = none then .idle else .aborted)
  else s.goto t (.unlockRead m wake)

/-- `lw_waiter_wakeup`. -/
def wakeup (s : State T M) (t : T) (w : T) : State T M :=
  { s with
    signalled := Function.update s.signalled w true
    sent := Function.update s.sent w (s.sent w + 1) }.goto t .idle

/-! ## The machine -/

/-- **A call with its first step.** Who locks does not have the mutex, who unlocks has it. -/
def call (s : State T M) (t : T) (op : Op M) : Option (State T M) :=
  if s.pc t = .idle then
    match op with
    | .lock m => if s.holds t m = false then some (s.goto t (.lockLink m (s.word m))) else none
    | .trylock m => if s.word m = none then some (s.goto t (.tryCas m)) else some s
    | .unlock m => if s.holds t m = true then some (unlockRead s t m none) else none
  else none

/-- **A further step of a thread.** -/
def move (s : State T M) (t : T) : Option (State T M) :=
  match s.pc t with
  | .idle | .aborted => none
  | .lockRead m => some (s.goto t (.lockLink m (s.word m)))
  | .lockLink m old => some ((s.setNext t old).goto t (.lockCas m old))
  | .lockCas m old => some (lockCas s t m old)
  | .waiting m => if s.signalled t then some (completeWait s t m) else none
  | .tryCas m => some (tryCas s t m)
  | .unlockRead m wake => some (unlockRead s t m wake)
  | .unlockFind m old w => some (unlockFind s t m old w)
  | .unlockCas m old new wake => some (unlockCas s t m old new wake)
  | .clearNext m w => some ((s.setNext w none).goto t (.wakeup m w))
  | .wakeup _ w => some (wakeup s t w)

/-- **The mutexes as a machine.** -/
def machine (T M : Type) [DecidableEq T] [DecidableEq M] : Machine (State T M) (Event T M) where
  start := fun s => s = init
  step := fun s e => match e with
    | .call t op => call s t op
    | .move t => move s t

/-- **What a step does to a mutex**, if it is a swap that succeeds. -/
def label (s : State T M) : Event T M → Option (M × Handoff.Act T)
  | .call _ _ => none
  | .move t =>
    match s.pc t with
    | .lockCas m old =>
      if s.word m = old then some (m, if old = none then .acquire t else .enqueue t) else none
    | .tryCas m => if s.word m = none then some (m, .acquire t) else none
    | .unlockCas m old _ wake =>
      if s.word m = old then
        some (m, match wake with | none => .release t | some w => .pass t w)
      else none
    | _ => none

end Mutex2b
