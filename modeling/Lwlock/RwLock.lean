import Lwlock.Machine

/-!
# The read-write lock

A read-write lock is a word of four fields: whether the lock is unfair, whether a
writer has it, how many readers do, and the youngest of those who wait. A waiter's
`next` names the one that came before it, so the oldest waiter, who is served first,
is at the end. Who unlocks walks there, cuts off those it serves, and only then
swaps the word; others push themselves at the head meanwhile. The count of the
readers is a field of 14 bits, and what is stored there is taken modulo `2 ^ 14`.

In an unfair lock a reader gets in whenever there is no writer. The last reader to
leave with somebody waiting turns into a writer for the time it takes to hand the
lock over. A writer that finds a reader waiting longest turns into a reader, takes
the whole queue, sorts it, and puts the writers back, behind those who queued
meanwhile and before a reader that waits to be upgraded.

A thread with its waiter is one index, and `none` stands for `LW_WAITER_ID_MAX`. A
waiter is used with this lock only. The steps are the reads and the swaps of the
word, the reads and the writes of a `next` field, and the wake-ups; what a loop tests
and then uses again with nothing in between is read once, and a failed swap reads the
word for the next round. A waiter that nobody has a reference to is written in the
step that comes before. A failed `lw_verify`, or an access through the end marker,
leaves the thread at `aborted`; `lw_assert` is compiled out, and so is `wait_src`,
which nothing else reads.
-/

namespace RwLock

variable {T : Type}

/-- How many values the field of the readers has. -/
@[irreducible] def readersSize : ℕ := 2 ^ 14

theorem readersSize_eq : readersSize = 2 ^ 14 := by
  rw [readersSize]

/-- **The word of the lock.** -/
structure Word (T : Type) where
  unfair : Bool
  wlocked : Bool
  readers : ℕ
  waitq : Option T
  deriving DecidableEq, Repr

/-- `locked`, the two fields of the holders read as one. -/
def Word.locked (w : Word T) : Bool := w.wlocked || decide (w.readers ≠ 0)

/-- `event.tag` of a waiter. -/
inductive Tag
  | shared
  | exclusive
  | upgrade
  deriving DecidableEq, Repr

/-- Where `lw_rwlock_unlock` was called from: by a client, or inside
`lw_rwlock_upgrade` or `lw_rwlock_downgrade`, which go on to wait. -/
inductive After
  | done
  | upgrade
  | downgrade
  deriving DecidableEq, Repr

/-- **The variables of `lw_rwlock_unlock_fair_contention`** that live from one round
to the next; `kept` is whether `wait_list_p` is set. -/
structure Fair (T : Type) where
  waiter : Option T
  count : ℕ
  list : Option T
  kept : Bool
  deriving DecidableEq, Repr

/-- **The variables of `lw_rwlock_unlock_unfair_contention`**: the readers taken out of
the queue and their count, the writers and the oldest of them. -/
structure Unfair (T : Type) where
  readers : Option T
  count : ℕ
  writers : Option T
  oldest : Option T
  deriving DecidableEq, Repr

/-- **The program points** of a thread. -/
inductive Pc (T : Type)
  | idle
  /-- With a shared lock. -/
  | reader
  /-- With an exclusive lock. -/
  | writer
  /-- `lw_rwlock_lock_contention` before the read of the word. -/
  | lockContention (excl deferred : Bool)
  /-- Before its swap, with the word it read. -/
  | lockSwap (excl deferred : Bool) (old : Word T)
  /-- With `EWOULDBLOCK`. -/
  | queued (excl : Bool)
  /-- Before `lw_waiter_wait` returns. -/
  | waiting (tag : Tag)
  /-- `lw_rwlock_unlock`. -/
  | unlock (excl : Bool) (k : After)
  /-- `lw_rwlock_unlock_contention`. -/
  | unlockContention (excl : Bool) (k : After)
  /-- `try_rwlock_upgrade_or_release`. -/
  | upgradeOrRelease (k : After)
  /-- `lw_rwlock_unlock_fair_contention` before the read of the word. -/
  | fairStart (excl : Bool) (k : After)
  /-- Its walk at a waiter; `link` is the waiter `wait_list_p` points into, if it does
  not point to the word. -/
  | fairScan (excl : Bool) (k : After) (old : Word T) (waiter : T) (link : Option T) (count : ℕ)
  /-- Before the read of `*wait_list_p`. -/
  | fairTake (excl : Bool) (k : After) (old : Word T) (waiter link : T) (count : ℕ)
  /-- Before the write to `*wait_list_p`. -/
  | fairCut (excl : Bool) (k : After) (old : Word T) (waiter link : T) (count : ℕ)
    (list : Option T)
  /-- Before its swap. -/
  | fairSwap (excl : Bool) (k : After) (old new : Word T) (f : Fair T)
  /-- `lw_waiter_wake_all` at an id. -/
  | wakeAll (k : After) (id : Option T)
  /-- Before its write to the `next` of a waiter. -/
  | wakeClear (k : After) (waiter : T) (id : Option T)
  /-- Before the signal, here or in `lw_waiter_wakeup`. -/
  | wakeSignal (k : After) (waiter : T) (id : Option T)
  /-- `lw_rwlock_unlock_unfair_contention` before the read of the word. -/
  | unfairStart (k : After)
  /-- Its walk at a waiter. -/
  | unfairScan (k : After) (waiter : T)
  /-- `lw_rwlock_downgrade_and_ret_wait_list`. -/
  | downgradeList (k : After)
  /-- The loop that sorts the queue. -/
  | separate (k : After) (u : Unfair T) (list : Option T)
  /-- Before it clears the `next` of a waiter. -/
  | separateClear (k : After) (u : Unfair T) (waiter : T) (list : Option T)
  /-- Before the write to the `next` of a reader. -/
  | separateReader (k : After) (u : Unfair T) (waiter : T) (list : Option T)
  /-- Before the write to the `next` of the oldest writer. -/
  | separateWriter (k : After) (u : Unfair T) (waiter : T) (list : Option T)
  /-- `lw_rwlock_unlock_unfair_reinsert_waiters` at a waiter. -/
  | reinsert (k : After) (u : Unfair T) (old : Word T) (curr : T)
  /-- Before it verifies the `next` of a waiter for an upgrade. -/
  | reinsertVerify (k : After) (u : Unfair T) (old : Word T) (curr next : T)
  /-- Before the write to the oldest writer, with a waiter for an upgrade behind `curr`. -/
  | reinsertOldest (k : After) (u : Unfair T) (old : Word T) (curr next : T)
  /-- Before the write to `curr`. -/
  | reinsertCurr (k : After) (u : Unfair T) (old : Word T) (curr : T)
  /-- Before the write to the oldest writer, with a waiter for an upgrade alone. -/
  | reinsertHead (k : After) (u : Unfair T) (old : Word T) (curr : T)
  /-- Before `lw_uint16_cmpxchg` on the `next` of the last waiter. -/
  | reinsertLast (k : After) (u : Unfair T) (old : Word T) (curr : T)
  /-- `lw_rwlock_unlock_unfair_contention` before its swap. -/
  | unfairSwap (k : After) (u : Unfair T) (old new : Word T)
  /-- `lw_rwlock_downgrade` on its walk. -/
  | downgradeScan (waiter : T)
  /-- Before its write to the `next` of the last waiter. -/
  | downgradeLink (waiter : T)
  /-- `lw_rwlock_insert_for_upgrade` before the read of the word. -/
  | upgradeStart
  /-- Its walk at a waiter. -/
  | upgradeScan (waiter : T)
  /-- Before `lw_uint16_cmpxchg` on the `next` of the last waiter. -/
  | upgradeSwap (waiter : T)
  | aborted
  deriving DecidableEq, Repr

/-- How `lw_rwlock_lock` may wait. -/
inductive Mode
  | noWait
  | waitInline
  | waitDeferred
  deriving DecidableEq, Repr

/-- The operations of `lw_rwlock.h`; the lock that is unlocked is the one the thread
has. -/
inductive Op
  | lock (excl : Bool) (mode : Mode)
  | contentionWait
  | unlock
  | downgrade
  | upgrade
  deriving DecidableEq, Repr

/-- An event: a call with its first step, or a further step of a thread. -/
inductive Event (T : Type)
  | call (t : T) (op : Op)
  | move (t : T)
  deriving DecidableEq, Repr

/-- **A state of the lock and the waiters.** -/
structure State (T : Type) where
  word : Word T
  next : T → Option T
  tag : T → Tag
  /-- `signal_pending` of a waiter's event. -/
  signalled : T → Bool
  pc : T → Pc T
  /-- History: how often the lock was handed to the waiter since it queued. -/
  made : T → ℕ
  /-- History: how often it was signalled since it queued. -/
  sent : T → ℕ
  /-- History: who queued by a swap of the word in a lock call, the latest first. -/
  pushed : List T

/-- `lw_rwlock_init`, with no thread inside. -/
def init (T : Type) (unfair : Bool) : State T where
  word := ⟨unfair, false, 0, none⟩
  next := fun _ => none
  tag := fun _ => .shared
  signalled := fun _ => false
  pc := fun _ => .idle
  made := fun _ => 0
  sent := fun _ => 0
  pushed := []

/-! ## The word -/

/-- **Whether a lock request is granted** without waiting. -/
def Word.grants (w : Word T) (excl : Bool) : Bool :=
  if excl then !w.locked && w.waitq.isNone
  else !w.wlocked && (w.waitq.isNone || w.unfair)

/-- The word with one holder more. -/
def Word.take (w : Word T) (excl : Bool) : Word T :=
  if excl then { w with wlocked := true }
  else { w with readers := (w.readers + 1) % readersSize }

/-- **The word with one holder less.** -/
def Word.release (w : Word T) (excl : Bool) : Word T :=
  if excl then { w with wlocked := false }
  else { w with readers := (w.readers + (readersSize - 1)) % readersSize }

/-- What is handed over: the shared lock to a run of readers, or the exclusive lock. -/
def handOver (tag : T → Tag) (new : Word T) (waiter : Option T) (count : ℕ) : Word T :=
  if waiter.map tag = some Tag.shared then { new with readers := count % readersSize }
  else { new with wlocked := true }

/-- The word with the readers of the queue counted, one of them for the thread. -/
def Word.letIn (w : Word T) (count : ℕ) : Word T :=
  { w with readers := (w.readers + (count + (readersSize - 1))) % readersSize }

/-- The tag of a lock request. -/
def Tag.of (excl : Bool) : Tag := if excl then .exclusive else .shared

/-- The point a thread is at once it has the lock. -/
def Pc.holding (excl : Bool) : Pc T := if excl then .writer else .reader

/-- The point after `lw_rwlock_unlock`. -/
def After.pc : After → Pc T
  | .done => .idle
  | .upgrade => .waiting .upgrade
  | .downgrade => .waiting .shared

/-- The waiters on the way from an id. -/
def walk (next : T → Option T) : Option T → ℕ → List T
  | some a, n + 1 => a :: walk next (next a) n
  | _, _ => []

variable [DecidableEq T]

namespace State

/-- Move a thread to a program point. -/
def goto (s : State T) (t : T) (pc : Pc T) : State T :=
  { s with pc := Function.update s.pc t pc }

/-- Write a `next`. -/
def setNext (s : State T) (t : T) (v : Option T) : State T :=
  { s with next := Function.update s.next t v }

/-- Write a tag. -/
def setTag (s : State T) (t : T) (tag : Tag) : State T :=
  { s with tag := Function.update s.tag t tag }

/-- A thread is in the queue: its history begins. -/
def enqueue (s : State T) (t : T) : State T :=
  { s with made := Function.update s.made t 0, sent := Function.update s.sent t 0 }

/-- The lock is handed to waiters. -/
def make (s : State T) (ts : List T) : State T :=
  { s with made := fun c => if c ∈ ts then s.made c + 1 else s.made c }

end State

/-! ## Locking -/

/-- **A round of `lw_rwlock_lock_contention`** up to its swap. -/
def lockContention (s : State T) (t : T) (excl deferred : Bool) : State T :=
  if s.word.grants excl then (s.setNext t none).goto t (.lockSwap excl deferred s.word)
  else ((s.setNext t s.word.waitq).setTag t (Tag.of excl)).goto t (.lockSwap excl deferred s.word)

/-- **The swap of `lw_rwlock_lock_contention`.** -/
def lockSwap (s : State T) (t : T) (excl deferred : Bool) (old : Word T) : State T :=
  if s.word = old then
    if old.grants excl then { s with word := old.take excl }.goto t (.holding excl)
    else
      ({ s with word := { old with waitq := some t }, pushed := t :: s.pushed }.enqueue t).goto t
        (if deferred then .queued excl else .waiting (Tag.of excl))
  else lockContention s t excl deferred

/-- **`lw_rwlock_lock`** up to `lw_rwlock_lock_contention`. -/
def lock (s : State T) (t : T) (excl : Bool) (mode : Mode) : State T :=
  if s.word.grants excl then { s with word := s.word.take excl }.goto t (.holding excl)
  else match mode with
    | .noWait => s
    | .waitInline => s.goto t (.lockContention excl false)
    | .waitDeferred => s.goto t (.lockContention excl true)

/-- The end of `lw_waiter_wait`. -/
def wait (s : State T) (t : T) (tag : Tag) : State T :=
  { s with signalled := Function.update s.signalled t false }.goto t
    (if tag = Tag.shared then .reader else .writer)

/-! ## Unlocking -/

/-- **A round of `lw_rwlock_unlock`.** -/
def unlock (s : State T) (t : T) (excl : Bool) (k : After) : State T :=
  let new := s.word.release excl
  if new.locked = false ∧ new.waitq ≠ none then s.goto t (.unlockContention excl k)
  else { s with word := new }.goto t k.pc

/-- **`lw_rwlock_unlock_contention`** up to the functions it calls. -/
def unlockContention (s : State T) (t : T) (excl : Bool) (k : After) : State T :=
  if s.word.unfair ∧ excl = false then s.goto t (.upgradeOrRelease k)
  else if s.word.unfair = false then s.goto t (.fairStart excl k)
  else s.goto t (.unfairStart k)

/-- **`try_rwlock_upgrade_or_release`.** -/
def upgradeOrRelease (s : State T) (t : T) (k : After) : State T :=
  let new := s.word.release false
  if new.readers = 0 then { s with word := { new with wlocked := true } }.goto t (.fairStart true k)
  else { s with word := new }.goto t k.pc

/-- **A round of `lw_rwlock_unlock_fair_contention`** up to its walk or its swap. -/
def fairLoop (s : State T) (t : T) (excl : Bool) (k : After) (f : Fair T) : State T :=
  let new := s.word.release excl
  if new.locked then s.goto t (.fairSwap excl k s.word new { f with list := none })
  else if f.kept then
    s.goto t (.fairSwap excl k s.word (handOver s.tag new f.waiter f.count) f)
  else match new.waitq with
    | none => s.goto t .aborted
    | some w => s.goto t (.fairScan excl k s.word w none 1)

/-- **A step of its walk.** -/
def fairScan (s : State T) (t : T) (excl : Bool) (k : After) (old : Word T) (waiter : T)
    (link : Option T) (count : ℕ) : State T :=
  match s.next waiter with
  | some n =>
    if s.tag waiter ≠ .shared ∨ s.tag n ≠ .shared then
      s.goto t (.fairScan excl k old n (some waiter) 1)
    else s.goto t (.fairScan excl k old n link (count + 1))
  | none => match link with
    | none =>
      s.goto t (.fairSwap excl k old
        (handOver s.tag { old.release excl with waitq := none } (some waiter) count)
        ⟨some waiter, count, old.waitq, false⟩)
    | some c => s.goto t (.fairTake excl k old waiter c count)

/-- **The cut**, inside of a waiter. -/
def fairCut (s : State T) (t : T) (excl : Bool) (k : After) (old : Word T) (waiter link : T)
    (count : ℕ) (list : Option T) : State T :=
  (s.setNext link none).goto t (.fairSwap excl k old
    (handOver s.tag (old.release excl) (some waiter) count) ⟨some waiter, count, list, true⟩)

/-- **The swap of `lw_rwlock_unlock_fair_contention`.** -/
def fairSwap (s : State T) (t : T) (excl : Bool) (k : After) (old new : Word T) (f : Fair T) :
    State T :=
  if s.word = old then
    if f.list = none then { s with word := new }.goto t (.wakeAll k none)
    else if new.wlocked then
      match f.waiter with
      | none => s.goto t .aborted
      | some w => ({ s with word := new }.make [w]).goto t (.wakeSignal k w none)
    else ({ s with word := new }.make (walk s.next f.list f.count)).goto t (.wakeAll k f.list)
  else fairLoop s t excl k f

/-- **`lw_waiter_wake_all`** at an id. -/
def wakeAll (s : State T) (t : T) (k : After) (id : Option T) : State T :=
  match id with
  | none => s.goto t k.pc
  | some w => s.goto t (.wakeClear k w (s.next w))

/-- **A signal.** -/
def wakeSignal (s : State T) (t : T) (k : After) (waiter : T) (id : Option T) : State T :=
  { s with
    signalled := Function.update s.signalled waiter true
    sent := Function.update s.sent waiter (s.sent waiter + 1) }.goto t (.wakeAll k id)

/-! ## Unlocking an unfair lock -/

/-- The read of the word in `lw_rwlock_unlock_unfair_contention`. -/
def unfairStart (s : State T) (t : T) (k : After) : State T :=
  match s.word.waitq with
  | none => s.goto t .aborted
  | some w => s.goto t (.unfairScan k w)

/-- **A step to the oldest waiter.** -/
def unfairScan (s : State T) (t : T) (k : After) (waiter : T) : State T :=
  match s.next waiter with
  | some n => s.goto t (.unfairScan k n)
  | none => if s.tag waiter ≠ .shared then s.goto t (.fairStart true k)
    else s.goto t (.downgradeList k)

/-- **`lw_rwlock_downgrade_and_ret_wait_list`.** -/
def downgradeList (s : State T) (t : T) (k : After) : State T :=
  { s with word := { s.word with readers := 1, wlocked := false, waitq := none } }.goto t
    (.separate k ⟨none, 0, none, none⟩ s.word.waitq)

/-- **A round of `lw_rwlock_unlock_unfair_contention`** up to its swap or the insertion
of the writers. -/
def unfairLoop (s : State T) (t : T) (k : After) (u : Unfair T) : State T :=
  let new := s.word.letIn u.count
  if u.writers = none then s.goto t (.unfairSwap k u s.word new)
  else match s.word.waitq with
    | none => s.goto t (.unfairSwap k u s.word { new with waitq := u.writers })
    | some c => s.goto t (.reinsert k u s.word c)

/-- The loop that sorts the queue, at a waiter or at the end. -/
def separate (s : State T) (t : T) (k : After) (u : Unfair T) (list : Option T) : State T :=
  match list with
  | none => unfairLoop s t k u
  | some w => s.goto t (.separateClear k u w (s.next w))

/-- **A waiter is sorted**: the first writer needs no further write. -/
def separateClear (s : State T) (t : T) (k : After) (u : Unfair T) (waiter : T)
    (list : Option T) : State T :=
  if s.tag waiter = .shared then (s.setNext waiter none).goto t (.separateReader k u waiter list)
  else if u.oldest = none then
    (s.setNext waiter none).goto t
      (.separate k { u with writers := some waiter, oldest := some waiter } list)
  else (s.setNext waiter none).goto t (.separateWriter k u waiter list)

/-- A reader comes to the head of the readers. -/
def separateReader (s : State T) (t : T) (k : After) (u : Unfair T) (waiter : T)
    (list : Option T) : State T :=
  (s.setNext waiter u.readers).goto t
    (.separate k { u with readers := some waiter, count := u.count + 1 } list)

/-- A writer comes behind the oldest one. -/
def separateWriter (s : State T) (t : T) (k : After) (u : Unfair T) (waiter : T)
    (list : Option T) : State T :=
  match u.oldest with
  | none => s.goto t .aborted
  | some o => (s.setNext o (some waiter)).goto t (.separate k { u with oldest := some waiter } list)

/-- **A step of `lw_rwlock_unlock_unfair_reinsert_waiters`.** -/
def reinsert (s : State T) (t : T) (k : After) (u : Unfair T) (old : Word T) (curr : T) :
    State T :=
  match s.next curr with
  | some n =>
    if s.tag n = .upgrade then s.goto t (.reinsertVerify k u old curr n)
    else s.goto t (.reinsert k u old n)
  | none =>
    if s.tag curr = .upgrade then
      if old.waitq = some curr then s.goto t (.reinsertHead k u old curr) else s.goto t .aborted
    else s.goto t (.reinsertLast k u old curr)

/-- `lw_verify` on the waiter for an upgrade. -/
def reinsertVerify (s : State T) (t : T) (k : After) (u : Unfair T) (old : Word T)
    (curr next : T) : State T :=
  if s.next next = none then s.goto t (.reinsertOldest k u old curr next) else s.goto t .aborted

/-- After the insertion the writers are forgotten, unless the word has them. -/
def Unfair.settle (u : Unfair T) (new : Word T) : Unfair T :=
  if new.waitq ≠ u.writers then { u with writers := none } else u

/-- The write to the oldest writer. -/
def reinsertOldest (s : State T) (t : T) (k : After) (u : Unfair T) (old : Word T)
    (curr next : T) : State T :=
  match u.oldest with
  | none => s.goto t .aborted
  | some o => (s.setNext o (some next)).goto t (.reinsertCurr k u old curr)

/-- The write to the waiter before the one for an upgrade. -/
def reinsertCurr (s : State T) (t : T) (k : After) (u : Unfair T) (old : Word T) (curr : T) :
    State T :=
  let new := old.letIn u.count
  (s.setNext curr u.writers).goto t (.unfairSwap k (u.settle new) old new)

/-- The writers come before a waiter for an upgrade that is alone. -/
def reinsertHead (s : State T) (t : T) (k : After) (u : Unfair T) (old : Word T) (curr : T) :
    State T :=
  let new := { old.letIn u.count with waitq := u.writers }
  match u.oldest with
  | none => s.goto t .aborted
  | some o => (s.setNext o (some curr)).goto t (.unfairSwap k (u.settle new) old new)

/-- **The writers come behind the last waiter**, if nobody was faster. -/
def reinsertLast (s : State T) (t : T) (k : After) (u : Unfair T) (old : Word T) (curr : T) :
    State T :=
  let new := old.letIn u.count
  match s.next curr with
  | none => (s.setNext curr u.writers).goto t (.unfairSwap k (u.settle new) old new)
  | some n => s.goto t (.reinsertOldest k u old curr n)

/-- **The swap of `lw_rwlock_unlock_unfair_contention`.** -/
def unfairSwap (s : State T) (t : T) (k : After) (u : Unfair T) (old new : Word T) : State T :=
  if s.word = old then
    ({ s with word := new }.make (walk s.next u.readers u.count)).goto t (.wakeAll k u.readers)
  else unfairLoop s t k u

/-! ## Converting -/

/-- **`lw_rwlock_downgrade`** up to its walk. -/
def downgrade (s : State T) (t : T) : State T :=
  match s.word.waitq with
  | some w => s.goto t (.downgradeScan w)
  | none => { s with word := { s.word with wlocked := false, readers := 1 } }.goto t .reader

/-- A step to the oldest waiter. -/
def downgradeScan (s : State T) (t : T) (waiter : T) : State T :=
  match s.next waiter with
  | some n => s.goto t (.downgradeScan n)
  | none => s.goto t (.downgradeLink waiter)

/-- **The thread comes behind the oldest waiter** and unlocks. -/
def downgradeLink (s : State T) (t : T) (waiter : T) : State T :=
  if s.next t = none then
    ((s.setNext waiter (some t)).setTag t .shared).enqueue t |>.goto t (.unlock true .downgrade)
  else s.goto t .aborted

/-- **`lw_rwlock_upgrade`** up to `lw_rwlock_insert_for_upgrade`. -/
def upgrade (s : State T) (t : T) : State T :=
  if s.word.waitq ≠ none then (s.setTag t .upgrade).goto t .upgradeStart
  else if s.word.readers = 1 then
    { s with word := { s.word with wlocked := true, readers := 0 } }.goto t .writer
  else
    ({ s.setTag t .upgrade with
      word := { s.word.release false with waitq := some t } }.enqueue t).goto t (.waiting .upgrade)

/-- The read of the word in `lw_rwlock_insert_for_upgrade`. -/
def upgradeStart (s : State T) (t : T) : State T :=
  match s.word.waitq with
  | none => s.goto t .aborted
  | some w => s.goto t (.upgradeScan w)

/-- **A step to the oldest waiter**; with another one for an upgrade the call returns
`EPERM`. -/
def upgradeScan (s : State T) (t : T) (waiter : T) : State T :=
  match s.next waiter with
  | some n => s.goto t (.upgradeScan n)
  | none => if s.tag waiter = .upgrade then s.goto t .reader else s.goto t (.upgradeSwap waiter)

/-- **The thread comes behind the oldest waiter**, if nobody was faster. -/
def upgradeSwap (s : State T) (t : T) (waiter : T) : State T :=
  match s.next waiter with
  | none => ((s.setNext waiter (some t)).enqueue t).goto t (.unlock false .upgrade)
  | some n => if s.tag n = .upgrade then s.goto t .reader else s.goto t .upgradeStart

/-! ## The machine -/

/-- **A call with its first step.** -/
def call (s : State T) (t : T) (op : Op) : Option (State T) :=
  match s.pc t, op with
  | .idle, .lock excl mode => some (lock s t excl mode)
  | .queued excl, .contentionWait => some (s.goto t (.waiting (Tag.of excl)))
  | .reader, .unlock => some (unlock s t false .done)
  | .writer, .unlock => some (unlock s t true .done)
  | .writer, .downgrade => some (downgrade s t)
  | .reader, .upgrade => some (upgrade s t)
  | _, _ => none

/-- **A further step of a thread.** -/
def move (s : State T) (t : T) : Option (State T) :=
  match s.pc t with
  | .idle | .reader | .writer | .queued _ | .aborted => none
  | .lockContention excl deferred => some (lockContention s t excl deferred)
  | .lockSwap excl deferred old => some (lockSwap s t excl deferred old)
  | .waiting tag => if s.signalled t then some (wait s t tag) else none
  | .unlock excl k => some (unlock s t excl k)
  | .unlockContention excl k => some (unlockContention s t excl k)
  | .upgradeOrRelease k => some (upgradeOrRelease s t k)
  | .fairStart excl k => some (fairLoop s t excl k ⟨none, 0, none, false⟩)
  | .fairScan excl k old w link count => some (fairScan s t excl k old w link count)
  | .fairTake excl k old w link count =>
    some (s.goto t (.fairCut excl k old w link count (s.next link)))
  | .fairCut excl k old w link count list => some (fairCut s t excl k old w link count list)
  | .fairSwap excl k old new f => some (fairSwap s t excl k old new f)
  | .wakeAll k id => some (wakeAll s t k id)
  | .wakeClear k w id => some ((s.setNext w none).goto t (.wakeSignal k w id))
  | .wakeSignal k w id => some (wakeSignal s t k w id)
  | .unfairStart k => some (unfairStart s t k)
  | .unfairScan k w => some (unfairScan s t k w)
  | .downgradeList k => some (downgradeList s t k)
  | .separate k u list => some (separate s t k u list)
  | .separateClear k u w list => some (separateClear s t k u w list)
  | .separateReader k u w list => some (separateReader s t k u w list)
  | .separateWriter k u w list => some (separateWriter s t k u w list)
  | .reinsert k u old c => some (reinsert s t k u old c)
  | .reinsertVerify k u old c n => some (reinsertVerify s t k u old c n)
  | .reinsertOldest k u old c n => some (reinsertOldest s t k u old c n)
  | .reinsertCurr k u old c => some (reinsertCurr s t k u old c)
  | .reinsertHead k u old c => some (reinsertHead s t k u old c)
  | .reinsertLast k u old c => some (reinsertLast s t k u old c)
  | .unfairSwap k u old new => some (unfairSwap s t k u old new)
  | .downgradeScan w => some (downgradeScan s t w)
  | .downgradeLink w => some (downgradeLink s t w)
  | .upgradeStart => some (upgradeStart s t)
  | .upgradeScan w => some (upgradeScan s t w)
  | .upgradeSwap w => some (upgradeSwap s t w)

/-- **The read-write lock as a machine.** -/
def machine (T : Type) [DecidableEq T] (unfair : Bool) : Machine (State T) (Event T) where
  start := fun s => s = init T unfair
  step := fun s e => match e with
    | .call t op => call s t op
    | .move t => move s t

end RwLock
