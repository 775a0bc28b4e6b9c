import Lwlock.Machine

/-!
# Monitors

A monitor is a lock for an arbitrary pointer. A pointer hashes to a fixed slot
of an array of monitors; when that slot is in use for another pointer, a
monitor is taken from the float, tied to the pointer and linked into the chain
that starts at the slot. A float monitor goes back to the pool when its last
user unlocks it. A slot that is tied to another pointer but unused is taken
over, and that is where two monitors for one pointer can exist at once: the
thread that took the slot over then has to absorb the copy in the chain, with
everybody who waits on it, before it may return.

The lock of a monitor is a 64-bit bitlock. It is taken here as what it is
specified to be, a first-in first-out mutex with a condition bit: a holder, and
a queue of waiters each of which waits for the lock or for the condition.
A section under the `next` lock of a chain head is one step, as is the
compare-and-swap of `lw_monitor_grab_if_unused`. A hand-over and the wake-up of
the new owner are one step; the new owner goes on in a step of its own. The lock
bits of the `next` words are not kept, since no step ends inside a section;
that the fast path of `lw_monitor_lock` may read a `next` word whose lock bit
is set is the choice `busy` of the step. A failed `lw_verify` leaves the thread
at `aborted`; `lw_assert` is compiled out. An empty pool stops the thread that
needs a monitor.
-/

namespace Monitor

variable {T P M : Type}

/-! ## The bitlock of a monitor -/

/-- What a queued thread waits for. -/
inductive Kind
  | lock
  | cv
  deriving DecidableEq, Repr

/-- **A bitlock**: its holder, and its waiters in the order of the wait list. -/
structure Bitlock (T : Type) where
  holder : Option T
  queue : List (T × Kind)
  deriving DecidableEq, Repr

/-- Whether an entry of the queue waits for the lock. -/
def forLock (e : T × Kind) : Bool := decide (e.2 = .lock)

/-- `lw_bitlock64_cv_signal` on the queue: the first condition waiter becomes a
lock waiter where it stands. -/
def signalFirst : List (T × Kind) → List (T × Kind)
  | [] => []
  | (u, .cv) :: q => (u, .lock) :: q
  | (u, .lock) :: q => (u, .lock) :: signalFirst q

namespace Bitlock

/-- The wait bit. -/
def waitBit (b : Bitlock T) : Bool := b.queue.any forLock

/-- The condition bit. -/
def cvBit (b : Bitlock T) : Bool := b.queue.any fun e => !forLock e

/-- `lw_bitlock64_unlock_return_waiter`: the first lock waiter, if any, is the
new holder. -/
def unlockReturnWaiter (b : Bitlock T) : Bitlock T × Option T :=
  match b.queue.find? forLock with
  | none => (⟨none, b.queue⟩, none)
  | some e => (⟨some e.1, b.queue.eraseP forLock⟩, some e.1)

end Bitlock

/-! ## The state and the steps -/

/-- **The program points** of a thread. -/
inductive Pc (P M : Type)
  /-- Outside; the thread may own monitors. -/
  | idle
  /-- `lw_monitor_lock` at `top`. -/
  | lockGrab (p : P)
  /-- `lw_monitor_lock` with the slot, before it reads the `next` word. -/
  | lockFast (p : P)
  /-- `lw_monitor_lock` before the section on the chain, with or without the
  slot. -/
  | lockSection (p : P) (got : Bool)
  /-- `lw_monitor_lock` with the slot, waiting for the copy it took out. -/
  | absorbWait (p : P) (m : M)
  /-- `lw_monitor_lock` with the slot and the copy, before
  `monitor_move_users`. -/
  | absorbMove (p : P) (m : M)
  /-- `lw_monitor_lock` with the slot and the copy, before
  `lw_monitor_release`. -/
  | absorbRelease (p : P) (m : M)
  /-- `lw_monitor_lock`, waiting for a monitor of its pointer. -/
  | waitLock (p : P) (m : M)
  /-- `lw_monitor_unlock` after it gave the lock of a float monitor up. -/
  | unlockSection (p : P) (m : M)
  /-- `lw_monitor_unlock`, before `lw_monitor_release`. -/
  | unlockRelease (m : M)
  /-- `lw_monitor_wait`. -/
  | cvWaiting (p : P)
  /-- A `lw_verify` failed. -/
  | aborted
  deriving DecidableEq, Repr

/-- The operations of `lw_monitor.h`; `id` is the monitor the caller was given
for the pointer. -/
inductive Op (P M : Type)
  | lock (p : P)
  | unlock (p : P) (id : M)
  | wait (p : P) (id : M)
  | signal (p : P) (id : M)
  | broadcast (p : P) (id : M)
  deriving DecidableEq, Repr

/-- An event: a call, or a step of a thread, which may find a section in
progress. -/
inductive Event (T P M : Type)
  | call (t : T) (op : Op P M)
  | move (t : T) (busy : Bool)
  deriving DecidableEq, Repr

/-- **A state of the monitors and their threads.** -/
structure State (T P M : Type) where
  /-- `ptrlock.ptr61`. -/
  ptr : M → Option P
  /-- `next.ptr61`. -/
  next : M → Option M
  /-- The lock bits of `ptrlock` and their wait list. -/
  lock : M → Bitlock T
  /-- `free_monitors`. -/
  free : List M
  /-- `event.wait_src` of a thread's waiter. -/
  src : T → Option M
  /-- Whether a thread's waiter was signalled. -/
  woken : T → Bool
  pc : T → Pc P M
  /-- The monitors a thread was given and has not given back, with the pointer it
  was given each for. -/
  own : T → M → Option P

/-- The array of monitors: the slot of each pointer, and which monitors are
slots. -/
structure Config (P M : Type) where
  hash : P → M
  fixed : M → Bool
  hash_fixed : ∀ p, fixed (hash p) = true

/-- `lw_monitor_module_init`: every monitor is unused, and the pool holds the
float in some order. -/
structure Start (cfg : Config P M) (s : State T P M) : Prop where
  ptr : ∀ m, s.ptr m = none
  next : ∀ m, s.next m = none
  lock : ∀ m, s.lock m = ⟨none, []⟩
  mem_free : ∀ m, m ∈ s.free ↔ cfg.fixed m = false
  nodup_free : s.free.Nodup
  src : ∀ t, s.src t = none
  woken : ∀ t, s.woken t = false
  pc : ∀ t, s.pc t = .idle
  own : ∀ t m, s.own t m = none

variable [DecidableEq T] [DecidableEq P] [DecidableEq M]

namespace State

/-- Move a thread to a program point. -/
def goto (s : State T P M) (t : T) (pc : Pc P M) : State T P M :=
  { s with pc := Function.update s.pc t pc }

/-- Replace the bitlock of a monitor. -/
def setLock (s : State T P M) (m : M) (b : Bitlock T) : State T P M :=
  { s with lock := Function.update s.lock m b }

/-- Record that a thread owns a monitor for a pointer, or no longer does. -/
def setOwn (s : State T P M) (t : T) (m : M) (o : Option P) : State T P M :=
  { s with own := fun u x => if u = t ∧ x = m then o else s.own u x }

/-- `lw_monitor_lock` or `lw_monitor_wait` returns the id of a monitor. -/
def grant (s : State T P M) (t : T) (p : P) (m : M) : State T P M :=
  (s.setOwn t m (some p)).goto t .idle

/-- A thread is signalled and its wait source is left to it. -/
def wake (s : State T P M) : Option T → State T P M
  | none => s
  | some u => { s with woken := Function.update s.woken u true }

/-- The thread stops waiting: `lw_waiter_clear_src`. -/
def clearSrc (s : State T P M) (t : T) : State T P M :=
  { s with src := Function.update s.src t none, woken := Function.update s.woken t false }

/-- The lock of a monitor is given up, or handed over. -/
def handOff (s : State T P M) (m : M) : State T P M :=
  (s.setLock m (s.lock m).unlockReturnWaiter.1).wake (s.lock m).unlockReturnWaiter.2

/-- A thread is queued on a monitor. -/
def enqueue (s : State T P M) (t : T) (m : M) (k : Kind) : State T P M :=
  { s.setLock m { s.lock m with queue := (s.lock m).queue ++ [(t, k)] } with
    src := Function.update s.src t (some m)
    woken := Function.update s.woken t false }

/-- A thread has the lock of a monitor. -/
def take (s : State T P M) (t : T) (m : M) : State T P M :=
  s.setLock m { s.lock m with holder := some t }

/-- **`lw_monitor_release`** with the checks of `lw_monitor_destroy`; `none` when
one of them fails. -/
def release (s : State T P M) (m : M) : Option (State T P M) :=
  let s := { s with ptr := Function.update s.ptr m none }.handOff m
  if (s.lock m).cvBit || (s.next m).isSome || (s.lock m).holder.isSome || (s.lock m).waitBit then
    none
  else some { s with free := m :: s.free }

/-- **`lw_monitor_alloc`**, with the monitor locked by `t` for `p`. -/
def alloc (s : State T P M) (t : T) (p : P) : Option (State T P M × M) :=
  match s.free with
  | [] => none
  | a :: free => some ({ s with
      free := free
      next := Function.update s.next a none
      ptr := Function.update s.ptr a (some p)
      lock := Function.update s.lock a ⟨some t, []⟩ }, a)

end State

/-- **`find_monitor_for_ptr`** from `m` on: the monitor found, if any, and the one
before it – the last one if none was found. -/
def findMonitorForPtr (s : State T P M) (p : P) : ℕ → M → Option M → Option (Option M × M)
  | 0, _, _ => none
  | _ + 1, prev, none => some (none, prev)
  | n + 1, prev, some m =>
    if s.ptr m = some p then some (some m, prev) else findMonitorForPtr s p n m (s.next m)

/-- The search that skips the head of the chain. -/
def findInChain [Fintype M] (cfg : Config P M) (s : State T P M) (p : P) :
    Option (Option M × M) :=
  findMonitorForPtr s p (Fintype.card M + 1) (cfg.hash p) (s.next (cfg.hash p))

/-- The search that begins at the head of the chain. -/
def findFromHead [Fintype M] (cfg : Config P M) (s : State T P M) (p : P) :
    Option (Option M × M) :=
  findMonitorForPtr s p (Fintype.card M + 1) (cfg.hash p) (some (cfg.hash p))

/-- `monitor_ptr_lock_async` on a monitor of the caller's pointer, and the wait
for it. -/
def lockFound (s : State T P M) (t : T) (p : P) (m : M) : State T P M :=
  if (s.lock m).holder = none then (s.take t m).grant t p m
  else (s.enqueue t m .lock).goto t (.waitLock p m)

/-- **`lw_monitor_grab_if_unused`.** -/
def grabIfUnused (cfg : Config P M) (s : State T P M) (t : T) (p : P) : State T P M :=
  let h := cfg.hash p
  if ((s.lock h).cvBit = true ∧ s.ptr h ≠ some p) ∨ (s.lock h).holder ≠ none then
    s.goto t (.lockSection p false)
  else ({ s with ptr := Function.update s.ptr h (some p) }.take t h).goto t (.lockFast p)

/-- **The section of a thread that has the slot**: it absorbs a copy, if there is
one. -/
def absorbSection [Fintype M] (cfg : Config P M) (s : State T P M) (t : T) (p : P) :
    Option (State T P M) :=
  match findInChain cfg s p with
  | none => none
  | some (none, _) => some (s.grant t p (cfg.hash p))
  | some (some m, prev) =>
    let s := { s with next := Function.update (Function.update s.next prev (s.next m)) m none }
    if (s.lock m).holder = none then some ((s.take t m).goto t (.absorbMove p m))
    else some ((s.enqueue t m .lock).goto t (.absorbWait p m))

/-- **The section of a thread that did not get the slot.** -/
def searchSection [Fintype M] (cfg : Config P M) (s : State T P M) (t : T) (p : P) :
    Option (State T P M) :=
  if s.ptr (cfg.hash p) = some p then some (lockFound s t p (cfg.hash p))
  else match s.alloc t p with
    | none => none
    | some (s, a) => match findFromHead cfg s p with
      | none => none
      | some (none, last) =>
        some ({ s with next := Function.update s.next last (some a) }.grant t p a)
      | some (some m, _) => match s.release a with
        | none => some (s.goto t .aborted)
        | some s =>
          if m = cfg.hash p then some (s.goto t (.lockGrab p)) else some (lockFound s t p m)

/-- **`monitor_move_users`**: everybody on the copy waits on the slot from now
on. -/
def moveUsers (s : State T P M) (m h : M) : State T P M :=
  { s with
    lock := Function.update (Function.update s.lock h
      { s.lock h with queue := (s.lock h).queue ++ (s.lock m).queue }) m
      { s.lock m with queue := [] }
    src := fun u => if u ∈ (s.lock m).queue.map Prod.fst then some h else s.src u }

/-- Whether the section of `lw_monitor_unlock` takes the monitor out. -/
def frees [Fintype M] (cfg : Config P M) (s : State T P M) (p : P) (m : M) : Bool :=
  match findInChain cfg s p with
  | some (some x, _) => decide (x = m) && (s.lock m).holder.isNone && (s.lock m).queue.isEmpty
  | _ => false

/-- **The section of `lw_monitor_unlock`.** -/
def freeSection [Fintype M] (cfg : Config P M) (s : State T P M) (t : T) (p : P) (m : M) :
    Option (State T P M) :=
  match findInChain cfg s p with
  | none => none
  | some (_, prev) =>
    if frees cfg s p m then
      some ({ s with next := Function.update s.next prev (s.next m) }.goto t (.unlockRelease m))
    else some (s.goto t .idle)

/-- **`lw_monitor_unlock`** up to its section. -/
def unlock (cfg : Config P M) (s : State T P M) (t : T) (p : P) (m : M) : State T P M :=
  let s' := (s.setOwn t m none).handOff m
  if (s.lock m).waitBit || (s.lock m).cvBit || cfg.fixed m then s'
  else s'.goto t (.unlockSection p m)

/-- A thread outside calls an operation; all but a lock need the monitor it was
given. -/
def call (cfg : Config P M) (s : State T P M) (t : T) (op : Op P M) : Option (State T P M) :=
  match s.pc t, op with
  | .idle, .lock p => some (s.goto t (.lockGrab p))
  | .idle, .unlock p m => if s.own t m = some p then some (unlock cfg s t p m) else none
  | .idle, .wait p m =>
    if s.own t m = some p then
      some ((((s.setOwn t m none).handOff m).enqueue t m .cv).goto t (.cvWaiting p))
    else none
  | .idle, .signal p m =>
    if s.own t m = some p then
      some (s.setLock m { s.lock m with queue := signalFirst (s.lock m).queue })
    else none
  | .idle, .broadcast p m =>
    if s.own t m = some p then
      some (s.setLock m
        { s.lock m with queue := (s.lock m).queue.map fun e => (e.1, Kind.lock) })
    else none
  | _, _ => none

/-- **One step of a thread.** -/
def move [Fintype M] (cfg : Config P M) (s : State T P M) (t : T) (busy : Bool) :
    Option (State T P M) :=
  match s.pc t with
  | .idle => none
  | .lockGrab p => some (grabIfUnused cfg s t p)
  | .lockFast p =>
    if s.next (cfg.hash p) = none ∧ busy = false then some (s.grant t p (cfg.hash p))
    else some (s.goto t (.lockSection p true))
  | .lockSection p true => absorbSection cfg s t p
  | .lockSection p false => searchSection cfg s t p
  | .absorbWait p m =>
    if s.woken t then some ((s.clearSrc t).goto t (.absorbMove p m)) else none
  | .absorbMove p m => some ((moveUsers s m (cfg.hash p)).goto t (.absorbRelease p m))
  | .absorbRelease p m => match s.release m with
    | none => some (s.goto t .aborted)
    | some s => some (s.grant t p (cfg.hash p))
  | .waitLock p m => if s.woken t then some ((s.clearSrc t).grant t p m) else none
  | .unlockSection p m => freeSection cfg s t p m
  | .unlockRelease m => match (s.take t m).release m with
    | none => some (s.goto t .aborted)
    | some s => some (s.goto t .idle)
  | .cvWaiting p =>
    if s.woken t then (s.src t).map fun m => (s.clearSrc t).grant t p m else none
  | .aborted => none

/-- **The monitors as a machine.** -/
def machine (T : Type) [DecidableEq T] [Fintype M] (cfg : Config P M) :
    Machine (State T P M) (Event T P M) where
  start := Start cfg
  step := fun s e => match e with
    | .call t op => call cfg s t op
    | .move t busy => move cfg s t busy

end Monitor
