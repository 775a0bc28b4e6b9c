import Lwlock.Linked
import Lwlock.Machine

/-!
# The condition variable

A condition variable is a queue of waiters, doubly linked through their `next`
and `prev` ids and guarded by `waitq_lock`. A signal takes the first waiter out
of the queue under that lock and wakes it after the lock was dropped; a
broadcast detaches the whole queue under the lock and then walks it without
it, one waiter at a time. A waiter whose wait times out takes the lock and
decides from its own `prev` whether it is still queued: if so it takes itself
out and returns `ETIMEDOUT`, and if not it waits for the signal that is on its
way.

The steps are the sections under `waitq_lock`, the unlocked test of `waitq` at
the entry of a signal or a broadcast, the two halves of an iteration of
`lw_waiter_wake_all` – reading and clearing the links of a waiter, and
signalling it – and the timeout itself. The thread with its waiter is one index;
`none` stands for `LW_WAITER_ID_MAX`. The mutex that is dropped and taken again
around the wait is not modelled, since the condition variable never looks at
it: any thread may wait, signal or broadcast at any time. `lw_verify` in
`lw_thread_event_signal`, which aborts when a signal is already pending, does
not end a run here; how often a waiter was signalled is counted instead.

Three history variables describe the current or last wait of each thread and
are read by no step: the signals it was sent, the signals it consumed, and its
result.
-/

namespace CondVar

variable {ι : Type}

/-- **The program points** of a thread. -/
inductive Pc (ι : Type)
  /-- Outside the condition variable. -/
  | idle
  /-- In `lw_waiter_timedwait`, with or without a timeout. -/
  | waiting (timed : Bool)
  /-- `lw_condvar_timedwait` after a timeout, before it takes `waitq_lock`. -/
  | timedOut
  /-- `lw_waiter_wait` for the signal that came while timing out. -/
  | consume
  /-- `lw_condvar_signal`, before it takes `waitq_lock`. -/
  | signal
  /-- `lw_condvar_signal`, about to wake `w`. -/
  | signalOne (w : ι)
  /-- `lw_condvar_broadcast`, before it takes `waitq_lock`. -/
  | broadcast
  /-- The loop of `lw_waiter_wake_all`. -/
  | wakeAll (id : Option ι)
  /-- The loop of `lw_waiter_wake_all`, about to signal `w`. -/
  | wakeOne (w : ι) (id : Option ι)
  deriving DecidableEq, Repr

/-- The operations of `lw_cond_var.h`. -/
inductive Op
  | wait (timed : Bool)
  | signal
  | broadcast
  deriving DecidableEq, Repr

/-- An event: a call, a step of a thread, or the timeout of a wait. -/
inductive Event (ι : Type)
  | call (t : ι) (op : Op)
  | move (t : ι)
  | timeout (t : ι)
  deriving DecidableEq, Repr

/-- **A state of the condition variable, the waiters and their threads.** -/
structure State (ι : Type) where
  waitq : Option ι
  next : ι → Option ι
  prev : ι → Option ι
  /-- `signal_pending` of a waiter's event. -/
  pending : ι → Bool
  pc : ι → Pc ι
  /-- History: signals sent to the waiter since its wait began. -/
  sent : ι → ℕ
  /-- History: signals the wait consumed. -/
  consumed : ι → ℕ
  /-- History: the result of the last wait, `true` for `0` and `false` for
  `ETIMEDOUT`. -/
  result : ι → Option Bool

/-- `lw_condvar_init`, with no thread inside. -/
def init : State ι where
  waitq := none
  next := fun _ => none
  prev := fun _ => none
  pending := fun _ => false
  pc := fun _ => .idle
  sent := fun _ => 0
  consumed := fun _ => 0
  result := fun _ => none

variable [DecidableEq ι]

namespace State

/-- Move a thread to a program point. -/
def goto (s : State ι) (t : ι) (pc : Pc ι) : State ι :=
  { s with pc := Function.update s.pc t pc }

/-- **`lw_waiter_remove_from_id_list`.** -/
def removeFromIdList (s : State ι) (w : ι) : State ι :=
  { s with next := unlinkNext s.next s.prev w, prev := unlinkPrev s.next s.prev w }

/-- `lw_event_signal` on the event of a waiter. -/
def wakeup (s : State ι) (w : ι) : State ι :=
  { s with
    pending := Function.update s.pending w true
    sent := Function.update s.sent w (s.sent w + 1) }

/-- The wait of a thread returns `0` with the signal it consumed. -/
def woken (s : State ι) (t : ι) : Option (State ι) :=
  if s.pending t then
    some ({ s with
      pending := Function.update s.pending t false
      consumed := Function.update s.consumed t (s.consumed t + 1)
      result := Function.update s.result t (some true) }.goto t .idle)
  else none

end State

/-- The loop that gets to the last waiter. -/
def lastWaiter (next : ι → Option ι) : ℕ → ι → Option ι
  | 0, _ => none
  | n + 1, w => match next w with
    | none => some w
    | some x => lastWaiter next n x

/-- **The first section of `lw_condvar_timedwait`**: the waiter is linked behind
the last one. -/
def enqueue [Fintype ι] (s : State ι) (t : ι) : Option (State ι) :=
  match s.waitq with
  | none => some { s with waitq := some t, prev := Function.update s.prev t none }
  | some w => (lastWaiter s.next (Fintype.card ι) w).map fun last =>
    { s with
      next := Function.update s.next last (some t)
      prev := Function.update s.prev t (some last) }

/-- **The section of a timed-out waiter.** -/
def afterTimeout (s : State ι) (t : ι) : State ι :=
  if s.prev t = none ∧ s.waitq ≠ some t then s.goto t .consume
  else
    { ({ s with waitq := if s.waitq = some t then s.next t else s.waitq }).removeFromIdList t with
      result := Function.update s.result t (some false) }.goto t .idle

/-- A thread outside calls an operation. -/
def call [Fintype ι] (s : State ι) (t : ι) (op : Op) : Option (State ι) :=
  match s.pc t, op with
  | .idle, .wait timed => (enqueue s t).map fun s =>
    { s with
      sent := Function.update s.sent t 0
      consumed := Function.update s.consumed t 0
      result := Function.update s.result t none }.goto t (.waiting timed)
  | .idle, .signal => if s.waitq = none then some s else some (s.goto t .signal)
  | .idle, .broadcast => if s.waitq = none then some s else some (s.goto t .broadcast)
  | _, _ => none

/-- **One step of a thread.** -/
def move (s : State ι) (t : ι) : Option (State ι) :=
  match s.pc t with
  | .idle => none
  | .waiting _ => s.woken t
  | .timedOut => some (afterTimeout s t)
  | .consume => s.woken t
  | .signal => match s.waitq with
    | none => some (s.goto t .idle)
    | some w => some (({ s with waitq := s.next w }.removeFromIdList w).goto t (.signalOne w))
  | .signalOne w => some ((s.wakeup w).goto t .idle)
  | .broadcast => some ({ s with waitq := none }.goto t (.wakeAll s.waitq))
  | .wakeAll none => some (s.goto t .idle)
  | .wakeAll (some w) => some ({ s with
      next := Function.update s.next w none
      prev := Function.update s.prev w none }.goto t (.wakeOne w (s.next w)))
  | .wakeOne w id => some ((s.wakeup w).goto t (.wakeAll id))

/-- A wait times out, unless its signal is already there. -/
def timeout (s : State ι) (t : ι) : Option (State ι) :=
  if s.pc t = .waiting true ∧ s.pending t = false then some (s.goto t .timedOut) else none

/-- **The condition variable as a machine.** -/
def machine (ι : Type) [DecidableEq ι] [Fintype ι] : Machine (State ι) (Event ι) where
  start := fun s => s = init
  step := fun s e => match e with
    | .call t op => call s t op
    | .move t => move s t
    | .timeout t => timeout s t

/-! ## What is to hold -/

/-- The waiter a broadcast goes to next. -/
def Pc.nextUp : Pc ι → Option ι
  | .wakeAll id => id
  | .wakeOne _ id => id
  | _ => none

/-- The waiter a thread is about to signal. -/
def Pc.aim : Pc ι → Option ι
  | .signalOne w => some w
  | .wakeOne w _ => some w
  | _ => none

/-- The heads of the lists: the queue, and the rest of each broadcast. -/
def State.Head (s : State ι) (a : ι) : Prop :=
  s.waitq = some a ∨ ∃ u, (s.pc u).nextUp = some a

/-- A waiter is on a list: it is reached from a head through `next`. -/
def State.Listed (s : State ι) (t : ι) : Prop :=
  ∃ a, s.Head a ∧ Relation.ReflTransGen (fun x y => s.next x = some y) a t

/-- **Signals are consumed exactly once.** -/
structure State.Exact (s : State ι) : Prop where
  /-- A wait that returned `0` was sent one signal and consumed it. -/
  woken : ∀ t, s.result t = some true → s.sent t = 1 ∧ s.consumed t = 1
  /-- A wait that returned `ETIMEDOUT` is on no list, and nobody has signalled it
  or is about to. -/
  expired : ∀ t, s.result t = some false →
    s.sent t = 0 ∧ s.pending t = false ∧ ¬ s.Listed t ∧ s.next t = none ∧ s.prev t = none
      ∧ ∀ u, (s.pc u).aim ≠ some t
  /-- No waiter is signalled twice for one wait. -/
  once : ∀ t, s.sent t ≤ 1
  /-- Nobody is about to signal a waiter whose signal is still pending. -/
  fresh : ∀ u t, (s.pc u).aim = some t → s.sent t = 0 ∧ s.pending t = false

/-- **The guard**: a timed-out waiter does not run its section while it is the
next one of a broadcast that has already passed another waiter. -/
def Orderly (s : State ι) (e : Event ι) (_ : State ι) : Prop :=
  match e with
  | .move t => s.pc t = .timedOut → ∀ u, (s.pc u).nextUp = some t → s.prev t = none
  | _ => True

instance [Fintype ι] (s : State ι) (e : Event ι) (s' : State ι) : Decidable (Orderly s e s') :=
  match e with
  | .move t => inferInstanceAs
    (Decidable (s.pc t = .timedOut → ∀ u, (s.pc u).nextUp = some t → s.prev t = none))
  | .call _ _ | .timeout _ => inferInstanceAs (Decidable True)

end CondVar
