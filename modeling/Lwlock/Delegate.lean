import Lwlock.Machine

/-!
# The delegate

A delegate runs jobs one at a time for many threads. Its state word holds
four bits – `lock`, `incoming`, `pending`, `waiting` – and whatever its user
keeps in the remaining bits. A thread that cannot take the lock pushes its
job on the incoming stack and sets the `incoming` bit; the thread that holds
the lock drains the stack into `queued_jobs`, runs what is queued, and gives
the lock up with one compare-and-swap of the whole word.

The model follows `delegate.c` step by step. What is atomic is a step of its
own: every read, write or compare-and-swap of a shared word, every list
operation under the delegate lock, every invocation of a job. A loop of the
source that only retries a failed compare-and-swap is one step, taken at the
attempt that succeeds, since a failed attempt of it writes nothing; the loop
of `push_incoming` is not of that kind, since it reads the stack twice, and is
kept read by read. `Config.atomicPush` gives the coarser reading in which the
push is a single step.

The link of a job is its `event.iface.link.next`. It belongs to the incoming
stack from the push to the drain; `lw_dl_init_elem` then poisons it, and
while the job is on one of the delegate's own lists the model keeps the list
and not the link. A failed `lw_verify` ends the run: there is no next step.

Two history variables record what happened to each job and are read by no
step: `installs` counts the compare-and-swaps that put it on the stack, and
`moves` how often a drain moved it to `queued_jobs` or ran it as an immediate
request.
-/

namespace Delegate

variable {T J P C D : Type}

/-- `delegate_job_status_t`. -/
inductive Status
  | done | yield | blockAll | blockThis | reload
  deriving DecidableEq, Repr

/-- **The state word**, `delegate_state_t`: the four bits of the delegate, and
the other fields a user of the delegate keeps in the same word. -/
structure Word (P : Type) where
  lock : Bool
  incoming : Bool
  pending : Bool
  waiting : Bool
  other : P
  deriving DecidableEq, Repr

/-- The value of a job's link: `NULL`, the poison of `lw_dl_init_elem`, or
another job. -/
inductive Ptr (J : Type)
  | null
  | bad
  | job (j : J)
  deriving DecidableEq, Repr

/-- A stack top as a link. -/
def Ptr.ofTop : Option J → Ptr J
  | none => .null
  | some j => .job j

/-- The job a link leads to. -/
def Ptr.target : Ptr J → Option J
  | .job j => some j
  | _ => none

/-- The `func` of a job: a function of the user, `delegate_cancel_job` or
`job_to_unblock_another_job` with the job their `arg` names. -/
inductive Func (J : Type)
  | user
  | cancelJob (target : J)
  | unblockJob (target : J)
  deriving DecidableEq, Repr

/-- What a thread does after a compare-and-swap of its own on the word:
return, run the delegate because the swap took the lock, or submit a job. -/
inductive After (J : Type)
  | done
  | runInternal
  | submit (j : J)
  deriving DecidableEq, Repr

/-- **The user of a delegate**: the function of each job, what one invocation
of it does, and the operations that change the word without a job.

`invoke` gives the new value of the other fields, whether the word as the
invocation left it is stored through `updated_state`, and the status. The
argument `C` resolves whatever the function depends on. A direct operation is
`none` when one of its own checks fails. -/
structure Client (J P C D : Type) where
  func : J → Func J
  invoke : J → C → P → P × Bool × Status
  direct : D → Word P → Option (Word P × After J)

/-- Where `drain_incoming` returns to: the loop of `delegate_run_internal`
with its copy of the word, or `delegate_cancel` with the job to cancel and the
name of the request. -/
inductive Caller (J P : Type)
  | run (old : Word P)
  | cancel (target request : J)
  deriving DecidableEq, Repr

/-- **The program points** of a thread. -/
inductive Pc (T J P : Type)
  /-- Outside the delegate. -/
  | idle
  /-- `delegate_submit` with `run_now`, at the loop on the state word. -/
  | submitLoop (j : J)
  /-- `push_incoming`, before the first read of `incoming_stack`. -/
  | pushRead (j : J) (lock : Bool)
  /-- `push_incoming`, before the read that sets `link.next`. -/
  | pushLink (j : J) (lock : Bool) (old : Option J)
  /-- `push_incoming`, before the compare-and-swap that installs the job. -/
  | pushSwap (j : J) (lock : Bool) (old : Option J)
  /-- `push_incoming`, before `delegate_set_bits`. -/
  | setBits (j : J) (lock : Bool)
  /-- The fast path of `delegate_submit`, holding the lock. -/
  | fastEnqueue (j : J)
  /-- Entry of `delegate_run_internal`. -/
  | runStart
  /-- `drain_incoming`, before its test of the incoming bit. -/
  | drainTest (k : Caller J P)
  /-- `drain_incoming`, before the incoming bit is cleared. -/
  | drainClear (k : Caller J P)
  /-- `drain_incoming`, before the stack is exchanged with `NULL`. -/
  | drainTake (k : Caller J P)
  /-- The queueing loop of `drain_incoming`. -/
  | drainLoop (k : Caller J P) (job : Ptr J) (last : Option J) (imm : List J)
  /-- The loop of `drain_incoming` over the immediate requests. -/
  | drainImmediate (k : Caller J P) (imm : List J)
  /-- `run_queued_jobs`, before its test of the head of the queue. -/
  | runQueued (old : Word P)
  /-- The compare-and-swap at the end of the loop of `delegate_run_internal`. -/
  | release (old : Word P)
  /-- `lw_bitlock64_unlock`, when the waiting bit was found set. -/
  | unlock
  /-- The wake-up of the thread the lock was handed to. -/
  | wakeup (u : T)
  /-- `delegate_run`, waiting for the lock. -/
  | waitLock
  /-- `delegate_cancel` with the lock, after its drain. -/
  | cancelRemove (target request : J)
  /-- `delegate_unblock_job` with the lock. -/
  | unblockNow (target : J)
  /-- `lw_event_wait` on the event of a job. -/
  | waitEvent (j : J)
  deriving DecidableEq, Repr

/-- The operations a thread may call. A cancel or an unblock names the job it
submits when the lock is taken. -/
inductive Op (J D : Type)
  | submit (j : J) (runNow : Bool)
  | run (noWait : Bool)
  | cancel (target : J) (wait : Bool) (request : J)
  | unblock (target : J) (request : J)
  | direct (d : D) (waits : Bool)
  deriving DecidableEq, Repr

/-- An event: a thread calls an operation, or takes its next step. -/
inductive Event (T J C D : Type)
  | call (t : T) (op : Op J D)
  | move (t : T) (c : C)
  deriving DecidableEq, Repr

/-- **A state of the delegate and its threads.** -/
structure State (T J P : Type) where
  word : Word P
  /-- `incoming_stack`. -/
  stack : Option J
  /-- `event.iface.link.next` of each job. -/
  link : J → Ptr J
  queued : List J
  blocked : List J
  /-- `job->delegate == delegate`. -/
  owned : J → Bool
  isBlocked : J → Bool
  /-- How often the event of a job was signalled. -/
  signals : J → ℕ
  /-- The result of the cancel request of that name: `0` or `EALREADY`. -/
  cancelled : J → Option Bool
  /-- The waiters of the state word's bitlock, first in line first. -/
  waiters : List T
  /-- Whether the waiter of a thread was signalled. -/
  woken : T → Bool
  pc : T → Pc T J P
  /-- The job whose event the thread waits for when its call returns. -/
  await : T → Option J
  /-- The jobs ever passed to `delegate_submit`. -/
  submitted : J → Bool
  /-- History: compare-and-swaps that installed the job. -/
  installs : J → ℕ
  /-- History: moves to `queued_jobs`, and runs as an immediate request. -/
  moves : J → ℕ

/-- The fixed part of a delegate: its user, the initial value of the other
fields, and whether `push_incoming` is read as one step. -/
structure Config (J P C D : Type) where
  client : Client J P C D
  other₀ : P
  atomicPush : Bool

variable [DecidableEq T] [DecidableEq J] [DecidableEq P]

/-- `delegate_init`, with no thread inside. -/
def init (p : P) : State T J P where
  word := ⟨false, false, false, false, p⟩
  stack := none
  link := fun _ => .bad
  queued := []
  blocked := []
  owned := fun _ => false
  isBlocked := fun _ => false
  signals := fun _ => 0
  cancelled := fun _ => none
  waiters := []
  woken := fun _ => false
  pc := fun _ => .idle
  await := fun _ => none
  submitted := fun _ => false
  installs := fun _ => 0
  moves := fun _ => 0

namespace State

/-- Move a thread to a program point. -/
def goto (s : State T J P) (t : T) (pc : Pc T J P) : State T J P :=
  { s with pc := Function.update s.pc t pc }

/-- The call of a thread returns: a caller that waits for an event goes on to
wait for it. -/
def ret (s : State T J P) (t : T) : State T J P :=
  match s.await t with
  | none => s.goto t .idle
  | some j => s.goto t (.waitEvent j)

/-- `lw_event_signal` on the event of a job. -/
def signal (s : State T J P) (j : J) : State T J P :=
  { s with signals := Function.update s.signals j (s.signals j + 1) }

/-- `job_still_with_delegate`: the list the job would be on. -/
def stillWith (s : State T J P) (j : J) : Bool :=
  s.owned j && (if s.isBlocked j then decide (j ∈ s.blocked) else decide (j ∈ s.queued))

/-- The removal of `job_still_with_delegate` from that list. -/
def dropJob (s : State T J P) (j : J) : State T J P :=
  if s.isBlocked j then { s with blocked := s.blocked.erase j }
  else { s with queued := s.queued.erase j }

/-- **`delegate_cancel_job`**, as run for the request `r`; `delegate_cancel`
does the same when it holds the lock itself. -/
def delegateCancelJob (s : State T J P) (r target : J) : State T J P :=
  if s.stillWith target then
    { s.dropJob target with cancelled := Function.update s.cancelled r (some true) }
  else { s with cancelled := Function.update s.cancelled r (some false) }

/-- **`job_to_unblock_another_job`**; its `lw_verify` ends the run. -/
def jobToUnblockAnotherJob (s : State T J P) (target : J) : Option (State T J P) :=
  if s.owned target && s.isBlocked target then
    some { s with
      blocked := s.blocked.erase target
      isBlocked := Function.update s.isBlocked target false
      queued := s.queued ++ [target] }
  else none

/-- Run an immediate request. -/
def runImmediate (cl : Client J P C D) (s : State T J P) (j : J) : Option (State T J P) :=
  match cl.func j with
  | .cancelJob target => some (s.delegateCancelJob j target)
  | .unblockJob target => s.jobToUnblockAnotherJob target
  | .user => none

/-- `drain_incoming` returns. -/
def afterDrain (s : State T J P) (t : T) : Caller J P → State T J P
  | .run old => s.goto t (.runQueued { old with incoming := false })
  | .cancel target r => s.goto t (.cancelRemove target r)

end State

open State

/-- `lw_dl_insert_before`, on the list as a sequence. -/
def insertBefore (q : List J) (x j : J) : List J :=
  q.takeWhile (fun y => decide (y ≠ x)) ++ j :: q.dropWhile (fun y => decide (y ≠ x))

/-- Whether a drain runs the job itself instead of queueing it. -/
def Client.immediate (cl : Client J P C D) (j : J) : Bool :=
  match cl.func j with
  | .user => false
  | _ => true

/-- **Entry of `delegate_submit`.** -/
def delegateSubmit (s : State T J P) (t : T) (j : J) (runNow : Bool) : Option (State T J P) :=
  if s.submitted j then none
  else
    let s₁ := { s with
      owned := Function.update s.owned j true
      isBlocked := Function.update s.isBlocked j false
      submitted := Function.update s.submitted j true }
    if runNow then some (s₁.goto t (.submitLoop j))
    else some (s₁.goto t (.pushRead j false))

/-- A thread outside the delegate calls an operation. -/
def call (cfg : Config J P C D) (s : State T J P) (t : T) (op : Op J D) :
    Option (State T J P) :=
  match s.pc t, op with
  | .idle, .submit j runNow => delegateSubmit { s with await := Function.update s.await t none } t j runNow
  | .idle, .run noWait =>
    let s := { s with await := Function.update s.await t none }
    if s.word.lock then
      if noWait then some s
      else some ({ s with
        word := { s.word with waiting := true }
        waiters := s.waiters ++ [t] }.goto t .waitLock)
    else some ({ s with word := { s.word with lock := true } }.goto t .runStart)
  | .idle, .cancel target wait r =>
    let s := { s with await := Function.update s.await t none }
    if s.word.lock then
      if wait then
        if cfg.client.func r = .cancelJob target then
          delegateSubmit { s with await := Function.update s.await t (some r) } t r true
        else none
      else some s
    else some ({ s with word := { s.word with lock := true } }.goto t
      (.drainTest (.cancel target r)))
  | .idle, .unblock target r =>
    let s := { s with await := Function.update s.await t none }
    if s.word.lock then
      if cfg.client.func r = .unblockJob target then
        delegateSubmit { s with await := Function.update s.await t (some r) } t r true
      else none
    else some ({ s with word := { s.word with lock := true } }.goto t (.unblockNow target))
  | .idle, .direct d waits =>
    let s := { s with await := Function.update s.await t none }
    match cfg.client.direct d s.word with
    | none => none
    | some (w, .done) => some { s with word := w }
    | some (w, .runInternal) => some ({ s with word := w }.goto t .runStart)
    | some (w, .submit j) =>
      if cfg.client.func j = .user then
        delegateSubmit { s with
          word := w
          await := Function.update s.await t (if waits then some j else none) } t j true
      else none
  | _, _ => none

/-- One iteration of the queueing loop of `drain_incoming`. -/
def drainJob (cl : Client J P C D) (s : State T J P) (t : T) (k : Caller J P) (j : J)
    (last : Option J) (imm : List J) : State T J P :=
  let next := s.link j
  let s := { s with link := Function.update s.link j .bad }
  if cl.immediate j then s.goto t (.drainLoop k next last (imm ++ [j]))
  else
    { s with
      queued := match last with
        | none => s.queued ++ [j]
        | some l => insertBefore s.queued l j
      moves := Function.update s.moves j (s.moves j + 1) }.goto t
        (.drainLoop k next (some j) imm)

/-- The switch of `run_queued_jobs` on the status of the job at the head. -/
def afterJob (s : State T J P) (t : T) (j : J) (old : Word P) : Status → State T J P
  | .done => ({ s with
      queued := s.queued.tail
      owned := Function.update s.owned j false }.signal j).goto t (.runQueued old)
  | .yield => { s with queued := s.queued.tail ++ [j] }.goto t (.runQueued old)
  | .blockAll => s.goto t (.release old)
  | .blockThis => { s with
      isBlocked := Function.update s.isBlocked j true
      queued := s.queued.tail
      blocked := s.blocked ++ [j] }.goto t (.runQueued old)
  | .reload => s.goto t (.runQueued old)

/-- One iteration of `run_queued_jobs`, with the job at the head of the
queue. -/
def runJob (cl : Client J P C D) (s : State T J P) (t : T) (c : C) (j : J) (old : Word P) :
    Option (State T J P) :=
  match cl.func j with
  | .user =>
    let r := cl.invoke j c s.word.other
    let w := { s.word with other := r.1 }
    some (afterJob { s with word := w } t j (if r.2.1 then w else old) r.2.2)
  | .cancelJob target => some (afterJob (s.delegateCancelJob j target) t j old .done)
  | .unblockJob target =>
    (s.jobToUnblockAnotherJob target).map fun s => afterJob s t j old .done

/-- The word `delegate_run_internal` wants to install. -/
def released (s : State T J P) (old : Word P) : Word P :=
  { old with
    pending := !s.queued.isEmpty
    lock := if old.waiting then old.lock else false }

/-- **One step of a thread.** -/
def move (cfg : Config J P C D) (s : State T J P) (t : T) (c : C) : Option (State T J P) :=
  match s.pc t with
  | .idle => none
  | .submitLoop j =>
    if s.word.incoming || s.word.pending || s.word.lock then some (s.goto t (.pushRead j true))
    else some ({ s with word := { s.word with lock := true } }.goto t (.fastEnqueue j))
  | .pushRead j lock =>
    if cfg.atomicPush then
      some ({ s with
        link := Function.update s.link j (Ptr.ofTop s.stack)
        stack := some j
        installs := Function.update s.installs j (s.installs j + 1) }.goto t (.setBits j lock))
    else some (s.goto t (.pushLink j lock s.stack))
  | .pushLink j lock old =>
    some ({ s with link := Function.update s.link j (Ptr.ofTop s.stack) }.goto t
      (.pushSwap j lock old))
  | .pushSwap j lock old =>
    if s.stack = old then
      some ({ s with
        stack := some j
        installs := Function.update s.installs j (s.installs j + 1) }.goto t (.setBits j lock))
    else some (s.goto t (.pushLink j lock s.stack))
  | .setBits _ lock =>
    let s' := { s with word :=
      { s.word with incoming := true, lock := s.word.lock || lock } }
    if lock && !s.word.lock then some (s'.goto t .runStart) else some (s'.ret t)
  | .fastEnqueue j => some ({ s with queued := s.queued ++ [j] }.goto t .runStart)
  | .runStart => some (s.goto t (.drainTest (.run s.word)))
  | .drainTest k =>
    if s.word.incoming then some (s.goto t (.drainClear k)) else some (s.afterDrain t k)
  | .drainClear k =>
    some ({ s with word := { s.word with incoming := false } }.goto t (.drainTake k))
  | .drainTake k =>
    some ({ s with stack := none }.goto t (.drainLoop k (Ptr.ofTop s.stack) none []))
  | .drainLoop k job last imm =>
    match job with
    | .null => some (s.goto t (.drainImmediate k imm))
    | .bad => none
    | .job j => some (drainJob cfg.client s t k j last imm)
  | .drainImmediate k imm =>
    match imm with
    | [] => some (s.afterDrain t k)
    | j :: imm =>
      (runImmediate cfg.client s j).map fun s =>
        ({ s with moves := Function.update s.moves j (s.moves j + 1) }.signal j).goto t
          (.drainImmediate k imm)
  | .runQueued old =>
    match s.queued with
    | [] => some (s.goto t (.release old))
    | j :: _ => runJob cfg.client s t c j old
  | .release old =>
    if s.word = old then
      let s' := { s with word := released s old }
      if old.waiting then some (s'.goto t .unlock) else some (s'.ret t)
    else some (s.goto t (.drainTest (.run s.word)))
  | .unlock =>
    if s.word.waiting then
      match s.waiters with
      | [] => none
      | u :: us => some ({ s with
          word := { s.word with waiting := !us.isEmpty }
          waiters := us }.goto t (.wakeup u))
    else some ({ s with word := { s.word with lock := false } }.ret t)
  | .wakeup u => some ({ s with woken := Function.update s.woken u true }.ret t)
  | .waitLock =>
    if s.woken t then
      some ({ s with woken := Function.update s.woken t false }.goto t .runStart)
    else none
  | .cancelRemove target r => some ((s.delegateCancelJob r target).goto t .runStart)
  | .unblockNow target => (s.jobToUnblockAnotherJob target).map fun s => s.goto t .runStart
  | .waitEvent j => if 0 < s.signals j then some (s.goto t .idle) else none

/-- **The delegate as a machine.** -/
def machine (T : Type) [DecidableEq T] (cfg : Config J P C D) :
    Machine (State T J P) (Event T J C D) where
  start := fun s => s = init cfg.other₀
  step := fun s e => match e with
    | .call t op => call cfg s t op
    | .move t c => move cfg s t c

end Delegate
