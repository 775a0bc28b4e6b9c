import Lwlock.Delegate

/-!
# What the threads of a delegate do

The calls and the further steps of a thread, one by one: where the thread stands, what it
finds, and what is left behind. Everything that is proved about all steps of a delegate is
proved by going through these. The push on the incoming stack is one step here.

Which event a caller waits for when its call returns is not told apart, so the waits are
left open; a call that returns goes to a program point outside.
-/

namespace Delegate

variable {T J P C D : Type}

/-- A program point outside the delegate. -/
def Pc.Out (p : Pc T J P) : Prop := p = .idle ∨ ∃ j, p = .waitEvent j

/-- Where `drain_incoming` returns to. -/
def Caller.next : Caller J P → Pc T J P
  | .run old => .runQueued { old with incoming := false }
  | .cancel target r => .cancelRemove target r

variable [DecidableEq T] [DecidableEq J]

namespace State

/-- The fields of a job that `delegate_submit` sets. -/
def enter (s : State T J P) (j : J) : State T J P :=
  { s with
    owned := Function.update s.owned j true
    isBlocked := Function.update s.isBlocked j false
    submitted := Function.update s.submitted j true }

/-- `queued_jobs` after a drained job was queued. -/
def queueDrained (s : State T J P) (last : Option J) (j : J) : List J :=
  match last with
  | none => s.queued ++ [j]
  | some l => insertBefore s.queued l j

/-- The job at the head of the queue is done. -/
def finish (s : State T J P) (j : J) : State T J P :=
  { s with
    queued := s.queued.tail
    owned := Function.update s.owned j false }.signal j

end State

open State

/-- **The calls**, by a thread outside. -/
inductive Called (cl : Client J P C D) (s : State T J P) (t : T) : Op J D → State T J P → Prop
  | submit {j : J} {runNow : Bool} {a : T → Option J} : s.submitted j = false →
      Called cl s t (.submit j runNow) (({ s with await := a }.enter j).goto t
        (if runNow then .submitLoop j else .pushRead j false))
  | runReturn {a : T → Option J} : s.word.lock = true →
      Called cl s t (.run true) { s with await := a }
  | runWait {a : T → Option J} : s.word.lock = true → Called cl s t (.run false) ({ s with
      await := a
      word := { s.word with waiting := true }
      waiters := s.waiters ++ [t] }.goto t .waitLock)
  | runLock {noWait : Bool} {a : T → Option J} : s.word.lock = false →
      Called cl s t (.run noWait) ({ s with
        await := a
        word := { s.word with lock := true } }.goto t .runStart)
  | cancelReturn {target r : J} {a : T → Option J} : s.word.lock = true →
      Called cl s t (.cancel target false r) { s with await := a }
  | cancelSubmit {target r : J} {a : T → Option J} : s.word.lock = true →
      cl.func r = .cancelJob target → s.submitted r = false →
      Called cl s t (.cancel target true r)
        (({ s with await := a }.enter r).goto t (.submitLoop r))
  | cancelLock {target r : J} {wait : Bool} {a : T → Option J} : s.word.lock = false →
      Called cl s t (.cancel target wait r) ({ s with
        await := a
        word := { s.word with lock := true } }.goto t (.drainTest (.cancel target r)))
  | unblockSubmit {target r : J} {a : T → Option J} : s.word.lock = true →
      cl.func r = .unblockJob target → s.submitted r = false →
      Called cl s t (.unblock target r)
        (({ s with await := a }.enter r).goto t (.submitLoop r))
  | unblockLock {target r : J} {a : T → Option J} : s.word.lock = false →
      Called cl s t (.unblock target r) ({ s with
        await := a
        word := { s.word with lock := true } }.goto t (.unblockNow target))
  | directReturn {d : D} {waits : Bool} {w : Word P} {a : T → Option J} :
      cl.direct d s.word = some (w, .done) →
      Called cl s t (.direct d waits) { s with await := a, word := w }
  | directRun {d : D} {waits : Bool} {w : Word P} {a : T → Option J} :
      cl.direct d s.word = some (w, .runInternal) →
      Called cl s t (.direct d waits) ({ s with await := a, word := w }.goto t .runStart)
  | directSubmit {d : D} {waits : Bool} {w : Word P} {j : J} {a : T → Option J} :
      cl.direct d s.word = some (w, .submit j) → cl.func j = .user → s.submitted j = false →
      Called cl s t (.direct d waits)
        (({ s with await := a, word := w }.enter j).goto t (.submitLoop j))

/-- **The further steps.** -/
inductive Moved (cl : Client J P C D) (s : State T J P) (t : T) (c : C) : State T J P → Prop
  | submitSlow {j : J} : s.pc t = .submitLoop j →
      s.word.incoming = true ∨ s.word.pending = true ∨ s.word.lock = true →
      Moved cl s t c (s.goto t (.pushRead j true))
  | submitFast {j : J} : s.pc t = .submitLoop j → s.word.incoming = false →
      s.word.pending = false → s.word.lock = false →
      Moved cl s t c ({ s with word := { s.word with lock := true } }.goto t (.fastEnqueue j))
  | push {j : J} {lock : Bool} : s.pc t = .pushRead j lock →
      Moved cl s t c ({ s with
        link := Function.update s.link j (Ptr.ofTop s.stack)
        stack := some j
        installs := Function.update s.installs j (s.installs j + 1) }.goto t (.setBits j lock))
  | setBitsRun {j : J} : s.pc t = .setBits j true → s.word.lock = false →
      Moved cl s t c ({ s with word :=
        { s.word with incoming := true, lock := true } }.goto t .runStart)
  | setBits {j : J} {lock : Bool} {p : Pc T J P} : s.pc t = .setBits j lock →
      (lock = true → s.word.lock = true) → p.Out →
      Moved cl s t c ({ s with word := { s.word with incoming := true } }.goto t p)
  | fastEnqueue {j : J} : s.pc t = .fastEnqueue j →
      Moved cl s t c ({ s with queued := s.queued ++ [j] }.goto t .runStart)
  | runStart : s.pc t = .runStart → Moved cl s t c (s.goto t (.drainTest (.run s.word)))
  | drainSkip {k : Caller J P} : s.pc t = .drainTest k → s.word.incoming = false →
      Moved cl s t c (s.goto t k.next)
  | drainEnter {k : Caller J P} : s.pc t = .drainTest k → s.word.incoming = true →
      Moved cl s t c (s.goto t (.drainClear k))
  | drainClear {k : Caller J P} : s.pc t = .drainClear k →
      Moved cl s t c ({ s with word := { s.word with incoming := false } }.goto t (.drainTake k))
  | drainTake {k : Caller J P} : s.pc t = .drainTake k →
      Moved cl s t c ({ s with stack := none }.goto t
        (.drainLoop k (Ptr.ofTop s.stack) none []))
  | walkEnd {k : Caller J P} {last : Option J} {imm : List J} :
      s.pc t = .drainLoop k .null last imm → Moved cl s t c (s.goto t (.drainImmediate k imm))
  | walkAside {k : Caller J P} {j : J} {last : Option J} {imm : List J} :
      s.pc t = .drainLoop k (.job j) last imm → cl.func j ≠ .user →
      Moved cl s t c ({ s with link := Function.update s.link j .bad }.goto t
        (.drainLoop k (s.link j) last (imm ++ [j])))
  | walkQueue {k : Caller J P} {j : J} {last : Option J} {imm : List J} :
      s.pc t = .drainLoop k (.job j) last imm → cl.func j = .user →
      Moved cl s t c ({ s with
        link := Function.update s.link j .bad
        queued := s.queueDrained last j
        moves := Function.update s.moves j (s.moves j + 1) }.goto t
          (.drainLoop k (s.link j) (some j) imm))
  | immediateEnd {k : Caller J P} : s.pc t = .drainImmediate k [] →
      Moved cl s t c (s.goto t k.next)
  | immediateCancel {k : Caller J P} {j target : J} {imm : List J} :
      s.pc t = .drainImmediate k (j :: imm) → cl.func j = .cancelJob target →
      Moved cl s t c (({ s.delegateCancelJob j target with
        moves := Function.update (s.delegateCancelJob j target).moves j
          ((s.delegateCancelJob j target).moves j + 1) }.signal j).goto t (.drainImmediate k imm))
  | immediateUnblock {k : Caller J P} {j target : J} {imm : List J} {s₁ : State T J P} :
      s.pc t = .drainImmediate k (j :: imm) → cl.func j = .unblockJob target →
      s.jobToUnblockAnotherJob target = some s₁ →
      Moved cl s t c (({ s₁ with
        moves := Function.update s₁.moves j (s₁.moves j + 1) }.signal j).goto t
          (.drainImmediate k imm))
  | queueEnd {old : Word P} : s.pc t = .runQueued old → s.queued = [] →
      Moved cl s t c (s.goto t (.release old))
  | job {old copy : Word P} {j : J} {q : List J} {o : P} {b : Bool} {st : Status} :
      s.pc t = .runQueued old → s.queued = j :: q → cl.func j = .user →
      cl.invoke j c s.word.other = (o, b, st) →
      copy = (if b then { s.word with other := o } else old) →
      Moved cl s t c (afterJob { s with word := { s.word with other := o } } t j copy st)
  | queuedCancel {old : Word P} {j target : J} {q : List J} : s.pc t = .runQueued old →
      s.queued = j :: q → cl.func j = .cancelJob target →
      Moved cl s t c (((s.delegateCancelJob j target).finish j).goto t (.runQueued old))
  | queuedUnblock {old : Word P} {j target : J} {q : List J} {s₁ : State T J P} :
      s.pc t = .runQueued old → s.queued = j :: q → cl.func j = .unblockJob target →
      s.jobToUnblockAnotherJob target = some s₁ →
      Moved cl s t c ((s₁.finish j).goto t (.runQueued old))
  | releaseWait {old : Word P} : s.pc t = .release old → s.word = old → old.waiting = true →
      Moved cl s t c ({ s with word := released s old }.goto t .unlock)
  | release {old : Word P} {p : Pc T J P} : s.pc t = .release old → s.word = old →
      old.waiting = false → p.Out → Moved cl s t c ({ s with word := released s old }.goto t p)
  | releaseRetry {old : Word P} : s.pc t = .release old → s.word ≠ old →
      Moved cl s t c (s.goto t (.drainTest (.run s.word)))
  | handOver {u : T} {us : List T} : s.pc t = .unlock → s.word.waiting = true →
      s.waiters = u :: us → Moved cl s t c ({ s with
        word := { s.word with waiting := !us.isEmpty }
        waiters := us }.goto t (.wakeup u))
  | unlock {p : Pc T J P} : s.pc t = .unlock → s.word.waiting = false → p.Out →
      Moved cl s t c ({ s with word := { s.word with lock := false } }.goto t p)
  | wakeup {u : T} {p : Pc T J P} : s.pc t = .wakeup u → p.Out →
      Moved cl s t c ({ s with woken := Function.update s.woken u true }.goto t p)
  | woken : s.pc t = .waitLock → s.woken t = true →
      Moved cl s t c ({ s with woken := Function.update s.woken t false }.goto t .runStart)
  | cancelRemove {target r : J} : s.pc t = .cancelRemove target r →
      Moved cl s t c ((s.delegateCancelJob r target).goto t .runStart)
  | unblockNow {target : J} {s₁ : State T J P} : s.pc t = .unblockNow target →
      s.jobToUnblockAnotherJob target = some s₁ → Moved cl s t c (s₁.goto t .runStart)
  | waitEvent {j : J} : s.pc t = .waitEvent j → 0 < s.signals j →
      Moved cl s t c (s.goto t .idle)

/-! ## What the requests leave alone -/

section Frames

variable (s : State T J P) (r target : J)

omit [DecidableEq T]

@[simp] theorem word_delegateCancelJob : (s.delegateCancelJob r target).word = s.word := by
  unfold delegateCancelJob dropJob
  split <;> [split; skip] <;> rfl

@[simp] theorem stack_delegateCancelJob : (s.delegateCancelJob r target).stack = s.stack := by
  unfold delegateCancelJob dropJob
  split <;> [split; skip] <;> rfl

@[simp] theorem link_delegateCancelJob : (s.delegateCancelJob r target).link = s.link := by
  unfold delegateCancelJob dropJob
  split <;> [split; skip] <;> rfl

@[simp] theorem owned_delegateCancelJob : (s.delegateCancelJob r target).owned = s.owned := by
  unfold delegateCancelJob dropJob
  split <;> [split; skip] <;> rfl

@[simp] theorem isBlocked_delegateCancelJob :
    (s.delegateCancelJob r target).isBlocked = s.isBlocked := by
  unfold delegateCancelJob dropJob
  split <;> [split; skip] <;> rfl

@[simp] theorem signals_delegateCancelJob : (s.delegateCancelJob r target).signals = s.signals := by
  unfold delegateCancelJob dropJob
  split <;> [split; skip] <;> rfl

@[simp] theorem waiters_delegateCancelJob : (s.delegateCancelJob r target).waiters = s.waiters := by
  unfold delegateCancelJob dropJob
  split <;> [split; skip] <;> rfl

@[simp] theorem woken_delegateCancelJob : (s.delegateCancelJob r target).woken = s.woken := by
  unfold delegateCancelJob dropJob
  split <;> [split; skip] <;> rfl

@[simp] theorem pc_delegateCancelJob : (s.delegateCancelJob r target).pc = s.pc := by
  unfold delegateCancelJob dropJob
  split <;> [split; skip] <;> rfl

@[simp] theorem submitted_delegateCancelJob :
    (s.delegateCancelJob r target).submitted = s.submitted := by
  unfold delegateCancelJob dropJob
  split <;> [split; skip] <;> rfl

theorem queued_delegateCancelJob : (s.delegateCancelJob r target).queued
    = if s.stillWith target ∧ s.isBlocked target = false then s.queued.erase target
      else s.queued := by
  unfold delegateCancelJob dropJob
  cases s.stillWith target <;> cases s.isBlocked target <;> rfl

theorem blocked_delegateCancelJob : (s.delegateCancelJob r target).blocked
    = if s.stillWith target ∧ s.isBlocked target = true then s.blocked.erase target
      else s.blocked := by
  unfold delegateCancelJob dropJob
  cases s.stillWith target <;> cases s.isBlocked target <;> rfl

theorem cancelled_delegateCancelJob : (s.delegateCancelJob r target).cancelled
    = Function.update s.cancelled r (some (s.stillWith target)) := by
  unfold delegateCancelJob dropJob
  cases s.stillWith target <;> cases s.isBlocked target <;> rfl

variable {s target}

theorem jobToUnblockAnotherJob_eq {s₁ : State T J P} (h : s.jobToUnblockAnotherJob target = some s₁) :
    (s.owned target = true ∧ s.isBlocked target = true) ∧ s₁ = { s with
      blocked := s.blocked.erase target
      isBlocked := Function.update s.isBlocked target false
      queued := s.queued ++ [target] } := by
  unfold jobToUnblockAnotherJob at h
  split at h
  · rename_i hb
    rw [Bool.and_eq_true] at hb
    exact ⟨hb, (Option.some.inj h).symm⟩
  · cases h

end Frames

/-! ## The line of the threads that wait -/

/-- **Only a thread that gives the lock up lets another one out of the line.** -/
theorem Moved.line {cl : Client J P C D} {s s' : State T J P} {t : T} {c : C}
    (hm : Moved cl s t c s') : ∃ p, s'.pc = Function.update s.pc t p ∧ p ≠ .waitLock ∧
      (∀ j, p ≠ .unblockNow j) ∧ (s'.waiters = s.waiters ∧ (∀ u, p ≠ .wakeup u) ∨
        ∃ u us, s.pc t = .unlock ∧ p = .wakeup u ∧ s.waiters = u :: us ∧ s'.waiters = us) := by
  cases hm
  case handOver u us hpc _ hus => exact ⟨_, rfl, nofun, nofun, .inr ⟨u, us, hpc, rfl, hus, rfl⟩⟩
  case setBits p _ _ hout | wakeup p _ hout | unlock p _ _ hout | release p _ _ _ hout =>
    refine ⟨p, rfl, ?_, ?_, .inl ⟨rfl, ?_⟩⟩ <;> obtain rfl | ⟨_, rfl⟩ := hout <;> nofun
  case drainSkip k _ _ | immediateEnd k _ =>
    refine ⟨k.next, rfl, ?_, ?_, .inl ⟨rfl, ?_⟩⟩ <;> cases k <;> nofun
  case immediateCancel k j target imm _ _ =>
    exact ⟨.drainImmediate k imm, by simp [State.goto, State.signal], nofun, nofun,
      .inl ⟨by simp [State.goto, State.signal], nofun⟩⟩
  case cancelRemove =>
    exact ⟨.runStart, by simp [State.goto], nofun, nofun, .inl ⟨by simp [State.goto], nofun⟩⟩
  case queuedCancel old _ _ _ _ _ _ =>
    exact ⟨.runQueued old, by simp [State.goto, State.finish, State.signal], nofun, nofun,
      .inl ⟨by simp [State.goto, State.finish, State.signal], nofun⟩⟩
  case immediateUnblock h₁ | unblockNow h₁ | queuedUnblock h₁ =>
    obtain ⟨-, rfl⟩ := jobToUnblockAnotherJob_eq h₁
    exact ⟨_, rfl, nofun, nofun, .inl ⟨rfl, nofun⟩⟩
  case job st _ _ _ _ _ => cases st <;> exact ⟨_, rfl, nofun, nofun, .inl ⟨rfl, nofun⟩⟩
  all_goals exact ⟨_, rfl, nofun, nofun, .inl ⟨rfl, nofun⟩⟩

/-- A call leaves the thread somewhere, and it may get in line. -/
theorem Called.line {cl : Client J P C D} {s s' : State T J P} {t : T} {op : Op J D}
    (hpc : s.pc t = .idle) (hc : Called cl s t op s') : ∃ p, s'.pc = Function.update s.pc t p ∧
      (p ≠ .waitLock ∧ s'.waiters = s.waiters ∨ p = .waitLock ∧ s'.waiters = s.waiters ++ [t]) := by
  cases hc
  case runWait => exact ⟨_, rfl, .inr ⟨rfl, rfl⟩⟩
  case runReturn | cancelReturn | directReturn =>
    exact ⟨.idle, by simp [← hpc], .inl ⟨nofun, rfl⟩⟩
  case submit now _ _ => cases now <;> exact ⟨_, rfl, .inl ⟨nofun, rfl⟩⟩
  all_goals exact ⟨_, rfl, .inl ⟨nofun, rfl⟩⟩

/-- Only a call submits a job. -/
theorem Moved.submitted {cl : Client J P C D} {s s' : State T J P} {t : T} {c : C}
    (hm : Moved cl s t c s') : s'.submitted = s.submitted := by
  cases hm
  case immediateCancel | cancelRemove | queuedCancel => simp [State.goto, State.finish, State.signal]
  case immediateUnblock h₁ | unblockNow h₁ | queuedUnblock h₁ =>
    obtain ⟨-, rfl⟩ := jobToUnblockAnotherJob_eq h₁
    rfl
  case job st _ _ _ _ _ => cases st <;> rfl
  all_goals rfl

/-! ## The steps are these -/

theorem delegateSubmit_eq {s s' : State T J P} {t : T} {j : J} {runNow : Bool}
    (h : delegateSubmit s t j runNow = some s') : s.submitted j = false
      ∧ s' = (s.enter j).goto t (if runNow then .submitLoop j else .pushRead j false) := by
  unfold delegateSubmit at h
  split at h
  · cases h
  · rename_i hj
    refine ⟨Bool.eq_false_iff.mpr hj, ?_⟩
    cases runNow <;> exact (Option.some.inj h).symm

/-- **Every call is one of these.** -/
theorem called_of_call {cfg : Config J P C D} {s s' : State T J P} {t : T} {op : Op J D}
    (h : call cfg s t op = some s') : s.pc t = .idle ∧ Called cfg.client s t op s' := by
  unfold call at h
  split at h
  case h_1 j runNow hpc =>
    obtain ⟨hj, rfl⟩ := delegateSubmit_eq h
    exact ⟨hpc, .submit hj⟩
  case h_2 noWait hpc =>
    dsimp only at h
    split at h
    · rename_i hl
      split at h <;> cases h
      · rename_i hw
        subst hw
        exact ⟨hpc, .runReturn hl⟩
      · rename_i hw
        obtain rfl := Bool.eq_false_iff.mpr hw
        exact ⟨hpc, .runWait hl⟩
    · rename_i hl
      cases h
      exact ⟨hpc, .runLock (Bool.eq_false_iff.mpr hl)⟩
  case h_3 target wait r hpc =>
    dsimp only at h
    split at h
    · rename_i hl
      split at h
      · rename_i hw
        subst hw
        split at h
        · rename_i hf
          obtain ⟨hj, rfl⟩ := delegateSubmit_eq h
          exact ⟨hpc, .cancelSubmit hl hf hj⟩
        · cases h
      · rename_i hw
        obtain rfl := Bool.eq_false_iff.mpr hw
        cases h
        exact ⟨hpc, .cancelReturn hl⟩
    · rename_i hl
      cases h
      exact ⟨hpc, .cancelLock (Bool.eq_false_iff.mpr hl)⟩
  case h_4 target r hpc =>
    dsimp only at h
    split at h
    · rename_i hl
      split at h
      · rename_i hf
        obtain ⟨hj, rfl⟩ := delegateSubmit_eq h
        exact ⟨hpc, .unblockSubmit hl hf hj⟩
      · cases h
    · rename_i hl
      cases h
      exact ⟨hpc, .unblockLock (Bool.eq_false_iff.mpr hl)⟩
  case h_5 d waits hpc =>
    dsimp only at h
    split at h
    · cases h
    · rename_i w hd
      cases h
      exact ⟨hpc, .directReturn hd⟩
    · rename_i w hd
      cases h
      exact ⟨hpc, .directRun hd⟩
    · rename_i w j hd
      split at h
      · rename_i hf
        obtain ⟨hj, rfl⟩ := delegateSubmit_eq h
        exact ⟨hpc, .directSubmit hd hf hj⟩
      · cases h
  case h_6 => cases h

omit [DecidableEq J] in
/-- A call returns to a program point outside. -/
theorem exists_ret (s : State T J P) (t : T) : ∃ p : Pc T J P, p.Out ∧ s.ret t = s.goto t p := by
  unfold ret
  cases s.await t with
  | none => exact ⟨_, .inl rfl, rfl⟩
  | some j => exact ⟨_, .inr ⟨j, rfl⟩, rfl⟩

omit [DecidableEq J] in
theorem afterDrain_eq (s : State T J P) (t : T) (k : Caller J P) :
    s.afterDrain t k = s.goto t k.next := by
  cases k <;> rfl

/-- A job of the queue is run. -/
theorem moved_of_runJob {cl : Client J P C D} {s s' : State T J P} {t : T} {c : C} {j : J}
    {q : List J} {old : Word P} (hpc : s.pc t = .runQueued old) (hq : s.queued = j :: q)
    (h : runJob cl s t c j old = some s') : Moved cl s t c s' := by
  unfold runJob at h
  cases hf : cl.func j with
  | user =>
    rw [hf] at h
    cases h
    exact .job hpc hq hf rfl rfl
  | cancelJob target =>
    rw [hf] at h
    cases h
    exact .queuedCancel hpc hq hf
  | unblockJob target =>
    rw [hf] at h
    obtain ⟨s₁, h₁, rfl⟩ := Option.map_eq_some_iff.mp h
    exact .queuedUnblock hpc hq hf h₁

omit [DecidableEq T] [DecidableEq J] in
/-- The thread is not between the two reads of a push. -/
def Pc.Whole : Pc T J P → Prop
  | .pushLink _ _ _ | .pushSwap _ _ _ => False
  | _ => True

variable [DecidableEq P]

/-- **Every further step is one of these**, if the push is one step. -/
theorem moved_of_move {cfg : Config J P C D} (ha : cfg.atomicPush = true) {s s' : State T J P}
    {t : T} {c : C} (hw : (s.pc t).Whole) (h : move cfg s t c = some s') :
    Moved cfg.client s t c s' := by
  cases hpc : s.pc t with
  | idle => simp [move, hpc] at h
  | submitLoop j =>
    simp only [move, hpc] at h
    split at h <;> cases h
    · rename_i hb
      rw [Bool.or_eq_true, Bool.or_eq_true, or_assoc] at hb
      exact .submitSlow hpc hb
    · rename_i hb
      rw [Bool.not_eq_true, Bool.or_eq_false_iff, Bool.or_eq_false_iff] at hb
      exact .submitFast hpc hb.1.1 hb.1.2 hb.2
  | pushRead j lock =>
    simp only [move, hpc, ha, if_true, Option.some.injEq] at h
    exact h ▸ .push hpc
  | pushLink j lock old | pushSwap j lock old =>
    rw [hpc] at hw
    exact hw.elim
  | setBits j lock =>
    simp only [move, hpc] at h
    split at h <;> cases h
    · rename_i hb
      rw [Bool.and_eq_true, Bool.not_eq_true'] at hb
      obtain ⟨rfl, hl⟩ := hb
      simp only [Bool.or_true]
      exact .setBitsRun hpc hl
    · rename_i hb
      obtain ⟨p, hp, hret⟩ := exists_ret { s with word :=
        { s.word with incoming := true, lock := s.word.lock || lock } } t
      rw [hret]
      have hl : (s.word.lock || lock) = s.word.lock := by
        cases lock <;> cases hw : s.word.lock <;> simp [hw] at hb ⊢
      rw [hl]
      refine .setBits hpc ?_ hp
      rintro rfl
      simpa using hb
  | fastEnqueue j =>
    simp only [move, hpc, Option.some.injEq] at h
    exact h ▸ .fastEnqueue hpc
  | runStart =>
    simp only [move, hpc, Option.some.injEq] at h
    exact h ▸ .runStart hpc
  | drainTest k =>
    simp only [move, hpc] at h
    split at h <;> cases h
    · exact .drainEnter hpc ‹_›
    · rw [afterDrain_eq]
      exact .drainSkip hpc (Bool.eq_false_iff.mpr ‹_›)
  | drainClear k =>
    simp only [move, hpc, Option.some.injEq] at h
    exact h ▸ .drainClear hpc
  | drainTake k =>
    simp only [move, hpc, Option.some.injEq] at h
    exact h ▸ .drainTake hpc
  | drainLoop k job last imm =>
    simp only [move, hpc] at h
    cases job with
    | null =>
      cases h
      exact .walkEnd hpc
    | bad => cases h
    | job j =>
      cases h
      unfold drainJob
      split
      · rename_i hi
        refine .walkAside hpc fun hf => ?_
        simp [Client.immediate, hf] at hi
      · rename_i hi
        have hf : cfg.client.func j = .user := by
          cases hf : cfg.client.func j <;> simp [Client.immediate, hf] at hi ⊢
        exact .walkQueue hpc hf
  | drainImmediate k imm =>
    simp only [move, hpc] at h
    cases imm with
    | nil =>
      cases h
      rw [afterDrain_eq]
      exact .immediateEnd hpc
    | cons j imm =>
      obtain ⟨s₁, h₁, rfl⟩ := Option.map_eq_some_iff.mp h
      unfold runImmediate at h₁
      cases hf : cfg.client.func j with
      | user => simp [hf] at h₁
      | cancelJob target =>
        simp only [hf, Option.some.injEq] at h₁
        subst h₁
        exact .immediateCancel hpc hf
      | unblockJob target =>
        simp only [hf] at h₁
        exact .immediateUnblock hpc hf h₁
  | runQueued old =>
    simp only [move, hpc] at h
    split at h
    · rename_i hq
      cases h
      exact .queueEnd hpc hq
    · rename_i j q hq
      exact moved_of_runJob hpc hq h
  | release old =>
    simp only [move, hpc] at h
    split at h
    · rename_i hw
      split at h <;> cases h
      · exact .releaseWait hpc hw ‹_›
      · obtain ⟨p, hp, hret⟩ := exists_ret { s with word := released s old } t
        rw [hret]
        exact .release hpc hw (Bool.eq_false_iff.mpr ‹_›) hp
    · cases h
      exact .releaseRetry hpc ‹_›
  | unlock =>
    simp only [move, hpc] at h
    split at h
    · split at h <;> cases h
      exact .handOver hpc ‹_› ‹_›
    · cases h
      obtain ⟨p, hp, hret⟩ := exists_ret { s with word := { s.word with lock := false } } t
      rw [hret]
      exact .unlock hpc (Bool.eq_false_iff.mpr ‹_›) hp
  | wakeup u =>
    simp only [move, hpc, Option.some.injEq] at h
    obtain ⟨p, hp, hret⟩ := exists_ret { s with woken := Function.update s.woken u true } t
    rw [← h, hret]
    exact .wakeup hpc hp
  | waitLock =>
    simp only [move, hpc] at h
    split at h <;> cases h
    exact .woken hpc ‹_›
  | cancelRemove target r =>
    simp only [move, hpc, Option.some.injEq] at h
    exact h ▸ .cancelRemove hpc
  | unblockNow target =>
    simp only [move, hpc] at h
    obtain ⟨s₁, h₁, rfl⟩ := Option.map_eq_some_iff.mp h
    exact .unblockNow hpc h₁
  | waitEvent j =>
    simp only [move, hpc] at h
    split at h <;> cases h
    exact .waitEvent hpc ‹_›

end Delegate
