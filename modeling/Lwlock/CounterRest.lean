import Lwlock.Counter

/-!
# A counter at rest

A counter is at rest when its lock bit is clear. Nobody then looks at its
queues, so whatever still waits must not be able to proceed: no request may be
left on the incoming stack, and the first queued request must need more than
there is.

The releasing compare-and-swap of `delegate_run_internal` is what should make
sure. It compares the word with the runner's own copy, in which the incoming
bit was cleared by hand, so that a request that came in meanwhile makes the
swap fail. But a granted allocation overwrites that copy with the word it has
just read – incoming bit included – and the swap then succeeds although a
request is waiting. On the runs where no allocation is granted by a runner
while the incoming bit is set, and where `counter_free` does not wrap the
number of units, a counter at rest has nothing to do.

What the invariant reads of a state is the word, the queue, and for each
thread its *role*: whether it holds the delegate lock, how far it is, and its
copy of the word.
-/

namespace Counter

open Delegate

variable {T J : Type}

/-- The role of a thread: it does not hold the lock, it drains, it runs jobs,
or it is about to release the lock. -/
inductive Role
  | out
  | draining (copy : Option (Word ℕ))
  | running (copy : Word ℕ)
  | releasing (copy : Word ℕ)
  deriving DecidableEq

/-- The copy of the word a caller of `drain_incoming` holds. -/
def callerCopy : Caller J ℕ → Option (Word ℕ)
  | .run old => some old
  | .cancel _ _ => none

/-- The role of a program point. -/
def roleOf : Pc T J ℕ → Role
  | .fastEnqueue _ => .draining none
  | .runStart => .draining none
  | .drainTest k => .draining (callerCopy k)
  | .drainClear k => .draining (callerCopy k)
  | .drainTake k => .draining (callerCopy k)
  | .drainLoop k _ _ _ => .draining (callerCopy k)
  | .drainImmediate k _ => .draining (callerCopy k)
  | .cancelRemove _ _ => .draining none
  | .unblockNow _ => .draining none
  | .runQueued old => .running old
  | .release old => .releasing old
  | .unlock => .draining none
  | .wakeup _ => .out
  | _ => .out

/-- The copy of the word a role holds. -/
def Role.copy : Role → Option (Word ℕ)
  | .out => none
  | .draining c => c
  | .running c => some c
  | .releasing c => some c

/-- **What the invariant reads of a state**: the word, the queue and the
roles. -/
@[ext] structure Desk (T J : Type) where
  word : Word ℕ
  queued : List J
  role : T → Role

namespace Desk

/-- **At rest**, a counter has no incoming request, and its first queued request
needs more than is available. -/
def AtRest (need : J → ℕ) (d : Desk T J) : Prop :=
  d.word.lock = false →
    d.word.incoming = false ∧
      (d.word.pending = true → ∃ j q, d.queued = j :: q ∧ d.word.other < need j)

/-- **The invariant.** -/
structure Inv (need : J → ℕ) (d : Desk T J) : Prop where
  waiting : d.word.waiting = false
  one : ∀ t u, d.role t ≠ .out → d.role u ≠ .out → t = u
  free : d.word.lock = false → ∀ t, d.role t = .out
  rest : d.word.lock = false → d.word.incoming = false
    ∧ (d.word.pending = true ↔ d.queued ≠ []) ∧ ∀ j q, d.queued = j :: q → d.word.other < need j
  copy : ∀ t c, (d.role t).copy = some c → c.other ≤ d.word.other ∧ c.waiting = false
  running : ∀ t c, d.role t = .running c → c.incoming = false
  releasing : ∀ t c, d.role t = .releasing c → c.incoming = false
    ∧ ∀ j q, d.queued = j :: q → c.other < need j

theorem Inv.atRest {need : J → ℕ} {d : Desk T J} (h : d.Inv need) : d.AtRest need := by
  intro hl
  obtain ⟨hi, hp, hq⟩ := h.rest hl
  refine ⟨hi, fun hpend => ?_⟩
  cases hqs : d.queued with
  | nil => exact absurd hqs (hp.mp hpend)
  | cons j q => exact ⟨j, q, rfl, hq j q hqs⟩

variable [DecidableEq T]

/-- **What a step of thread `t` can do.** -/
inductive Change (need : J → ℕ) (d : Desk T J) (t : T) : Desk T J → Prop
  /-- Nothing that is read here. -/
  | quiet : Change need d t d
  /-- Units are given back, or a request comes in, while the lock is held. -/
  | busy {w : Word ℕ} : d.word.lock = true → w.lock = true → d.word.other ≤ w.other →
      w.waiting = d.word.waiting → d.role t = .out → Change need d t { d with word := w }
  /-- Units are given back or taken while nobody waits. -/
  | idle {n : ℕ} : d.word.lock = false → d.word.pending = false →
      Change need d t { d with word := { d.word with other := n } }
  /-- The lock is taken. -/
  | acquire {w : Word ℕ} : d.word.lock = false → w.lock = true →
      w.waiting = d.word.waiting → Change need d t
        { d with word := w, role := Function.update d.role t (.draining none) }
  /-- The holder reads the word. -/
  | look : d.role t ≠ .out → Change need d t
      { d with role := Function.update d.role t (.draining (some d.word)) }
  /-- The holder works on the lists, and may clear the incoming bit. -/
  | work {c : Option (Word ℕ)} {q : List J} {b : Bool} : d.role t = .draining c → Change need d t
      { d with word := { d.word with incoming := b }, queued := q }
  /-- The holder forgets its copy before it enters the loop. -/
  | enter {c : Option (Word ℕ)} {q : List J} : d.role t = .draining c → Change need d t
      { d with queued := q, role := Function.update d.role t (.draining none) }
  /-- The drain returns to the loop. -/
  | drained {c : Word ℕ} : d.role t = .draining (some c) → Change need d t
      { d with role := Function.update d.role t (.running { c with incoming := false }) }
  /-- A job changes the lists. -/
  | job {c : Word ℕ} {q : List J} : d.role t = .running c → Change need d t { d with queued := q }
  /-- An allocation is granted, and the copy is overwritten. -/
  | grant {c : Word ℕ} {q : List J} {n : ℕ} : d.role t = .running c → d.word.incoming = false →
      Change need d t
        { word := { d.word with other := n }
          queued := q
          role := Function.update d.role t (.running { d.word with other := n }) }
  /-- The loop over the queue ends. -/
  | stop {c : Word ℕ} : d.role t = .running c →
      (∀ j q, d.queued = j :: q → d.word.other < need j) → Change need d t
        { d with role := Function.update d.role t (.releasing c) }
  /-- The releasing compare-and-swap. -/
  | release : d.role t = .releasing d.word → Change need d t
      { d with
        word := { d.word with pending := !d.queued.isEmpty, lock := false }
        role := Function.update d.role t .out }

omit [DecidableEq T] in
/-- Who works on the lists does so alone. -/
theorem Inv.out {need : J → ℕ} {d : Desk T J} (h : d.Inv need) {t u : T} (ht : d.role t ≠ .out)
    (hu : u ≠ t) : d.role u = .out := by
  by_contra hne
  exact hu (h.one u t hne ht)

/-- **A step of the holder**: the lock stays taken, and only the roles of others are as before. -/
theorem Inv.hold {need : J → ℕ} {d : Desk T J} {t : T} {w : Word ℕ} {q : List J} {r : Role}
    (hl : w.lock = true) (hw : w.waiting = false) (hout : ∀ u, u ≠ t → d.role u = .out)
    (hcopy : ∀ c, r.copy = some c → c.other ≤ w.other ∧ c.waiting = false)
    (hrun : ∀ c, r = .running c → c.incoming = false)
    (hrel : ∀ c, r = .releasing c → c.incoming = false
      ∧ ∀ j q', q = j :: q' → c.other < need j) :
    Inv need ⟨w, q, Function.update d.role t r⟩ := by
  have hrole : ∀ u, u = t ∧ Function.update d.role t r u = r
      ∨ u ≠ t ∧ Function.update d.role t r u = .out := by
    intro u
    by_cases hu : u = t
    · exact .inl ⟨hu, by rw [hu, Function.update_self]⟩
    · exact .inr ⟨hu, by rw [Function.update_of_ne hu, hout u hu]⟩
  refine ⟨hw, fun u v hu hv => ?_, fun hf => ?_, fun hf => ?_, fun u c hc => ?_, fun u c hc => ?_,
    fun u c hc => ?_⟩
  · rcases hrole u with ⟨rfl, -⟩ | ⟨-, h⟩
    · rcases hrole v with ⟨rfl, -⟩ | ⟨-, h⟩
      · rfl
      · exact absurd h hv
    · exact absurd h hu
  · rw [hl] at hf
    cases hf
  · rw [hl] at hf
    cases hf
  · rcases hrole u with ⟨-, h⟩ | ⟨-, h⟩
    · exact hcopy c (h ▸ hc)
    · exact absurd (h ▸ hc : Role.out.copy = some c) nofun
  · rcases hrole u with ⟨-, h⟩ | ⟨-, h⟩
    · exact hrun c (h ▸ hc)
    · exact absurd (h ▸ hc : Role.out = .running c) nofun
  · rcases hrole u with ⟨-, h⟩ | ⟨-, h⟩
    · exact hrel c (h ▸ hc)
    · exact absurd (h ▸ hc : Role.out = .releasing c) nofun

omit [DecidableEq T] in
/-- The holder of the lock has it. -/
theorem Inv.locked {need : J → ℕ} {d : Desk T J} (h : d.Inv need) {t : T} (ht : d.role t ≠ .out) :
    d.word.lock = true := by
  by_contra hl
  exact ht (h.free (by simpa using hl) t)

/-- **A change keeps the invariant.** -/
theorem Change.inv {need : J → ℕ} {d d' : Desk T J} {t : T} (hc : Change need d t d')
    (h : d.Inv need) : d'.Inv need := by
  cases hc with
  | quiet => exact h
  | busy | idle | work | job =>
    obtain ⟨hwait, hone, hfree, hrest, hcopy, hrun, hrel⟩ := h
    constructor <;> grind -linarith [Role.copy]
  | acquire hfree hl hw =>
    refine Inv.hold hl (hw.trans h.waiting) (fun u _ => h.free hfree u) ?_ nofun nofun
    exact nofun
  | look ht =>
    refine Inv.hold (h.locked ht) h.waiting (fun u hu => h.out ht hu) ?_ nofun nofun
    rintro c ⟨⟩
    exact ⟨Nat.le_refl _, h.waiting⟩
  | enter ht =>
    have hne : d.role t ≠ .out := by rw [ht]; nofun
    refine Inv.hold (h.locked hne) h.waiting (fun u hu => h.out hne hu) ?_ nofun nofun
    exact nofun
  | drained ht =>
    have hne : d.role t ≠ .out := by rw [ht]; nofun
    refine Inv.hold (h.locked hne) h.waiting (fun u hu => h.out hne hu) ?_ ?_ nofun
    · rintro c ⟨⟩
      have hcopy := h.copy t
      rw [ht] at hcopy
      exact ⟨(hcopy _ rfl).1, (hcopy _ rfl).2⟩
    · rintro c ⟨⟩
      rfl
  | grant ht hin =>
    have hne : d.role t ≠ .out := by rw [ht]; nofun
    refine Inv.hold (h.locked hne) h.waiting (fun u hu => h.out hne hu) ?_ ?_ nofun
    · rintro c ⟨⟩
      exact ⟨Nat.le_refl _, h.waiting⟩
    · rintro c ⟨⟩
      exact hin
  | stop ht hq =>
    have hne : d.role t ≠ .out := by rw [ht]; nofun
    refine Inv.hold (h.locked hne) h.waiting (fun u hu => h.out hne hu) ?_ nofun ?_
    · rintro c ⟨⟩
      exact h.copy t _ (by rw [ht]; rfl)
    · rintro c ⟨⟩
      refine ⟨h.running t _ ht, fun j q hj => ?_⟩
      exact Nat.lt_of_le_of_lt (h.copy t _ (by rw [ht]; rfl)).1 (hq j q hj)
  | release ht =>
    obtain ⟨hwait, hone, hfree, hrest, hcopy, hrun, hrel⟩ := h
    constructor <;> grind -linarith [Function.update_apply, Role.copy]

end Desk

/-! ## The steps of a counter -/

/-- The program points a thread of a counter can be at: every job is submitted
with `run_now`, and nobody waits for the lock. -/
def OfCounter : Pc T J ℕ → Prop
  | .pushRead _ lock => lock = true
  | .pushLink _ lock _ => lock = true
  | .pushSwap _ lock _ => lock = true
  | .setBits _ lock => lock = true
  | .unlock | .wakeup _ | .waitLock | .unblockNow _ => False
  | _ => True

/-- What the invariant reads of a state. -/
def desk (s : State T J ℕ) : Desk T J := ⟨s.word, s.queued, fun t => roleOf (s.pc t)⟩

/-- **Sound states.** -/
structure Sound (need : J → ℕ) (s : State T J ℕ) : Prop where
  inv : (desk s).Inv need
  points : ∀ t, OfCounter (s.pc t)

/-- The next step of a thread grants the allocation at the head of the queue. -/
def grants [DecidableEq J] (cfg : Config J) (s : State T J ℕ) (t : T) : Bool :=
  match s.pc t, s.queued with
  | .runQueued _, j :: _ => decide (cfg.func j = .user) && decide (cfg.need j ≤ s.word.other)
  | _, _ => false

/-- **The guard**: no allocation is granted from the queue while the incoming
bit is set, and no units are given back past `2 ^ 32` while the lock is
held. -/
def Undisturbed [DecidableEq J] (cfg : Config J) (s : State T J ℕ) (e : Event T J)
    (_ : State T J ℕ) : Prop :=
  match e with
  | .call _ (.free count) => s.word.lock = true → s.word.other + count < 2 ^ 32
  | .call _ _ => True
  | .move t => grants cfg s t = true → s.word.incoming = false

instance [DecidableEq J] (cfg : Config J) (s : State T J ℕ) (e : Event T J) (s' : State T J ℕ) :
    Decidable (Undisturbed cfg s e s') :=
  match e with
  | .call _ (.free count) =>
    inferInstanceAs (Decidable (s.word.lock = true → s.word.other + count < 2 ^ 32))
  | .call _ (.tryAlloc _) | .call _ (.alloc _) | .call _ (.allocAsync _) | .call _ (.cancel _ _) =>
    inferInstanceAs (Decidable True)
  | .move t => inferInstanceAs (Decidable (grants cfg s t = true → s.word.incoming = false))

variable [DecidableEq T] [DecidableEq J]

omit [DecidableEq J] in
theorem desk_goto (s : State T J ℕ) (t : T) (p : Pc T J ℕ) :
    desk (s.goto t p) = { desk s with role := Function.update (desk s).role t (roleOf p) } := by
  refine Desk.ext rfl rfl (funext fun u => ?_)
  simp only [desk, State.goto, Function.update_apply]
  split <;> rfl

omit [DecidableEq J] in
theorem desk_goto_of_role {s : State T J ℕ} {t : T} {p : Pc T J ℕ}
    (h : roleOf p = roleOf (s.pc t)) : desk (s.goto t p) = desk s := by
  rw [desk_goto, h]
  exact Desk.ext rfl rfl (Function.update_eq_self t _)

omit [DecidableEq J] in
theorem desk_ret (s : State T J ℕ) (t : T) :
    desk (s.ret t) = { desk s with role := Function.update (desk s).role t .out } := by
  unfold State.ret
  split <;> rw [desk_goto] <;> rfl

omit [DecidableEq J] in
theorem desk_ret_of_out {s : State T J ℕ} {t : T} (h : roleOf (s.pc t) = .out) :
    desk (s.ret t) = desk s := by
  rw [desk_ret, ← h]
  exact Desk.ext rfl rfl (Function.update_eq_self t _)

omit [DecidableEq J] in
theorem ofCounter_goto {s : State T J ℕ} {t : T} {p : Pc T J ℕ}
    (h : ∀ u, OfCounter (s.pc u)) (hp : OfCounter p) (u : T) : OfCounter ((s.goto t p).pc u) := by
  simp only [State.goto, Function.update_apply]
  split
  · exact hp
  · exact h u

omit [DecidableEq J] in
theorem ofCounter_ret {s : State T J ℕ} {t : T} (h : ∀ u, OfCounter (s.pc u)) (u : T) :
    OfCounter ((s.ret t).pc u) := by
  unfold State.ret
  split <;> exact ofCounter_goto h (by trivial) u

omit [DecidableEq J] in
/-- A step that changes what the invariant reads in one of the allowed ways
leads to a sound state. -/
theorem Sound.step {need : J → ℕ} {s s' : State T J ℕ} {t : T} {d : Desk T J}
    (hs : Sound need s) (hc : (desk s).Change need t d) (hd : desk s' = d)
    (hp : ∀ u, OfCounter (s'.pc u)) : Sound need s' :=
  ⟨hd ▸ hc.inv hs.inv, hp⟩

omit [DecidableEq T] [DecidableEq J] in
/-- What a thread waits for is not read. -/
theorem Sound.await {need : J → ℕ} {s : State T J ℕ} (hs : Sound need s) (a : T → Option J) :
    Sound need { s with await := a } :=
  ⟨hs.inv, hs.points⟩

omit [DecidableEq J] in
/-- A thread moves on in its role. -/
theorem Sound.goto {need : J → ℕ} {s s' : State T J ℕ} {t : T} {p : Pc T J ℕ}
    (hs : Sound need s) (hd : desk s' = desk s) (hpc : s'.pc = s.pc)
    (hr : roleOf p = roleOf (s.pc t)) (hp : OfCounter p) : Sound need (s'.goto t p) := by
  refine hs.step (t := t) .quiet ?_ (ofCounter_goto (hpc ▸ hs.points) hp)
  rw [desk_goto_of_role (by rw [hpc, hr]), hd]

/-- `delegate_submit` with `run_now` moves a thread to the loop on the word. -/
theorem delegateSubmit_sound {need : J → ℕ} {s s' : State T J ℕ} {t : T} {j : J}
    {a : T → Option J} (hs : Sound need s) (ht : s.pc t = .idle)
    (h : delegateSubmit { s with await := a } t j true = some s') : Sound need s' := by
  unfold delegateSubmit at h
  split at h
  · cases h
  · cases h
    exact hs.goto rfl rfl (by rw [ht]; rfl) trivial

omit [DecidableEq T] in
/-- `delegate_cancel_job` changes no more than the queues. -/
theorem delegateCancelJob_frame (s : State T J ℕ) (r target : J) :
    (s.delegateCancelJob r target).word = s.word
      ∧ (s.delegateCancelJob r target).pc = s.pc := by
  unfold State.delegateCancelJob State.dropJob
  split
  · split <;> exact ⟨rfl, rfl⟩
  · exact ⟨rfl, rfl⟩

omit [DecidableEq T] in
/-- `job_to_unblock_another_job` changes no more than the queues. -/
theorem jobToUnblockAnotherJob_frame {s s' : State T J ℕ} {target : J}
    (h : s.jobToUnblockAnotherJob target = some s') : s'.word = s.word ∧ s'.pc = s.pc := by
  unfold State.jobToUnblockAnotherJob at h
  split at h <;> cases h
  exact ⟨rfl, rfl⟩

omit [DecidableEq J] in
/-- What `counter_reserve_work` takes when nobody is ahead. -/
theorem counterReserveWork_sound {need : J → ℕ} {s : State T J ℕ} {n : ℕ} {w : Word ℕ}
    (hs : Sound need s) (h : counterReserveWork n true s.word = some w) (t : T)
    (a : T → Option J) : Sound need { s with word := w, await := a } := by
  unfold counterReserveWork at h
  split at h
  · cases h
  · rename_i hfree
    cases h
    simp only [Bool.true_and, Bool.or_eq_true, not_or, Bool.not_eq_true] at hfree
    exact hs.step (.idle (t := t) hfree.2.1.1 hfree.2.2) rfl hs.points

/-- **`counter_alloc_async`**, whether or not its caller waits. -/
theorem allocAsync_sound {cfg : Config J} {s s' : State T J ℕ} {t : T} {j : J} {waits : Bool}
    (hs : Sound cfg.need s) (hpc : s.pc t = .idle)
    (h : call cfg.delegate s t (.direct (.allocAsync j) waits) = some s') :
    Sound cfg.need s' := by
  cases hw : counterReserveWork (cfg.need j) true s.word with
  | some w =>
    have hd : (client cfg).direct (.allocAsync j) s.word = some (w, .done) := by
      simp only [client, hw]
    simp only [call, hpc, hd] at h
    cases h
    exact counterReserveWork_sound hs hw t _
  | none =>
    have hd : (client cfg).direct (.allocAsync j) s.word = some (s.word, .submit j) := by
      simp only [client, hw]
    simp only [call, hpc, hd] at h
    split at h
    · exact delegateSubmit_sound hs hpc h
    · cases h

omit [DecidableEq T] [DecidableEq J] in
/-- What `counter_free` installs, and whether it took the lock. -/
theorem counterFree_eq {cfg : Config J} {count : ℕ} {w : Word ℕ} {r : Word ℕ × After J}
    (h : counterFree cfg count w = some r) :
    r = (freed count w, if !w.lock && (freed count w).lock then .runInternal else .done) := by
  unfold counterFree at h
  split at h
  · exact (Option.some.inj h).symm
  · cases h

/-- **`counter_free`.** -/
theorem free_sound {cfg : Config J} {s s' : State T J ℕ} {t : T} {count : ℕ}
    (hs : Sound cfg.need s) (hpc : s.pc t = .idle)
    (h : call cfg.delegate s t (.direct (.free count) false) = some s')
    (hok : s.word.lock = true → s.word.other + count < 2 ^ 32) : Sound cfg.need s' := by
  have hout : (desk s).role t = .out := by simp only [desk, hpc, roleOf]
  cases hr : counterFree cfg count s.word with
  | none => simp only [call, hpc, client, hr, reduceCtorEq] at h
  | some r =>
    simp only [call, hpc, client, hr, counterFree_eq hr] at h
    cases hl : s.word.lock with
    | true =>
      -- the units given back do not wrap, so the runner's copy still holds no more
      have hle : s.word.other ≤ (freed count s.word).other := by
        simp only [freed]
        rw [Nat.mod_eq_of_lt (hok hl)]
        exact Nat.le_add_right _ _
      simp only [hl, Bool.not_true, Bool.false_and, Bool.false_eq_true, if_false] at h
      cases h
      refine hs.step (.busy (t := t) (w := freed count s.word) hl ?_ hle rfl hout) rfl hs.points
      simp only [freed, hl, Bool.true_or]
    | false =>
      cases hf : (freed count s.word).lock with
      | true =>
        simp only [hl, hf, Bool.not_false, Bool.true_and, if_true] at h
        cases h
        exact hs.step (.acquire (t := t) (w := freed count s.word) hl hf rfl)
          (desk_goto _ _ _) (ofCounter_goto hs.points trivial)
      | false =>
        simp only [hl, hf, Bool.not_false, Bool.and_false, Bool.false_eq_true, if_false] at h
        cases h
        simp only [freed, hl, Bool.false_or, Bool.or_eq_false_iff] at hf
        refine hs.step (.idle (t := t) (n := (freed count s.word).other) hl hf.2) ?_ hs.points
        simp only [desk, freed, hl, hf.1, hf.2, Bool.or_self]

omit [DecidableEq T] in
/-- An immediate request changes no more than the queues. -/
theorem runImmediate_frame {cfg : Config J} {s s' : State T J ℕ} {j : J}
    (h : State.runImmediate (client cfg) s j = some s') : s'.word = s.word ∧ s'.pc = s.pc := by
  unfold State.runImmediate at h
  split at h
  · cases h
    exact delegateCancelJob_frame s j _
  · exact jobToUnblockAnotherJob_frame h
  · cases h

/-- **A call of a counter operation is sound.** -/
theorem call_sound {cfg : Config J} {s s' : State T J ℕ} {t : T} {op : Op J}
    (hs : Sound cfg.need s) (h : call cfg.delegate s t op.toDelegate = some s')
    (hok : Undisturbed cfg s (.call t op) s') : Sound cfg.need s' := by
  cases hpc : s.pc t with
  | idle =>
    cases op with
    | tryAlloc need =>
      simp only [call, hpc, Op.toDelegate, client] at h
      cases hw : counterReserveWork need true s.word with
      | some w =>
        rw [hw] at h
        cases h
        exact counterReserveWork_sound hs hw t _
      | none =>
        rw [hw] at h
        cases h
        exact hs.await _
    | alloc j => exact allocAsync_sound hs hpc h
    | allocAsync j => exact allocAsync_sound hs hpc h
    | cancel target r =>
      simp only [call, hpc, Op.toDelegate, if_true] at h
      split at h
      · split at h
        · exact delegateSubmit_sound hs hpc h
        · cases h
      · rename_i hl
        rw [Bool.not_eq_true] at hl
        cases h
        exact hs.step (.acquire (t := t) (w := { s.word with lock := true }) hl rfl rfl)
          (desk_goto _ _ _) (ofCounter_goto hs.points trivial)
    | free count => exact free_sound hs hpc h hok
  | _ => simp only [call, hpc, reduceCtorEq] at h

omit [DecidableEq J] in
/-- The return of `drain_incoming`. -/
theorem afterDrain_sound {need : J → ℕ} {s : State T J ℕ} {t : T} {k : Caller J ℕ}
    (hs : Sound need s) (hr : roleOf (s.pc t) = .draining (callerCopy k)) :
    Sound need (s.afterDrain t k) := by
  cases k with
  | run old =>
    exact hs.step (.drained (t := t) (c := old) hr) (desk_goto _ _ _)
      (ofCounter_goto hs.points trivial)
  | cancel target r => exact hs.goto rfl rfl hr.symm trivial

omit [DecidableEq J] in
/-- The drain moves on, with the lists changed and perhaps the incoming bit. -/
theorem Sound.work {need : J → ℕ} {s s' : State T J ℕ} {t : T} {p : Pc T J ℕ} {b : Bool}
    {c : Option (Word ℕ)} (hs : Sound need s) (hr : roleOf (s.pc t) = .draining c)
    (hw : s'.word = { s.word with incoming := b }) (hpc : s'.pc = s.pc)
    (hp : roleOf p = .draining c) (hoc : OfCounter p) : Sound need (s'.goto t p) := by
  refine hs.step (.work (t := t) (q := s'.queued) (b := b) hr) ?_
    (ofCounter_goto (hpc ▸ hs.points) hoc)
  rw [desk_goto_of_role (by rw [hpc, hp, hr])]
  exact Desk.ext hw rfl (by simp only [desk, hpc])

omit [DecidableEq J] in
/-- The holder changes the lists and enters the loop, or stays before it. -/
theorem Sound.enter {need : J → ℕ} {s s' : State T J ℕ} {t : T} {p : Pc T J ℕ}
    {c : Option (Word ℕ)} (hs : Sound need s) (hr : roleOf (s.pc t) = .draining c)
    (hw : s'.word = s.word) (hpc : s'.pc = s.pc) (hp : roleOf p = .draining none)
    (hoc : OfCounter p) : Sound need (s'.goto t p) := by
  refine hs.step (.enter (t := t) (q := s'.queued) hr) ?_ (ofCounter_goto (hpc ▸ hs.points) hoc)
  rw [desk_goto, hp]
  exact Desk.ext hw rfl (by simp only [desk, hpc])

/-- A job of the queue that only changes the lists is done. -/
theorem Sound.job {need : J → ℕ} {s s' : State T J ℕ} {t : T} {j : J} {c : Word ℕ}
    (hs : Sound need s) (hr : (desk s).role t = .running c) (hw : s'.word = s.word)
    (hpc : s'.pc = s.pc) : Sound need (afterJob s' t j c .done) := by
  refine hs.step (.job (t := t) (q := s'.queued.tail) hr) ?_
    (ofCounter_goto (s := State.signal _ j) (hpc ▸ hs.points) trivial)
  rw [afterJob, desk_goto_of_role]
  · exact Desk.ext hw rfl (by simp only [desk, State.signal, hpc])
  · exact hr.symm.trans (by simp only [desk, State.signal, hpc])

/-- **One iteration of `run_queued_jobs`.** -/
theorem runJob_sound {cfg : Config J} {s s' : State T J ℕ} {t : T} {j : J} {q : List J}
    {old : Word ℕ} (hs : Sound cfg.need s) (hpc : s.pc t = .runQueued old)
    (hq : s.queued = j :: q) (hok : grants cfg s t = true → s.word.incoming = false)
    (h : runJob (client cfg) s t () j old = some s') : Sound cfg.need s' := by
  have hr : (desk s).role t = .running old := by simp only [desk, hpc, roleOf]
  have hf' : (client cfg).func j = cfg.func j := rfl
  cases hf : cfg.func j with
  | user =>
    rw [hf] at hf'
    by_cases hn : s.word.other < cfg.need j
    · -- not enough units: everything blocks, and the loop ends
      have hi : (client cfg).invoke j () s.word.other = (s.word.other, false, .blockAll) :=
        if_pos hn
      simp only [runJob, hf', hi, Bool.false_eq_true, if_false] at h
      cases h
      refine hs.step (.stop (t := t) hr ?_) (desk_goto _ _ _) (ofCounter_goto hs.points trivial)
      intro j' q' hjq
      obtain ⟨rfl, rfl⟩ := List.cons.inj (hq.symm.trans hjq)
      exact hn
    · -- granted: the copy is now the word as it was just read
      have hi : (client cfg).invoke j () s.word.other
          = (s.word.other - cfg.need j, true, .done) := if_neg hn
      have hg : s.word.incoming = false := by
        refine hok ?_
        simp only [grants, hpc, hq, hf, Nat.not_lt.mp hn, decide_true, Bool.and_self]
      simp only [runJob, hf', hi, if_true] at h
      cases h
      exact hs.step (.grant (t := t) hr hg) (desk_goto _ _ _) (ofCounter_goto hs.points trivial)
  | cancelJob target =>
    rw [hf] at hf'
    obtain ⟨hw, hp⟩ := delegateCancelJob_frame s j target
    simp only [runJob, hf'] at h
    cases h
    exact hs.job hr hw hp
  | unblockJob target =>
    rw [hf] at hf'
    simp only [runJob, hf'] at h
    obtain ⟨s₁, h₁, rfl⟩ := Option.map_eq_some_iff.mp h
    obtain ⟨hw, hp⟩ := jobToUnblockAnotherJob_frame h₁
    exact hs.job hr hw hp

/-- **A step of a thread is sound.** -/
theorem move_sound {cfg : Config J} {s s' : State T J ℕ} {t : T}
    (hs : Sound cfg.need s) (h : move cfg.delegate s t () = some s')
    (hok : grants cfg s t = true → s.word.incoming = false) : Sound cfg.need s' := by
  have hwait := hs.inv.waiting
  have hpt := hs.points t
  cases hpc : s.pc t with
  | idle => simp only [move, hpc, reduceCtorEq] at h
  | submitLoop j =>
    simp only [move, hpc] at h
    split at h <;> cases h
    · exact hs.goto rfl rfl (by rw [hpc]; rfl) rfl
    · rename_i hfree
      simp only [Bool.or_eq_true, not_or, Bool.not_eq_true] at hfree
      exact hs.step (.acquire (t := t) (w := { s.word with lock := true }) hfree.2 rfl rfl)
        (desk_goto _ _ _) (ofCounter_goto hs.points trivial)
  | pushRead j lock =>
    simp only [move, hpc] at h
    rw [hpc] at hpt
    cases h
    exact hs.goto rfl rfl (by rw [hpc]; rfl) hpt
  | pushLink j lock old =>
    simp only [move, hpc] at h
    rw [hpc] at hpt
    cases h
    exact hs.goto rfl rfl (by rw [hpc]; rfl) hpt
  | pushSwap j lock old =>
    simp only [move, hpc] at h
    rw [hpc] at hpt
    split at h <;> cases h <;> exact hs.goto rfl rfl (by rw [hpc]; rfl) hpt
  | setBits j lock =>
    simp only [move, hpc] at h
    obtain rfl : lock = true := by rw [hpc] at hpt; exact hpt
    have hout : roleOf (s.pc t) = .out := by rw [hpc]; rfl
    cases hl : s.word.lock with
    | true =>
      simp only [hl, Bool.not_true, Bool.and_false, Bool.false_eq_true, if_false] at h
      cases h
      exact hs.step (.busy (t := t) (w := { s.word with incoming := true, lock := true })
        hl rfl (Nat.le_refl _) rfl hout) (desk_ret_of_out hout) (ofCounter_ret hs.points)
    | false =>
      simp only [hl, Bool.not_false, Bool.and_true, if_true] at h
      cases h
      exact hs.step (.acquire (t := t) (w := { s.word with incoming := true, lock := true })
        hl rfl rfl) (desk_goto _ _ _) (ofCounter_goto hs.points trivial)
  | fastEnqueue j =>
    simp only [move, hpc] at h
    cases h
    exact hs.enter (by rw [hpc]; rfl) rfl rfl rfl trivial
  | runStart =>
    simp only [move, hpc] at h
    cases h
    exact hs.step (.look (t := t) (by simp only [desk, hpc, roleOf]; exact Role.noConfusion))
      (desk_goto _ _ _) (ofCounter_goto hs.points trivial)
  | drainTest k =>
    simp only [move, hpc] at h
    split at h <;> cases h
    · exact hs.goto rfl rfl (by rw [hpc]; rfl) trivial
    · exact afterDrain_sound hs (by rw [hpc]; rfl)
  | drainClear k =>
    simp only [move, hpc] at h
    cases h
    exact hs.work (by rw [hpc]; rfl) rfl rfl rfl trivial
  | drainTake k =>
    simp only [move, hpc] at h
    cases h
    exact hs.goto rfl rfl (by rw [hpc]; rfl) trivial
  | drainLoop k job last imm =>
    simp only [move, hpc] at h
    cases job with
    | null =>
      cases h
      exact hs.goto rfl rfl (by rw [hpc]; rfl) trivial
    | bad => cases h
    | job j =>
      cases h
      unfold drainJob
      split
      · exact hs.goto rfl rfl (by rw [hpc]; rfl) trivial
      · exact hs.work (b := s.word.incoming) (by rw [hpc]; rfl) rfl rfl rfl trivial
  | drainImmediate k imm =>
    simp only [move, hpc] at h
    cases imm with
    | nil =>
      cases h
      exact afterDrain_sound hs (by rw [hpc]; rfl)
    | cons j imm =>
      obtain ⟨s₁, h₁, rfl⟩ := Option.map_eq_some_iff.mp h
      obtain ⟨hw, hp⟩ := runImmediate_frame h₁
      refine hs.work (b := s.word.incoming) (by rw [hpc]; rfl) ?_ ?_ rfl trivial
      · exact hw
      · exact hp
  | runQueued old =>
    simp only [move, hpc] at h
    split at h
    · rename_i hq
      cases h
      refine hs.step (.stop (t := t) (c := old) (by simp only [desk, hpc, roleOf]) ?_)
        (desk_goto _ _ _) (ofCounter_goto hs.points trivial)
      intro j q hjq
      rw [desk, hq] at hjq
      cases hjq
    · rename_i hq
      exact runJob_sound hs hpc hq hok h
  | release old =>
    have hr : (desk s).role t = .releasing old := by simp only [desk, hpc, roleOf]
    simp only [move, hpc] at h
    split at h
    · rename_i hw
      subst hw
      simp only [show s.word.waiting = false from hwait, Bool.false_eq_true, if_false] at h
      cases h
      refine hs.step (.release (t := t) hr) ?_ (ofCounter_ret hs.points)
      rw [desk_ret]
      simp only [desk, released, show s.word.waiting = false from hwait, Bool.false_eq_true,
        if_false]
    · cases h
      exact hs.step (.look (t := t) (by rw [hr]; exact Role.noConfusion))
        (desk_goto _ _ _) (ofCounter_goto hs.points trivial)
  | unlock | wakeup | waitLock | unblockNow =>
    rw [hpc] at hpt
    exact hpt.elim
  | cancelRemove target r =>
    simp only [move, hpc] at h
    cases h
    obtain ⟨hw, hp⟩ := delegateCancelJob_frame s r target
    exact hs.enter (by rw [hpc]; rfl) hw hp rfl trivial
  | waitEvent j =>
    simp only [move, hpc] at h
    split at h <;> cases h
    exact hs.goto rfl rfl (by rw [hpc]; rfl) trivial

omit [DecidableEq T] [DecidableEq J] in
/-- A counter that was just initialised is sound. -/
theorem init_sound (need : J → ℕ) (n : ℕ) : Sound need (init n : State T J ℕ) := by
  refine ⟨⟨rfl, ?_, ?_, ?_, ?_, ?_, ?_⟩, fun _ => trivial⟩ <;> simp [desk, init, roleOf, Role.copy]

/-- **A counter at rest leaves no request stranded**, on every run in which no
allocation is granted from the queue while the incoming bit is set and no units
are given back past `2 ^ 32` while the lock is held. -/
theorem atRest_of_undisturbed (cfg : Config J) (s : State T J ℕ)
    (h : (machine T cfg).Reach (Undisturbed cfg) s) (hl : s.word.lock = false) :
    s.word.incoming = false ∧
      (s.word.pending = true → ∃ j q, s.queued = j :: q ∧ s.word.other < cfg.need j) := by
  have hsound : Sound cfg.need s := by
    refine Machine.Reach.invariant (I := Sound cfg.need) ?_ ?_ h
    · rintro s rfl
      exact init_sound _ _
    · intro s e s' hs he hok
      cases e with
      | call t op => exact call_sound hs he hok
      | move t => exact move_sound hs he hok
  exact hsound.inv.atRest hl

/-! ## A run that strands a request -/

/-- Two units, and requests for one unit each. -/
abbrev twoUnits : Config (Fin 2) where
  max := 2
  max_lt := by decide
  hardMax := true
  need := fun _ => 1
  func := fun _ => .user

/-- Thread `0` takes both units; thread `1` asks for one and queues its request
as the runner of the delegate. -/
def queueOne : List (Event (Fin 3) (Fin 2)) :=
  .call 0 (.tryAlloc 2) :: .call 1 (.allocAsync 0) :: List.replicate 4 (.move 1)

/-- Before the runner looks at the queue, thread `0` gives both units back and
thread `2` submits a request; the runner then grants the queued one, and its
copy of the word has the incoming bit set. -/
def strandRun : List (Event (Fin 3) (Fin 2)) :=
  queueOne ++ [.call 0 (.free 2), .call 2 (.allocAsync 1), .move 2, .move 2, .move 2] ++
    List.replicate 3 (.move 1)

/-- **A request can be stranded**: after `strandRun` nobody holds the lock, no
thread is inside the delegate, the incoming bit is set and a unit is available
for the request that waits. -/
theorem exists_request_stranded :
    ∃ s : State (Fin 3) (Fin 2) ℕ,
      (machine (Fin 3) twoUnits).Reach Machine.anyStep s ∧ s.word.lock = false
        ∧ s.word.incoming = true ∧ (∀ t, s.pc t = .idle) ∧ s.stack = some 1
        ∧ twoUnits.need 1 ≤ s.word.other := by
  obtain ⟨s, hs, hp⟩ := Machine.Reach.exists_of_exec (machine (Fin 3) twoUnits)
    Machine.anyStep rfl
    (p := fun s => decide (s.word.lock = false ∧ s.word.incoming = true ∧ (∀ t, s.pc t = .idle)
      ∧ s.stack = some 1 ∧ twoUnits.need 1 ≤ s.word.other)) strandRun (by decide)
  exact ⟨s, hs, of_decide_eq_true hp⟩

/-- A request that cannot be served yet is left pending, at rest. -/
theorem atRest_pending :
    ∃ s : State (Fin 3) (Fin 2) ℕ,
      s.word.lock = false ∧ s.word.pending = true ∧ s.word.incoming = false
        ∧ ∃ j q, s.queued = j :: q ∧ s.word.other < twoUnits.need j := by
  obtain ⟨s, hs, hp⟩ := Machine.Reach.exists_of_exec (machine (Fin 3) twoUnits)
    (Undisturbed twoUnits) rfl
    (p := fun s => decide (s.word.lock = false ∧ s.word.pending = true))
    (queueOne ++ List.replicate 2 (.move 1)) (by decide)
  replace hp := of_decide_eq_true hp
  obtain ⟨hi, hq⟩ := atRest_of_undisturbed twoUnits s hs hp.1
  exact ⟨s, hp.1, hp.2, hi, hq hp.2⟩

end Counter
