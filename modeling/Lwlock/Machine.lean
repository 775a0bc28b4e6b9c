import Mathlib

/-!
# Runs of a machine of atomic steps

A concurrent program is read as a machine: a state, and a partial function
that says which state an atomic step leads to, or that the step cannot be
taken there. Threads do not appear at this level. A schedule is a list of
events, and an event says who moves and how the program's own choices are
resolved.

Two readings of a run are kept side by side: `Machine.exec` executes a
schedule and computes, and `Machine.Run` is the inductive reading that
invariants are proved over. A run may be *guarded*: `Machine.Run ok` admits
only the steps that satisfy `ok` at the state they are taken from and the
state they lead to, which is how an assumption about every step of a run is
written. The unguarded runs are those guarded by `Machine.anyStep`.
-/

variable {σ ε : Type*}

/-- **A machine**: the states it may start in, and what an atomic step does. -/
structure Machine (σ ε : Type*) where
  /-- The initial states. -/
  start : σ → Prop
  /-- The state after an event, when the event can happen. -/
  step : σ → ε → Option σ

namespace Machine

/-- The guard that admits every step. -/
def anyStep : σ → ε → σ → Prop := fun _ _ _ => True

/-- **The runs of a machine** all of whose steps satisfy the guard `ok`. -/
inductive Run (M : Machine σ ε) (ok : σ → ε → σ → Prop) : σ → σ → Prop
  | refl (s : σ) : Run M ok s s
  | tail {s t u : σ} {e : ε} : Run M ok s t → M.step t e = some u → ok t e u → Run M ok s u

/-- The states a guarded run reaches from an initial state. -/
def Reach (M : Machine σ ε) (ok : σ → ε → σ → Prop) (s : σ) : Prop :=
  ∃ s₀, M.start s₀ ∧ M.Run ok s₀ s

/-- Execute a schedule, as long as its steps satisfy the guard. -/
def exec (M : Machine σ ε) (ok : σ → ε → σ → Prop) [∀ s e s', Decidable (ok s e s')] (s : σ) :
    List ε → Option σ
  | [] => some s
  | e :: es => (M.step s e).bind fun s' => if ok s e s' then exec M ok s' es else none

instance (s : σ) (e : ε) (s' : σ) : Decidable (anyStep s e s') :=
  inferInstanceAs (Decidable True)

variable {M : Machine σ ε} {ok : σ → ε → σ → Prop}

/-- **The invariant rule**: what holds initially and is kept by every
admitted step holds in every state reached. -/
theorem Reach.invariant {I : σ → Prop} (h₀ : ∀ s, M.start s → I s)
    (hstep : ∀ s e s', I s → M.step s e = some s' → ok s e s' → I s')
    {s : σ} (h : M.Reach ok s) : I s := by
  obtain ⟨s₀, hs₀, hrun⟩ := h
  induction hrun with
  | refl => exact h₀ _ hs₀
  | tail _ he hok ih => exact hstep _ _ _ ih he hok

/-- An initial state is reached by the run of no step. -/
theorem Reach.init {s : σ} (h : M.start s) : M.Reach ok s :=
  ⟨s, h, Run.refl s⟩

/-- A reached state stays reached along an admitted step. -/
theorem Reach.tail {s s' : σ} {e : ε} (h : M.Reach ok s) (he : M.step s e = some s')
    (hok : ok s e s') : M.Reach ok s' := by
  obtain ⟨s₀, hs₀, hrun⟩ := h
  exact ⟨s₀, hs₀, hrun.tail he hok⟩

/-- Runs compose. -/
theorem Run.trans {s t u : σ} (h : M.Run ok s t) (h' : M.Run ok t u) : M.Run ok s u := by
  induction h' with
  | refl => exact h
  | tail _ he hok ih => exact ih.tail he hok

/-- A weaker guard has more runs. -/
theorem Run.mono {ok' : σ → ε → σ → Prop} {s t : σ} (h : M.Run ok s t)
    (himp : ∀ s e s', ok s e s' → ok' s e s') : M.Run ok' s t := by
  induction h with
  | refl => exact Run.refl _
  | tail _ he hok ih => exact ih.tail he (himp _ _ _ hok)

/-- What a run reaches from a reached state is reached. -/
theorem Reach.run {s s' : σ} (h : M.Reach ok s) (hrun : M.Run ok s s') : M.Reach ok s' := by
  obtain ⟨s₀, hs₀, hrun₀⟩ := h
  exact ⟨s₀, hs₀, hrun₀.trans hrun⟩

variable [∀ s e s', Decidable (ok s e s')]

/-- **A schedule is a run.** -/
theorem Run.exec {s₀ s s' : σ} (h : M.Run ok s₀ s) {es : List ε}
    (he : M.exec ok s es = some s') : M.Run ok s₀ s' := by
  induction es generalizing s with
  | nil =>
    rw [Machine.exec, Option.some.injEq] at he
    exact he ▸ h
  | cons e es ih =>
    rw [Machine.exec] at he
    obtain ⟨t, ht, he⟩ := Option.bind_eq_some_iff.mp he
    split at he
    · rename_i hok
      exact ih (h.tail ht hok) he
    · cases he

/-- What a schedule executes to is reached. -/
theorem Reach.exec {s s' : σ} (h : M.Reach ok s) {es : List ε}
    (he : M.exec ok s es = some s') : M.Reach ok s' := by
  obtain ⟨s₀, hs₀, hrun⟩ := h
  exact ⟨s₀, hs₀, hrun.exec he⟩

variable (M ok) in
/-- **Reading a schedule**: what a test finds true after a schedule is true in
some reached state. -/
theorem Reach.exists_of_exec {s : σ} (h : M.start s) {p : σ → Bool} (es : List ε)
    (he : (M.exec ok s es).any p = true) : ∃ s', M.Reach ok s' ∧ p s' = true := by
  obtain ⟨s', hs', hp⟩ := (Option.any_eq_true_iff_get _ _).mp he |>.elim
    (fun hsome hp => (⟨_, Option.some_get hsome |>.symm, hp⟩ :
      ∃ s', M.exec ok s es = some s' ∧ p s' = true))
  exact ⟨s', (Reach.init h).exec hs', hp⟩

variable (M ok) in
/-- **Reading a step in the middle of a schedule.** -/
theorem Reach.exists_step_of_exec {s : σ} (h : M.start s) {p : σ → σ → Bool} (es : List ε) (e : ε)
    (es' : List ε) (he : ((M.exec ok s es).any fun q => (M.step q e).any fun q₁ =>
      decide (ok q e q₁) && (M.exec ok q₁ es').any fun q₂ => p q q₂) = true) :
    ∃ q q₁ q₂, M.Reach ok q ∧ M.step q e = some q₁ ∧ ok q e q₁ ∧ M.Run ok q₁ q₂ ∧ p q q₂ = true := by
  have hany : ∀ {α : Type _} {o : Option α} {f : α → Bool}, o.any f = true → ∃ a, o = some a ∧ f a = true := by
    intro α o f h
    cases o with
    | none => cases h
    | some a => exact ⟨a, rfl, h⟩
  obtain ⟨q, hq, he⟩ := hany he
  obtain ⟨q₁, hq₁, he⟩ := hany he
  obtain ⟨hok, he⟩ := (Bool.and_eq_true _ _).mp he
  obtain ⟨q₂, hq₂, hp⟩ := hany he
  exact ⟨q, q₁, q₂, (Reach.init h).exec hq, hq₁, of_decide_eq_true hok, (Run.refl q₁).exec hq₂, hp⟩

/-! ## The threads of a schedule

A schedule that is written down names its threads by the numbers below two, three or four. -/

instance twoThreads : NeZero 2 := ⟨two_ne_zero⟩

instance threeThreads : NeZero 3 := ⟨three_ne_zero⟩

instance fourThreads : NeZero 4 := ⟨four_ne_zero⟩

end Machine
