import Lwlock.Machine

/-!
# Traces and refinement

What a machine does is told by labels: a step has a label, or it is silent, and
the trace of a run is the list of the labels of its steps. An abstract machine is
a relation that says what a label does to an abstract state. A machine refines it
along a relation between the two states – a *forward simulation* – when every
silent step keeps the relation and every step with a label is answered by the
abstract step of that label; then every trace is one of the abstract machine.
-/

variable {σ ε α τ : Type*}

namespace Machine

/-- **The traces of a machine**: its runs, with the labels of their steps. -/
inductive Trace (M : Machine σ ε) (label : σ → ε → Option α) : σ → List α → σ → Prop
  | refl (s : σ) : Trace M label s [] s
  | tail {s t u : σ} {ls : List α} {e : ε} : Trace M label s ls t → M.step t e = some u →
      Trace M label s (ls ++ (label t e).toList) u

/-- What an abstract machine accepts. -/
inductive Accepts (step : τ → α → τ → Prop) : τ → List α → τ → Prop
  | refl (a : τ) : Accepts step a [] a
  | tail {a b c : τ} {ls : List α} {l : α} : Accepts step a ls b → step b l c →
      Accepts step a (ls ++ [l]) c

/-- **A forward simulation**: silent steps keep the relation, and steps with a label
are answered. -/
structure Simulates (M : Machine σ ε) (label : σ → ε → Option α) (step : τ → α → τ → Prop)
    (R : σ → τ → Prop) : Prop where
  silent : ∀ {s s' e a}, R s a → M.step s e = some s' → label s e = none → R s' a
  visible : ∀ {s s' e a l}, R s a → M.step s e = some s' → label s e = some l →
    ∃ a', step a l a' ∧ R s' a'

variable {M : Machine σ ε} {label : σ → ε → Option α} {step : τ → α → τ → Prop}
  {R : σ → τ → Prop}

/-- What answers a step: nothing if it is silent, and the step of its label if not. -/
def Answer (step : τ → α → τ → Prop) : Option α → τ → τ → Prop
  | none, a, b => b = a
  | some l, a, b => step a l b

/-- A relation is a forward simulation if every step is answered along it. -/
theorem Simulates.of_answer (h : ∀ {s s' e a}, R s a → M.step s e = some s' →
    ∃ a', Answer step (label s e) a a' ∧ R s' a') : M.Simulates label step R where
  silent := by
    intro s s' e a hR he hl
    obtain ⟨a', ha, hR'⟩ := h hR he
    rw [hl] at ha
    exact ha ▸ hR'
  visible := by
    intro s s' e a l hR he hl
    obtain ⟨a', ha, hR'⟩ := h hR he
    rw [hl] at ha
    exact ⟨a', ha, hR'⟩

/-- **Refinement**: every trace of the machine is accepted by the abstract one, and
the states stay related. -/
theorem Trace.refines {s₀ s : σ} {ls : List α} (h : M.Trace label s₀ ls s)
    (hsim : M.Simulates label step R) {a₀ : τ} (h₀ : R s₀ a₀) :
    ∃ a, Accepts step a₀ ls a ∧ R s a := by
  induction h with
  | refl => exact ⟨a₀, Accepts.refl a₀, h₀⟩
  | @tail t u ls e _ he ih =>
    obtain ⟨a, hacc, ha⟩ := ih
    cases hl : label t e with
    | none =>
      rw [Option.toList_none, List.append_nil]
      exact ⟨a, hacc, hsim.silent ha he hl⟩
    | some l =>
      obtain ⟨a', hstep, ha'⟩ := hsim.visible ha he hl
      exact ⟨a', hacc.tail hstep, ha'⟩

/-- What the abstract machine keeps holds of what it accepts. -/
theorem Accepts.invariant {I : τ → Prop} (hstep : ∀ a l b, I a → step a l b → I b) {a b : τ}
    {ls : List α} (h : Accepts step a ls b) (ha : I a) : I b := by
  induction h with
  | refl => exact ha
  | tail _ hs ih => exact hstep _ _ _ ih hs

/-- **Guarded runs of a machine are runs of an abstract one**, if every step they admit is
answered by abstract steps, some or none. -/
theorem Reach.refines {next : τ → τ → Prop} {ok : σ → ε → σ → Prop} {a₀ : τ}
    (h₀ : ∀ s, M.start s → R s a₀)
    (hstep : ∀ {s s' e a}, R s a → M.step s e = some s' → ok s e s' →
      ∃ a', Relation.ReflTransGen next a a' ∧ R s' a') {s : σ} (h : M.Reach ok s) :
    ∃ a, Relation.ReflTransGen next a₀ a ∧ R s a := by
  refine h.invariant (I := fun s => ∃ a, Relation.ReflTransGen next a₀ a ∧ R s a)
    (fun s hs => ⟨a₀, .refl, h₀ s hs⟩) ?_
  rintro s e s' ⟨a, hrun, hR⟩ he hok
  obtain ⟨a', hrun', hR'⟩ := hstep hR he hok
  exact ⟨a', hrun.trans hrun', hR'⟩

/-- Execute a schedule and write down its trace. -/
def execTrace (M : Machine σ ε) (label : σ → ε → Option α) (s : σ) : List ε → Option (List α × σ)
  | [] => some ([], s)
  | e :: es => (M.step s e).bind fun s' =>
    (execTrace M label s' es).map fun p => ((label s e).toList ++ p.1, p.2)

/-- Traces compose. -/
theorem Trace.trans {s t u : σ} {ls ls' : List α} (h : M.Trace label s ls t)
    (h' : M.Trace label t ls' u) : M.Trace label s (ls ++ ls') u := by
  induction h' with
  | refl => rwa [List.append_nil]
  | tail _ he ih =>
    rw [← List.append_assoc]
    exact ih.tail he

/-- What a schedule executes to is a trace. -/
theorem Trace.of_exec {s s' : σ} {ls : List α} {es : List ε}
    (h : M.execTrace label s es = some (ls, s')) : M.Trace label s ls s' := by
  induction es generalizing s ls with
  | nil =>
    rw [execTrace, Option.some.injEq, Prod.mk.injEq] at h
    obtain ⟨rfl, rfl⟩ := h
    exact Trace.refl s
  | cons e es ih =>
    rw [execTrace, Option.bind_eq_some_iff] at h
    obtain ⟨t, he, h⟩ := h
    obtain ⟨⟨ls', u⟩, hrest, h⟩ := Option.map_eq_some_iff.mp h
    rw [Prod.mk.injEq] at h
    obtain ⟨rfl, rfl⟩ := h
    have hfirst := (Trace.refl s : M.Trace label s [] s).tail he
    rw [List.nil_append] at hfirst
    exact hfirst.trans (ih hrest)

/-- **Reading a schedule**: what a test finds true after a schedule is true after some
trace. -/
theorem Trace.exists_of_exec {s : σ} {p : List α × σ → Bool} (es : List ε)
    (h : (M.execTrace label s es).any p = true) :
    ∃ ls s', M.Trace label s ls s' ∧ p (ls, s') = true := by
  cases he : M.execTrace label s es with
  | none =>
    rw [he] at h
    cases h
  | some q =>
    rw [he] at h
    exact ⟨q.1, q.2, Trace.of_exec he, h⟩

end Machine
