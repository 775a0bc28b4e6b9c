import Lwlock.Machine

/-!
# Machines that remember

What a program is asked to keep is often said about its past: how often something
happened, what was asked for, what was granted. A *history variable* is carried along a
run beside the state, is written by every step, and is read by none, so that a machine
that remembers has the same runs.
-/

variable {σ ε η : Type*}

namespace Machine

/-- **A machine that remembers**: beside its states go values of a history variable. -/
def remember (M : Machine σ ε) (h₀ : η) (record : σ → ε → σ → η → η) : Machine (σ × η) ε where
  start := fun p => M.start p.1 ∧ p.2 = h₀
  step := fun p e => (M.step p.1 e).map fun s => (s, record p.1 e s p.2)

variable {M : Machine σ ε} {h₀ : η} {record : σ → ε → σ → η → η}

theorem step_remember {p q : σ × η} {e : ε} :
    (M.remember h₀ record).step p e = some q ↔
      M.step p.1 e = some q.1 ∧ q.2 = record p.1 e q.1 p.2 := by
  rw [remember, Option.map_eq_some_iff]
  constructor
  · rintro ⟨s, hs, rfl⟩
    exact ⟨hs, rfl⟩
  · rintro ⟨hs, hq⟩
    exact ⟨q.1, hs, by rw [← hq]⟩

/-- Forgetting the history leaves a run. -/
theorem Run.forget {ok : σ × η → ε → σ × η → Prop} {p q : σ × η}
    (h : (M.remember h₀ record).Run ok p q) : M.Run anyStep p.1 q.1 := by
  induction h with
  | refl => exact Run.refl _
  | tail _ he _ ih => exact ih.tail (step_remember.mp he).1 trivial

/-- What is reached with a history is reached. -/
theorem Reach.forget {ok : σ × η → ε → σ × η → Prop} {p : σ × η}
    (h : (M.remember h₀ record).Reach ok p) : M.Reach anyStep p.1 := by
  obtain ⟨p₀, ⟨hs, -⟩, hrun⟩ := h
  exact ⟨p₀.1, hs, hrun.forget⟩

end Machine
