import Mathlib

/-!
# Counting threads

An invariant of a lock says how many threads are at one kind of program
point. A *tally* adds up a weight over the local states of finitely many
threads, and this module says what a tally does when one thread moves, or
when a whole list of threads does.
-/

variable {ι α : Type*} [Fintype ι] [DecidableEq ι]

/-- The sum of a weight over the local states of all threads. -/
def tally (w : α → ℕ) (f : ι → α) : ℕ := ∑ i, w (f i)

omit [DecidableEq ι] in
/-- No thread weighs more than all of them. -/
theorem le_tally (w : α → ℕ) (f : ι → α) (i : ι) : w (f i) ≤ tally w f :=
  Finset.single_le_sum (f := fun i => w (f i)) (fun _ _ => Nat.zero_le _) (Finset.mem_univ i)

/-- Two threads weigh no more than all of them. -/
theorem add_le_tally (w : α → ℕ) (f : ι → α) {i j : ι} (h : i ≠ j) :
    w (f i) + w (f j) ≤ tally w f := by
  have hsub : ({i, j} : Finset ι) ⊆ Finset.univ := Finset.subset_univ _
  have hle := Finset.sum_le_sum_of_subset (f := fun i => w (f i)) hsub
  rw [Finset.sum_pair h] at hle
  exact hle

/-- **One thread moves**: its old weight leaves the tally and its new one
enters. -/
theorem tally_update (w : α → ℕ) (f : ι → α) (i : ι) (a : α) :
    tally w (Function.update f i a) + w (f i) = tally w f + w a := by
  have hne : ∀ j ∈ (Finset.univ : Finset ι).erase i,
      w (Function.update f i a j) = w (f j) := by
    intro j hj
    rw [Function.update_of_ne (Finset.ne_of_mem_erase hj)]
  have hold := Finset.add_sum_erase Finset.univ (fun j => w (f j)) (Finset.mem_univ i)
  have hnew := Finset.add_sum_erase Finset.univ
    (fun j => w (Function.update f i a j)) (Finset.mem_univ i)
  rw [Function.update_self, Finset.sum_congr rfl hne] at hnew
  unfold tally
  omega

omit [DecidableEq ι] in
/-- A tally is empty exactly when no thread has weight. -/
theorem tally_eq_zero {w : α → ℕ} {f : ι → α} : tally w f = 0 ↔ ∀ i, w (f i) = 0 := by
  rw [tally, Finset.sum_eq_zero_iff]
  exact ⟨fun h i => h i (Finset.mem_univ i), fun h i _ => h i⟩

omit [DecidableEq ι] in
/-- A tally depends only on the weights. -/
theorem tally_congr {β : Type*} {w : α → ℕ} {w' : β → ℕ} {f : ι → α} {g : ι → β}
    (h : ∀ i, w (f i) = w' (g i)) : tally w f = tally w' g :=
  Finset.sum_congr rfl (fun i _ => h i)
