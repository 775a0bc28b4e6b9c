import Mathlib

/-!
# Words whose bits belong to different owners

A machine word packs several fields, and a masked compare-and-swap replaces
some bits of it and retains the others. Everything is read bit by bit here: a
masked swap succeeds exactly if the replaced bits are the expected ones, and
leaves every retained bit alone.
-/

namespace Word

variable {n : ℕ}

/-- **A masked compare-and-swap**: the bits that are set in `retain` stay as they
are, the others are compared with those of `old` and replaced by those of
`new`. -/
def swapWithMask (var retain old new : BitVec n) : Option (BitVec n) :=
  if var &&& ~~~retain = old &&& ~~~retain then some ((var &&& retain) ||| (new &&& ~~~retain))
  else none

/-- The mask of one bit. -/
def bit (n i : ℕ) : BitVec n := BitVec.twoPow n i

/-- The bits of a one-bit mask. -/
theorem getLsbD_bit {i j : ℕ} (hi : i < n) : (bit n i).getLsbD j = decide (i = j) := by
  rw [bit, BitVec.getLsbD_twoPow, decide_eq_true hi, Bool.true_and]

/-- Testing a word against a one-bit mask. -/
theorem and_bit_eq_zero {v : BitVec n} {i : ℕ} (hi : i < n) :
    v &&& bit n i = 0#n ↔ v.getLsbD i = false := by
  constructor
  · intro h
    have := congrArg (fun w => w.getLsbD i) h
    simpa [getLsbD_bit hi] using this
  · intro h
    rw [bit, BitVec.and_twoPow, h]
    rfl

/-- Words agree under a mask if they agree in every bit of it. -/
theorem and_eq_and_iff {v w m : BitVec n} :
    v &&& m = w &&& m ↔ ∀ i, m.getLsbD i = true → v.getLsbD i = w.getLsbD i := by
  constructor
  · intro h i hi
    have := congrArg (fun w => w.getLsbD i) h
    simpa [hi] using this
  · intro h
    refine BitVec.eq_of_getLsbD_eq fun i _ => ?_
    rw [BitVec.getLsbD_and, BitVec.getLsbD_and]
    cases hm : m.getLsbD i with
    | true => rw [h i hm]
    | false => rw [Bool.and_false, Bool.and_false]

/-- The bits after a masked replacement. -/
theorem getLsbD_replace {v w m : BitVec n} {i : ℕ} :
    ((v &&& ~~~m) ||| (w &&& m)).getLsbD i = if m.getLsbD i then w.getLsbD i else v.getLsbD i := by
  by_cases hi : i < n
  · rw [BitVec.getLsbD_or, BitVec.getLsbD_and, BitVec.getLsbD_and, BitVec.getLsbD_not,
      decide_eq_true hi]
    cases m.getLsbD i <;> simp
  · have h0 : ∀ x : BitVec n, x.getLsbD i = false := fun x =>
      BitVec.getLsbD_of_ge x i (Nat.le_of_not_lt hi)
    simp only [h0]
    rfl

/-- A masked swap that finds the expected bits. -/
theorem swapWithMask_pos {var m old new : BitVec n}
    (h : ∀ i, m.getLsbD i = true → var.getLsbD i = old.getLsbD i) :
    swapWithMask var (~~~m) old new = some ((var &&& ~~~m) ||| (new &&& m)) := by
  rw [swapWithMask, BitVec.not_not, if_pos (and_eq_and_iff.mpr h)]

/-- A masked swap that finds another bit. -/
theorem swapWithMask_neg {var m old new : BitVec n} {i : ℕ} (hi : m.getLsbD i = true)
    (h : var.getLsbD i ≠ old.getLsbD i) : swapWithMask var (~~~m) old new = none := by
  rw [swapWithMask, BitVec.not_not, if_neg fun heq => h (and_eq_and_iff.mp heq i hi)]

end Word
