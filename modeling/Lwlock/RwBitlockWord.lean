import Lwlock.RwBitlock
import Lwlock.Word

/-!
# The word of a reader-writer bitlock

The two fields of a lock stand in a word that also holds data of somebody else, its
*payload*. The code takes the fields out of the word by masks, adds to the count where it
stands, and compares what it has read with a mask or with another word.

A word is put together from its payload, the writer bit and the count, and what the masks
and the sums of the code make of such a word is computed here once. Comparisons of masked
words come out as comparisons of fields; a comparison of whole words is also one of
payloads.
-/

namespace RwBitlock

variable {C K ι : Type}

/-- `writer_mask`. -/
def Config.writerMask (cfg : Config K ι) (k : K) : BitVec 32 :=
  1#32 <<< cfg.startBit k

/-- `reader_mask`. -/
def Config.readerMask (cfg : Config K ι) (k : K) : BitVec 32 :=
  ((1#32 <<< (cfg.numBits k - 1)) - 1#32) <<< (cfg.startBit k + 1)

/-- `reader_inc`. -/
def Config.readerInc (cfg : Config K ι) (k : K) : BitVec 32 :=
  1#32 <<< (cfg.startBit k + 1)

/-- The bits of the lock. -/
def Config.lockMask (cfg : Config K ι) (k : K) : BitVec 32 :=
  cfg.readerMask k ||| cfg.writerMask k

/-- A count where it stands in the word. -/
def Config.readers (cfg : Config K ι) (k : K) (r : ℕ) : BitVec 32 :=
  BitVec.ofNat 32 r <<< (cfg.startBit k + 1)

/-- A writer bit where it stands in the word. -/
def Config.writer (cfg : Config K ι) (k : K) (w : Bool) : BitVec 32 :=
  if w then cfg.writerMask k else 0#32

/-- **A word put together** from a payload and the two fields. -/
def Config.word (cfg : Config K ι) (k : K) (pay : BitVec 32) (w : Bool) (r : ℕ) : BitVec 32 :=
  (pay ||| cfg.writer k w) ||| cfg.readers k r

/-- The payload leaves the bits of the lock alone. -/
def Config.Outside (cfg : Config K ι) (k : K) (pay : BitVec 32) : Prop :=
  pay &&& cfg.lockMask k = 0#32

variable (cfg : Config K ι) (k : K)

/-! ## Fields in place -/

/-- The saturated count and one more are a power of two. -/
theorem Config.maxReaders_add_one : cfg.maxReaders k + 1 = 2 ^ (cfg.numBits k - 1) := by
  rw [Config.maxReaders]
  have := Nat.two_pow_pos (cfg.numBits k - 1)
  omega

/-- A bit less one is the bits below it. -/
theorem one_shiftLeft_sub_one (m : ℕ) :
    (1#32 <<< m) - 1#32 = BitVec.ofNat 32 (2 ^ m - 1) := by
  have hone : 1#32 <<< m = BitVec.ofNat 32 (2 ^ m - 1) + 1#32 := by
    have hpos := Nat.two_pow_pos m
    rw [← BitVec.ofNat_add, Nat.sub_add_cancel hpos]
    refine BitVec.eq_of_toNat_eq ?_
    rw [BitVec.toNat_shiftLeft, BitVec.toNat_ofNat, BitVec.toNat_ofNat, Nat.shiftLeft_eq,
      Nat.mod_eq_of_lt (show 1 < 2 ^ 32 by decide), Nat.one_mul]
  rw [hone, BitVec.add_sub_cancel]

/-- The bits below a bit are others. -/
theorem one_shiftLeft_and_sub_one (m : ℕ) : (1#32 <<< m) &&& ((1#32 <<< m) - 1#32) = 0#32 := by
  refine BitVec.eq_of_getLsbD_eq fun i hi => ?_
  have hbelow : (BitVec.ofNat 32 (2 ^ m - 1)).getLsbD i = decide (i < m) := by
    rw [BitVec.getLsbD_ofNat, Nat.testBit_two_pow_sub_one, decide_eq_true hi, Bool.true_and]
  rw [one_shiftLeft_sub_one, BitVec.getLsbD_and, hbelow, BitVec.getLsbD_zero,
    BitVec.getLsbD_shiftLeft]
  cases decide (i < m) <;> simp

/-- The mask of the count is the saturated count. -/
theorem Config.readerMask_eq : cfg.readerMask k = cfg.readers k (cfg.maxReaders k) := by
  rw [Config.readerMask, one_shiftLeft_sub_one, Config.readers, Config.maxReaders]

/-- What is added for a reader stands above the writer bit. -/
theorem Config.readerInc_eq_shiftLeft : cfg.readerInc k = cfg.writerMask k <<< 1 :=
  BitVec.shiftLeft_add _ _ _

/-- What is added for a reader is a count of one. -/
theorem Config.readerInc_eq : cfg.readerInc k = cfg.readers k 1 := rfl

variable {cfg k} {pay pay' : BitVec 32} {w w' : Bool} {r r' : ℕ}

/-- A count that fits is shifted to its place. -/
theorem toNat_readers (h : r ≤ cfg.maxReaders k) :
    (cfg.readers k r).toNat = r * 2 ^ (cfg.startBit k + 1) := by
  have hpow := cfg.maxReaders_add_one k
  have hfits := cfg.fits k
  have hthree := cfg.three_le k
  have hlt : r * 2 ^ (cfg.startBit k + 1) < 2 ^ 32 := by
    calc r * 2 ^ (cfg.startBit k + 1)
        < 2 ^ (cfg.numBits k - 1) * 2 ^ (cfg.startBit k + 1) :=
          Nat.mul_lt_mul_of_pos_right (by omega) (Nat.two_pow_pos _)
      _ = 2 ^ (cfg.numBits k - 1 + (cfg.startBit k + 1)) := (Nat.pow_add 2 _ _).symm
      _ ≤ 2 ^ 32 := Nat.pow_le_pow_right Nat.two_pos (by omega)
  have hr : r < 2 ^ 32 :=
    lt_of_le_of_lt (Nat.le_mul_of_pos_right r (Nat.two_pow_pos _)) hlt
  rw [Config.readers, BitVec.toNat_shiftLeft, BitVec.toNat_ofNat, Nat.mod_eq_of_lt hr,
    Nat.shiftLeft_eq, Nat.mod_eq_of_lt hlt]

/-- Counts that fit are told apart in the word. -/
theorem readers_inj (h : r ≤ cfg.maxReaders k) (h' : r' ≤ cfg.maxReaders k) :
    cfg.readers k r = cfg.readers k r' ↔ r = r' := by
  constructor
  · intro heq
    have := congrArg BitVec.toNat heq
    rw [toNat_readers h, toNat_readers h'] at this
    exact Nat.eq_of_mul_eq_mul_right (Nat.two_pow_pos _) this
  · rintro rfl
    rfl

/-- The bits of a count. -/
theorem getLsbD_readers (h : r ≤ cfg.maxReaders k) (i : ℕ) :
    (cfg.readers k r).getLsbD i
      = (decide (cfg.startBit k + 1 ≤ i) && r.testBit (i - (cfg.startBit k + 1))) := by
  rw [BitVec.getLsbD, toNat_readers h, Nat.testBit_mul_two_pow]

/-- A count has no bits past the lock. -/
theorem testBit_of_le (h : r ≤ cfg.maxReaders k) {i : ℕ} (hi : cfg.numBits k - 1 ≤ i) :
    r.testBit i = false := by
  have hpow := cfg.maxReaders_add_one k
  refine Nat.testBit_lt_two_pow (lt_of_lt_of_le (b := 2 ^ (cfg.numBits k - 1)) (by omega) ?_)
  exact Nat.pow_le_pow_right Nat.two_pos hi

/-- The bits of the mask of the count. -/
theorem getLsbD_readerMask (i : ℕ) : (cfg.readerMask k).getLsbD i
    = (decide (cfg.startBit k + 1 ≤ i) && decide (i - (cfg.startBit k + 1) < cfg.numBits k - 1)) := by
  rw [Config.readerMask_eq, getLsbD_readers le_rfl, Config.maxReaders, Nat.testBit_two_pow_sub_one]

/-- The writer bit. -/
theorem getLsbD_writerMask (i : ℕ) :
    (cfg.writerMask k).getLsbD i = decide (i = cfg.startBit k) := by
  have hfits := cfg.fits k
  have hthree := cfg.three_le k
  rw [Config.writerMask, BitVec.getLsbD_shiftLeft, BitVec.getLsbD_one]
  by_cases hi : i = cfg.startBit k
  · subst hi
    simp
    omega
  · rw [decide_eq_false hi]
    by_cases hlt : i < cfg.startBit k
    · simp [hlt]
    · have : i - cfg.startBit k ≠ 0 := by omega
      simp [this]

/-! ## Words -/

/-- The masks have no bit in common. -/
theorem readerMask_and_writerMask : cfg.readerMask k &&& cfg.writerMask k = 0#32 := by
  refine BitVec.eq_of_getLsbD_eq fun i _ => ?_
  rw [BitVec.getLsbD_and, getLsbD_readerMask, getLsbD_writerMask, BitVec.getLsbD_zero]
  by_cases hi : i = cfg.startBit k
  · subst hi
    simp
  · simp [hi]

/-- A count lies within its mask. -/
theorem readers_and_readerMask (h : r ≤ cfg.maxReaders k) :
    cfg.readers k r &&& cfg.readerMask k = cfg.readers k r := by
  refine BitVec.eq_of_getLsbD_eq fun i _ => ?_
  rw [BitVec.getLsbD_and, getLsbD_readerMask, getLsbD_readers h]
  by_cases hi : i - (cfg.startBit k + 1) < cfg.numBits k - 1
  · rw [decide_eq_true hi]
    cases decide (cfg.startBit k + 1 ≤ i) <;> simp
  · rw [testBit_of_le h (Nat.le_of_not_lt hi)]
    simp

/-- A count has no bit of the writer's. -/
theorem readers_and_writerMask (h : r ≤ cfg.maxReaders k) :
    cfg.readers k r &&& cfg.writerMask k = 0#32 := by
  rw [← readers_and_readerMask h, BitVec.and_assoc, readerMask_and_writerMask, BitVec.and_zero]

/-- A writer bit lies within its mask. -/
theorem writer_and_writerMask : cfg.writer k w &&& cfg.writerMask k = cfg.writer k w := by
  cases w
  · exact BitVec.zero_and
  · exact BitVec.and_self

/-- A writer bit is none of the count's. -/
theorem writer_and_readerMask : cfg.writer k w &&& cfg.readerMask k = 0#32 := by
  cases w
  · exact BitVec.zero_and
  · exact (BitVec.and_comm _ _).trans readerMask_and_writerMask

/-- The writer's mask is a bit. -/
theorem writerMask_ne_zero : cfg.writerMask k ≠ 0#32 := by
  intro h
  have := congrArg (fun v => v.getLsbD (cfg.startBit k)) h
  simp only [getLsbD_writerMask, BitVec.getLsbD_zero] at this
  simp at this

theorem writer_eq_zero : cfg.writer k w = 0#32 ↔ w = false := by
  cases w
  · exact iff_of_true rfl rfl
  · exact iff_of_false writerMask_ne_zero nofun

/-- A payload has no bit of the lock. -/
theorem Config.Outside.masks (hp : cfg.Outside k pay) :
    pay &&& cfg.readerMask k = 0#32 ∧ pay &&& cfg.writerMask k = 0#32 := by
  rwa [Config.Outside, Config.lockMask, BitVec.and_or_distrib_left, BitVec.or_eq_zero_iff] at hp

/-- **The count of a word.** -/
theorem word_and_readerMask (hp : cfg.Outside k pay) (h : r ≤ cfg.maxReaders k) :
    cfg.word k pay w r &&& cfg.readerMask k = cfg.readers k r := by
  rw [Config.word, BitVec.and_or_distrib_right, BitVec.and_or_distrib_right, hp.masks.1,
    writer_and_readerMask, readers_and_readerMask h, BitVec.zero_or, BitVec.zero_or]

/-- **The writer bit of a word.** -/
theorem word_and_writerMask (hp : cfg.Outside k pay) (h : r ≤ cfg.maxReaders k) :
    cfg.word k pay w r &&& cfg.writerMask k = cfg.writer k w := by
  rw [Config.word, BitVec.and_or_distrib_right, BitVec.and_or_distrib_right, hp.masks.2,
    writer_and_writerMask, readers_and_writerMask h, BitVec.zero_or, BitVec.or_zero]

/-- The fields of a word. -/
theorem word_and_lockMask (hp : cfg.Outside k pay) (h : r ≤ cfg.maxReaders k) :
    cfg.word k pay w r &&& cfg.lockMask k = cfg.readers k r ||| cfg.writer k w := by
  rw [Config.lockMask, BitVec.and_or_distrib_left, word_and_readerMask hp h,
    word_and_writerMask hp h]

/-- Bits within a mask have none outside of it. -/
theorem and_not_eq_zero {v m : BitVec 32} (h : v &&& m = v) : v &&& ~~~m = 0#32 := by
  rw [← h, BitVec.and_assoc, BitVec.and_not_self]
  exact BitVec.and_zero

/-- Bits outside a mask stay when the mask is cleared. -/
theorem and_not_eq_self {v m : BitVec 32} (h : v &&& m = 0#32) : v &&& ~~~m = v := by
  have hor : v = (v &&& m) ||| (v &&& ~~~m) := by
    rw [← BitVec.and_or_distrib_left, BitVec.or_not_self, BitVec.and_allOnes]
  rw [h, BitVec.zero_or] at hor
  exact hor.symm

/-- **The payload of a word.** -/
theorem word_and_not_lockMask (hp : cfg.Outside k pay) (h : r ≤ cfg.maxReaders k) :
    cfg.word k pay w r &&& ~~~cfg.lockMask k = pay := by
  have hr : cfg.readers k r &&& cfg.lockMask k = cfg.readers k r := by
    rw [Config.lockMask, BitVec.and_or_distrib_left, readers_and_readerMask h,
      readers_and_writerMask h, BitVec.or_zero]
  have hw : cfg.writer k w &&& cfg.lockMask k = cfg.writer k w := by
    rw [Config.lockMask, BitVec.and_or_distrib_left, writer_and_readerMask,
      writer_and_writerMask, BitVec.zero_or]
  rw [Config.word, BitVec.and_or_distrib_right, BitVec.and_or_distrib_right, and_not_eq_self hp,
    and_not_eq_zero hw, and_not_eq_zero hr, BitVec.or_zero, BitVec.or_zero]

/-- A word is also the sum of its parts. -/
theorem word_eq_add (hp : cfg.Outside k pay) (h : r ≤ cfg.maxReaders k) :
    cfg.word k pay w r = pay + cfg.writer k w + cfg.readers k r := by
  have hw : pay &&& cfg.writer k w = 0#32 := by
    rw [← writer_and_writerMask, BitVec.and_comm (cfg.writer k w), ← BitVec.and_assoc,
      hp.masks.2, BitVec.zero_and]
  have hr : (pay ||| cfg.writer k w) &&& cfg.readers k r = 0#32 := by
    rw [← readers_and_readerMask h, BitVec.and_comm (cfg.readers k r), ← BitVec.and_assoc,
      BitVec.and_or_distrib_right, hp.masks.1, writer_and_readerMask, BitVec.zero_or,
      BitVec.zero_and]
  rw [BitVec.add_eq_or_of_and_eq_zero _ _ hw, BitVec.add_eq_or_of_and_eq_zero _ _ hr, Config.word]

/-- Counts are added where they stand. -/
theorem readers_add (a b : ℕ) : cfg.readers k (a + b) = cfg.readers k a + cfg.readers k b := by
  rw [Config.readers, BitVec.ofNat_add, BitVec.shiftLeft_add_distrib]
  rfl

/-- **One reader more.** -/
theorem word_add_readerInc (hp : cfg.Outside k pay) (h : r + 1 ≤ cfg.maxReaders k) :
    cfg.word k pay w r + cfg.readerInc k = cfg.word k pay w (r + 1) := by
  rw [word_eq_add hp (by omega), word_eq_add hp h, readers_add, Config.readerInc_eq,
    BitVec.add_assoc]

/-- **One reader less.** -/
theorem word_sub_readerInc (hp : cfg.Outside k pay) (h : r ≤ cfg.maxReaders k) (hr : 1 ≤ r) :
    cfg.word k pay w r - cfg.readerInc k = cfg.word k pay w (r - 1) := by
  obtain ⟨n, rfl⟩ := Nat.exists_eq_add_one.mpr hr
  rw [Nat.add_sub_cancel, ← word_add_readerInc hp h, BitVec.add_sub_cancel]

/-- The writer bit is set. -/
theorem word_or_writerMask :
    cfg.word k pay w r ||| cfg.writerMask k = cfg.word k pay true r := by
  have hw : cfg.writer k w ||| cfg.writerMask k = cfg.writer k true := by
    cases w
    · exact BitVec.zero_or
    · exact BitVec.or_self
  rw [Config.word, BitVec.or_assoc, BitVec.or_comm (cfg.readers k r), ← BitVec.or_assoc,
    BitVec.or_assoc pay, hw, Config.word]

/-- The writer bit is cleared. -/
theorem word_and_not_writerMask (hp : cfg.Outside k pay) (h : r ≤ cfg.maxReaders k) :
    cfg.word k pay w r &&& ~~~cfg.writerMask k = cfg.word k pay false r := by
  rw [Config.word, BitVec.and_or_distrib_right, BitVec.and_or_distrib_right,
    and_not_eq_self hp.masks.2, and_not_eq_zero writer_and_writerMask,
    and_not_eq_self (readers_and_writerMask h)]
  rfl

/-- **A masked swap of the count.** -/
theorem word_replace_readers (hp : cfg.Outside k pay) (h : r ≤ cfg.maxReaders k)
    (hp' : cfg.Outside k pay') (h' : r' ≤ cfg.maxReaders k) :
    (cfg.word k pay w r &&& ~~~cfg.readerMask k) ||| (cfg.word k pay' w' r' &&& cfg.readerMask k)
      = cfg.word k pay w r' := by
  rw [word_and_readerMask hp' h', Config.word, BitVec.and_or_distrib_right,
    BitVec.and_or_distrib_right, and_not_eq_self hp.masks.1, and_not_eq_self writer_and_readerMask,
    and_not_eq_zero (readers_and_readerMask h), BitVec.or_zero, Config.word]

/-- **A masked swap of both fields.** -/
theorem word_replace (hp : cfg.Outside k pay) (h : r ≤ cfg.maxReaders k)
    (hp' : cfg.Outside k pay') (h' : r' ≤ cfg.maxReaders k) :
    (cfg.word k pay w r &&& ~~~cfg.lockMask k) ||| (cfg.word k pay' w' r' &&& cfg.lockMask k)
      = cfg.word k pay w' r' := by
  rw [word_and_not_lockMask hp h, word_and_lockMask hp' h', BitVec.or_comm (cfg.readers k r'),
    ← BitVec.or_assoc, Config.word]

/-- The word of no payload. -/
theorem outside_zero : cfg.Outside k 0#32 :=
  BitVec.zero_and

/-- **Whole words are equal** if their payloads and fields are. -/
theorem word_inj (hp : cfg.Outside k pay) (h : r ≤ cfg.maxReaders k) (hp' : cfg.Outside k pay')
    (h' : r' ≤ cfg.maxReaders k) :
    cfg.word k pay w r = cfg.word k pay' w' r' ↔ pay = pay' ∧ w = w' ∧ r = r' := by
  constructor
  · intro heq
    refine ⟨?_, ?_, ?_⟩
    · rw [← word_and_not_lockMask hp h, heq, word_and_not_lockMask hp' h']
    · have hw : cfg.writer k w = cfg.writer k w' := by
        rw [← word_and_writerMask hp h, heq, word_and_writerMask hp' h']
      rw [Bool.eq_iff_iff, ← not_iff_not, Bool.not_eq_true, Bool.not_eq_true, ← writer_eq_zero,
        ← writer_eq_zero, hw]
    · rw [← readers_inj h h', ← word_and_readerMask hp h, heq, word_and_readerMask hp' h']
  · rintro ⟨rfl, rfl, rfl⟩
    rfl

/-! ## The tests of the code -/

/-- The writer bit is tested. -/
theorem word_writer_eq_zero (hp : cfg.Outside k pay) (h : r ≤ cfg.maxReaders k) :
    cfg.word k pay w r &&& cfg.writerMask k = 0#32 ↔ w = false := by
  rw [word_and_writerMask hp h, writer_eq_zero]

/-- The writer bit is known to be set. -/
theorem word_writer_eq_mask (hp : cfg.Outside k pay) (h : r ≤ cfg.maxReaders k) (hw : w = true) :
    cfg.word k pay w r &&& cfg.writerMask k = cfg.writerMask k := by
  rw [word_and_writerMask hp h, hw]
  rfl

/-- The count is compared with another one. -/
theorem word_readers_eq (hp : cfg.Outside k pay) (h : r ≤ cfg.maxReaders k)
    (h' : r' ≤ cfg.maxReaders k) :
    cfg.word k pay w r &&& cfg.readerMask k = cfg.readers k r' ↔ r = r' := by
  rw [word_and_readerMask hp h, readers_inj h h']

/-- The count is compared with the saturated one. -/
theorem word_readers_eq_mask (hp : cfg.Outside k pay) (h : r ≤ cfg.maxReaders k) :
    cfg.word k pay w r &&& cfg.readerMask k = cfg.readerMask k ↔ r = cfg.maxReaders k := by
  rw [word_and_readerMask hp h, cfg.readerMask_eq, readers_inj h le_rfl]

/-- The count is compared with zero. -/
theorem word_readers_eq_zero (hp : cfg.Outside k pay) (h : r ≤ cfg.maxReaders k) :
    cfg.word k pay w r &&& cfg.readerMask k = 0#32 ↔ r = 0 := by
  have hzero : cfg.readers k 0 = 0#32 := BitVec.zero_shiftLeft _
  rw [← hzero, word_readers_eq hp h (Nat.zero_le _)]

/-- The count is compared with one. -/
theorem word_readers_eq_inc (hp : cfg.Outside k pay) (h : r ≤ cfg.maxReaders k)
    (hmax : 1 ≤ cfg.maxReaders k) :
    cfg.word k pay w r &&& cfg.readerMask k = cfg.readerInc k ↔ r = 1 := by
  rw [cfg.readerInc_eq, word_readers_eq hp h hmax]

/-! ## Words without payload -/

/-- Several readers at once. -/
theorem readerInc_mul (r : ℕ) : cfg.readerInc k * BitVec.ofNat 32 r = cfg.word k 0#32 false r := by
  have hone : cfg.readerInc k = BitVec.twoPow 32 (cfg.startBit k + 1) :=
    (BitVec.shiftLeft_eq_mul_twoPow _ _).trans (BitVec.one_mul _)
  rw [hone, BitVec.mul_comm, ← BitVec.shiftLeft_eq_mul_twoPow, Config.word, BitVec.zero_or]
  exact (BitVec.zero_or).symm

/-- The writer bit alone. -/
theorem writerMask_eq : cfg.writerMask k = cfg.word k 0#32 true 0 := by
  have hzero : cfg.readers k 0 = 0#32 := BitVec.zero_shiftLeft _
  rw [Config.word, BitVec.zero_or, hzero, BitVec.or_zero]
  rfl

/-- The count alone. -/
theorem readerMask_eq : cfg.readerMask k = cfg.word k 0#32 false (cfg.maxReaders k) := by
  rw [cfg.readerMask_eq, Config.word, BitVec.zero_or]
  exact (BitVec.zero_or).symm

/-- A writer that has the lock while somebody waits. -/
theorem writerMask_or_readerInc : cfg.writerMask k ||| cfg.readerInc k = cfg.word k 0#32 true 1 := by
  rw [Config.word, BitVec.zero_or]
  rfl

/-- The bits of the lock are a word without payload. -/
theorem word_and_lockMask_eq (hp : cfg.Outside k pay) (h : r ≤ cfg.maxReaders k) :
    cfg.word k pay w r &&& cfg.lockMask k = cfg.word k 0#32 w r := by
  rw [word_and_lockMask hp h, BitVec.or_comm, Config.word, BitVec.zero_or]

end RwBitlock
