import Lwlock.Chain
import Lwlock.Word

/-!
# The chain of a monitor slot

The `next` word of a monitor packs the address of the next monitor into 61 bits, beside
the three bits of a lock. The monitors of a slot are found by walking these addresses, and
a new one is linked in behind the last with a masked swap. What is written is assembled in
a local variable of which only the address is assigned, so the other bits of it are what
the memory held before; the mask of the swap keeps the lock bit and the wait bit of the
link, and not its condition bit.

Addresses are words of 64 bits, and `0` is the null pointer. The loop of the search is
given a number of rounds.
-/

namespace MonitorChain

/-- An address. -/
abbrev Ptr := BitVec 64

/-! ## The words -/

/-- `monitor_lock_bit.atomic64`. -/
def lockBit : BitVec 64 := 1#64

/-- `monitor_wait_bit.atomic64`. -/
def waitBit : BitVec 64 := 2#64

/-- `monitor_cv_bit.atomic64`. -/
def cvBit : BitVec 64 := 4#64

/-- `fields.ptr61`. -/
def ptr61 (w : BitVec 64) : BitVec 61 := w.extractLsb' 3 61

/-- `fields.cv`. -/
def cv (w : BitVec 64) : Bool := w.getLsbD 2

/-- `fields.lock`, `fields.wait` and `fields.cv`. -/
def bits (w : BitVec 64) : BitVec 3 := w.extractLsb' 0 3

/-- An assignment to `fields.ptr61`. -/
def setPtr61 (w : BitVec 64) (p : BitVec 61) : BitVec 64 :=
  (w &&& 7#64) ||| (p.setWidth 64 <<< 3)

/-- A pointer as the value of `fields.ptr61`. -/
def toPtr61 (p : Ptr) : BitVec 61 := p.setWidth 61

/-- The value of `fields.ptr61` as a pointer. -/
def ofPtr61 (p : BitVec 61) : Ptr := p.setWidth 64

/-- The bits that an insertion retains. -/
def insertMask : BitVec 64 := lockBit ||| waitBit

/-- The bits that a removal retains. -/
def removeMask : BitVec 64 := lockBit ||| waitBit ||| cvBit

/-- The bits of a mask of low bits. -/
theorem getLsbD_low {k : ℕ} (hk : k ≤ 64) (i : ℕ) :
    (BitVec.ofNat 64 (2 ^ k - 1)).getLsbD i = decide (i < k) := by
  rw [BitVec.getLsbD_ofNat, Nat.testBit_two_pow_sub_one]
  by_cases hi : i < k
  · simp [hi, Nat.lt_of_lt_of_le hi hk]
  · simp [hi]

theorem getLsbD_insertMask (i : ℕ) : insertMask.getLsbD i = decide (i < 2) :=
  getLsbD_low (by decide : 2 ≤ 64) i

theorem getLsbD_removeMask (i : ℕ) : removeMask.getLsbD i = decide (i < 3) :=
  getLsbD_low (by decide : 3 ≤ 64) i

theorem getLsbD_none {k : ℕ} (i : ℕ) : (0 : BitVec k).getLsbD i = false :=
  BitVec.getLsbD_zero

theorem getLsbD_ptr61 (w : BitVec 64) (i : ℕ) : (ptr61 w).getLsbD i = w.getLsbD (3 + i) := by
  rw [ptr61, BitVec.getLsbD_extractLsb']
  by_cases hi : i < 61
  · simp [hi]
  · have hge : 64 ≤ 3 + i := by omega
    simp [hi, BitVec.getLsbD_of_ge _ _ hge]

/-- Fields are equal if their bits are. -/
theorem ptr61_ext {v w : BitVec 64} (h : ∀ i, v.getLsbD (3 + i) = w.getLsbD (3 + i)) :
    ptr61 v = ptr61 w :=
  BitVec.eq_of_getLsbD_eq fun i _ => by rw [getLsbD_ptr61, getLsbD_ptr61, h]

theorem bits_ext {v w : BitVec 64} (h : ∀ i < 3, v.getLsbD i = w.getLsbD i) : bits v = bits w := by
  refine BitVec.eq_of_getLsbD_eq fun i hi => ?_
  rw [bits, bits, BitVec.getLsbD_extractLsb', BitVec.getLsbD_extractLsb', Nat.zero_add, h i hi]

theorem cv_of_bits {v w : BitVec 64} (h : bits v = bits w) : cv v = cv w := by
  have hbit := congrArg (fun x => x.getLsbD 2) h
  simpa [bits, cv] using hbit

theorem getLsbD_setPtr61 (w : BitVec 64) (p : BitVec 61) (i : ℕ) :
    (setPtr61 w p).getLsbD i = if i < 3 then w.getLsbD i else p.getLsbD (i - 3) := by
  have h7 := getLsbD_low (by decide : 3 ≤ 64) i
  rw [setPtr61, BitVec.getLsbD_or, BitVec.getLsbD_and, BitVec.getLsbD_shiftLeft,
    BitVec.getLsbD_setWidth]
  rw [show (7#64).getLsbD i = decide (i < 3) from h7]
  by_cases hi : i < 3
  · simp [hi]
  · by_cases h64 : i < 64
    · have hlt : i - 3 < 64 := by omega
      simp [hi, h64, hlt]
    · have hge : 61 ≤ i - 3 := by omega
      simp [hi, h64, BitVec.getLsbD_of_ge _ _ hge]

@[simp] theorem ptr61_setPtr61 (w : BitVec 64) (p : BitVec 61) : ptr61 (setPtr61 w p) = p := by
  refine BitVec.eq_of_getLsbD_eq fun i _ => ?_
  rw [getLsbD_ptr61, getLsbD_setPtr61, if_neg (by omega), Nat.add_sub_cancel_left]

@[simp] theorem cv_setPtr61 (w : BitVec 64) (p : BitVec 61) : cv (setPtr61 w p) = cv w := by
  rw [cv, getLsbD_setPtr61, if_pos (by decide), cv]

/-- The bits after a masked swap. -/
theorem getLsbD_swapped (v w m : BitVec 64) (i : ℕ) :
    ((v &&& m) ||| (w &&& ~~~m)).getLsbD i = if m.getLsbD i then v.getLsbD i else w.getLsbD i := by
  have h := Word.getLsbD_replace (v := w) (w := v) (m := m) (i := i)
  rwa [BitVec.or_comm] at h

/-- A pointer that fits is what comes back from the field. -/
theorem ofPtr61_toPtr61 {p : Ptr} (h : p.toNat < 2 ^ 61) : ofPtr61 (toPtr61 p) = p := by
  refine BitVec.eq_of_toNat_eq ?_
  rw [ofPtr61, toPtr61, BitVec.toNat_setWidth, BitVec.toNat_setWidth, Nat.mod_eq_of_lt h,
    Nat.mod_eq_of_lt p.isLt]

theorem ofPtr61_eq_zero {p : BitVec 61} : ofPtr61 p = 0 ↔ p = 0 := by
  constructor
  · intro h
    have hn := congrArg BitVec.toNat h
    rw [ofPtr61, BitVec.toNat_setWidth, Nat.mod_eq_of_lt (p.isLt.trans (by decide))] at hn
    exact BitVec.eq_of_toNat_eq hn
  · rintro rfl
    rfl

/-! ## The search -/

/-- **The monitors**, as far as the search reads and writes them. -/
structure Heap where
  next : Ptr → BitVec 64
  ptrlock : Ptr → BitVec 64

/-- What `find_monitor_for_ptr` leaves: the monitor it returns, `*prev`, and the heap. -/
structure Result where
  found : Ptr
  prev : Ptr
  heap : Heap

/-- The swap of an insertion, whose result is not looked at. -/
def Heap.insertAt (h : Heap) (monitor : Ptr) (toInsert : BitVec 64) : Heap :=
  match Word.swapWithMask (h.next monitor) insertMask 0 toInsert with
  | some w => { h with next := Function.update h.next monitor w }
  | none => h

/-- The loop of the search. -/
def searchLoop (valToFind : BitVec 64) (toAdd : Ptr) (toInsert : BitVec 64) :
    ℕ → Heap → (prev monitor : Ptr) → Option Result
  | 0, _, _, _ => none
  | n + 1, h, prev, monitor =>
    if monitor = 0 then some ⟨0, prev, h⟩
    else if (ptr61 (h.ptrlock monitor)).setWidth 64 = valToFind then some ⟨monitor, prev, h⟩
    else
      let h' := if ptr61 (h.next monitor) = 0 ∧ toAdd ≠ 0 then h.insertAt monitor toInsert else h
      searchLoop valToFind toAdd toInsert n h' monitor (ofPtr61 (ptr61 (h'.next monitor)))

/-- **`find_monitor_for_ptr`**; `junk` is what the memory of `to_insert` held before. -/
def findMonitorForPtr (rounds : ℕ) (h : Heap) (ptr monitor : Ptr) (skipHead : Bool) (toAdd : Ptr)
    (junk : BitVec 64) : Option Result :=
  let toInsert := setPtr61 junk (toPtr61 toAdd)
  if skipHead then
    if ptr61 (h.next monitor) = 0 ∧ toAdd ≠ 0 then
      some ⟨toAdd, monitor, h.insertAt monitor toInsert⟩
    else
      searchLoop ptr toAdd toInsert rounds h monitor (ofPtr61 (ptr61 (h.next monitor)))
  else searchLoop ptr toAdd toInsert rounds h monitor monitor

/-! ## What it is to do -/

/-- The monitor behind another one. -/
def Heap.succ (h : Heap) (m : Ptr) : Option Ptr :=
  if ptr61 (h.next m) = 0 then none else some (ofPtr61 (ptr61 (h.next m)))

/-- Whether a monitor carries a pointer. -/
def Heap.carries (h : Heap) (ptr m : Ptr) : Bool := decide ((ptr61 (h.ptrlock m)).setWidth 64 = ptr)

/-- **A chain**: the monitors behind the head, whose condition bits are all clear. -/
structure Heap.IsChain (h : Heap) (head : Ptr) (L : List Ptr) : Prop where
  chain : Chain h.succ (some head) (head :: L)
  nonzero : head ≠ 0
  clear : ∀ m ∈ head :: L, cv (h.next m) = false

/-- **A monitor that may be added**: one that carries the pointer and is on no chain. -/
structure Heap.Fresh (h : Heap) (head : Ptr) (L : List Ptr) (ptr toAdd : Ptr) : Prop where
  small : toAdd.toNat < 2 ^ 61
  off : toAdd ∉ head :: L
  next : h.next toAdd = 0
  carries : h.carries ptr toAdd = true

/-- The monitors that are searched. -/
def searched (skipHead : Bool) (head : Ptr) (L : List Ptr) : List Ptr :=
  if skipHead then L else head :: L

/-- **A monitor was found**: nothing is changed, and `*prev` is the one before it. -/
structure Found (h : Heap) (head : Ptr) (L : List Ptr) (m : Ptr) (r : Result) : Prop where
  found : r.found = m
  heap : r.heap = h
  prev : ∀ A B, head :: L = A ++ m :: B → ∀ p, A.getLast? = some p → r.prev = p

/-- **A monitor was added**: it is the last of the chain now, and of the link that leads to
it only the address has changed. What is taken out there and put in again later succeeds. -/
structure Added (h : Heap) (head : Ptr) (L : List Ptr) (toAdd : Ptr) (r : Result) : Prop where
  found : r.found = toAdd
  prev : (head :: L).getLast? = some r.prev
  ptrlock : r.heap.ptrlock = h.ptrlock
  others : ∀ m, m ≠ r.prev → r.heap.next m = h.next m
  bits : bits (r.heap.next r.prev) = bits (h.next r.prev)
  chain : r.heap.IsChain head (L ++ [toAdd])
  again : ∀ old new, ptr61 old = toPtr61 toAdd → ptr61 new = 0 → ∃ w,
    Word.swapWithMask (r.heap.next r.prev) removeMask old new = some w
      ∧ ∀ w', (Word.swapWithMask w insertMask 0 w').isSome

/-- **What a search is to do.** -/
def Correct (h : Heap) (head : Ptr) (L : List Ptr) (ptr : Ptr) (skipHead : Bool) (toAdd : Ptr)
    (r : Result) : Prop :=
  match (searched skipHead head L).find? (h.carries ptr) with
  | some m => Found h head L m r
  | none => if toAdd = 0 then r.found = 0 ∧ r.heap = h else Added h head L toAdd r

variable {h : Heap} {ptr toAdd prev : Ptr} {toInsert : BitVec 64} {p : Option Ptr} {A B R : List Ptr}
  {m e : Ptr} {n : ℕ}

/-! ## The loop -/

/-- The loop goes on at the next monitor, if there is one. -/
theorem searchLoop_cons {a b : Ptr} (ha : a ≠ 0) (hc : h.carries ptr a = false)
    (hs : h.succ a = some b) :
    searchLoop ptr toAdd toInsert (n + 1) h prev a = searchLoop ptr toAdd toInsert n h a b := by
  have hne : ptr61 (h.next a) ≠ 0 := by
    intro h0
    rw [Heap.succ, if_pos h0] at hs
    cases hs
  rw [Heap.succ, if_neg hne, Option.some.injEq] at hs
  rw [searchLoop, if_neg ha, if_neg (of_decide_eq_false hc)]
  simp only [if_neg fun hx : ptr61 (h.next a) = 0 ∧ toAdd ≠ 0 => hne hx.1, hs]

/-- The loop finds the first monitor that carries the pointer. -/
theorem searchLoop_found (hch : Chain h.succ p (A ++ m :: B)) (h0 : ∀ x ∈ A ++ m :: B, x ≠ 0)
    (hA : ∀ x ∈ A, h.carries ptr x = false) (hm : h.carries ptr m = true) (hn : A.length < n) :
    searchLoop ptr toAdd toInsert n h prev (p.getD 0) = some ⟨m, A.getLast?.getD prev, h⟩ := by
  induction A generalizing p prev n with
  | nil =>
    obtain ⟨rfl, -⟩ := hch
    obtain ⟨k, rfl⟩ := Nat.exists_eq_succ_of_ne_zero (Nat.ne_of_gt hn)
    rw [Option.getD_some, searchLoop, if_neg (h0 m List.mem_cons_self), if_pos (of_decide_eq_true hm)]
    rfl
  | cons a A ih =>
    obtain ⟨rfl, hrest⟩ := chain_cons.mp hch
    obtain ⟨k, rfl⟩ := Nat.exists_eq_succ_of_ne_zero (Nat.ne_of_gt (Nat.zero_lt_of_lt hn))
    obtain ⟨b, hb⟩ : ∃ b, h.succ a = some b := by
      rw [hrest.head_eq]
      cases A <;> exact ⟨_, rfl⟩
    rw [Option.getD_some, searchLoop_cons (h0 a List.mem_cons_self) (hA a List.mem_cons_self) hb]
    have hgo : searchLoop ptr toAdd toInsert k h a ((h.succ a).getD 0)
        = some ⟨m, A.getLast?.getD a, h⟩ :=
      ih hrest (fun x hx => h0 x (List.mem_cons_of_mem a hx))
        (fun x hx => hA x (List.mem_cons_of_mem a hx)) (Nat.lt_of_succ_lt_succ hn)
    rw [hb, Option.getD_some] at hgo
    rw [hgo, List.getLast?_cons, Option.getD_some]

/-- The loop arrives at the last monitor if no other one carries the pointer. -/
theorem searchLoop_last (hch : Chain h.succ p (A ++ [e])) (h0 : ∀ x ∈ A, x ≠ 0)
    (hA : ∀ x ∈ A, h.carries ptr x = false) :
    searchLoop ptr toAdd toInsert (n + A.length) h prev (p.getD 0)
      = searchLoop ptr toAdd toInsert n h (A.getLast?.getD prev) e := by
  induction A generalizing p prev with
  | nil =>
    obtain ⟨rfl, -⟩ := hch
    rfl
  | cons a A ih =>
    obtain ⟨rfl, hrest⟩ := chain_cons.mp hch
    obtain ⟨b, hb⟩ : ∃ b, h.succ a = some b := by
      rw [hrest.head_eq]
      cases A <;> exact ⟨_, rfl⟩
    rw [Option.getD_some, List.length_cons, ← Nat.add_assoc,
      searchLoop_cons (h0 a List.mem_cons_self) (hA a List.mem_cons_self) hb]
    have hgo : searchLoop ptr toAdd toInsert (n + A.length) h a ((h.succ a).getD 0)
        = searchLoop ptr toAdd toInsert n h (A.getLast?.getD a) e :=
      ih hrest (fun x hx => h0 x (List.mem_cons_of_mem a hx))
        fun x hx => hA x (List.mem_cons_of_mem a hx)
    rw [hb, Option.getD_some] at hgo
    rw [hgo, List.getLast?_cons, Option.getD_some]

/-- **The swap of an insertion** writes the address, and the condition bit of the local. -/
theorem insertAt_eq (hp : ptr61 (h.next e) = 0) (hcv : cv (h.next e) = false) (w : BitVec 64) :
    h.insertAt e w = { h with
      next := Function.update h.next e ((h.next e &&& insertMask) ||| (w &&& ~~~insertMask)) } := by
  have hbits : h.next e &&& ~~~insertMask = 0 &&& ~~~insertMask := by
    refine Word.and_eq_and_iff.mpr fun i hi => ?_
    rw [BitVec.getLsbD_not, getLsbD_insertMask, Bool.and_eq_true, Bool.not_eq_true',
      decide_eq_false_iff_not] at hi
    rw [getLsbD_none]
    obtain rfl | ⟨j, rfl⟩ : i = 2 ∨ ∃ j, i = 3 + j := by
      rcases Nat.lt_or_ge i 3 with hi3 | hi3
      · exact .inl (by omega)
      · exact .inr ⟨i - 3, by omega⟩
    · exact hcv
    · rw [← getLsbD_ptr61, hp, getLsbD_none]
  rw [Heap.insertAt, Word.swapWithMask, if_pos hbits]

/-- The word that an insertion writes. -/
def inserted (old toInsert : BitVec 64) : BitVec 64 :=
  (old &&& insertMask) ||| (toInsert &&& ~~~insertMask)

theorem ptr61_inserted (old w : BitVec 64) : ptr61 (inserted old w) = ptr61 w := by
  refine ptr61_ext fun i => ?_
  rw [inserted, getLsbD_swapped, getLsbD_insertMask, decide_eq_false (by omega),
    if_neg Bool.false_ne_true]

theorem cv_inserted (old w : BitVec 64) : cv (inserted old w) = cv w := by
  rw [cv, inserted, getLsbD_swapped, getLsbD_insertMask, decide_eq_false (by omega),
    if_neg Bool.false_ne_true, cv]

/-- The bits of the lock are kept exactly if the condition bit of the local is the right one. -/
theorem bits_inserted {old w : BitVec 64} : bits (inserted old w) = bits old ↔ cv w = cv old := by
  constructor
  · intro h
    rw [← cv_inserted old w, cv_of_bits h]
  · intro h
    refine bits_ext fun i hi => ?_
    rw [inserted, getLsbD_swapped, getLsbD_insertMask]
    by_cases h2 : i < 2
    · rw [decide_eq_true h2, if_pos rfl]
    · obtain rfl : i = 2 := by omega
      rw [decide_eq_false h2, if_neg Bool.false_ne_true]
      exact h

/-- **An address is taken out** by a removal that expects it, and then another can be put in
if the condition bit is clear. -/
theorem exists_removed {v old new : BitVec 64} (hold : ptr61 old = ptr61 v) (hnew : ptr61 new = 0)
    (hcv : cv v = false) : ∃ w, Word.swapWithMask v removeMask old new = some w
      ∧ ∀ w', (Word.swapWithMask w insertMask 0 w').isSome := by
  have hbits : v &&& ~~~removeMask = old &&& ~~~removeMask := by
    refine Word.and_eq_and_iff.mpr fun i hi => ?_
    rw [BitVec.getLsbD_not, getLsbD_removeMask, Bool.and_eq_true, Bool.not_eq_true',
      decide_eq_false_iff_not] at hi
    obtain ⟨j, rfl⟩ : ∃ j, i = 3 + j := ⟨i - 3, by omega⟩
    rw [← getLsbD_ptr61, ← getLsbD_ptr61, hold]
  refine ⟨_, by rw [Word.swapWithMask, if_pos hbits], fun w' => ?_⟩
  rw [Word.swapWithMask, if_pos]
  · rfl
  · refine Word.and_eq_and_iff.mpr fun i hi => ?_
    rw [BitVec.getLsbD_not, getLsbD_insertMask, Bool.and_eq_true, Bool.not_eq_true',
      decide_eq_false_iff_not] at hi
    rw [getLsbD_none, getLsbD_swapped, getLsbD_removeMask]
    by_cases h3 : i < 3
    · obtain rfl : i = 2 := by omega
      rw [decide_eq_true h3, if_pos rfl]
      exact hcv
    · obtain ⟨j, rfl⟩ : ∃ j, i = 3 + j := ⟨i - 3, by omega⟩
      rw [decide_eq_false h3, if_neg Bool.false_ne_true, ← getLsbD_ptr61, hnew, getLsbD_none]

/-! ## The chain -/

variable {head : Ptr} {L : List Ptr} {junk : BitVec 64} {skipHead : Bool}

/-- The monitors of a chain have addresses. -/
theorem Heap.IsChain.ne_zero (hc : h.IsChain head L) : ∀ x ∈ head :: L, x ≠ 0 := by
  have hsucc : ∀ (M : List Ptr) (a : Ptr), Chain h.succ (h.succ a) M → ∀ x ∈ M, x ≠ 0 := by
    intro M
    induction M with
    | nil => exact fun _ _ x hx => absurd hx List.not_mem_nil
    | cons b M ih =>
      intro a hM x hx
      obtain ⟨hab, hrest⟩ := chain_cons.mp hM
      rcases List.mem_cons.mp hx with rfl | hx
      · rw [Heap.succ] at hab
        split at hab
        · cases hab
        · next hne =>
          rw [← Option.some.inj hab]
          exact fun h0 => hne (ofPtr61_eq_zero.mp h0)
      · exact ih b hrest x hx
  intro x hx
  rcases List.mem_cons.mp hx with rfl | hx
  · exact hc.nonzero
  · exact hsucc L head (chain_cons.mp hc.chain).2 x hx

/-- The last monitor of a chain. -/
theorem Heap.IsChain.last (hc : h.IsChain head L) (hl : (head :: L).getLast? = some e) :
    ptr61 (h.next e) = 0 ∧ cv (h.next e) = false := by
  refine ⟨?_, hc.clear e (List.mem_of_getLast? hl)⟩
  obtain ⟨A, hA⟩ := List.getLast?_eq_some_iff.mp hl
  have hch := hc.chain
  rw [hA] at hch
  have hnone := Segment.next_last hch
  rw [Heap.succ] at hnone
  split at hnone
  · assumption
  · cases hnone

/-- **The chain with a monitor more**; its links have clear condition bits exactly if the local
has. -/
theorem Heap.IsChain.insertAt (hc : h.IsChain head L) (hl : (head :: L).getLast? = some e)
    (hf : h.Fresh head L ptr toAdd) (hne : toAdd ≠ 0) (hw : ptr61 toInsert = toPtr61 toAdd) :
    (h.insertAt e toInsert).next = Function.update h.next e (inserted (h.next e) toInsert)
      ∧ (h.insertAt e toInsert).ptrlock = h.ptrlock
      ∧ Chain (h.insertAt e toInsert).succ (some head) (head :: (L ++ [toAdd]))
      ∧ (h.insertAt e toInsert).succ e = some toAdd := by
  obtain ⟨hp, hcv⟩ := hc.last hl
  have heq := insertAt_eq hp hcv toInsert
  have hof := ofPtr61_toPtr61 hf.small
  have h61 : toPtr61 toAdd ≠ 0 := fun h0 => hne (by rw [← hof, h0]; rfl)
  have hsucc : (h.insertAt e toInsert).succ = Function.update h.succ e (some toAdd) := by
    funext x
    rw [heq]
    by_cases hx : x = e
    · subst hx
      rw [Function.update_self, Heap.succ]
      simp only [Function.update_self]
      rw [show (h.next x &&& insertMask) ||| (toInsert &&& ~~~insertMask)
        = inserted (h.next x) toInsert from rfl, ptr61_inserted, hw, if_neg h61, hof]
    · rw [Function.update_of_ne hx, Heap.succ]
      simp only [Function.update_of_ne hx]
      rfl
  refine ⟨by rw [heq]; rfl, by rw [heq], ?_, by rw [hsucc, Function.update_self]⟩
  obtain ⟨A, hA⟩ := List.getLast?_eq_some_iff.mp hl
  have hnext : h.succ toAdd = none := by
    rw [Heap.succ, hf.next]
    rfl
  have hch := hc.chain
  have hoff := hf.off
  rw [hA] at hch hoff
  rw [hsucc, ← List.cons_append, hA]
  exact hch.concat hoff hnext

/-- **An addition** leaves what it is to leave exactly if the condition bit of the local was
clear. -/
theorem added_iff (hc : h.IsChain head L) (hl : (head :: L).getLast? = some e)
    (hf : h.Fresh head L ptr toAdd) (hne : toAdd ≠ 0) :
    Added h head L toAdd ⟨toAdd, e, h.insertAt e (setPtr61 junk (toPtr61 toAdd))⟩
      ↔ cv junk = false := by
  obtain ⟨hp, hcv⟩ := hc.last hl
  have hw := ptr61_setPtr61 junk (toPtr61 toAdd)
  have hwcv := cv_setPtr61 junk (toPtr61 toAdd)
  obtain ⟨hnext, hlock, hch, hsucc⟩ := hc.insertAt hl hf hne hw
  have he : (h.insertAt e (setPtr61 junk (toPtr61 toAdd))).next e
      = inserted (h.next e) (setPtr61 junk (toPtr61 toAdd)) := by
    rw [hnext, Function.update_self]
  have hother : ∀ m, m ≠ e →
      (h.insertAt e (setPtr61 junk (toPtr61 toAdd))).next m = h.next m := by
    intro m hm
    rw [hnext, Function.update_of_ne hm]
  have heL : e ∈ head :: L := List.mem_of_getLast? hl
  constructor
  · intro ha
    have hb : bits (inserted (h.next e) (setPtr61 junk (toPtr61 toAdd))) = bits (h.next e) := by
      rw [← he]
      exact ha.bits
    rw [← hwcv, bits_inserted.mp hb, hcv]
  · intro hj
    have hb : bits (inserted (h.next e) (setPtr61 junk (toPtr61 toAdd))) = bits (h.next e) :=
      bits_inserted.mpr (by rw [hwcv, hj, hcv])
    refine ⟨rfl, hl, hlock, hother, by rw [he, hb], ⟨hch, hc.nonzero, fun m hm => ?_⟩,
      fun old new hold hnew => ?_⟩
    · by_cases hme : m = e
      · rw [hme, he, cv_inserted, hwcv, hj]
      · rw [hother m hme]
        rw [← List.cons_append, List.mem_append, List.mem_singleton] at hm
        rcases hm with hm | rfl
        · exact hc.clear m hm
        · rw [hf.next]
          exact getLsbD_none 2
    · refine exists_removed ?_ hnew ?_
      · rw [he, ptr61_inserted, hw, hold]
      · rw [he, cv_inserted, hwcv, hj]

/-- Where a monitor is on a list that has it once. -/
theorem prefix_unique {A' B' : List Ptr} (hnd : (A ++ m :: B).Nodup) (h : A ++ m :: B = A' ++ m :: B') :
    A = A' := by
  have hm : ∀ {X Y : List Ptr}, (X ++ m :: Y).Nodup → (X ++ m :: Y).idxOf m = X.length := by
    intro X Y hXY
    have hX : m ∉ X := fun hX => List.disjoint_of_nodup_append hXY hX List.mem_cons_self
    rw [List.idxOf_append_of_notMem hX, List.idxOf_cons_self, Nat.add_zero]
  have hlen : A.length = A'.length := by
    rw [← hm hnd, h, hm (h ▸ hnd)]
  exact (List.append_inj h hlen).1

/-- A monitor that was found without a change. -/
theorem found_of_split (hnd : (A ++ m :: B).Nodup) (hcat : head :: L = A ++ m :: B)
    (hprev : ∀ q, A.getLast? = some q → prev = q) : Found h head L m ⟨m, prev, h⟩ := by
  refine ⟨rfl, rfl, fun A' B' hcat' q hq => hprev q ?_⟩
  rw [prefix_unique hnd (hcat.symm.trans hcat'), hq]

theorem getD_succ (h : Heap) (m : Ptr) : (h.succ m).getD 0 = ofPtr61 (ptr61 (h.next m)) := by
  rw [Heap.succ]
  split
  · next h0 => rw [h0]; rfl
  · rfl

/-- The loop, from a link on. -/
theorem searchLoop_correct {A₀ S : List Ptr} (hc : h.IsChain head L) (hcat : head :: L = A₀ ++ S)
    (hch : Chain h.succ p S) (hA₀ : ∀ q, A₀.getLast? = some q → prev = q)
    (hS : S ≠ [] ∨ toAdd = 0) (hadd : toAdd ≠ 0 → h.Fresh head L ptr toAdd) {rounds : ℕ}
    (hr : S.length + 2 ≤ rounds) :
    ∃ r, searchLoop ptr toAdd (setPtr61 junk (toPtr61 toAdd)) rounds h prev (p.getD 0) = some r
      ∧ match S.find? (h.carries ptr) with
        | some m => Found h head L m r
        | none => if toAdd = 0 then r.found = 0 ∧ r.heap = h
          else (Added h head L toAdd r ↔ cv junk = false) := by
  have hnd := hc.chain.nodup
  have h0 := hc.ne_zero
  rw [hcat] at hnd h0
  cases hfind : S.find? (h.carries ptr) with
  | some m =>
    obtain ⟨hm, A, B, hAB, hA⟩ := List.find?_eq_some_iff_append.mp hfind
    rw [hAB] at hch hr h0 hcat hnd
    rw [List.length_append, List.length_cons] at hr
    refine ⟨_, searchLoop_found hch (fun x hx => h0 x (List.mem_append_right _ hx))
      (fun x hx => by simpa using hA x hx) hm (by omega), ?_⟩
    have hcat' : head :: L = (A₀ ++ A) ++ m :: B := by rw [hcat, List.append_assoc]
    refine found_of_split (by rw [← hcat', hcat]; exact hnd) hcat' fun q hq => ?_
    rw [List.getLast?_append] at hq
    cases hA' : A.getLast? with
    | none =>
      rw [hA', Option.none_or] at hq
      exact hA₀ q hq
    | some a =>
      rw [hA', Option.some_or] at hq
      exact Option.some.inj hq
  | none =>
    have hno : ∀ x ∈ S, h.carries ptr x = false := by
      intro x hx
      simpa using List.find?_eq_none.mp hfind x hx
    rcases List.eq_nil_or_concat' S with rfl | ⟨A, e, rfl⟩
    · obtain rfl : p = none := hch
      obtain ⟨k, rfl⟩ : ∃ k, rounds = k + 1 := ⟨rounds - 1, by omega⟩
      have h00 : toAdd = 0 := hS.resolve_left (fun hx => hx rfl)
      refine ⟨⟨0, prev, h⟩, ?_, ?_⟩
      · rw [searchLoop]
        rfl
      · dsimp only
        rw [if_pos h00]
        exact ⟨rfl, rfl⟩
    · have hl : (head :: L).getLast? = some e := by
        rw [hcat, ← List.append_assoc, List.getLast?_concat]
      obtain ⟨hp, hcv⟩ := hc.last hl
      have he0 : e ≠ 0 := h0 e (by simp)
      have hec := hno e (by simp)
      rw [List.length_append, List.length_singleton] at hr
      obtain ⟨k, rfl⟩ : ∃ k, rounds = (k + 2) + A.length := ⟨rounds - A.length - 2, by omega⟩
      rw [searchLoop_last hch (fun x hx => h0 x (by simp [hx])) fun x hx => hno x (by simp [hx])]
      rw [searchLoop, if_neg he0, if_neg (of_decide_eq_false hec)]
      by_cases h00 : toAdd = 0
      · have hguard : ¬ (ptr61 (h.next e) = 0 ∧ toAdd ≠ 0) := fun hx => hx.2 h00
        simp only [if_neg hguard, if_pos h00]
        rw [hp]
        exact ⟨⟨0, e, h⟩, rfl, rfl, rfl⟩
      · have hf := hadd h00
        obtain ⟨-, hlock, -, hsucc⟩ := hc.insertAt hl hf h00 (ptr61_setPtr61 junk (toPtr61 toAdd))
        have hcarry : (ptr61 (h.ptrlock toAdd)).setWidth 64 = ptr := of_decide_eq_true hf.carries
        simp only [if_pos (show ptr61 (h.next e) = 0 ∧ toAdd ≠ 0 from ⟨hp, h00⟩), if_neg h00]
        rw [← getD_succ, hsucc, Option.getD_some, searchLoop, if_neg h00, hlock, if_pos hcarry]
        exact ⟨_, rfl, added_iff hc hl hf h00⟩

/-- **What a search does**: all that it is to do, if it has nothing to add or the memory of
its local had a clear condition bit, and otherwise it leaves a link with that bit set. -/
theorem findMonitorForPtr_correct (hc : h.IsChain head L)
    (hadd : toAdd ≠ 0 → h.Fresh head L ptr toAdd) {rounds : ℕ} (hr : L.length + 3 ≤ rounds) :
    ∃ r, findMonitorForPtr rounds h ptr head skipHead toAdd junk = some r
      ∧ (Correct h head L ptr skipHead toAdd r ↔ cv junk = false ∨ toAdd = 0
        ∨ ∃ m ∈ searched skipHead head L, h.carries ptr m = true) := by
  have hfinal : ∀ {S : List Ptr} {r : Result}, searched skipHead head L = S →
      (match S.find? (h.carries ptr) with
        | some m => Found h head L m r
        | none => if toAdd = 0 then r.found = 0 ∧ r.heap = h
          else (Added h head L toAdd r ↔ cv junk = false)) →
      (Correct h head L ptr skipHead toAdd r ↔ cv junk = false ∨ toAdd = 0
        ∨ ∃ m ∈ searched skipHead head L, h.carries ptr m = true) := by
    intro S r hS hr
    rw [Correct, hS]
    cases hfind : S.find? (h.carries ptr) with
    | some m =>
      rw [hfind] at hr
      exact iff_of_true hr (.inr (.inr ⟨m, List.mem_of_find?_eq_some hfind, List.find?_some hfind⟩))
    | none =>
      rw [hfind] at hr
      have hno : ¬ ∃ m ∈ S, h.carries ptr m = true := by
        rintro ⟨m, hm, hcm⟩
        exact List.find?_eq_none.mp hfind m hm hcm
      dsimp only at hr ⊢
      by_cases h00 : toAdd = 0
      · rw [if_pos h00] at hr ⊢
        exact iff_of_true hr (.inr (.inl h00))
      · rw [if_neg h00] at hr ⊢
        rw [hr]
        exact ⟨.inl, fun hx => hx.resolve_right fun hx => hx.elim h00 hno⟩
  cases skipHead with
  | false =>
    have hlen : (head :: L).length + 2 ≤ rounds := by
      rw [List.length_cons]
      omega
    have hA : ∀ q, ([] : List Ptr).getLast? = some q → head = q := nofun
    obtain ⟨r, hrun, hres⟩ := searchLoop_correct hc rfl hc.chain hA
      (.inl (List.cons_ne_nil head L)) hadd hlen
    exact ⟨r, hrun, hfinal rfl hres⟩
  | true =>
    rw [findMonitorForPtr, if_pos rfl]
    by_cases hguard : ptr61 (h.next head) = 0 ∧ toAdd ≠ 0
    · -- there is nothing behind the head
      obtain ⟨h61, h00⟩ := hguard
      have hL : L = [] := by
        refine ((chain_cons.mp hc.chain).2.eq_nil_iff).mpr ?_
        rw [Heap.succ, if_pos h61]
      subst hL
      rw [if_pos ⟨h61, h00⟩]
      refine ⟨_, rfl, hfinal (S := []) rfl ?_⟩
      dsimp only [List.find?_nil]
      rw [if_neg h00]
      exact added_iff hc rfl (hadd h00) h00
    · rw [if_neg hguard, ← getD_succ]
      have hS : L ≠ [] ∨ toAdd = 0 := by
        by_cases h00 : toAdd = 0
        · exact .inr h00
        · left
          rintro rfl
          have hnone := (chain_cons.mp hc.chain).2
          rw [chain_nil, Heap.succ] at hnone
          split at hnone
          · next h61 => exact hguard ⟨h61, h00⟩
          · cases hnone
      have hA : ∀ q, [head].getLast? = some q → head = q := fun q hq => Option.some.inj hq
      have hlen : L.length + 2 ≤ rounds := by omega
      obtain ⟨r, hrun, hres⟩ := searchLoop_correct hc rfl (chain_cons.mp hc.chain).2 hA hS hadd hlen
      exact ⟨r, hrun, hfinal rfl hres⟩

/-- A head alone, and a monitor for the pointer `40`. -/
def single : Heap :=
  ⟨fun m => if m = 8 then lockBit else 0, fun m => if m = 16 then setPtr61 lockBit (toPtr61 40) else 0⟩

theorem single_isChain : single.IsChain 8 [] := by
  have hs : single.succ 8 = none := by decide +kernel
  have hcv : cv (single.next 8) = false := by decide +kernel
  refine ⟨chain_cons.mpr ⟨rfl, chain_nil.mpr hs⟩, by decide, fun m hm => ?_⟩
  rw [List.mem_singleton.mp hm]
  exact hcv

theorem single_fresh : single.Fresh 8 [] 40 16 :=
  ⟨by decide, by decide, by decide +kernel, by decide +kernel⟩

/-- The monitor is added behind the head. -/
theorem single_correct : ∃ r, findMonitorForPtr 3 single 40 8 true 16 0#64 = some r
    ∧ Correct single 8 [] 40 true 16 r := by
  have hadd : (16 : Ptr) ≠ 0 → single.Fresh 8 [] 40 16 := fun _ => single_fresh
  obtain ⟨r, hr, hiff⟩ := findMonitorForPtr_correct single_isChain hadd (le_refl 3)
  exact ⟨r, hr, hiff.mpr (.inl (by decide))⟩

/-- **With a set condition bit in its local** the search leaves that bit in the link, and
once the monitor is taken out again nothing can be put in there. -/
theorem exists_stuck_link : ∃ r, findMonitorForPtr 3 single 40 8 true 16 cvBit = some r
    ∧ cv (r.heap.next 8) = true
    ∧ (∀ w, Word.swapWithMask (setPtr61 (r.heap.next 8) 0) insertMask 0 w = none)
    ∧ ¬ Correct single 8 [] 40 true 16 r := by
  refine ⟨_, rfl, by decide +kernel, fun w => ?_, fun hc => ?_⟩
  · rw [Word.swapWithMask, if_neg]
    decide +kernel
  · have hb : bits ((single.insertAt 8 (setPtr61 cvBit (toPtr61 16))).next 8) = bits (single.next 8) :=
      (show Added single 8 [] 16 _ from hc).bits
    exact absurd hb (by decide +kernel)

end MonitorChain
