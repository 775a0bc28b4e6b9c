import Lwlock.Chain
import Lwlock.Machine
import Lwlock.Word

/-!
# Lists with links of 32 bits

The elements of a list come from an array, and a link is the index of an element in it,
packed with two bits of a lock into a word of 32 bits. The head of a list is such a word
too. A pop copies a whole word or only the index, a locked iterator takes and drops the
lock bits on its way.

An insertion writes the index of the new element to the one that it comes behind, and does
not write to the new element: what was behind is behind it only if the new element had the
index of that before. Addresses are numbers here; the head of the list has one of its own,
and `0` is no index.
-/

namespace SList32

/-! ## The array map -/

/-- **`ptr6432_map_array_t`**, and where the head of the list is. -/
structure Config where
  base : ℕ
  elemSize : ℕ
  numElems : ℕ
  head : ℕ
  size : 4 ≤ elemSize
  small : numElems < 2 ^ 32
  apart : ∀ i < numElems, base + i * elemSize ≠ head

namespace Config

/-- An element of the array. -/
def IsObj (m : Config) (obj : ℕ) : Prop := ∃ i < m.numElems, obj = m.base + i * m.elemSize

/-- **`obj_to_id32`.** -/
def objToId (m : Config) (obj : ℕ) : BitVec 32 := BitVec.ofNat 32 ((obj - m.base) / m.elemSize) + 1

/-- **`id32_to_obj`.** -/
def idToObj (m : Config) (id : BitVec 32) : Option ℕ :=
  if id = 0 then none else some (m.base + (id - 1).toNat * m.elemSize)

end Config

/-! ## The words -/

/-- `fields.next`. -/
def nextId (w : BitVec 32) : BitVec 32 := w >>> 2

/-- An assignment to `fields.next`. -/
def setNextId (w id : BitVec 32) : BitVec 32 := (w &&& 3#32) ||| (id <<< 2)

/-- `fields.lock`. -/
def lockBit (w : BitVec 32) : Bool := w.getLsbD 0

/-- `fields.wait`. -/
def waitBit (w : BitVec 32) : Bool := w.getLsbD 1

/-- The lock bits of a word, set to those of a number. -/
def setBits (w b : BitVec 32) : BitVec 32 := (w &&& ~~~3#32) ||| (b &&& 3#32)

/-! ## The operations -/

/-- **An iterator**; `prevElem` is missing behind the last element. -/
structure Iter where
  prevElem : Option ℕ
  withLocks : Bool
  deriving DecidableEq

/-- **The memory and the iterators.** -/
structure State (ι : Type*) where
  mem : ℕ → BitVec 32
  iters : ι → Option Iter

/-- The operations; `none` is the null pointer. -/
inductive Op (ι : Type*)
  | next (elem : Option ℕ)
  | insertAfter (elem new : ℕ)
  | pop
  | popNext (elem : Option ℕ)
  | iterInit (i : ι) (startAfter : Option ℕ) (withLocks : Bool)
  | iterDeinit (i : ι)
  | iterPeekNext (i : ι)
  | iterNext (i : ι)
  | iterPopNext (i : ι)
  | iterInsert (i : ι) (new : ℕ)

variable {ι : Type*} [DecidableEq ι]

namespace State

/-- Write a word. -/
def write (s : State ι) (a : ℕ) (w : BitVec 32) : State ι :=
  { s with mem := Function.update s.mem a w }

/-- **`lock_elem`**, which does not return if the lock is taken: there is nobody to drop it. -/
def lockElem (s : State ι) (a : ℕ) : Option (State ι) :=
  if lockBit (s.mem a) then none else some (s.write a (setBits (s.mem a) 1))

/-- **`unlock_elem`**, which looks for a waiter unless the lock bit alone is set. -/
def unlockElem (s : State ι) (a : ℕ) : Option (State ι) :=
  if lockBit (s.mem a) ∧ waitBit (s.mem a) = false then some (s.write a (setBits (s.mem a) 0))
  else none

/-- The element behind a word. -/
def succ (m : Config) (s : State ι) (a : ℕ) : Option ℕ := m.idToObj (nextId (s.mem a))

/-- The iterator after it moved. -/
def setIter (s : State ι) (i : ι) (it : Option Iter) : State ι :=
  { s with iters := Function.update s.iters i it }

end State

/-- `slist_next`, or `slist_get_first`. -/
def next (m : Config) (s : State ι) (elem : Option ℕ) : Option ℕ :=
  s.succ m (elem.getD m.head)

/-- **`slist_insert_after`**, and what `slist_iterator_insert` does, where `set_next_locked`
writes the same. -/
def insertAfter (m : Config) (s : State ι) (elem new : ℕ) : State ι :=
  s.write elem (setNextId (s.mem elem) (m.objToId new))

/-- **`slist_pop`.** -/
def pop (m : Config) (s : State ι) : State ι × Option ℕ :=
  match s.succ m m.head with
  | none => (s, none)
  | some e => (s.write m.head (s.mem e), some e)

/-- **`slist_pop_next`**; a null pointer is read as the head and written through. -/
def popNext (m : Config) (s : State ι) (elem : Option ℕ) : Option (State ι × Option ℕ) :=
  match next m s elem with
  | none => some (s, none)
  | some e => elem.map fun a => (s.write a (s.mem e), some e)

/-- `slist_iterator_init`. -/
def iterInit (m : Config) (s : State ι) (i : ι) (startAfter : Option ℕ) (withLocks : Bool) :
    Option (State ι) :=
  let prev := startAfter.getD m.head
  let s := s.setIter i (some ⟨some prev, withLocks⟩)
  if withLocks then s.lockElem prev else some s

/-- `slist_iterator_deinit`. -/
def iterDeinit (s : State ι) (i : ι) (it : Iter) : Option (State ι) :=
  let s := s.setIter i none
  match it.prevElem with
  | none => some s
  | some a => if it.withLocks then s.unlockElem a else some s

/-- `slist_iterator_peek_next`. -/
def iterPeekNext (m : Config) (s : State ι) (it : Iter) : Option ℕ :=
  it.prevElem.bind (s.succ m)

/-- **`slist_iterator_next`.** -/
def iterNext (m : Config) (s : State ι) (i : ι) (it : Iter) : Option (State ι × Option ℕ) :=
  match it.prevElem with
  | none => some (s, none)
  | some a =>
    let next := iterPeekNext m s it
    let s' := if it.withLocks then
        (match next with
          | none => some s
          | some e => s.lockElem e).bind fun s => s.unlockElem a
      else some s
    s'.map fun s => (s.setIter i (some ⟨next, it.withLocks⟩), next)

/-- **`slist_iterator_pop_next`.** -/
def iterPopNext (m : Config) (s : State ι) (it : Iter) : Option (State ι × Option ℕ) :=
  match it.prevElem, iterPeekNext m s it with
  | some a, some e =>
    if it.withLocks then
      ((s.lockElem e).bind fun s =>
        (s.write a (setNextId (s.mem a) (nextId (s.mem e)))).unlockElem e).map fun s => (s, some e)
    else some (s.write a (s.mem e), some e)
  | _, _ => some (s, none)

/-- **An operation**, with the element it returns; `none` is a crash, or a lock that is never
had. -/
def run (m : Config) (s : State ι) : Op ι → Option (State ι × Option ℕ)
  | .next elem => some (s, next m s elem)
  | .insertAfter elem new => some (insertAfter m s elem new, none)
  | .pop => some (pop m s)
  | .popNext elem => popNext m s elem
  | .iterInit i a l => (iterInit m s i a l).map fun s => (s, none)
  | .iterDeinit i => (s.iters i).bind fun it => (iterDeinit s i it).map fun s => (s, none)
  | .iterPeekNext i => (s.iters i).map fun it => (s, iterPeekNext m s it)
  | .iterNext i => (s.iters i).bind (iterNext m s i)
  | .iterPopNext i => (s.iters i).bind (iterPopNext m s)
  | .iterInsert i new => (s.iters i).bind fun it =>
    it.prevElem.map fun a => (insertAfter m s a new, none)

/-! ## The sequence -/

/-- The element or the head that an operation is about. -/
def Op.anchor (m : Config) (s : State ι) : Op ι → Option ℕ
  | .next elem | .popNext elem | .iterInit _ elem _ => some (elem.getD m.head)
  | .insertAfter elem _ => some elem
  | .pop => some m.head
  | .iterDeinit i | .iterPeekNext i | .iterNext i | .iterPopNext i | .iterInsert i _ =>
    (s.iters i).bind Iter.prevElem

/-- What an operation inserts. -/
def Op.inserts : Op ι → Option ℕ
  | .insertAfter _ new | .iterInsert _ new => some new
  | _ => none

/-- Whether an operation takes an element out. -/
def Op.pops : Op ι → Bool
  | .pop | .popNext _ | .iterPopNext _ => true
  | _ => false

/-- Whether an operation returns the element behind its anchor. -/
def Op.reads : Op ι → Bool
  | .next _ | .pop | .popNext _ | .iterPeekNext _ | .iterNext _ | .iterPopNext _ => true
  | _ => false

/-- How many elements there are up to an anchor. -/
def position (m : Config) (c : List ℕ) (a : ℕ) : ℕ := (m.head :: c).idxOf a

/-- **What an operation does to the sequence.** -/
def Op.effect (m : Config) (s : State ι) (c : List ℕ) (op : Op ι) : List ℕ :=
  match op.anchor m s with
  | none => c
  | some a => match op.inserts with
    | some new => c.insertIdx (position m c a) new
    | none => if op.pops then c.eraseIdx (position m c a) else c

/-- The element that it returns. -/
def Op.returns (m : Config) (s : State ι) (c : List ℕ) (op : Op ι) : Option ℕ :=
  if op.reads then (op.anchor m s).bind fun a => (c)[position m c a]? else none

/-- **An operation respects the list**: it is about the head or an element of the list, and
inserts an element of the array that is not on it. -/
structure Op.Legal (m : Config) (s : State ι) (c : List ℕ) (op : Op ι) : Prop where
  anchor : ∀ a, op.anchor m s = some a → a = m.head ∨ a ∈ c
  inserts : ∀ new, op.inserts = some new → op.anchor m s ≠ none ∧ m.IsObj new ∧ new ∉ c
  iter : match op with
    | .iterDeinit i | .iterPeekNext i | .iterNext i | .iterPopNext i | .iterInsert i _ =>
      s.iters i ≠ none
    | _ => True

/-- **What an operation needs besides**: a new element has the index of what it comes before,
and its own index fits into a link; and what a null pointer is read as is not written. -/
structure Op.Fits (m : Config) (s : State ι) (op : Op ι) : Prop where
  inserts : ∀ a new, op.anchor m s = some a → op.inserts = some new →
    nextId (s.mem new) = nextId (s.mem a) ∧ (m.objToId new).toNat < 2 ^ 30
  pops : op = .popNext none → s.succ m m.head = none

/-- The list leads through a sequence. -/
def Sequence (m : Config) (s : State ι) (c : List ℕ) : Prop :=
  Chain (s.succ m) (some m.head) (m.head :: c)

/-- Whether an operation uses locks. -/
def Op.locks (s : State ι) : Op ι → Bool
  | .iterInit _ _ l => l
  | .iterDeinit i | .iterNext i | .iterPopNext i => (s.iters i).any Iter.withLocks
  | _ => false

/-- **An operation does what it does to a sequence**, and without locks it returns. -/
structure Op.Good (m : Config) (s : State ι) (c : List ℕ) (op : Op ι) : Prop where
  effect : ∀ s' r, run m s op = some (s', r) → Sequence m s' (op.effect m s c) ∧ r = op.returns m s c
  completes : op.locks s = false → run m s op ≠ none

/-- No lock bit is set, in the head or in an element. -/
def Unlocked (m : Config) (s : State ι) (c : List ℕ) : Prop :=
  ∀ a ∈ m.head :: c, lockBit (s.mem a) = false ∧ waitBit (s.mem a) = false

/-- **The memory and the sequence** under the same operations. -/
def machine (ι : Type*) [DecidableEq ι] (m : Config) : Machine (State ι × List ℕ) (Op ι) where
  start := fun s => s.1.mem m.head = 0 ∧ (∀ i, s.1.iters i = none) ∧ s.2 = []
  step := fun s op => (run m s.1 op).map fun p => (p.1, op.effect m s.1 s.2)

/-! ## Words and indices -/

variable {m : Config}

theorem getLsbD_nextId (w : BitVec 32) (i : ℕ) : (nextId w).getLsbD i = w.getLsbD (2 + i) := by
  rw [nextId, BitVec.getLsbD_ushiftRight]

theorem nextId_lt (w : BitVec 32) : (nextId w).toNat < 2 ^ 30 := by
  rw [nextId, BitVec.toNat_ushiftRight, Nat.shiftRight_eq_div_pow]
  have := w.isLt
  omega

theorem getLsbD_three (i : ℕ) : (3#32).getLsbD i = decide (i < 2) := by
  rw [show (3#32) = BitVec.ofNat 32 (2 ^ 2 - 1) from rfl, BitVec.getLsbD_ofNat,
    Nat.testBit_two_pow_sub_one]
  by_cases hi : i < 2
  · simp [hi, Nat.lt_of_lt_of_le hi (by decide : 2 ≤ 32)]
  · simp [hi]

/-- Only the index is assigned. -/
theorem getLsbD_setNextId (w id : BitVec 32) {i : ℕ} (hi : i < 32) :
    (setNextId w id).getLsbD i = if i < 2 then w.getLsbD i else id.getLsbD (i - 2) := by
  rw [setNextId, BitVec.getLsbD_or, BitVec.getLsbD_and, BitVec.getLsbD_shiftLeft, getLsbD_three]
  by_cases h2 : i < 2
  · simp [h2]
  · simp [h2, hi]

/-- Only the bits of the lock are assigned. -/
theorem getLsbD_setBits (w b : BitVec 32) (i : ℕ) :
    (setBits w b).getLsbD i = if i < 2 then b.getLsbD i else w.getLsbD i := by
  rw [setBits, Word.getLsbD_replace, getLsbD_three]
  by_cases h2 : i < 2 <;> simp [h2]

@[simp] theorem nextId_setBits (w b : BitVec 32) : nextId (setBits w b) = nextId w := by
  refine BitVec.eq_of_getLsbD_eq fun i _ => ?_
  rw [getLsbD_nextId, getLsbD_nextId, getLsbD_setBits, if_neg (by omega)]

/-- **An index comes back** from a link if it fits. -/
theorem nextId_setNextId {w id : BitVec 32} (h : id.toNat < 2 ^ 30) :
    nextId (setNextId w id) = id := by
  refine BitVec.eq_of_getLsbD_eq fun i hi => ?_
  rw [getLsbD_nextId]
  by_cases h30 : 2 + i < 32
  · rw [getLsbD_setNextId w id h30, if_neg (by omega), Nat.add_sub_cancel_left]
  · have hge : 2 ^ 30 ≤ 2 ^ i := Nat.pow_le_pow_right (by decide) (by omega)
    rw [BitVec.getLsbD_of_ge _ _ (by omega), BitVec.getLsbD, Nat.testBit_lt_two_pow (by omega)]

namespace Config

/-- The index of an element of the array leads back to it. -/
theorem IsObj.idToObj {obj : ℕ} (h : m.IsObj obj) : m.idToObj (m.objToId obj) = some obj := by
  obtain ⟨i, hi, rfl⟩ := h
  have hpos : 0 < m.elemSize := Nat.lt_of_lt_of_le (by decide) m.size
  have hsmall := m.small
  have hid : m.objToId (m.base + i * m.elemSize) = BitVec.ofNat 32 i + 1 := by
    rw [objToId, Nat.add_sub_cancel_left, Nat.mul_div_cancel _ hpos]
  have hne : BitVec.ofNat 32 i + 1 ≠ 0 := by
    intro h0
    have h0 : (BitVec.ofNat 32 i + 1#32).toNat = 0 := congrArg BitVec.toNat h0
    rw [BitVec.toNat_add, BitVec.toNat_ofNat, BitVec.toNat_ofNat] at h0
    omega
  rw [hid, Config.idToObj, if_neg hne, BitVec.add_sub_cancel, BitVec.toNat_ofNat,
    Nat.mod_eq_of_lt (hi.trans hsmall)]

/-- Different indices lead to different elements. -/
theorem idToObj_injective (m : Config) : Function.Injective m.idToObj := by
  intro k l h
  have hpos : 0 < m.elemSize := Nat.lt_of_lt_of_le (by decide) m.size
  rw [idToObj, idToObj] at h
  split at h <;> split at h
  · next hk hl => rw [hk, hl]
  · cases h
  · cases h
  · have hmul : (k - 1).toNat * m.elemSize = (l - 1).toNat * m.elemSize :=
      Nat.add_left_cancel (Option.some.inj h)
    have heq := BitVec.eq_of_toNat_eq (Nat.eq_of_mul_eq_mul_right hpos hmul)
    rw [← BitVec.sub_add_cancel k 1, heq, BitVec.sub_add_cancel]

end Config

theorem Config.IsObj.succ {obj : ℕ} (h : m.IsObj obj) {w : BitVec 32}
    (hw : nextId w = m.objToId obj) : m.idToObj (nextId w) = some obj := by
  rw [hw, h.idToObj]

/-! ## What an operation does -/

variable {s s' : State ι} {c : List ℕ} {op : Op ι} {a e new : ℕ} {r : Option ℕ}

section

omit [DecidableEq ι]

@[simp] theorem State.mem_write (w : BitVec 32) : (s.write a w).mem = Function.update s.mem a w := rfl

theorem State.succ_write (w : BitVec 32) :
    (s.write a w).succ m = Function.update (s.succ m) a (m.idToObj (nextId w)) := by
  funext b
  by_cases hb : b = a
  · rw [hb, Function.update_self, succ, mem_write, Function.update_self]
  · rw [Function.update_of_ne hb, succ, mem_write, Function.update_of_ne hb, succ]

theorem State.lockElem_cases (h : s.lockElem a = some s') :
    lockBit (s.mem a) = false ∧ s' = s.write a (setBits (s.mem a) 1) := by
  rw [lockElem] at h
  split at h
  · cases h
  · next hl => exact ⟨Bool.eq_false_iff.mpr hl, (Option.some.inj h).symm⟩

theorem State.unlockElem_cases (h : s.unlockElem a = some s') :
    lockBit (s.mem a) = true ∧ s' = s.write a (setBits (s.mem a) 0) := by
  rw [unlockElem] at h
  split at h
  · next hl => exact ⟨hl.1, (Option.some.inj h).symm⟩
  · cases h

/-- Taking a lock leaves every index alone. -/
theorem State.succ_setBits (b : BitVec 32) : (s.write a (setBits (s.mem a) b)).succ m = s.succ m := by
  rw [succ_write, nextId_setBits]
  exact Function.update_eq_self a (s.succ m)

theorem State.succ_lockElem (h : s.lockElem a = some s') : s'.succ m = s.succ m := by
  rw [(lockElem_cases h).2, succ_setBits]

theorem State.succ_unlockElem (h : s.unlockElem a = some s') : s'.succ m = s.succ m := by
  rw [(unlockElem_cases h).2, succ_setBits]

/-- Copying a whole word. -/
theorem State.succ_copy : (s.write a (s.mem e)).succ m = Function.update (s.succ m) a (s.succ m e) :=
  succ_write _

/-- Copying the index. -/
theorem State.succ_setNextId (w v : BitVec 32) :
    (s.write a (setNextId w (nextId v))).succ m
      = Function.update (s.succ m) a (m.idToObj (nextId v)) := by
  rw [succ_write, nextId_setNextId (nextId_lt v)]

/-- **What an operation does to the links**: it inserts, or passes over an element, or leaves
them alone. -/
inductive Effect (m : Config) (s s' : State ι) (op : Op ι) : Prop
  | insert (a new : ℕ) (hanchor : op.anchor m s = some a) (hins : op.inserts = some new)
      (heq : s' = insertAfter m s a new)
  | remove (a e : ℕ) (hanchor : op.anchor m s = some a) (hins : op.inserts = none)
      (hpops : op.pops = true) (hsucc : s.succ m a = some e)
      (heq : s'.succ m = Function.update (s.succ m) a (s.succ m e))
  | stay (hins : op.inserts = none)
      (hpops : op.pops = true → (op.anchor m s).bind (s.succ m) = none)
      (heq : s'.succ m = s.succ m)

/-- A locked pop writes the index between two updates of the lock. -/
theorem iterPopNext_locked (h : ((s.lockElem e).bind fun q =>
      (q.write a (setNextId (q.mem a) (nextId (q.mem e)))).unlockElem e) = some s') :
    s'.succ m = Function.update (s.succ m) a (s.succ m e) := by
  obtain ⟨q, hq, hu⟩ := Option.bind_eq_some_iff.mp h
  rw [State.succ_unlockElem hu, State.succ_setNextId, State.succ_lockElem hq]
  congr 1
  exact congrFun (State.succ_lockElem hq) e

theorem popNext_effect {elem : Option ℕ} (h : popNext m s elem = some (s', r)) :
    r = s.succ m (elem.getD m.head) ∧ Effect m s s' (.popNext elem : Op ι) := by
  rw [popNext, next] at h
  split at h
  · next hnone =>
    obtain ⟨rfl, rfl⟩ := Prod.mk.inj (Option.some.inj h)
    exact ⟨hnone.symm, .stay rfl (fun _ => hnone) rfl⟩
  · next e he =>
    obtain ⟨a, rfl, hp⟩ := Option.map_eq_some_iff.mp h
    obtain ⟨rfl, rfl⟩ := Prod.mk.inj hp
    exact ⟨he.symm, .remove a e rfl rfl rfl he State.succ_copy⟩

theorem pop_effect : (pop m s).2 = s.succ m m.head ∧ Effect m s (pop m s).1 (.pop : Op ι) := by
  rw [pop]
  split
  · next hnone => exact ⟨hnone.symm, .stay rfl (fun _ => hnone) rfl⟩
  · next e he => exact ⟨he.symm, .remove m.head e rfl rfl rfl he State.succ_copy⟩

end

/-- Where an iterator is does not matter to the links. -/
theorem State.succ_setIter (i : ι) (it : Option Iter) : (s.setIter i it).succ m = s.succ m := rfl

theorem iterInit_succ {i : ι} {elem : Option ℕ} {l : Bool} (h : iterInit m s i elem l = some s') :
    s'.succ m = s.succ m := by
  rw [iterInit] at h
  split at h
  · rw [State.succ_lockElem h, State.succ_setIter]
  · rw [← Option.some.inj h, State.succ_setIter]

theorem iterDeinit_succ {i : ι} {it : Iter} (h : iterDeinit s i it = some s') :
    s'.succ m = s.succ m := by
  rw [iterDeinit] at h
  split at h
  · rw [← Option.some.inj h, State.succ_setIter]
  · split at h
    · rw [State.succ_unlockElem h, State.succ_setIter]
    · rw [← Option.some.inj h, State.succ_setIter]

theorem iterNext_effect {i : ι} {it : Iter} (h : iterNext m s i it = some (s', r)) :
    r = it.prevElem.bind (s.succ m) ∧ s'.succ m = s.succ m := by
  rw [iterNext] at h
  split at h
  · next hnone =>
    obtain ⟨rfl, rfl⟩ := Prod.mk.inj (Option.some.inj h)
    exact ⟨by rw [hnone]; rfl, rfl⟩
  · next a ha =>
    obtain ⟨q, hq, hp⟩ := Option.map_eq_some_iff.mp h
    obtain ⟨rfl, rfl⟩ := Prod.mk.inj hp
    refine ⟨rfl, (?_ : q.succ m = s.succ m)⟩
    split at hq
    · obtain ⟨u, hu, hq⟩ := Option.bind_eq_some_iff.mp hq
      rw [State.succ_unlockElem hq]
      split at hu
      · rw [Option.some.inj hu]
      · exact State.succ_lockElem hu
    · rw [Option.some.inj hq]

omit [DecidableEq ι] in
theorem iterPopNext_effect {i : ι} {it : Iter} (hit : s.iters i = some it)
    (h : iterPopNext m s it = some (s', r)) :
    r = it.prevElem.bind (s.succ m) ∧ Effect m s s' (.iterPopNext i) := by
  have hanchor : (Op.iterPopNext i).anchor m s = it.prevElem := by
    rw [Op.anchor, hit]
    rfl
  rw [iterPopNext, iterPeekNext] at h
  split at h
  · next a e ha he =>
    rw [ha, Option.bind_some] at he
    have hr : (some e : Option ℕ) = it.prevElem.bind (s.succ m) := by rw [ha, Option.bind_some, he]
    rw [ha] at hanchor
    split at h
    · obtain ⟨q, hq, hp⟩ := Option.map_eq_some_iff.mp h
      obtain ⟨rfl, rfl⟩ := Prod.mk.inj hp
      exact ⟨hr, .remove a e hanchor rfl rfl he (iterPopNext_locked hq)⟩
    · obtain ⟨rfl, rfl⟩ := Prod.mk.inj (Option.some.inj h)
      exact ⟨hr, .remove a e hanchor rfl rfl he State.succ_copy⟩
  · next hnone =>
    obtain ⟨rfl, rfl⟩ := Prod.mk.inj (Option.some.inj h)
    have hbind : it.prevElem.bind (s.succ m) = none := by
      cases ha : it.prevElem with
      | none => rfl
      | some a =>
        cases he : s.succ m a with
        | none => exact he
        | some e => exact (hnone a e ha (by rw [ha, Option.bind_some, he])).elim
    exact ⟨hbind.symm, .stay rfl (fun _ => by rw [hanchor, hbind]) rfl⟩

/-- **One spec for all operations.** -/
theorem run_effect (h : run m s op = some (s', r)) :
    r = (if op.reads then (op.anchor m s).bind (s.succ m) else none) ∧ Effect m s s' op := by
  cases op with
  | next elem =>
    obtain ⟨rfl, rfl⟩ := Prod.mk.inj (Option.some.inj h)
    exact ⟨rfl, .stay rfl nofun rfl⟩
  | insertAfter elem new =>
    obtain ⟨rfl, rfl⟩ := Prod.mk.inj (Option.some.inj h)
    exact ⟨rfl, .insert elem new rfl rfl rfl⟩
  | pop =>
    have h := Option.some.inj h
    obtain ⟨hr, he⟩ := pop_effect (m := m) (s := s)
    rw [h] at hr he
    exact ⟨hr, he⟩
  | popNext elem => exact popNext_effect h
  | iterInit i elem l =>
    obtain ⟨q, hq, hp⟩ := Option.map_eq_some_iff.mp h
    obtain ⟨rfl, rfl⟩ := Prod.mk.inj hp
    exact ⟨rfl, .stay rfl nofun (iterInit_succ hq)⟩
  | iterDeinit i =>
    obtain ⟨it, -, h⟩ := Option.bind_eq_some_iff.mp h
    obtain ⟨q, hq, hp⟩ := Option.map_eq_some_iff.mp h
    obtain ⟨rfl, rfl⟩ := Prod.mk.inj hp
    exact ⟨rfl, .stay rfl nofun (iterDeinit_succ hq)⟩
  | iterPeekNext i =>
    obtain ⟨it, hit, hp⟩ := Option.map_eq_some_iff.mp h
    obtain ⟨rfl, rfl⟩ := Prod.mk.inj hp
    refine ⟨?_, .stay rfl nofun rfl⟩
    rw [Op.anchor, hit]
    rfl
  | iterNext i =>
    obtain ⟨it, hit, h⟩ := Option.bind_eq_some_iff.mp h
    obtain ⟨hr, hsucc⟩ := iterNext_effect h
    refine ⟨?_, .stay rfl nofun hsucc⟩
    rw [Op.anchor, hit, hr]
    rfl
  | iterPopNext i =>
    obtain ⟨it, hit, h⟩ := Option.bind_eq_some_iff.mp h
    obtain ⟨hr, he⟩ := iterPopNext_effect hit h
    refine ⟨?_, he⟩
    rw [Op.anchor, hit, hr]
    rfl
  | iterInsert i new =>
    obtain ⟨it, hit, h⟩ := Option.bind_eq_some_iff.mp h
    obtain ⟨a, ha, hp⟩ := Option.map_eq_some_iff.mp h
    obtain ⟨rfl, rfl⟩ := Prod.mk.inj hp
    refine ⟨rfl, .insert a new ?_ rfl rfl⟩
    rw [Op.anchor, hit, Option.bind_some, ha]

/-! ## Where the anchor is -/

section

omit [DecidableEq ι]

/-- **The list around an anchor.** -/
theorem Sequence.around (h : Sequence m s c) (ha : a ∈ m.head :: c) :
    ∃ X Y, m.head :: c = X ++ a :: Y ∧ position m c a = X.length := by
  obtain ⟨X, Y, hXY⟩ := List.append_of_mem ha
  have hnd := Chain.nodup h
  rw [hXY] at hnd
  have haX : a ∉ X := fun haX => List.disjoint_of_nodup_append hnd haX List.mem_cons_self
  refine ⟨X, Y, hXY, ?_⟩
  rw [position, hXY, List.idxOf_append_of_notMem haX, List.idxOf_cons_self, Nat.add_zero]

/-- What is behind the anchor. -/
theorem Sequence.getElem?_position (h : Sequence m s c) (ha : a ∈ m.head :: c) :
    (c)[position m c a]? = s.succ m a := by
  obtain ⟨X, Y, hXY, hpos⟩ := h.around ha
  rw [Sequence, hXY] at h
  obtain ⟨r, -, -, hY⟩ := chain_append.mp h
  calc (c)[position m c a]? = (m.head :: c)[X.length + 1]? := by rw [hpos, List.getElem?_cons_succ]
    _ = (a :: Y)[1]? := by
      rw [hXY, List.getElem?_append_right (Nat.le_succ _), Nat.succ_sub (le_refl _),
        Nat.sub_self]
    _ = Y.head? := by rw [List.getElem?_cons_succ, List.head?_eq_getElem?]
    _ = s.succ m a := (Chain.head_eq hY).symm

/-- The element behind the anchor is on the list. -/
theorem Sequence.succ_mem (h : Sequence m s c) (ha : a ∈ m.head :: c) (he : s.succ m a = some e) :
    e ∈ m.head :: c :=
  Chain.next_mem h ha he

theorem Sequence.succ_ne (h : Sequence m s c) (ha : a ∈ m.head :: c) (he : s.succ m a = some e) :
    a ≠ e := by
  rintro rfl
  obtain ⟨X, Y, hXY, -⟩ := h.around ha
  rw [Sequence, hXY] at h
  obtain ⟨r, -, -, hY⟩ := chain_append.mp h
  have hnd := (List.nodup_append.mp h.nodup).2.1
  rw [he] at hY
  cases Y with
  | nil => exact Option.some_ne_none a hY
  | cons b Y =>
    obtain rfl : a = b := Option.some.inj hY.1
    exact (List.nodup_cons.mp hnd).1 List.mem_cons_self

/-- An insertion behind an anchor, around it. -/
theorem cons_insertIdx {X Y : List ℕ} (hXY : m.head :: c = X ++ a :: Y)
    (hpos : position m c a = X.length) :
    m.head :: c.insertIdx (position m c a) new = X ++ a :: new :: Y := by
  have hlen : X.length + 1 = (X ++ [a]).length := by rw [List.length_append, List.length_singleton]
  rw [← List.insertIdx_succ_cons, hXY, hpos, hlen, List.append_cons, insertIdx_append_length,
    List.append_assoc]
  rfl

/-- **An insertion is right** if and only if the new element leads to what it comes before, and
its index fits into the link. -/
theorem Sequence.insert_iff (h : Sequence m s c) (ha : a ∈ m.head :: c) (hobj : m.IsObj new)
    (hnew : new ∉ m.head :: c) :
    Sequence m (insertAfter m s a new) (c.insertIdx (position m c a) new)
      ↔ nextId (s.mem new) = nextId (s.mem a) ∧ (m.objToId new).toNat < 2 ^ 30 := by
  obtain ⟨X, Y, hXY, hpos⟩ := h.around ha
  have hna : new ≠ a := (ne_of_mem_of_not_mem ha hnew).symm
  rw [Sequence, cons_insertIdx hXY hpos, insertAfter, State.succ_write]
  constructor
  · intro hins
    obtain ⟨r, -, -, hfirst, hY⟩ := chain_append.mp hins
    rw [Function.update_self, ← hobj.idToObj] at hfirst
    have hid := m.idToObj_injective hfirst
    rw [Function.update_of_ne hna] at hY
    rw [Sequence, hXY] at h
    obtain ⟨r', -, -, hY'⟩ := chain_append.mp h
    have hsucc : s.succ m new = s.succ m a := by rw [Chain.head_eq hY, Chain.head_eq hY']
    refine ⟨m.idToObj_injective hsucc, ?_⟩
    rw [← hid]
    exact nextId_lt _
  · rintro ⟨hnext, hfits⟩
    rw [nextId_setNextId hfits, hobj.idToObj]
    rw [Sequence, hXY] at h
    refine h.insert (hXY ▸ hnew) ?_
    rw [State.succ, hnext, State.succ]

/-- **A removal is right.** -/
theorem Sequence.remove (h : Sequence m s c) (ha : a ∈ m.head :: c) (he : s.succ m a = some e)
    (heq : s'.succ m = Function.update (s.succ m) a (s.succ m e)) :
    Sequence m s' (c.eraseIdx (position m c a)) := by
  obtain ⟨X, Y, hXY, hpos⟩ := h.around ha
  rw [Sequence, ← List.eraseIdx_cons_succ, hXY, hpos,
    List.eraseIdx_append_of_length_le (Nat.le_succ _), Nat.succ_sub (le_refl _), Nat.sub_self, heq]
  rw [Sequence, hXY] at h
  obtain ⟨r, -, -, hY⟩ := chain_append.mp h
  rw [he] at hY
  cases Y with
  | nil => exact absurd hY (Option.some_ne_none e)
  | cons b Y =>
    obtain rfl : e = b := Option.some.inj hY.1
    exact h.cut

/-- An element of the array is not the head. -/
theorem Op.Legal.notMem (h : op.Legal m s c) (hins : op.inserts = some new) :
    new ∉ m.head :: c := by
  obtain ⟨-, ⟨i, hi, rfl⟩, hnew⟩ := h.inserts new hins
  rw [List.mem_cons, not_or]
  exact ⟨m.apart i hi, hnew⟩

theorem Op.Legal.mem (h : op.Legal m s c) (ha : op.anchor m s = some a) : a ∈ m.head :: c :=
  List.mem_cons.mpr (h.anchor a ha)

theorem Op.effect_insert (ha : op.anchor m s = some a) (hins : op.inserts = some new) :
    op.effect m s c = c.insertIdx (position m c a) new := by
  rw [Op.effect, ha, hins]

end

/-- **An operation that fits keeps the sequence.** -/
theorem Sequence.run (h : Sequence m s c) (hl : op.Legal m s c) (hf : op.Fits m s)
    (hr : run m s op = some (s', r)) : Sequence m s' (op.effect m s c) := by
  obtain ⟨-, ⟨a, new, ha, hins, rfl⟩ | ⟨a, e, ha, hins, hpops, he, heq⟩ | ⟨hins, hpops, heq⟩⟩ :=
    run_effect hr
  · rw [Op.effect_insert ha hins]
    exact (h.insert_iff (hl.mem ha) (hl.inserts new hins).2.1 (hl.notMem hins)).mpr
      (hf.inserts a new ha hins)
  · rw [Op.effect, ha, hins, hpops]
    exact h.remove (hl.mem ha) he heq
  · have hsame : op.effect m s c = c := by
      rw [Op.effect, hins]
      cases ha : op.anchor m s with
      | none => rfl
      | some a =>
        cases hp : op.pops with
        | false => rfl
        | true =>
          have hnone := hpops hp
          rw [ha, Option.bind_some, ← h.getElem?_position (hl.mem ha),
            List.getElem?_eq_none_iff] at hnone
          exact List.eraseIdx_of_length_le hnone
    rw [hsame, Sequence, heq]
    exact h

/-- What is returned. -/
theorem Sequence.returns (h : Sequence m s c) (hl : op.Legal m s c)
    (hr : SList32.run m s op = some (s', r)) : r = op.returns m s c := by
  rw [(run_effect hr).1, Op.returns]
  cases ha : op.anchor m s with
  | none => rfl
  | some a => rw [Option.bind_some, Option.bind_some, h.getElem?_position (hl.mem ha)]

/-- Without locks an operation returns. -/
theorem run_ne_none (hl : op.Legal m s c) (hf : op.Fits m s) (hlocks : op.locks s = false) :
    run m s op ≠ none := by
  have hiter := hl.iter
  cases op with
  | next elem => exact Option.some_ne_none _
  | insertAfter elem new => exact Option.some_ne_none _
  | pop => exact Option.some_ne_none _
  | popNext elem =>
    cases elem with
    | none =>
      rw [run, popNext, next, Option.getD_none, hf.pops rfl]
      exact Option.some_ne_none _
    | some a =>
      rw [run, popNext]
      split
      · exact Option.some_ne_none _
      · exact Option.some_ne_none _
  | iterInit i elem l =>
    obtain rfl : l = false := hlocks
    exact Option.some_ne_none _
  | iterDeinit i =>
    obtain ⟨it, hit⟩ := Option.ne_none_iff_exists'.mp hiter
    rw [Op.locks, hit, Option.any_some] at hlocks
    rw [run, hit, Option.bind_some, iterDeinit, hlocks]
    split
    · exact Option.some_ne_none _
    · exact Option.some_ne_none _
  | iterPeekNext i =>
    obtain ⟨it, hit⟩ := Option.ne_none_iff_exists'.mp hiter
    rw [run, hit]
    exact Option.some_ne_none _
  | iterNext i =>
    obtain ⟨it, hit⟩ := Option.ne_none_iff_exists'.mp hiter
    rw [Op.locks, hit, Option.any_some] at hlocks
    rw [run, hit, Option.bind_some, iterNext, hlocks]
    split
    · exact Option.some_ne_none _
    · exact Option.some_ne_none _
  | iterPopNext i =>
    obtain ⟨it, hit⟩ := Option.ne_none_iff_exists'.mp hiter
    rw [Op.locks, hit, Option.any_some] at hlocks
    rw [run, hit, Option.bind_some, iterPopNext, hlocks]
    split
    · exact Option.some_ne_none _
    · exact Option.some_ne_none _
  | iterInsert i new =>
    obtain ⟨it, hit⟩ := Option.ne_none_iff_exists'.mp hiter
    obtain ⟨a, ha⟩ := Option.ne_none_iff_exists'.mp (hl.inserts new rfl).1
    rw [Op.anchor, hit, Option.bind_some] at ha
    rw [run, hit, Option.bind_some, ha]
    exact Option.some_ne_none _

/-- An insertion returns. -/
theorem run_insert (ha : op.anchor m s = some a) (hins : op.inserts = some new) :
    run m s op = some (insertAfter m s a new, none) := by
  cases op with
  | insertAfter elem new' =>
    obtain rfl : elem = a := Option.some.inj ha
    obtain rfl : new' = new := Option.some.inj hins
    rfl
  | iterInsert i new' =>
    obtain rfl : new' = new := Option.some.inj hins
    obtain ⟨it, hit, hprev⟩ := Option.bind_eq_some_iff.mp ha
    rw [run, hit, Option.bind_some, hprev, Option.map_some]
  | _ => cases hins

/-- **When an operation does what it does to a sequence.** -/
theorem Sequence.good_iff (h : Sequence m s c) (hl : op.Legal m s c) :
    op.Good m s c ↔ op.Fits m s := by
  constructor
  · intro hg
    refine ⟨fun a new ha hins => ?_, fun hop => ?_⟩
    · have heff := (hg.effect _ _ (run_insert ha hins)).1
      rw [Op.effect_insert ha hins] at heff
      exact (h.insert_iff (hl.mem ha) (hl.inserts new hins).2.1 (hl.notMem hins)).mp heff
    · subst hop
      have hrun := hg.completes rfl
      rw [SList32.run, popNext, next, Option.getD_none] at hrun
      cases hnone : s.succ m m.head with
      | none => rfl
      | some e => exact absurd (by rw [hnone]; rfl) hrun
  · intro hf
    exact ⟨fun s' r hr => ⟨h.run hl hf hr, h.returns hl hr⟩, run_ne_none hl hf⟩

/-! ## The bits of the locks -/

/-- Neither bit of a lock is set. -/
def Free (w : BitVec 32) : Prop := lockBit w = false ∧ waitBit w = false

theorem Free.setNextId {w : BitVec 32} (h : Free w) (id : BitVec 32) :
    Free (SList32.setNextId w id) := by
  rw [Free, lockBit, waitBit, getLsbD_setNextId w id (by decide), getLsbD_setNextId w id (by decide)]
  exact h

theorem free_setBits (w : BitVec 32) : Free (setBits w 0) := by
  rw [Free, lockBit, waitBit, getLsbD_setBits, getLsbD_setBits, if_pos (by decide),
    if_pos (by decide)]
  exact ⟨by decide, by decide⟩

section

omit [DecidableEq ι]

theorem Unlocked.write (h : Unlocked m s c) {w : BitVec 32} (hw : Free w) :
    Unlocked m (s.write a w) c := by
  intro b hb
  rw [State.mem_write]
  by_cases hba : b = a
  · rw [hba, Function.update_self]
    exact hw
  · rw [Function.update_of_ne hba]
    exact h b hb

/-- A lock that is not held is not dropped. -/
theorem Unlocked.unlockElem (h : Unlocked m s c) (ha : a ∈ m.head :: c) :
    s.unlockElem a = none := by
  rw [State.unlockElem, if_neg]
  rintro ⟨hlock, -⟩
  rw [(h a ha).1] at hlock
  cases hlock

/-- Copying the word of an element that is on the list. -/
theorem Unlocked.copy (h : Unlocked m s c) (hs : Sequence m s c) (ha : a ∈ m.head :: c)
    (he : s.succ m a = some e) : Unlocked m (s.write a (s.mem e)) c :=
  h.write (h e (hs.succ_mem ha he))

/-- An iterator that holds no lock cannot move on with locks. -/
theorem Unlocked.iterNext_locked (h : Unlocked m s c) (hs : Sequence m s c) (ha : a ∈ m.head :: c) :
    ((match s.succ m a with
      | none => some s
      | some e => s.lockElem e).bind fun q => q.unlockElem a) = none := by
  cases he : s.succ m a with
  | none => exact h.unlockElem ha
  | some e =>
    refine Option.bind_eq_none_iff.mpr fun q hq => ?_
    obtain ⟨-, rfl⟩ := State.lockElem_cases hq
    rw [State.unlockElem, if_neg]
    rintro ⟨hlock, -⟩
    rw [State.mem_write, Function.update_of_ne (hs.succ_ne ha he), (h a ha).1] at hlock
    cases hlock

/-- The lock of the popped element is taken and dropped. -/
theorem Unlocked.iterPopNext_locked (h : Unlocked m s c) (hs : Sequence m s c)
    (ha : a ∈ m.head :: c) (he : s.succ m a = some e)
    (hr : ((s.lockElem e).bind fun q =>
      (q.write a (setNextId (q.mem a) (nextId (q.mem e)))).unlockElem e) = some s') :
    Unlocked m s' c := by
  obtain ⟨q, hq, hu⟩ := Option.bind_eq_some_iff.mp hr
  obtain ⟨-, rfl⟩ := State.lockElem_cases hq
  obtain ⟨-, rfl⟩ := State.unlockElem_cases hu
  have hae : a ≠ e := hs.succ_ne ha he
  intro b hb
  rw [State.mem_write, State.mem_write]
  by_cases hbe : b = e
  · rw [hbe, Function.update_self]
    exact free_setBits _
  · rw [Function.update_of_ne hbe]
    by_cases hba : b = a
    · rw [hba, Function.update_self, State.mem_write, Function.update_of_ne hae]
      exact Free.setNextId (h a ha) _
    · rw [Function.update_of_ne hba, State.mem_write, Function.update_of_ne hbe]
      exact h b hb

theorem Unlocked.insertAfter (h : Unlocked m s c) (ha : a ∈ m.head :: c) :
    Unlocked m (insertAfter m s a new) c :=
  h.write (Free.setNextId (h a ha) _)

end

/-- Moving an iterator writes no word. -/
theorem Unlocked.setIter (h : Unlocked m s c) (i : ι) (it : Option Iter) :
    Unlocked m (s.setIter i it) c := h

/-- **No bit of a lock appears** on an unlocked list unless an iterator starts with locks. -/
theorem Unlocked.run (h : Unlocked m s c) (hs : Sequence m s c) (hl : op.Legal m s c)
    (hop : ∀ i elem, op ≠ .iterInit i elem true) (hr : run m s op = some (s', r)) :
    Unlocked m s' c := by
  cases op with
  | next elem =>
    obtain ⟨rfl, -⟩ := Prod.mk.inj (Option.some.inj hr)
    exact h
  | insertAfter elem new =>
    obtain ⟨rfl, -⟩ := Prod.mk.inj (Option.some.inj hr)
    exact h.insertAfter (hl.mem rfl)
  | pop =>
    rw [SList32.run, SList32.pop] at hr
    split at hr
    · obtain ⟨rfl, -⟩ := Prod.mk.inj (Option.some.inj hr)
      exact h
    · next e he =>
      obtain ⟨rfl, -⟩ := Prod.mk.inj (Option.some.inj hr)
      exact h.copy hs List.mem_cons_self he
  | popNext elem =>
    rw [SList32.run, SList32.popNext, SList32.next] at hr
    split at hr
    · obtain ⟨rfl, -⟩ := Prod.mk.inj (Option.some.inj hr)
      exact h
    · next e he =>
      obtain ⟨a, rfl, hp⟩ := Option.map_eq_some_iff.mp hr
      obtain ⟨rfl, -⟩ := Prod.mk.inj hp
      exact h.copy hs (hl.mem rfl) he
  | iterInit i elem l =>
    cases l with
    | true => exact absurd rfl (hop i elem)
    | false =>
      obtain ⟨rfl, -⟩ := Prod.mk.inj (Option.some.inj hr)
      exact h.setIter i _
  | iterDeinit i =>
    obtain ⟨it, hit, hr⟩ := Option.bind_eq_some_iff.mp hr
    obtain ⟨q, hq, hp⟩ := Option.map_eq_some_iff.mp hr
    obtain ⟨rfl, -⟩ := Prod.mk.inj hp
    rw [SList32.iterDeinit] at hq
    split at hq
    · obtain rfl := Option.some.inj hq
      exact h.setIter i _
    · next a ha =>
      have hmem : a ∈ m.head :: c := hl.mem (by rw [Op.anchor, hit, Option.bind_some, ha])
      split at hq
      · rw [(h.setIter i none).unlockElem hmem] at hq
        cases hq
      · obtain rfl := Option.some.inj hq
        exact h.setIter i _
  | iterPeekNext i =>
    obtain ⟨it, hit, hp⟩ := Option.map_eq_some_iff.mp hr
    obtain ⟨rfl, -⟩ := Prod.mk.inj hp
    exact h
  | iterNext i =>
    obtain ⟨it, hit, hr⟩ := Option.bind_eq_some_iff.mp hr
    rw [SList32.iterNext] at hr
    split at hr
    · obtain ⟨rfl, -⟩ := Prod.mk.inj (Option.some.inj hr)
      exact h
    · next a ha =>
      have hmem : a ∈ m.head :: c := hl.mem (by rw [Op.anchor, hit, Option.bind_some, ha])
      obtain ⟨q, hq, hp⟩ := Option.map_eq_some_iff.mp hr
      obtain ⟨rfl, -⟩ := Prod.mk.inj hp
      split at hq
      · rw [SList32.iterPeekNext, ha, Option.bind_some, h.iterNext_locked hs hmem] at hq
        cases hq
      · obtain rfl := Option.some.inj hq
        exact h.setIter i _
  | iterPopNext i =>
    obtain ⟨it, hit, hr⟩ := Option.bind_eq_some_iff.mp hr
    rw [SList32.iterPopNext, SList32.iterPeekNext] at hr
    split at hr
    · next a e ha he =>
      have hmem : a ∈ m.head :: c := hl.mem (by rw [Op.anchor, hit, Option.bind_some, ha])
      rw [ha, Option.bind_some] at he
      split at hr
      · obtain ⟨q, hq, hp⟩ := Option.map_eq_some_iff.mp hr
        obtain ⟨rfl, -⟩ := Prod.mk.inj hp
        exact h.iterPopNext_locked hs hmem he hq
      · obtain ⟨rfl, -⟩ := Prod.mk.inj (Option.some.inj hr)
        exact h.copy hs hmem he
    · obtain ⟨rfl, -⟩ := Prod.mk.inj (Option.some.inj hr)
      exact h
  | iterInsert i new =>
    obtain ⟨it, hit, hr⟩ := Option.bind_eq_some_iff.mp hr
    obtain ⟨a, ha, hp⟩ := Option.map_eq_some_iff.mp hr
    obtain ⟨rfl, -⟩ := Prod.mk.inj hp
    exact h.insertAfter (hl.mem (by rw [Op.anchor, hit, Option.bind_some, ha]))

/-! ## Runs -/

/-- What a step of the machine is. -/
theorem machine_step {p p' : State ι × List ℕ} (h : (machine ι m).step p op = some p') :
    ∃ r, run m p.1 op = some (p'.1, r) ∧ p'.2 = op.effect m p.1 p.2 := by
  obtain ⟨⟨s', r⟩, hr, rfl⟩ := Option.map_eq_some_iff.mp h
  exact ⟨r, hr, rfl⟩

/-- **The list is the sequence** in every run of operations that fit. -/
theorem sequence_of_run {p : State ι × List ℕ}
    (h : (machine ι m).Reach (fun p op _ => op.Legal m p.1 p.2 ∧ op.Fits m p.1) p) :
    Sequence m p.1 p.2 := by
  refine Machine.Reach.invariant (I := fun p => Sequence m p.1 p.2) ?_ ?_ h
  · rintro ⟨s, c⟩ ⟨hhead, -, rfl⟩
    refine ⟨rfl, ?_⟩
    rw [segment_nil, State.succ, hhead]
    rfl
  · rintro p op p' hs hstep ⟨hl, hf⟩
    obtain ⟨r, hr, hc⟩ := machine_step hstep
    rw [hc]
    exact hs.run hl hf hr

/-- **The list is the sequence as long as every new element has the index of what it comes
before**, an operation is right exactly then, and no operation leaves bits of a lock behind. -/
theorem sequence_iff_of_reach (m : Config) {p : State ι × List ℕ}
    (h : (machine ι m).Reach (fun p op _ => op.Legal m p.1 p.2 ∧ op.Fits m p.1) p) :
    Sequence m p.1 p.2 ∧ ∀ op : Op ι, op.Legal m p.1 p.2 →
      (op.Good m p.1 p.2 ↔ op.Fits m p.1) ∧
      (Unlocked m p.1 p.2 → (∀ i elem, op ≠ .iterInit i elem true) →
        ∀ s' r, run m p.1 op = some (s', r) → Unlocked m s' p.2) := by
  have hs := sequence_of_run h
  exact ⟨hs, fun op hl => ⟨hs.good_iff hl, fun hu hop s' r hr => hu.run hs hl hop hr⟩⟩

/-- An array of three elements. -/
def threeElems : Config where
  base := 100
  elemSize := 4
  numElems := 3
  head := 0
  size := le_refl 4
  small := by decide
  apart := fun i _ => by omega

/-- Memory of zeros. -/
def zeroed : State Unit := ⟨fun _ => 0, fun _ => none⟩

/-- An insertion of an element of the array behind the head. -/
theorem legal_insert {s : State Unit} {c : List ℕ} {i : ℕ} (hi : i < 3) (hc : 100 + i * 4 ∉ c) :
    (Op.insertAfter 0 (100 + i * 4) : Op Unit).Legal threeElems s c := by
  refine ⟨fun a ha => .inl (Option.some.inj ha).symm, fun new hnew => ?_, trivial⟩
  obtain rfl := Option.some.inj hnew
  exact ⟨Option.some_ne_none _, ⟨i, hi, rfl⟩, hc⟩

/-- The first insertion. -/
theorem sequence_single :
    Sequence threeElems (insertAfter threeElems zeroed 0 100) [100] := by
  refine (sequence_iff_of_reach (p := (insertAfter threeElems zeroed 0 100, [100])) threeElems
    (Machine.Reach.tail (s := (zeroed, [])) (e := .insertAfter 0 100)
      (Machine.Reach.init ⟨rfl, fun _ => rfl, rfl⟩) rfl
      ⟨legal_insert (i := 0) (by decide) List.not_mem_nil, ?_, nofun⟩)).1
  intro a new _ hnew
  obtain rfl := Option.some.inj hnew
  exact ⟨rfl, by decide⟩

/-- **The second insertion at the head loses what was there.** -/
theorem exists_lost_tail : ∃ p : State Unit × List ℕ,
    (machine Unit threeElems).Reach (fun p op _ => op.Legal threeElems p.1 p.2) p ∧
      p.2 = [104, 100] ∧ next threeElems p.1 (some 104) = none ∧ ¬ Sequence threeElems p.1 p.2 := by
  refine ⟨(insertAfter threeElems (insertAfter threeElems zeroed 0 100) 0 104, [104, 100]),
    Machine.Reach.tail (s := (insertAfter threeElems zeroed 0 100, [100]))
      (e := .insertAfter 0 104)
      (Machine.Reach.tail (s := (zeroed, [])) (e := .insertAfter 0 100)
        (Machine.Reach.init ⟨rfl, fun _ => rfl, rfl⟩) rfl
        (legal_insert (i := 0) (by decide) List.not_mem_nil)) rfl
      (legal_insert (i := 1) (by decide) (by decide)), rfl, by decide, ?_⟩
  rintro ⟨-, -, hnext, -⟩
  exact absurd hnext (by decide)

end SList32
