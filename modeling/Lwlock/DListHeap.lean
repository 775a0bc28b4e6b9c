import Lwlock.DList
import Lwlock.Machine

/-!
# The lists of a heap as sequences

Any number of lists share the links of their elements. Each operation on a list does to
the elements reached from its head what an operation on sequences does at the position
that it names, and nothing to the other lists, as long as it is used with elements of the
list, or of no list where it brings in a new one.

All operations that bring one in go through `insertAfter`, where no element to insert
behind means the front of the list. The links alone decide what a list is; the count is
kept beside them in a field of 32 bits, and is the number of the elements as long as
these bits can hold it.
-/

namespace DList

/-- **A heap**: the links of all elements, and the headers of the lists. -/
structure Heap (κ ν : Type*) where
  links : Links ν
  lists : κ → Header ν

variable {κ ν : Type*}

/-- `lw_dl_get_count`. The header keeps the number that was counted, and the field has
the low bits of it. -/
def getCount (hd : Header ν) : BitVec 32 := BitVec.ofNat 32 hd.count

/-- The operations. -/
inductive Op (κ ν : Type*)
  | init (k : κ)
  | initElem (e : ν)
  | insertAtFront (k : κ) (new : ν)
  | appendAtEnd (k : κ) (new : ν)
  | insertAfter (k : κ) (existing new : ν)
  | insertBefore (k : κ) (existing new : ν)
  | remove (k : κ) (e : ν)
  | dequeue (k : κ)

/-- The list that an operation is about. -/
def Op.list : Op κ ν → Option κ
  | .initElem _ => none
  | .init k | .insertAtFront k _ | .appendAtEnd k _ | .insertAfter k _ _ | .insertBefore k _ _
  | .remove k _ | .dequeue k => some k

/-- The element that an operation is told, apart from one to insert beside. -/
def Op.elem : Op κ ν → Option ν
  | .init _ | .dequeue _ => none
  | .initElem e | .insertAtFront _ e | .appendAtEnd _ e | .insertAfter _ _ e | .insertBefore _ _ e
  | .remove _ e => some e

/-- The walk of `lw_dl_elem_is_in_list`, for a number of rounds. -/
def walkTo [DecidableEq ν] (next : ν → Option ν) (elem : ν) : ℕ → Option ν → Option Bool
  | _, none => some false
  | 0, some _ => none
  | n + 1, some x => if x = elem then some true else walkTo next elem n (next x)

section Heap

variable [DecidableEq ν]

/-- `lw_dl_init_elem`. -/
def initElem (bad : ν) (l : Links ν) (e : ν) : Links ν :=
  ⟨Function.update l.next e (some bad), Function.update l.prev e (some bad)⟩

/-- `lw_dl_insert_at_front`. -/
def insertAtFront (l : Links ν) (hd : Header ν) (new : ν) : Links ν × Header ν :=
  insertAfter l hd none new

/-- `lw_dl_insert_before`. -/
def insertBefore (l : Links ν) (hd : Header ν) (existing new : ν) : Links ν × Header ν :=
  insertAfter l hd (l.prev existing) new

/-- **`lw_dl_dequeue`**, which aborts on a list that has no head and is counted. -/
def dequeue (bad : ν) (l : Links ν) (hd : Header ν) :
    Option ((Links ν × Header ν) × Option ν) :=
  match hd.head with
  | some e => some (remove bad l hd e, some e)
  | none => if getCount hd = 0 then some ((l, hd), none) else none

/-- **`lw_dl_elem_is_in_list`**. -/
def elemIsInList (l : Links ν) (hd : Header ν) (elem : ν) (rounds : ℕ) : Option Bool :=
  walkTo l.next elem rounds hd.head

variable [DecidableEq κ]

namespace Heap

/-- The heap after an operation on a list. -/
def put (h : Heap κ ν) (k : κ) (p : Links ν × Header ν) : Heap κ ν :=
  ⟨p.1, Function.update h.lists k p.2⟩

/-- **An operation on the heap**, with the element it returns. -/
def run (bad : ν) (h : Heap κ ν) : Op κ ν → Option (Heap κ ν × Option ν)
  | .init k => some (h.put k (h.links, Header.init), none)
  | .initElem e => some ({ h with links := initElem bad h.links e }, none)
  | .insertAtFront k new => some (h.put k (DList.insertAtFront h.links (h.lists k) new), none)
  | .appendAtEnd k new => some (h.put k (DList.appendAtEnd h.links (h.lists k) new), none)
  | .insertAfter k e new => some (h.put k (DList.insertAfter h.links (h.lists k) (some e) new), none)
  | .insertBefore k e new => some (h.put k (DList.insertBefore h.links (h.lists k) e new), none)
  | .remove k e => some (h.put k (DList.remove bad h.links (h.lists k) e), none)
  | .dequeue k => (DList.dequeue bad h.links (h.lists k)).map fun p => (h.put k p.1, p.2)

end Heap

/-! ## The sequences -/

/-- **What an operation does to the sequences.** -/
def Op.effect (c : κ → List ν) : Op κ ν → κ → List ν
  | .initElem _ => c
  | .init k => Function.update c k []
  | .insertAtFront k new => Function.update c k (new :: c k)
  | .appendAtEnd k new => Function.update c k (c k ++ [new])
  | .insertAfter k e new => Function.update c k ((c k).insertIdx ((c k).idxOf e + 1) new)
  | .insertBefore k e new => Function.update c k ((c k).insertIdx ((c k).idxOf e) new)
  | .remove k e => Function.update c k ((c k).erase e)
  | .dequeue k => Function.update c k (c k).tail

/-- The element that an operation returns. -/
def Op.returns (c : κ → List ν) : Op κ ν → Option ν
  | .dequeue k => (c k).head?
  | _ => none

/-- **Membership is respected**: a new element is on no list, and any other one is on the
list of the operation. -/
def Op.Legal (c : κ → List ν) : Op κ ν → Prop
  | .init k => c k = []
  | .initElem e | .insertAtFront _ e | .appendAtEnd _ e => ∀ k, e ∉ c k
  | .insertAfter k e new | .insertBefore k e new => e ∈ c k ∧ ∀ k', new ∉ c k'
  | .remove k e => e ∈ c k
  | .dequeue _ => True

/-- **The heap and the sequences** under the same operations. -/
def machine (κ ν : Type*) [DecidableEq κ] [DecidableEq ν] (bad : ν) :
    Machine (Heap κ ν × (κ → List ν)) (Op κ ν) where
  start := fun s => (∀ k, s.1.lists k = Header.init) ∧ (∀ k, s.2 k = [])
    ∧ ∀ e, s.1.links.next e = some bad ∧ s.1.links.prev e = some bad
  step := fun s op => (s.1.run bad op).map fun p => (p.1, op.effect s.2)

/-- The runs that respect membership. -/
abbrev legal (s : Heap κ ν × (κ → List ν)) (op : Op κ ν) (_ : Heap κ ν × (κ → List ν)) : Prop :=
  op.Legal s.2

end Heap

/-! ## One step -/

/-- **What the heap stands for.** -/
structure Heap.Rep (h : Heap κ ν) (c : κ → List ν) : Prop where
  rep : ∀ k, (h.lists k).Rep h.links (c k)
  apart : ∀ k k', k ≠ k' → ∀ e ∈ c k, e ∉ c k'

/-- **The other lists are as they were**, with all their elements. -/
def Heap.Untouched (h h' : Heap κ ν) (c : κ → List ν) (op : Op κ ν) : Prop :=
  ∀ k, op.list ≠ some k → h'.lists k = h.lists k
    ∧ ∀ e ∈ c k, h'.links.next e = h.links.next e ∧ h'.links.prev e = h.links.prev e

section Step

variable [DecidableEq κ] [DecidableEq ν] {h : Heap κ ν} {c : κ → List ν} {k : κ} {L : List ν}
  {p : Links ν × Header ν}

omit [DecidableEq ν] in
/-- **An operation on one list** leaves the others alone, if it writes to no element of them. -/
theorem Heap.Rep.put (hR : h.Rep c) (hp : p.2.Rep p.1 L)
    (hframe : ∀ x, x ∉ c k → x ∉ L → p.1.next x = h.links.next x ∧ p.1.prev x = h.links.prev x)
    (hnew : ∀ x ∈ L, x ∈ c k ∨ ∀ k', x ∉ c k') :
    (h.put k p).Rep (Function.update c k L) ∧ ∀ k', k' ≠ k → (h.put k p).lists k' = h.lists k'
      ∧ ∀ e ∈ c k', p.1.next e = h.links.next e ∧ p.1.prev e = h.links.prev e := by
  have hoff : ∀ k', k' ≠ k → ∀ e ∈ c k', e ∉ L := by
    intro k' hk e he heL
    rcases hnew e heL with hek | hno
    · exact hR.apart k' k hk e he hek
    · exact hno k' he
  have hkeep : ∀ k', k' ≠ k → ∀ e ∈ c k', p.1.next e = h.links.next e ∧ p.1.prev e = h.links.prev e :=
    fun k' hk e he => hframe e (hR.apart k' k hk e he) (hoff k' hk e he)
  refine ⟨⟨fun k' => ?_, fun i j hij e he => ?_⟩, fun k' hk => ?_⟩
  · by_cases hk : k' = k
    · subst hk
      show (Function.update h.lists k' p.2 k').Rep p.1 (Function.update c k' L k')
      rw [Function.update_self, Function.update_self]
      exact hp
    · show (Function.update h.lists k p.2 k').Rep p.1 (Function.update c k L k')
      rw [Function.update_of_ne hk, Function.update_of_ne hk]
      exact (hR.rep k').congr (fun e he => (hkeep k' hk e he).1) fun e he => (hkeep k' hk e he).2
  · by_cases hi : i = k
    · subst hi
      rw [Function.update_self] at he
      rw [Function.update_of_ne (Ne.symm hij)]
      exact fun hj => hoff j (Ne.symm hij) e hj he
    · rw [Function.update_of_ne hi] at he
      by_cases hj : j = k
      · subst hj
        rw [Function.update_self]
        exact hoff i hi e he
      · rw [Function.update_of_ne hj]
        exact hR.apart i j hij e he
  · exact ⟨Function.update_of_ne hk _ _, hkeep k' hk⟩

/-- An insertion, wherever it is on the list. -/
theorem Heap.Rep.insert (hR : h.Rep c) {A B : List ν} {a : ν} (hc : c k = A ++ B)
    (ha : ∀ k', a ∉ c k') :
    (h.put k (DList.insertAfter h.links (h.lists k) A.getLast? a)).Rep
        (Function.update c k (A ++ a :: B))
      ∧ ∀ k', k' ≠ k →
        (h.put k (DList.insertAfter h.links (h.lists k) A.getLast? a)).lists k' = h.lists k'
        ∧ ∀ e ∈ c k', (DList.insertAfter h.links (h.lists k) A.getLast? a).1.next e = h.links.next e
          ∧ (DList.insertAfter h.links (h.lists k) A.getLast? a).1.prev e = h.links.prev e := by
  have hrep : (h.lists k).Rep h.links (A ++ B) := hc ▸ hR.rep k
  refine hR.put (hrep.insert (hc ▸ ha k)) (fun x hxc hxL => ?_) fun x hx => ?_
  · rw [hc] at hxc
    refine hrep.insert_frame (fun hxa => ?_) hxc
    exact hxL (hxa ▸ List.mem_append_right _ List.mem_cons_self)
  · rw [hc]
    simp only [List.mem_append, List.mem_cons] at hx ⊢
    rcases hx with hx | rfl | hx
    · exact .inl (.inl hx)
    · exact .inr ha
    · exact .inl (.inr hx)

/-- A removal. -/
theorem Heap.Rep.remove (hR : h.Rep c) {A B : List ν} {a : ν} (bad : ν) (hc : c k = A ++ a :: B) :
    (h.put k (DList.remove bad h.links (h.lists k) a)).Rep (Function.update c k (A ++ B))
      ∧ ∀ k', k' ≠ k → (h.put k (DList.remove bad h.links (h.lists k) a)).lists k' = h.lists k'
        ∧ ∀ e ∈ c k', (DList.remove bad h.links (h.lists k) a).1.next e = h.links.next e
          ∧ (DList.remove bad h.links (h.lists k) a).1.prev e = h.links.prev e := by
  have hrep : (h.lists k).Rep h.links (A ++ a :: B) := hc ▸ hR.rep k
  refine hR.put (hrep.remove bad) (fun x hxc _ => ?_) fun x hx => ?_
  · exact hrep.remove_frame bad (hc ▸ hxc)
  · rw [hc]
    simp only [List.mem_append, List.mem_cons] at hx ⊢
    exact .inl (hx.imp_right .inr)

omit [DecidableEq κ] in
/-- Where an element of a list is. -/
theorem Heap.Rep.position (hR : h.Rep c) {e : ν} (he : e ∈ c k) : ∃ A B, c k = A ++ e :: B
    ∧ (c k).idxOf e = A.length ∧ (c k).erase e = A ++ B ∧ h.links.prev e = A.getLast? := by
  obtain ⟨A, B, hc⟩ := List.append_of_mem he
  have hrep : (h.lists k).Rep h.links (A ++ e :: B) := hc ▸ hR.rep k
  have heA : e ∉ A := fun hA =>
    List.disjoint_of_nodup_append hrep.nodup hA List.mem_cons_self
  refine ⟨A, B, hc, ?_, ?_, hrep.prev⟩
  · rw [hc, List.idxOf_append_of_notMem heA, List.idxOf_cons_self, Nat.add_zero]
  · rw [hc, List.erase_append_right _ heA, List.erase_cons_head]

/-- **Every operation** does what it says, and leaves the other lists alone. -/
theorem Heap.Rep.run (hR : h.Rep c) (bad : ν) {op : Op κ ν} (hop : op.Legal c) :
    ∃ h', h.run bad op = some (h', op.returns c) ∧ h'.Rep (op.effect c) ∧ h.Untouched h' c op := by
  have hother : ∀ {h' : Heap κ ν} {k : κ}, (∀ k', k' ≠ k → h'.lists k' = h.lists k'
      ∧ ∀ e ∈ c k', h'.links.next e = h.links.next e ∧ h'.links.prev e = h.links.prev e) →
      ∀ k', some k ≠ some k' → h'.lists k' = h.lists k'
        ∧ ∀ e ∈ c k', h'.links.next e = h.links.next e ∧ h'.links.prev e = h.links.prev e :=
    fun hx k' hk => hx k' fun hkk => hk (congrArg some hkk.symm)
  cases op with
  | init k =>
    have hnil : c k = [] := hop
    obtain ⟨hrep, hrest⟩ := hR.put (k := k) (p := (h.links, Header.init)) Header.rep_init
      (fun _ _ _ => ⟨rfl, rfl⟩) nofun
    exact ⟨_, rfl, hrep, hother hrest⟩
  | initElem e =>
    have hne : ∀ k, ∀ x ∈ c k, x ≠ e := fun k x hx => ne_of_mem_of_not_mem hx (hop k)
    refine ⟨_, rfl, ⟨fun k => ?_, hR.apart⟩, fun k _ => ⟨rfl, fun x hx => ?_⟩⟩
    · exact (hR.rep k).congr (fun x hx => Function.update_of_ne (hne k x hx) _ _)
        fun x hx => Function.update_of_ne (hne k x hx) _ _
    · exact ⟨Function.update_of_ne (hne k x hx) _ _, Function.update_of_ne (hne k x hx) _ _⟩
  | insertAtFront k a =>
    obtain ⟨hrep, hrest⟩ := hR.insert (A := []) (B := c k) rfl hop
    exact ⟨_, rfl, hrep, hother hrest⟩
  | appendAtEnd k a =>
    obtain ⟨hrep, hrest⟩ := hR.insert (A := c k) (List.append_nil _).symm hop
    rw [← (hR.rep k).tail] at hrep hrest
    exact ⟨_, rfl, hrep, hother hrest⟩
  | insertAfter k e a =>
    obtain ⟨he, ha⟩ := hop
    obtain ⟨A, B, hc, hidx, -, -⟩ := hR.position he
    have hcat : c k = (A ++ [e]) ++ B := by rw [hc, List.append_assoc, List.singleton_append]
    obtain ⟨hrep, hrest⟩ := hR.insert hcat ha
    have heff : (c k).insertIdx ((c k).idxOf e + 1) a = (A ++ [e]) ++ a :: B := by
      have hlen : A.length + 1 = (A ++ [e]).length := by simp
      rw [hidx, hlen, hcat, insertIdx_append_length]
    rw [List.getLast?_concat] at hrep hrest
    refine ⟨_, rfl, ?_, hother hrest⟩
    rw [Op.effect, heff]
    exact hrep
  | insertBefore k e a =>
    obtain ⟨he, ha⟩ := hop
    obtain ⟨A, B, hc, hidx, -, hprev⟩ := hR.position he
    obtain ⟨hrep, hrest⟩ := hR.insert hc ha
    have heff : (c k).insertIdx ((c k).idxOf e) a = A ++ a :: e :: B := by
      rw [hidx, hc, insertIdx_append_length]
    rw [← hprev] at hrep hrest
    refine ⟨_, rfl, ?_, hother hrest⟩
    rw [Op.effect, heff]
    exact hrep
  | remove k e =>
    obtain ⟨A, B, hc, -, herase, -⟩ := hR.position hop
    obtain ⟨hrep, hrest⟩ := hR.remove bad hc
    refine ⟨_, rfl, ?_, hother hrest⟩
    rw [Op.effect, herase]
    exact hrep
  | dequeue k =>
    have hhead := (hR.rep k).head
    cases hc : c k with
    | nil =>
      rw [hc] at hhead
      have hcount : (h.lists k).count = 0 := by rw [(hR.rep k).count, hc, List.length_nil]
      obtain ⟨hrep, hrest⟩ := hR.put (k := k) (p := (h.links, h.lists k)) (L := c k) (hR.rep k)
        (fun _ _ _ => ⟨rfl, rfl⟩) fun x hx => .inl hx
      refine ⟨h.put k (h.links, h.lists k), ?_, ?_, hother hrest⟩
      · have hhead' : (h.lists k).head = none := hhead
        simp only [Heap.run, DList.dequeue, hhead', getCount, hcount, Op.returns, hc]
        rfl
      · rw [Op.effect, hc, List.tail_nil, ← hc]
        exact hrep
    | cons e B =>
      rw [hc] at hhead
      obtain ⟨hrep, hrest⟩ := hR.remove (A := []) bad hc
      refine ⟨h.put k (DList.remove bad h.links (h.lists k) e), ?_, ?_, hother hrest⟩
      · have hhead' : (h.lists k).head = some e := hhead
        simp only [Heap.run, DList.dequeue, hhead', Op.returns, hc]
        rfl
      · rw [Op.effect, hc]
        exact hrep

/-- **An element of no list** keeps its links unless it is told to the operation. -/
theorem Heap.Rep.run_frame (hR : h.Rep c) {bad : ν} {op : Op κ ν} (hop : op.Legal c)
    {h' : Heap κ ν} {r : Option ν} (hrun : h.run bad op = some (h', r)) {x : ν}
    (hx : ∀ k, x ∉ c k) (hxe : op.elem ≠ some x) :
    h'.links.next x = h.links.next x ∧ h'.links.prev x = h.links.prev x := by
  -- an insertion behind the elements that a list begins with
  have hins : ∀ (k : κ) (A B : List ν) (a : ν), c k = A ++ B → x ≠ a →
      (DList.insertAfter h.links (h.lists k) A.getLast? a).1.next x = h.links.next x
        ∧ (DList.insertAfter h.links (h.lists k) A.getLast? a).1.prev x = h.links.prev x := by
    intro k A B a hc hxa
    have hrep : (h.lists k).Rep h.links (A ++ B) := hc ▸ hR.rep k
    exact hrep.insert_frame hxa (hc ▸ hx k)
  have hne : ∀ {a : ν}, op.elem = some a → x ≠ a := by
    rintro a ha rfl
    exact hxe ha
  cases op with
  | init k =>
    obtain ⟨rfl, -⟩ := Prod.mk.inj (Option.some.inj hrun)
    exact ⟨rfl, rfl⟩
  | initElem e =>
    obtain ⟨rfl, -⟩ := Prod.mk.inj (Option.some.inj hrun)
    exact ⟨Function.update_of_ne (hne rfl) _ _, Function.update_of_ne (hne rfl) _ _⟩
  | insertAtFront k a =>
    obtain ⟨rfl, -⟩ := Prod.mk.inj (Option.some.inj hrun)
    exact hins k [] (c k) a rfl (hne rfl)
  | appendAtEnd k a =>
    obtain ⟨rfl, -⟩ := Prod.mk.inj (Option.some.inj hrun)
    have hlast := hins k (c k) [] a (List.append_nil _).symm (hne rfl)
    rw [← (hR.rep k).tail] at hlast
    exact hlast
  | insertAfter k e a =>
    obtain ⟨rfl, -⟩ := Prod.mk.inj (Option.some.inj hrun)
    obtain ⟨A, B, hc, -⟩ := hR.position hop.1
    have hmid := hins k (A ++ [e]) B a (by rw [hc, List.append_assoc, List.singleton_append])
      (hne rfl)
    rw [List.getLast?_concat] at hmid
    exact hmid
  | insertBefore k e a =>
    obtain ⟨rfl, -⟩ := Prod.mk.inj (Option.some.inj hrun)
    obtain ⟨A, B, hc, -, -, hprev⟩ := hR.position hop.1
    have hmid := hins k A (e :: B) a hc (hne rfl)
    rw [← hprev] at hmid
    exact hmid
  | remove k e =>
    obtain ⟨rfl, -⟩ := Prod.mk.inj (Option.some.inj hrun)
    obtain ⟨A, B, hc, -⟩ := hR.position hop
    have hrep : (h.lists k).Rep h.links (A ++ e :: B) := hc ▸ hR.rep k
    exact hrep.remove_frame bad (hc ▸ hx k)
  | dequeue k =>
    obtain ⟨⟨p, r'⟩, hp, heq⟩ := Option.map_eq_some_iff.mp hrun
    obtain ⟨rfl, -⟩ := Prod.mk.inj heq
    rw [DList.dequeue] at hp
    split at hp
    · next e he =>
      obtain ⟨rfl, -⟩ := Prod.mk.inj (Option.some.inj hp)
      have hhead := (hR.rep k).head
      rw [he] at hhead
      obtain ⟨B, hc⟩ := List.head?_eq_some_iff.mp hhead.symm
      have hrep : (h.lists k).Rep h.links ([] ++ e :: B) := hc ▸ hR.rep k
      refine hrep.remove_frame bad (x := x) ?_
      rw [List.nil_append, ← hc]
      exact hx k
    · split at hp
      · obtain ⟨rfl, -⟩ := Prod.mk.inj (Option.some.inj hp)
        exact ⟨rfl, rfl⟩
      · cases hp

end Step

/-! ## Runs -/

/-- **The lists are the sequences**, forwards and backwards, and a search of as many rounds
as there are elements decides what is on them. -/
structure Heap.Sequences [DecidableEq ν] (h : Heap κ ν) (c : κ → List ν) : Prop where
  forward : ∀ k, Chain h.links.next (h.lists k).head (c k)
  backward : ∀ k, Chain h.links.prev (h.lists k).tail (c k).reverse
  nodup : ∀ k, (c k).Nodup
  apart : ∀ k k', k ≠ k' → ∀ e ∈ c k, e ∉ c k'
  head : ∀ k, (h.lists k).head = none ↔ c k = []
  tail : ∀ k, (h.lists k).tail = none ↔ c k = []
  member : ∀ k e rounds, (c k).length ≤ rounds →
    elemIsInList h.links (h.lists k) e rounds = some (decide (e ∈ c k))

/-- **The counts are right.** -/
structure Heap.Counted (h : Heap κ ν) (c : κ → List ν) : Prop where
  number : ∀ k, (getCount (h.lists k)).toNat = (c k).length
  zero : ∀ k, getCount (h.lists k) = 0 ↔ (h.lists k).head = none

/-- A walk along a chain finds what is on it. -/
theorem walkTo_eq [DecidableEq ν] {next : ν → Option ν} {p : Option ν} {L : List ν} {e : ν}
    {rounds : ℕ} (h : Chain next p L) (hr : L.length ≤ rounds) :
    walkTo next e rounds p = some (decide (e ∈ L)) := by
  induction L generalizing p rounds with
  | nil =>
    obtain rfl : p = none := h
    cases rounds <;> simp [walkTo]
  | cons a L ih =>
    obtain ⟨rfl, hL⟩ := h
    cases rounds with
    | zero => cases hr
    | succ rounds =>
      rw [walkTo]
      split
      · next hae => simp [hae]
      · next hae =>
        rw [ih hL (Nat.le_of_succ_le_succ hr)]
        simp [Ne.symm hae]

theorem Heap.Rep.sequences [DecidableEq ν] {h : Heap κ ν} {c : κ → List ν} (hR : h.Rep c) :
    h.Sequences c := by
  refine ⟨fun k => (hR.rep k).linked.segment, fun k => ?_, fun k => (hR.rep k).nodup, hR.apart,
    fun k => ?_, fun k => ?_, fun k e rounds hr => walkTo_eq (hR.rep k).linked.segment hr⟩
  · have hback := (hR.rep k).linked.reverse
    rw [Option.or_none, ← (hR.rep k).tail] at hback
    exact hback
  · rw [(hR.rep k).head, List.head?_eq_none_iff]
  · rw [(hR.rep k).tail, List.getLast?_eq_none_iff]

/-- **The field counts the elements** as long as its bits can hold their number. -/
theorem Heap.Rep.counted_iff {h : Heap κ ν} {c : κ → List ν} (hR : h.Rep c) :
    h.Counted c ↔ ∀ k, (c k).length < 2 ^ 32 := by
  have hnum : ∀ k, (getCount (h.lists k)).toNat = (c k).length % 2 ^ 32 := by
    intro k
    rw [getCount, (hR.rep k).count, BitVec.toNat_ofNat]
  constructor
  · intro hc k
    rw [← hc.number k]
    exact (getCount (h.lists k)).isLt
  · intro hlt
    have hnumber : ∀ k, (getCount (h.lists k)).toNat = (c k).length :=
      fun k => (hnum k).trans (Nat.mod_eq_of_lt (hlt k))
    refine ⟨hnumber, fun k => ?_⟩
    rw [(hR.rep k).head, List.head?_eq_none_iff, ← List.length_eq_zero_iff, ← hnumber k]
    exact ⟨fun h0 => by rw [h0]; rfl, fun h0 => BitVec.eq_of_toNat_eq h0⟩

variable [DecidableEq κ] [DecidableEq ν] {bad : ν}

/-- The heap stands for the sequences in every run that respects membership. -/
theorem rep_of_legal {s : Heap κ ν × (κ → List ν)} (h : (machine κ ν bad).Reach legal s) :
    s.1.Rep s.2 := by
  refine h.invariant (I := fun s => s.1.Rep s.2) ?_ ?_
  · rintro ⟨h, c⟩ ⟨hlists, hnil, -⟩
    refine ⟨fun k => ?_, fun k k' _ e he => ?_⟩
    · show (h.lists k).Rep h.links (c k)
      rw [show h.lists k = Header.init from hlists k, show c k = [] from hnil k]
      exact Header.rep_init
    · rw [show (h, c).2 k = [] from hnil k] at he
      cases he
  · rintro ⟨h, c⟩ op s' hR he hop
    have hlegal : op.Legal c := hop
    obtain ⟨h', hrun, hR', -⟩ := hR.run bad hlegal
    have hs' : some (h', op.effect c) = some s' := by
      rw [← he]
      show _ = (h.run bad op).map _
      rw [show h.run bad op = _ from hrun]
      rfl
    obtain rfl := Option.some.inj hs'
    exact hR'

/-- A run goes on with any operation that respects membership. -/
theorem exists_step {s : Heap κ ν × (κ → List ν)} (h : (machine κ ν bad).Reach legal s)
    (op : Op κ ν) (hop : op.Legal s.2) :
    ∃ s', (machine κ ν bad).Reach legal s' ∧ s'.2 = op.effect s.2 := by
  obtain ⟨h', hrun, -⟩ := (rep_of_legal h).run bad hop
  have he : (machine κ ν bad).step s op = some (h', op.effect s.2) := by
    show (s.1.run bad op).map _ = _
    rw [hrun]
    rfl
  exact ⟨_, h.tail he hop, rfl⟩

/-- **Lists are sequences**: in every run that respects membership, each list stands for what
the same operations make of a sequence, and the operations leave the other lists alone. The
counts are right exactly as long as no list has `2 ^ 32` elements. -/
theorem sequences_of_legal {s : Heap κ ν × (κ → List ν)} (h : (machine κ ν bad).Reach legal s) :
    s.1.Sequences s.2
      ∧ (∀ op : Op κ ν, op.Legal s.2 → ∃ h', s.1.run bad op = some (h', op.returns s.2)
        ∧ h'.Sequences (op.effect s.2) ∧ s.1.Untouched h' s.2 op)
      ∧ (s.1.Counted s.2 ↔ ∀ k, (s.2 k).length < 2 ^ 32) := by
  have hR := rep_of_legal h
  refine ⟨hR.sequences, fun op hop => ?_, hR.counted_iff⟩
  obtain ⟨h', hrun, hR', hrest⟩ := hR.run bad hop
  exact ⟨h', hrun, hR'.sequences, hrest⟩

/-- The run of no step, with one list. -/
theorem reach_start : (machine Unit ℕ 0).Reach legal
    (⟨⟨fun _ => some 0, fun _ => some 0⟩, fun _ => Header.init⟩, fun _ => []) :=
  .init ⟨fun _ => rfl, fun _ => rfl, fun _ => ⟨rfl, rfl⟩⟩

/-- Two elements on one list. -/
theorem sequences_pair : ∃ s : Heap Unit ℕ × (Unit → List ℕ), s.2 () = [2, 1]
    ∧ s.1.Sequences s.2 ∧ (s.1.Counted s.2 ↔ ∀ k, (s.2 k).length < 2 ^ 32) := by
  obtain ⟨s₁, h₁, heq₁⟩ := exists_step reach_start (.appendAtEnd () 1)
    fun _ => List.not_mem_nil
  have hs₁ : s₁.2 () = [1] := by
    rw [heq₁]
    rfl
  obtain ⟨s₂, h₂, heq₂⟩ := exists_step h₁ (.insertBefore () 1 2)
    ⟨by rw [hs₁]; decide, fun k => by rw [show s₁.2 k = [1] from hs₁]; decide⟩
  obtain ⟨hs, -, hc⟩ := sequences_of_legal h₂
  refine ⟨s₂, ?_, hs, hc⟩
  rw [heq₂]
  show Function.update s₁.2 () _ () = _
  rw [Function.update_self, hs₁]
  rfl

/-- A list of any number of elements. -/
theorem exists_filled (n : ℕ) : ∃ s : Heap Unit ℕ × (Unit → List ℕ),
    (machine Unit ℕ 0).Reach legal s ∧ (s.2 ()).length = n ∧ ∀ x ∈ s.2 (), x < n := by
  induction n with
  | zero => exact ⟨_, reach_start, rfl, nofun⟩
  | succ n ih =>
    obtain ⟨s, hs, hlen, hlt⟩ := ih
    obtain ⟨s', hs', heq⟩ := exists_step hs (.appendAtEnd () n)
      fun _ hn => lt_irrefl n (hlt n hn)
    have hcat : s'.2 () = s.2 () ++ [n] := by
      rw [heq]
      exact Function.update_self () (s.2 () ++ [n]) s.2
    refine ⟨s', hs', ?_, fun x hx => ?_⟩
    · rw [hcat, List.length_append, hlen, List.length_singleton]
    · rw [hcat, List.mem_append, List.mem_singleton] at hx
      rcases hx with hx | rfl
      · exact (hlt x hx).trans (Nat.lt_succ_self n)
      · exact Nat.lt_succ_self _

/-- **A list of `2 ^ 32` elements** is counted as empty. -/
theorem exists_counted_empty : ∃ s : Heap Unit ℕ × (Unit → List ℕ),
    (machine Unit ℕ 0).Reach legal s ∧ (s.1.lists ()).head ≠ none
      ∧ getCount (s.1.lists ()) = 0 ∧ ¬ s.1.Counted s.2 := by
  obtain ⟨s, hs, hlen, -⟩ := exists_filled (2 ^ 32)
  have hR := rep_of_legal hs
  have hcount : (s.1.lists ()).count = 2 ^ 32 := (hR.rep ()).count.trans hlen
  refine ⟨s, hs, ?_, ?_, fun hc => ?_⟩
  · rw [(hR.rep ()).head, Ne, List.head?_eq_none_iff, ← List.length_eq_zero_iff, hlen]
    exact Nat.ne_of_gt (Nat.two_pow_pos 32)
  · rw [getCount, hcount]
    rfl
  · have hlt := hR.counted_iff.mp hc ()
    rw [hlen] at hlt
    exact lt_irrefl _ hlt

end DList
