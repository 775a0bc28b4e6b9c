import Lwlock.Linked

/-!
# Doubly linked lists with a header

A list is kept as a header with its two ends and its length, over links that
belong to the nodes and are shared by all the lists: a node is on one list at a
time, and taking it off one and putting it on another goes through the same two
fields. `Header.Rep` says which list a header and the links stand for.

A removal is told the header but finds the neighbours in the node, and leaves a
marker in the node's fields. All that a list of other nodes has to know about it
is that it is not concerned.
-/

namespace DList

variable {ν : Type*}

/-- The links of the nodes. -/
structure Links (ν : Type*) where
  next : ν → Option ν
  prev : ν → Option ν

/-- The header of a list. -/
structure Header (ν : Type*) where
  head : Option ν
  tail : Option ν
  count : Nat

/-- The header of a list that is empty. -/
def Header.init : Header ν := ⟨none, none, 0⟩

/-- **What a list stands for.** -/
structure Header.Rep (l : Links ν) (hd : Header ν) (L : List ν) : Prop where
  linked : Linked l.next l.prev none hd.head L none
  tail : hd.tail = L.getLast?
  count : hd.count = L.length

variable {l l' : Links ν} {hd : Header ν} {A B L M : List ν} {a : ν}

theorem Header.rep_init : (Header.init : Header ν).Rep l [] := ⟨rfl, rfl, rfl⟩

theorem Header.Rep.nodup (h : hd.Rep l L) : L.Nodup := h.linked.nodup

theorem Header.Rep.head (h : hd.Rep l L) : hd.head = L.head? := by
  cases L with
  | nil => exact h.linked
  | cons a L => exact h.linked.1

/-- A node of a list leads to the one behind it. -/
theorem Header.Rep.next (h : hd.Rep l (L ++ a :: M)) : l.next a = M.head? := by
  have hM := (linked_append_cons.mp h.linked).2
  cases M with
  | nil => exact hM
  | cons b M => exact hM.1

/-- **The frame**: a list is not concerned with the links of other nodes. -/
theorem Header.Rep.congr (h : hd.Rep l L) (hn : ∀ a ∈ L, l'.next a = l.next a)
    (hp : ∀ a ∈ L, l'.prev a = l.prev a) : hd.Rep l' L :=
  ⟨h.linked.congr hn hp, h.tail, h.count⟩

variable [DecidableEq ν]

/-- Set a link that may be there to be set. -/
def setLink (f : ν → Option ν) (a : Option ν) (v : Option ν) : ν → Option ν :=
  match a with
  | none => f
  | some a => Function.update f a v

/-- Insert a node behind another one, or at the head. -/
def insertAfter (l : Links ν) (hd : Header ν) (existing : Option ν) (new : ν) :
    Links ν × Header ν :=
  let prev := Function.update l.prev new existing
  let follower := match existing with
    | none => hd.head
    | some e => l.next e
  let next := setLink (Function.update l.next new follower) existing (some new)
  (⟨next, setLink prev follower (some new)⟩,
    { head := if existing = none then some new else hd.head
      tail := if existing = hd.tail then some new else hd.tail
      count := hd.count + 1 })

/-- Append a node at the end. -/
def appendAtEnd (l : Links ν) (hd : Header ν) (new : ν) : Links ν × Header ν :=
  insertAfter l hd hd.tail new

/-- Remove a node, and leave `bad` in its links. -/
def remove (bad : ν) (l : Links ν) (hd : Header ν) (elem : ν) : Links ν × Header ν :=
  let prev := l.prev elem
  let next := l.next elem
  (⟨Function.update (setLink l.next prev next) elem (some bad),
    Function.update (setLink l.prev next prev) elem (some bad)⟩,
    { head := if prev = none then next else hd.head
      tail := if next = none then prev else hd.tail
      count := hd.count - 1 })

theorem setLink_apply (f : ν → Option ν) (a v : Option ν) (x : ν) :
    setLink f a v x = if a = some x then v else f x := by
  cases a with
  | none => rfl
  | some a => simp only [setLink, Function.update_apply, Option.some.injEq, eq_comm]

omit [DecidableEq ν] in
/-- A node of a list names the one before it. -/
theorem Header.Rep.prev {a : ν} (h : hd.Rep l (L ++ a :: M)) : l.prev a = L.getLast? := by
  rcases List.eq_nil_or_concat' L with rfl | ⟨L', p, rfl⟩
  · exact h.linked.2.1
  · rw [List.getLast?_concat]
    rw [List.append_assoc] at h
    exact h.linked.prev_eq

/-- **A removal** takes the node off its list. -/
theorem Header.Rep.remove {a : ν} (h : hd.Rep l (L ++ a :: M)) (bad : ν) :
    (DList.remove bad l hd a).2.Rep (DList.remove bad l hd a).1 (L ++ M) := by
  have hnd := h.nodup
  have hnext := h.next
  have hprev := h.prev
  have ha : a ∉ L ++ M := (List.nodup_cons.mp (List.nodup_middle.mp hnd)).1
  -- off the node itself the links are those of a node that takes itself out
  have hcn : ∀ x ∈ L ++ M, (DList.remove bad l hd a).1.next x = unlinkNext l.next l.prev a x := by
    intro x hx
    have hxa : x ≠ a := ne_of_mem_of_not_mem hx ha
    show Function.update _ a _ x = _
    rw [Function.update_of_ne hxa, setLink_apply, unlinkNext, if_neg hxa]
  have hcp : ∀ x ∈ L ++ M, (DList.remove bad l hd a).1.prev x = unlinkPrev l.next l.prev a x := by
    intro x hx
    have hxa : x ≠ a := ne_of_mem_of_not_mem hx ha
    show Function.update _ a _ x = _
    rw [Function.update_of_ne hxa, setLink_apply, unlinkPrev, if_neg hxa]
  refine ⟨?linked, ?tail, ?count⟩
  case linked =>
    show Linked _ _ none (if l.prev a = none then l.next a else hd.head) _ none
    rcases List.eq_nil_or_concat' L with rfl | ⟨L', p, rfl⟩
    · rw [hprev, List.getLast?_nil, if_pos rfl]
      exact h.linked.unlink_head.congr hcn hcp
    · rw [hprev, List.getLast?_concat, if_neg (Option.some_ne_none p)]
      rw [List.append_assoc] at h hcn hcp ⊢
      exact h.linked.unlink.congr hcn hcp
  case tail =>
    show (if l.next a = none then l.prev a else hd.tail) = _
    rw [hnext, hprev, h.tail]
    cases M with
    | nil => simp
    | cons b M => simp
  case count =>
    show hd.count - 1 = _
    rw [h.count, List.length_append, List.length_cons, List.length_append]
    omega

/-- A removal only writes to nodes of the list. -/
theorem Header.Rep.remove_frame {a x : ν} (h : hd.Rep l (L ++ a :: M)) (bad : ν)
    (hx : x ∉ L ++ a :: M) :
    (DList.remove bad l hd a).1.next x = l.next x ∧
      (DList.remove bad l hd a).1.prev x = l.prev x := by
  have hxa : x ≠ a := fun hxa => hx (by simp [hxa])
  have hxn : l.next a ≠ some x := by
    rw [h.next]
    exact fun hh => hx (List.mem_append_right _ (List.mem_cons_of_mem _ (List.mem_of_head? hh)))
  have hxp : l.prev a ≠ some x := by
    rw [h.prev]
    exact fun hh => hx (List.mem_append_left _ (List.mem_of_getLast? hh))
  constructor
  · show Function.update _ a _ x = _
    rw [Function.update_of_ne hxa, setLink_apply, if_neg hxp]
  · show Function.update _ a _ x = _
    rw [Function.update_of_ne hxa, setLink_apply, if_neg hxn]

omit [DecidableEq ν] in
/-- What is behind the elements that a list begins with. -/
theorem Header.Rep.follower (h : hd.Rep l (A ++ B)) :
    (match A.getLast? with | none => hd.head | some e => l.next e) = B.head? := by
  rcases List.eq_nil_or_concat' A with rfl | ⟨A', e, rfl⟩
  · exact h.head
  · rw [List.getLast?_concat]
    rw [List.append_assoc] at h
    exact h.next

/-- The links after an insertion. -/
theorem Header.Rep.insert_next (h : hd.Rep l (A ++ B)) (x : ν) :
    (DList.insertAfter l hd A.getLast? a).1.next x =
      if A.getLast? = some x then some a else if x = a then B.head? else l.next x := by
  have hf := h.follower
  show setLink (Function.update l.next a _) _ _ x = _
  rw [setLink_apply, Function.update_apply]
  exact congrArg _ (congrArg (fun v => if x = a then v else l.next x) hf)

theorem Header.Rep.insert_prev (h : hd.Rep l (A ++ B)) (x : ν) :
    (DList.insertAfter l hd A.getLast? a).1.prev x =
      if B.head? = some x then some a else if x = a then A.getLast? else l.prev x := by
  have hf := h.follower
  show setLink (Function.update l.prev a _) _ _ x = _
  rw [setLink_apply, Function.update_apply]
  exact congrArg (fun v => if v = some x then some a else if x = a then A.getLast? else l.prev x) hf

/-- **An insertion** puts the new element behind the one it is told, or at the front. -/
theorem Header.Rep.insert (h : hd.Rep l (A ++ B)) (ha : a ∉ A ++ B) :
    (DList.insertAfter l hd A.getLast? a).2.Rep (DList.insertAfter l hd A.getLast? a).1
      (A ++ a :: B) := by
  have hn := h.insert_next (a := a)
  have hp := h.insert_prev (a := a)
  set n := (DList.insertAfter l hd A.getLast? a).1.next with hndef
  set p := (DList.insertAfter l hd A.getLast? a).1.prev with hpdef
  have hnd := h.nodup
  have haA : A.getLast? ≠ some a := fun hx => ha (List.mem_append_left _ (List.mem_of_getLast? hx))
  have haB : B.head? ≠ some a := fun hx => ha (List.mem_append_right _ (List.mem_of_head? hx))
  have hna : n a = B.head? := by rw [hn, if_neg haA, if_pos rfl]
  have hpa : p a = A.getLast? := by rw [hp, if_neg haB, if_pos rfl]
  have hA : ∀ x ∈ A, p x = l.prev x := by
    intro x hx
    have hxB : B.head? ≠ some x := fun hxB =>
      List.disjoint_of_nodup_append hnd hx (List.mem_of_head? hxB)
    rw [hp, if_neg hxB, if_neg (ne_of_mem_of_not_mem (List.mem_append_left _ hx) ha)]
  have hB : ∀ x ∈ B, n x = l.next x := by
    intro x hx
    have hxA : A.getLast? ≠ some x := fun hxA =>
      List.disjoint_of_nodup_append hnd (List.mem_of_getLast? hxA) hx
    rw [hn, if_neg hxA, if_neg (ne_of_mem_of_not_mem (List.mem_append_right _ hx) ha)]
  -- from the new element on
  have hback : Linked n p A.getLast? (some a) (a :: B) none := by
    refine ⟨rfl, hpa, ?_⟩
    rw [hna]
    cases B with
    | nil => rfl
    | cons c B =>
      have hc := (linked_append_cons.mp h.linked).2
      refine ⟨rfl, by rw [hp, List.head?_cons, if_pos rfl], ?_⟩
      rw [hB c List.mem_cons_self]
      refine hc.congr (fun x hx => hB x (List.mem_cons_of_mem c hx)) fun x hx => ?_
      have hcx : (c :: B).head? ≠ some x := by
        rintro ⟨⟩
        exact (List.nodup_cons.mp (List.nodup_append.mp hnd).2.1).1 hx
      rw [hp, if_neg hcx, if_neg (ne_of_mem_of_not_mem (List.mem_append_right _
        (List.mem_cons_of_mem c hx)) ha)]
  refine ⟨?linked, ?tail, ?count⟩
  case linked =>
    show Linked n p none (if A.getLast? = none then some a else hd.head) _ none
    rcases List.eq_nil_or_concat' A with rfl | ⟨A', e, rfl⟩
    · exact hback
    · rw [List.getLast?_concat] at hback hn ⊢
      rw [if_neg (Option.some_ne_none e)]
      rw [List.append_assoc] at h hnd ⊢
      have hne : n e = some a := by rw [hn, if_pos rfl]
      refine linked_append_cons.mpr ⟨?_, hne ▸ hback⟩
      rw [hne]
      have hfront := (linked_append_cons.mp h.linked).1
      have heA : e ∉ A' := fun he =>
        List.disjoint_of_nodup_append hnd he (List.mem_append_left _ (List.mem_singleton_self e))
      refine (hfront.redirect heA (some a)).congr (fun x hx => ?_) hA
      have hxa : x ≠ a := by
        rintro rfl
        exact ha (List.mem_append_left _ hx)
      rw [hn, Function.update_apply]
      by_cases hxe : x = e
      · rw [hxe, if_pos rfl, if_pos rfl]
      · rw [if_neg hxe, if_neg (fun hx => hxe (Option.some.inj hx).symm), if_neg hxa]
  case tail =>
    show (if A.getLast? = hd.tail then some a else hd.tail) = _
    rw [h.tail]
    cases B with
    | nil => simp
    | cons c B =>
      have hne : A.getLast? ≠ (A ++ c :: B).getLast? := by
        intro hx
        have hlast : (A ++ c :: B).getLast? = (c :: B).getLast? := by
          simp [List.getLast?_append, List.getLast?_cons]
        rw [hlast] at hx
        obtain ⟨x, hxl⟩ := Option.isSome_iff_exists.mp
          (List.getLast?_isSome.mpr (List.cons_ne_nil c B))
        exact List.disjoint_of_nodup_append hnd (List.mem_of_getLast? (hx.trans hxl))
          (List.mem_of_getLast? hxl)
      rw [if_neg hne]
      simp
  case count =>
    show hd.count + 1 = _
    rw [h.count]
    simp only [List.length_append, List.length_cons]
    omega

/-- An insertion only writes to elements of the list and to its own. -/
theorem Header.Rep.insert_frame {x : ν} (h : hd.Rep l (A ++ B)) (hxa : x ≠ a)
    (hx : x ∉ A ++ B) : (DList.insertAfter l hd A.getLast? a).1.next x = l.next x
      ∧ (DList.insertAfter l hd A.getLast? a).1.prev x = l.prev x := by
  have hA : A.getLast? ≠ some x := fun hh => hx (List.mem_append_left _ (List.mem_of_getLast? hh))
  have hB : B.head? ≠ some x := fun hh => hx (List.mem_append_right _ (List.mem_of_head? hh))
  rw [h.insert_next, h.insert_prev, if_neg hA, if_neg hB, if_neg hxa, if_neg hxa]
  exact ⟨rfl, rfl⟩

/-- **An append** puts the node behind the others. -/
theorem Header.Rep.append {a : ν} (h : hd.Rep l L) (ha : a ∉ L) :
    (appendAtEnd l hd a).2.Rep (appendAtEnd l hd a).1 (L ++ [a]) := by
  have hL : hd.Rep l (L ++ []) := by rwa [List.append_nil]
  rw [appendAtEnd, h.tail]
  exact hL.insert (by rwa [List.append_nil])

/-- An append only writes to nodes of the list and to its own. -/
theorem Header.Rep.append_frame {a x : ν} (h : hd.Rep l L) (hxa : x ≠ a) (hx : x ∉ L) :
    (appendAtEnd l hd a).1.next x = l.next x ∧ (appendAtEnd l hd a).1.prev x = l.prev x := by
  have hL : hd.Rep l (L ++ []) := by rwa [List.append_nil]
  rw [appendAtEnd, h.tail]
  exact hL.insert_frame hxa (by rwa [List.append_nil])

end DList
