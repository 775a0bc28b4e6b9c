import Lwlock.AdListSeek

/-!
# Iterating with removal

An iterator that is asked for the next element and told to pop the one it is at, in any order,
tours the list once. What it returns are the elements of the list in its direction; an element
that a pop fetched and another pop removed is left out. What was popped is gone from the list,
and nothing but the element that the iterator is at is pinned between the calls.

`iter->count` is one ahead while an element has been fetched and not returned: the count goes
up when a pop fetches it, and down and up again when it is returned or popped in its turn.
-/

namespace AdList

variable {E : Type*} [DecidableEq E]

/-- **A tour**, with what was returned, what was popped, and what was popped before it was
returned. -/
structure Tour (E : Type*) where
  st : State E
  it : Iter E
  returned : List E
  popped : List E
  skipped : List E

/-- The calls of a tour. -/
inductive Move
  | next
  | pop

/-- **A call.** -/
def Tour.call (bad : E) (rounds : ℕ) (q : Tour E) : Move → Option (Tour E)
  | .next => (q.it.next rounds q.st).map fun p =>
    { q with st := p.1, it := p.2.1, returned := q.returned ++ p.2.2.toList }
  | .pop =>
    match q.it.current with
    | .elem c => (q.it.pop bad rounds q.st).map fun p =>
      { q with
        st := p.1
        it := p.2.1
        popped := q.popped ++ [c]
        skipped := if c ∈ q.returned then q.skipped else q.skipped ++ [c] }
    | _ => none

/-- A list that nobody has pinned and that is counted right, and a fresh iterator. -/
structure Tour.Fresh (d : Direction) (L : List E) (q : Tour E) : Prop where
  holds : q.st.Holds L
  count : q.st.count = L.length
  small : q.st.count < 2 ^ 32
  pins : ∀ x ∈ L, q.st.pinCount x = 0
  mask : ∀ x ∈ L, q.st.mask x = false
  init : q.it = Iter.init d
  nothing : q.returned = [] ∧ q.popped = [] ∧ q.skipped = []

/-- **The tours of a list**, in a direction. -/
def tours (bad : E) (rounds : ℕ) (d : Direction) (L : List E) : Machine (Tour E) Move where
  start := Tour.Fresh d L
  step := fun q e => q.call bad rounds e

/-- What is left of a list. -/
def left (L P : List E) : List E := L.filter fun x => decide (x ∉ P)

/-- **A tour is right.** -/
structure Tour.Good (bad : E) (rounds : ℕ) (d : Direction) (L : List E) (q : Tour E) : Prop where
  /-- The elements are returned in order, without those that were popped before, and each is
  counted. -/
  order : ∃ rest s it, left (view d L) q.skipped = q.returned ++ rest ∧
    q.it.next rounds q.st = some (s, it, rest.head?) ∧
    (rest ≠ [] → it.count = q.returned.length + 1) ∧ (rest = [] → it.current = .done)
  /-- At the end nothing is returned any more. -/
  ended : q.it.current = .done → q.it.next rounds q.st = some (q.st, q.it, none)
  /-- The list consists of what was not popped. -/
  holds : q.st.Holds (left L q.popped) ∧ q.st.count = (left L q.popped).length
  /-- Nothing but the current element is pinned. -/
  pins : ∀ x ∈ left L q.popped, q.st.pinCount x = if q.it.current = .elem x then 1 else 0
  /-- The current element can be popped. -/
  pop : ∀ c, q.it.current = .elem c → ∃ s it, q.it.pop bad rounds q.st = some (s, it, true)

/-! ## The invariant -/

/-- **Where the iterator is**: behind the elements that it has passed, or at the first of those
that it has not, which was fetched and not returned. -/
inductive Position : Iter E → List E → List E → ℕ → Prop
  | start {it : Iter E} {B : List E} (hc : it.current = .null) (hr : it.returnCurrent = false)
      (hn : it.count = 0) : Position it [] B 0
  | at {it : Iter E} {A B : List E} {c : E} {n : ℕ} (hc : it.current = .elem c)
      (hr : it.returnCurrent = false) (hn : it.count = n) : Position it (A ++ [c]) B n
  | fetched {it : Iter E} {A B : List E} {c : E} {n : ℕ} (hc : it.current = .elem c)
      (hr : it.returnCurrent = true) (hn : it.count = n + 1) : Position it A (c :: B) n
  | ended {it : Iter E} {A : List E} {n : ℕ} (hc : it.current = .done) (hn : it.count = n) :
      Position it A [] n

/-- The iterator on what is left of the list, which nobody else has pinned. -/
def Tour.scene (L : List E) (q : Tour E) : Scene E := ⟨q.st, q.it, left L q.popped, fun _ => 0⟩

/-- **The invariant of a tour**, with the elements it has passed and those it has not. -/
structure Tour.Inv (rounds : ℕ) (d : Direction) (L A B : List E) (q : Tour E) : Prop where
  split : view d L = A ++ B
  nodup : L.Nodup
  enough : L.length < rounds
  small : L.length < 2 ^ 32
  returned : q.returned = left A q.skipped
  popped : ∀ x ∈ q.popped, x ∈ A
  skipped : ∀ x ∈ q.skipped, x ∈ q.popped
  scene : (q.scene L).Inv rounds
  count : q.st.count = (left L q.popped).length
  direction : q.it.direction = d
  position : Position q.it A B q.returned.length

variable {bad : E} {rounds n : ℕ} {d : Direction} {L A B P : List E} {q q' : Tour E}
  {s s' : State E} {it it' : Iter E} {r : Option E} {c x : E}

/-! ### What is left -/

theorem mem_left : x ∈ left L P ↔ x ∈ L ∧ x ∉ P := by
  rw [left, List.mem_filter, decide_eq_true_iff]

theorem left_append : left (A ++ B) P = left A P ++ left B P := List.filter_append ..

theorem left_eq_self (h : ∀ x ∈ L, x ∉ P) : left L P = L :=
  List.filter_eq_self.mpr fun x hx => decide_eq_true (h x hx)

theorem view_left : view d (left L P) = left (view d L) P := view_filter d _

/-- One element more is gone. -/
theorem without_left : without (left L P) (.elem c) = left L (P ++ [c]) := by
  rw [without, left, left, List.filter_filter]
  refine List.filter_congr fun x _ => ?_
  rw [← Bool.decide_and, decide_eq_decide, List.mem_append, List.mem_singleton, not_or, and_comm]

theorem length_without (h : L.Nodup) (hc : c ∈ L) :
    (without L (.elem c)).length = L.length - 1 := by
  have hcongr : without L (.elem c) = L.filter (· != c) :=
    List.filter_congr fun x _ => by rw [bne, beq_eq_decide, decide_not]
  rw [hcongr, ← h.erase_eq_filter, List.length_erase_of_mem hc]

omit [DecidableEq E] in
/-- Where nothing is masked the first element comes next. -/
theorem State.unmasked_eq_head? (h : ∀ x ∈ L, s.mask x = false) : s.unmasked L = L.head? := by
  cases L with
  | nil => rfl
  | cons x L => rw [unmasked_cons_of_not_mask (h x List.mem_cons_self), List.head?_cons]

/-! ### One call -/

namespace Tour.Inv

theorem view_nodup (h : q.Inv rounds d L A B) : (A ++ B).Nodup := by
  rw [← h.split]
  cases d with
  | forward => exact h.nodup
  | backward => exact List.nodup_reverse.mpr h.nodup

/-- What has not been passed is on the list. -/
theorem view_left (h : q.Inv rounds d L A B) : view d (left L q.popped) = left A q.popped ++ B := by
  rw [AdList.view_left, h.split, left_append]
  congr 1
  refine left_eq_self fun x hx hp => ?_
  exact List.disjoint_of_nodup_append h.view_nodup (h.popped x hp) hx

theorem mask (h : q.Inv rounds d L A B) (hx : x ∈ left L q.popped) : q.st.mask x = false := by
  refine Bool.eq_false_iff.mpr fun hm => ?_
  have hpos := h.scene.masked x hx hm
  exact absurd hpos (Nat.not_succ_le_zero 0)

theorem mem_of_mem (h : q.Inv rounds d L A B) (hx : x ∈ B) : x ∈ left L q.popped := by
  refine (mem_view (d := d)).mp ?_
  rw [h.view_left]
  exact List.mem_append_right _ hx

/-- What comes next is what has not been passed, without an element that was fetched. -/
theorem following (h : q.Inv rounds d L A B) (Y : List E) (hY : ∀ x ∈ Y, x ∈ B)
    (hahead : ahead (left A q.popped ++ B) q.it.current = Y) :
    q.st.following q.it.direction (left L q.popped) q.it.current = Y.head? := by
  rw [State.following_eq, h.direction, h.view_left, hahead]
  exact State.unmasked_eq_head? fun x hx => h.mask (h.mem_of_mem (hY x hx))

/-- The number of elements bounds the count. -/
theorem length_lt (h : q.Inv rounds d L A (c :: B)) : q.returned.length + 1 < 2 ^ 32 := by
  have hlen := congrArg List.length h.split
  rw [length_view, List.length_append, List.length_cons] at hlen
  have hret : q.returned.length ≤ A.length := by
    rw [h.returned]
    exact List.length_filter_le ..
  have hsmall := h.small
  omega

end Tour.Inv

/-- An iterator that is about to return: the element it has fetched is not counted any more. -/
def Iter.base (it : Iter E) : Iter E :=
  if it.returnCurrent then { it with returnCurrent := false, count := decr 32 it.count } else it

omit [DecidableEq E] in
theorem Iter.arrive_snd (it : Iter E) (o : Option E) : (it.arrive o).2 = o := by
  cases o <;> rfl

/-- **An iterator after a call**, by what the call returned. -/
theorem Iter.next_eq_arrive (h : it.next rounds s = some (s', it', r)) (hd : it.current ≠ .done) :
    it' = (it.base.arrive r).1 := by
  have harrive : ∀ (i : Iter E) (q : State E) (o : Option E),
      some (q, i.arrive o) = some (s', it', r) → it' = (i.arrive r).1 := by
    intro i q o ho
    have heq := congrArg Prod.snd (Option.some.inj ho)
    obtain rfl : o = r := (i.arrive_snd o).symm.trans (congrArg Prod.snd heq)
    exact (congrArg Prod.fst heq).symm
  rw [base]
  cases hret : it.returnCurrent with
  | true =>
    cases hc : it.current with
    | done => exact absurd hc hd
    | null =>
      simp only [Iter.next, hc, hret, if_true] at h
      exact harrive _ _ _ h
    | elem c =>
      simp only [Iter.next, hc, hret, if_true] at h
      exact harrive _ _ _ h
  | false =>
    have hmap : (it.fetch rounds s).map (fun p => (p.1, it.arrive p.2)) = some (s', it', r) := by
      cases hc : it.current with
      | done => exact absurd hc hd
      | null =>
        simp only [Iter.next, hc, hret, Bool.false_eq_true, if_false] at h
        exact h
      | elem c =>
        simp only [Iter.next, hc, hret, Bool.false_eq_true, if_false] at h
        exact h
    obtain ⟨p, -, ho⟩ := Option.map_eq_some_iff.mp hmap
    exact harrive it p.1 p.2 (congrArg some ho)

omit [DecidableEq E] in
theorem Iter.base_direction (it : Iter E) : it.base.direction = it.direction := by
  rw [base]
  split <;> rfl

omit [DecidableEq E] in
theorem Iter.base_returnCurrent (it : Iter E) : it.base.returnCurrent = false := by
  rw [base]
  split
  · rfl
  · next h => exact Bool.eq_false_iff.mpr h

namespace Tour.Inv

/-- The elements passed, without those that were skipped. -/
theorem returned_snoc (h : q.Inv rounds d L A (c :: B)) :
    q.returned ++ [c] = left (A ++ [c]) q.skipped := by
  have hc : c ∉ q.skipped := fun hs =>
    List.disjoint_of_nodup_append h.view_nodup (h.popped c (h.skipped c hs)) List.mem_cons_self
  rw [left_append, ← h.returned, left_eq_self (L := [c]) fun x hx => List.mem_singleton.mp hx ▸ hc]

/-- **The iterator moves on** to an element that it has not passed. -/
theorem advance (h : q.Inv rounds d L A (c :: B)) (hnext : q.it.next rounds q.st = some (s, it, some c))
    (hd : q.it.current ≠ .done) (hcount : q.it.base.count = q.returned.length) :
    Tour.Inv rounds d L (A ++ [c]) B { q with st := s, it := it, returned := q.returned ++ [c] } := by
  obtain ⟨s', it', r, hnext', hscene, hst, -⟩ := h.scene.next
  have heq := Option.some.inj (hnext'.symm.trans hnext)
  obtain rfl : s' = s := congrArg Prod.fst heq
  obtain rfl : it' = it := congrArg (fun p => p.2.1) heq
  obtain rfl := Iter.next_eq_arrive hnext hd
  have hn : incr 32 q.it.base.count = q.returned.length + 1 := by rw [hcount, incr_eq h.length_lt]
  have hlen : (q.returned ++ [c]).length = q.returned.length + 1 := List.length_append
  exact
    { split := by rw [h.split, List.append_cons]
      nodup := h.nodup
      enough := h.enough
      small := h.small
      returned := h.returned_snoc
      popped := fun x hx => List.mem_append_left _ (h.popped x hx)
      skipped := h.skipped
      scene := hscene
      count := hst.trans h.count
      direction := q.it.base_direction.trans h.direction
      position := .at rfl q.it.base_returnCurrent (hn.trans hlen.symm) }

/-- **The iterator is at the end.** -/
theorem finish (h : q.Inv rounds d L A []) (hnext : q.it.next rounds q.st = some (s, it, none))
    (hd : q.it.current ≠ .done) (hcount : q.it.base.count = q.returned.length) :
    Tour.Inv rounds d L A [] { q with st := s, it := it } := by
  obtain ⟨s', it', r, hnext', hscene, hst, -⟩ := h.scene.next
  have heq := Option.some.inj (hnext'.symm.trans hnext)
  obtain rfl : s' = s := congrArg Prod.fst heq
  obtain rfl : it' = it := congrArg (fun p => p.2.1) heq
  obtain rfl := Iter.next_eq_arrive hnext hd
  exact
    { split := h.split
      nodup := h.nodup
      enough := h.enough
      small := h.small
      returned := h.returned
      popped := h.popped
      skipped := h.skipped
      scene := hscene
      count := hst.trans h.count
      direction := q.it.base_direction.trans h.direction
      position := .ended rfl hcount }

/-- What a call returns: the first element that has not been passed. -/
theorem next_eq (h : q.Inv rounds d L A B) :
    ∃ s it, q.it.next rounds q.st = some (s, it, B.head?) := by
  obtain ⟨s, it, r, hnext, -, -, hclear, hset⟩ := h.scene.next
  refine ⟨s, it, ?_⟩
  have hr : r = B.head? := by
    have hfol := fun Y hY hahead => h.following Y hY hahead
    have hpos := h.position
    generalize q.returned.length = n at hpos
    cases hpos with
    | start hc hret =>
      refine (hclear hret).trans (hfol B (fun _ hx => hx) ?_)
      rw [hc]
      rfl
    | @«at» A _ c _ hc hret =>
      refine (hclear hret).trans (hfol B (fun _ hx => hx) ?_)
      have hcp := (mem_left.mp (h.scene.current c hc).1).2
      have hcA : c ∉ left A q.popped := fun hx => by
        have hnd := (List.nodup_append.mp h.view_nodup).1
        exact List.disjoint_of_nodup_append hnd (mem_left.mp hx).1 (List.mem_singleton_self c)
      rw [hc, left_append, left_eq_self (L := [c]) fun x hx => List.mem_singleton.mp hx ▸ hcp,
        List.append_assoc]
      exact ahead_elem hcA
    | fetched hc hret => exact (hset hret).trans (congrArg Current.elem? hc)
    | ended hc =>
      cases hret : q.it.returnCurrent with
      | false =>
        refine (hclear hret).trans (hfol [] nofun ?_)
        rw [hc]
        rfl
      | true => exact (hset hret).trans (congrArg Current.elem? hc)
  rw [← hr]
  exact hnext

/-- An element that was fetched and not returned is not counted when the next call starts. -/
theorem base_count (h : q.Inv rounds d L A B) (hd : q.it.current ≠ .done) :
    q.it.base.count = q.returned.length := by
  have hpos := h.position
  generalize q.returned.length = n at hpos ⊢
  rw [Iter.base]
  cases hpos with
  | start hc hret hn => rw [hret, if_neg Bool.false_ne_true, hn]
  | «at» hc hret hn => rw [hret, if_neg Bool.false_ne_true, hn]
  | fetched hc hret hn =>
    rw [hret, if_pos rfl, hn, decr_eq (Nat.succ_pos _)]
    rfl
  | ended hc => exact absurd hc hd

/-- **A call of `_adlist_iter_next`** keeps the invariant. -/
theorem next (h : q.Inv rounds d L A B) (hs : q.call bad rounds .next = some q') :
    ∃ A' B', q'.Inv rounds d L A' B' := by
  obtain ⟨s, it, hnext⟩ := h.next_eq
  obtain ⟨p, hp, rfl⟩ := Option.map_eq_some_iff.mp hs
  obtain rfl := Option.some.inj (hp.symm.trans hnext)
  by_cases hd : q.it.current = .done
  · have hsame : q.it.next rounds q.st = some (q.st, q.it, none) := by rw [Iter.next.eq_def, hd]
    have heq := Option.some.inj (hsame.symm.trans hnext)
    obtain rfl : q.st = s := congrArg Prod.fst heq
    obtain rfl : q.it = it := congrArg (fun p => p.2.1) heq
    have hB : none = B.head? := congrArg (fun p => p.2.2) heq
    dsimp only
    rw [← hB, Option.toList_none, List.append_nil]
    exact ⟨A, B, h⟩
  · have hcount := h.base_count hd
    cases B with
    | nil =>
      dsimp only
      rw [List.head?_nil, Option.toList_none, List.append_nil]
      exact ⟨A, [], h.finish hnext hd hcount⟩
    | cons c B => exact ⟨A ++ [c], B, h.advance hnext hd hcount⟩

/-- **A call of `adlist_iter_pop`** returns. -/
theorem pop_eq (h : q.Inv rounds d L A B) (bad : E) (hc : q.it.current = .elem c) :
    q.it.pop bad rounds q.st
      = some ((q.st.popped (q.st.following q.it.direction (left L q.popped) (.elem c)) c).removeElemDo
          bad c, q.it.popped (q.st.following q.it.direction (left L q.popped) (.elem c)), true) :=
  h.scene.ready.pop bad hc (h.scene.current c hc).2 (h.scene.pin_current hc) h.scene.count
    h.scene.enough

omit [DecidableEq E] in
/-- Where an iterator is after a pop. -/
theorem position_popped {n : ℕ} (hret : it.returnCurrent = false) (hn : it.count = n)
    (hlt : ∀ c B', B = c :: B' → n + 1 < 2 ^ 32) : Position (it.popped B.head?) A B n := by
  cases B with
  | nil =>
    refine .ended ?_ ?_
    · simp only [Iter.popped, List.head?_nil, hret]
    · simp only [Iter.popped, List.head?_nil, hret, hn]
  | cons b B =>
    refine .fetched (c := b) ?_ ?_ ?_
    · simp only [Iter.popped, List.head?_cons, hret]
    · simp only [Iter.popped, List.head?_cons, hret]
    · simp only [Iter.popped, List.head?_cons, hret, hn]
      exact incr_eq (hlt b B rfl)

omit [DecidableEq E] in
theorem position_popped_fetched {n : ℕ} (hret : it.returnCurrent = true) (hn : it.count = n + 1) :
    Position (it.popped B.head?) A B n := by
  cases B with
  | nil =>
    refine .ended ?_ ?_
    · simp only [Iter.popped, List.head?_nil, hret]
    · simp only [Iter.popped, List.head?_nil, hret, hn]
      exact decr_eq (Nat.succ_pos n)
  | cons b B =>
    refine .fetched (c := b) ?_ ?_ ?_
    · simp only [Iter.popped, List.head?_cons, hret]
    · simp only [Iter.popped, List.head?_cons, hret]
    · simp only [Iter.popped, List.head?_cons, hret, hn]

/-- **A call of `adlist_iter_pop`** keeps the invariant. -/
theorem pop (h : q.Inv rounds d L A B) (hs : q.call bad rounds .pop = some q') :
    ∃ A' B', q'.Inv rounds d L A' B' := by
  cases hc : q.it.current with
  | null =>
    rw [Tour.call, hc] at hs
    cases hs
  | done =>
    rw [Tour.call, hc] at hs
    cases hs
  | elem c =>
    have hpop := h.pop_eq bad hc
    have hscene := h.scene.pop hc hpop
    rw [Tour.call, hc] at hs
    obtain ⟨p, hp, rfl⟩ := Option.map_eq_some_iff.mp hs
    obtain rfl := Option.some.inj (hp.symm.trans hpop)
    rw [if_pos rfl, show (q.scene L).it.current = .elem c from hc] at hscene
    have hmem := (h.scene.current c hc).1
    have hcp : c ∉ q.popped := (mem_left.mp hmem).2
    have hcount : decr 32 q.st.count = (left L (q.popped ++ [c])).length := by
      have hpos : 1 ≤ (left L q.popped).length := List.length_pos_of_mem hmem
      rw [h.count, decr_eq hpos, ← without_left]
      exact (length_without (h.nodup.filter _) hmem).symm
    have hdirection : ∀ r, (q.it.popped r).direction = d := by
      intro r
      rw [← h.direction, Iter.popped.eq_def]
      cases r <;> cases q.it.returnCurrent <;> rfl
    have hscene' : ∀ R K : List E, (Tour.scene L
        ⟨(q.st.popped (q.st.following q.it.direction (left L q.popped) (.elem c)) c).removeElemDo bad c,
          q.it.popped (q.st.following q.it.direction (left L q.popped) (.elem c)), R,
          q.popped ++ [c], K⟩).Inv rounds := by
      intro R K
      rw [Tour.scene]
      dsimp only
      rw [← without_left]
      exact hscene
    have hnd := h.view_nodup
    have hfol := fun Y hY hahead => h.following Y hY hahead
    have hpos := h.position
    generalize hlen : q.returned.length = n at hpos
    rw [hc] at hfol
    cases hpos with
    | start hc' => cases hc.symm.trans hc'
    | ended hc' => cases hc.symm.trans hc'
    | @«at» A' _ c' _ hc' hret hn =>
      obtain rfl : c = c' := Current.elem.inj (hc.symm.trans hc')
      have hcA : c ∉ left A' q.popped := fun hx =>
        List.disjoint_of_nodup_append (List.nodup_append.mp hnd).1 (mem_left.mp hx).1
          (List.mem_singleton_self c)
      have hr := hfol B (fun _ hx => hx) (by
        rw [left_append, left_eq_self (L := [c]) fun x hx => List.mem_singleton.mp hx ▸ hcp,
          List.append_assoc]
        exact ahead_elem hcA)
      have hret' : c ∈ q.returned := by
        rw [h.returned, mem_left]
        exact ⟨List.mem_append_right _ (List.mem_singleton_self c), fun hs => hcp (h.skipped c hs)⟩
      refine ⟨A' ++ [c], B, ⟨h.split, h.nodup, h.enough, h.small, ?_, fun x hx => ?_, fun x hx => ?_,
        hscene' _ _, hcount, hdirection _, ?_⟩⟩
      · dsimp only
        rw [if_pos hret']
        exact h.returned
      · rcases List.mem_append.mp hx with hx | hx
        · exact h.popped x hx
        · exact List.mem_append_right _ hx
      · dsimp only at hx
        rw [if_pos hret'] at hx
        exact List.mem_append_left _ (h.skipped x hx)
      · dsimp only
        rw [hr, hlen]
        refine position_popped hret hn fun b B' hB => ?_
        subst hB
        rw [← hlen]
        exact h.length_lt
    | @fetched _ B' c' _ hc' hret hn =>
      obtain rfl : c = c' := Current.elem.inj (hc.symm.trans hc')
      have hcA : c ∉ A := fun hx => List.disjoint_of_nodup_append hnd hx List.mem_cons_self
      have hr := hfol B' (fun x hx => List.mem_cons_of_mem c hx)
        (ahead_elem fun hx => hcA (mem_left.mp hx).1)
      have hret' : c ∉ q.returned := by
        rw [h.returned, mem_left]
        exact fun hx => hcA hx.1
      refine ⟨A ++ [c], B', ⟨?_, h.nodup, h.enough, h.small, ?_, fun x hx => ?_, fun x hx => ?_,
        hscene' _ _, hcount, hdirection _, ?_⟩⟩
      · rw [h.split, List.append_cons]
      · dsimp only
        rw [if_neg hret', left_append, h.returned]
        have hgone : left [c] (q.skipped ++ [c]) = [] := by
          rw [left, List.filter_cons_of_neg (by simp), List.filter_nil]
        rw [hgone, List.append_nil]
        refine List.filter_congr fun x hx => decide_eq_decide.mpr ?_
        rw [List.mem_append, List.mem_singleton, or_iff_left fun he : x = c => hcA (he ▸ hx)]
      · rcases List.mem_append.mp hx with hx | hx
        · exact List.mem_append_left _ (h.popped x hx)
        · exact List.mem_append_right _ hx
      · dsimp only at hx
        rw [if_neg hret'] at hx
        rcases List.mem_append.mp hx with hx | hx
        · exact List.mem_append_left _ (h.skipped x hx)
        · exact List.mem_append_right _ hx
      · dsimp only
        rw [hr, hlen]
        exact position_popped_fetched hret hn

/-- **What the invariant says about the next call.** -/
theorem good (h : q.Inv rounds d L A B) (bad : E) : q.Good bad rounds d L := by
  refine ⟨?_, fun hd => by rw [Iter.next.eq_def, hd], ⟨h.scene.holds, h.count⟩, fun x hx => ?_,
    fun c hc => ⟨_, _, h.pop_eq bad hc⟩⟩
  · obtain ⟨s, it, hnext⟩ := h.next_eq
    have hsplit : left (view d L) q.skipped = q.returned ++ B := by
      rw [h.split, left_append, h.returned, left_eq_self (L := B) fun x hx hs =>
        List.disjoint_of_nodup_append h.view_nodup (h.popped x (h.skipped x hs)) hx]
    refine ⟨B, s, it, hsplit, hnext, fun hB => ?_, fun hB => ?_⟩
    · cases B with
      | nil => exact absurd rfl hB
      | cons c B =>
        have hd : q.it.current ≠ .done := fun hd => by
          have hpos := h.position
          generalize q.returned.length = n at hpos
          cases hpos with
          | fetched hc => exact absurd (hc.symm.trans hd) nofun
          | start hc => exact absurd (hc.symm.trans hd) nofun
          | «at» hc => exact absurd (hc.symm.trans hd) nofun
        rw [Iter.next_eq_arrive hnext hd]
        show incr 32 q.it.base.count = _
        rw [h.base_count hd, incr_eq h.length_lt]
    · subst hB
      by_cases hd : q.it.current = .done
      · have hsame : q.it.next rounds q.st = some (q.st, q.it, none) := by rw [Iter.next.eq_def, hd]
        obtain rfl : q.it = it :=
          congrArg (fun p => p.2.1) (Option.some.inj (hsame.symm.trans hnext))
        exact hd
      · rw [Iter.next_eq_arrive hnext hd]
        rfl
  · exact (h.scene.pins x hx).trans (Nat.zero_add _)

end Tour.Inv

theorem Tour.Fresh.inv (h : q.Fresh d L) (hr : L.length < rounds) : q.Inv rounds d L [] (view d L) := by
  obtain ⟨hret, hpop, hskip⟩ := h.nothing
  have hleft : left L q.popped = L := left_eq_self fun x _ => by rw [hpop]; exact List.not_mem_nil
  have hcur : q.it.current = .null := by rw [h.init]; rfl
  refine ⟨rfl, h.holds.nodup, hr, h.count ▸ h.small, by rw [hret]; rfl, fun x hx => ?_,
    fun x hx => ?_, ?_, by rw [hleft, h.count], by rw [h.init]; rfl, ?_⟩
  · rw [hpop] at hx
    cases hx
  · rw [hskip] at hx
    cases hx
  · rw [Tour.scene, hleft]
    refine ⟨h.holds, hr, fun x hx => ?_, fun _ _ => (by decide : 0 + 2 < 2 ^ 15), fun x hx hm => ?_,
      fun c hc => ?_, ?_⟩
    · show q.st.pinCount x = 0 + if q.it.current = .elem x then 1 else 0
      rw [h.pins x hx, hcur, if_neg nofun]
    · exact absurd hm (by rw [show q.st.mask x = false from h.mask x hx]; decide)
    · exact absurd (hcur.symm.trans hc) nofun
    · show q.it.count < 2 ^ 32
      rw [h.init]
      exact Nat.two_pow_pos 32
  · rw [hret]
    exact .start hcur (by rw [h.init]; rfl) (by rw [h.init]; rfl)

/-- The invariant holds in every tour. -/
theorem inv_of_tour (hr : L.length < rounds) (h : (tours bad rounds d L).Reach Machine.anyStep q) :
    ∃ A B, q.Inv rounds d L A B := by
  refine Machine.Reach.invariant (I := fun q => ∃ A B, Tour.Inv rounds d L A B q)
    (fun _ hs => ⟨[], view d L, Tour.Fresh.inv hs hr⟩) ?_ h
  rintro q e q' ⟨A, B, hinv⟩ hs -
  cases e with
  | next => exact hinv.next (show q.call bad rounds .next = some q' from hs)
  | pop => exact hinv.pop (show q.call bad rounds .pop = some q' from hs)

/-- **Iterating with removal**, in every tour of a list in either direction: the elements are
returned in order, without those that were popped before, and the list is left with those that
were not popped. -/
theorem good_of_tour (hr : L.length < rounds)
    (h : (tours bad rounds d L).Reach Machine.anyStep q) : q.Good bad rounds d L := by
  obtain ⟨A, B, hinv⟩ := inv_of_tour hr h
  exact hinv.good bad

/-- A tour of the list of three elements. -/
def threeTour : Tour ℕ := ⟨threeElems.st, Iter.init .forward, [], [], []⟩

/-- The first element is popped after it was returned, and the second one before. -/
theorem good_three : ∃ q : Tour ℕ, q.returned = [1] ∧ q.popped = [1, 2] ∧
    q.Good 0 4 .forward [1, 2, 3] := by
  have hfresh : threeTour.Fresh .forward [1, 2, 3] :=
    ⟨⟨⟨rfl, rfl, rfl, rfl, rfl, rfl, rfl⟩, rfl, rfl⟩, rfl, by decide, fun _ _ => rfl, fun _ _ => rfl,
      rfl, rfl, rfl, rfl⟩
  obtain ⟨q, hq, hp⟩ := Machine.Reach.exists_of_exec (tours 0 4 .forward [1, 2, 3]) Machine.anyStep
    hfresh (p := fun q => decide (q.returned = [1] ∧ q.popped = [1, 2]))
    [.next, .pop, .pop] (by decide +kernel)
  obtain ⟨hret, hpop⟩ := of_decide_eq_true hp
  exact ⟨q, hret, hpop, good_of_tour (by decide) hq⟩

end AdList
