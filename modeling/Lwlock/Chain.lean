import Mathlib

/-!
# Chains through a `next` field

A singly linked list is not a value of the program: it is what is reached
from a head by following `next`. `Segment next p L q` says that following
`next` from the link `p` visits exactly the nodes of `L`, in order, and
arrives at the link `q`; a chain is a segment that arrives at the end marker
`none`.

The nodes a chain visits are determined by its head, and none of them
occurs twice – a repetition would never arrive. What a program needs besides
is the frame: writing `next` of a node off the segment leaves the segment alone,
and writing it at the last node redirects the arrival.
-/

variable {ι : Type*} {next next' : ι → Option ι}

/-- Following `next` from `p` visits `L` and arrives at `q`. -/
def Segment (next : ι → Option ι) : Option ι → List ι → Option ι → Prop
  | p, [], q => p = q
  | p, a :: L, q => p = some a ∧ Segment next (next a) L q

/-- Following `next` from `p` visits `L` and arrives at the end. -/
def Chain (next : ι → Option ι) (p : Option ι) (L : List ι) : Prop := Segment next p L none

@[simp] theorem segment_nil {p q : Option ι} : Segment next p [] q ↔ p = q := Iff.rfl

@[simp] theorem segment_cons {p q : Option ι} {a : ι} {L : List ι} :
    Segment next p (a :: L) q ↔ p = some a ∧ Segment next (next a) L q := Iff.rfl

@[simp] theorem chain_nil {p : Option ι} : Chain next p [] ↔ p = none := Iff.rfl

@[simp] theorem chain_cons {p : Option ι} {a : ι} {L : List ι} :
    Chain next p (a :: L) ↔ p = some a ∧ Chain next (next a) L := Iff.rfl

/-- Segments compose where they meet. -/
theorem segment_append {p q : Option ι} {L M : List ι} :
    Segment next p (L ++ M) q ↔ ∃ r, Segment next p L r ∧ Segment next r M q := by
  induction L generalizing p with
  | nil =>
    rw [List.nil_append]
    exact ⟨fun h => ⟨p, rfl, h⟩, fun ⟨r, hr, h⟩ => hr ▸ h⟩
  | cons a L ih =>
    rw [List.cons_append, segment_cons, ih]
    constructor
    · rintro ⟨hp, r, hL, hM⟩
      exact ⟨r, ⟨hp, hL⟩, hM⟩
    · rintro ⟨r, ⟨hp, hL⟩, hM⟩
      exact ⟨hp, r, hL, hM⟩

theorem chain_append {p : Option ι} {L M : List ι} :
    Chain next p (L ++ M) ↔ ∃ r, Segment next p L r ∧ Chain next r M :=
  segment_append

/-- A chain of no node starts at the end marker. -/
theorem Chain.eq_nil_iff {p : Option ι} {L : List ι} (h : Chain next p L) :
    L = [] ↔ p = none := by
  cases L with
  | nil => exact iff_of_true rfl h
  | cons a L =>
    obtain ⟨hp, -⟩ := h
    exact iff_of_false (List.cons_ne_nil a L) (by rw [hp]; exact Option.some_ne_none a)

/-- **The frame**: a segment only reads `next` at its own nodes. -/
theorem Segment.congr {p q : Option ι} {L : List ι} (h : Segment next p L q)
    (hn : ∀ a ∈ L, next' a = next a) : Segment next' p L q := by
  induction L generalizing p with
  | nil => exact h
  | cons a L ih =>
    obtain ⟨hp, h⟩ := h
    refine ⟨hp, ?_⟩
    rw [hn a List.mem_cons_self]
    exact ih h (fun b hb => hn b (List.mem_cons_of_mem a hb))

theorem Chain.congr {p : Option ι} {L : List ι} (h : Chain next p L)
    (hn : ∀ a ∈ L, next' a = next a) : Chain next' p L :=
  Segment.congr h hn

/-- A chain is determined by its head. -/
theorem Chain.unique {p : Option ι} {L M : List ι} (hL : Chain next p L)
    (hM : Chain next p M) : L = M := by
  induction L generalizing p M with
  | nil => exact ((hM.eq_nil_iff).mpr hL).symm
  | cons a L ih =>
    obtain ⟨hp, hL⟩ := hL
    cases M with
    | nil => exact absurd (hp.symm.trans hM) (Option.some_ne_none a)
    | cons b M =>
      obtain ⟨hp', hM⟩ := hM
      obtain rfl : a = b := Option.some.inj (hp.symm.trans hp')
      rw [ih hL hM]

/-- **A chain visits no node twice**: the rest of the chain after a node is
determined by that node. -/
theorem Chain.nodup {p : Option ι} {L : List ι} (h : Chain next p L) : L.Nodup := by
  induction L generalizing p with
  | nil => exact List.nodup_nil
  | cons a L ih =>
    obtain ⟨-, h⟩ := h
    refine List.nodup_cons.mpr ⟨fun ha => ?_, ih h⟩
    obtain ⟨A, B, rfl⟩ := List.append_of_mem ha
    obtain ⟨r, -, hB⟩ := chain_append.mp h
    have heq := Chain.unique h hB.2
    have hlen := congrArg List.length heq
    rw [List.length_append, List.length_cons] at hlen
    omega

/-- Inserting where the first elements end. -/
theorem insertIdx_append_length (A B : List ι) (a : ι) :
    (A ++ B).insertIdx A.length a = A ++ a :: B := by
  induction A with
  | nil => rfl
  | cons b A ih =>
    rw [List.cons_append, List.length_cons, List.insertIdx_succ_cons, ih, List.cons_append]

variable [DecidableEq ι]

/-- Writing off the segment leaves it alone. -/
theorem Segment.update {p q : Option ι} {L : List ι} (h : Segment next p L q) {a : ι}
    (ha : a ∉ L) (v : Option ι) : Segment (Function.update next a v) p L q := by
  refine h.congr (fun b hb => ?_)
  rw [Function.update_of_ne (ne_of_mem_of_not_mem hb ha)]

theorem Chain.update {p : Option ι} {L : List ι} (h : Chain next p L) {a : ι}
    (ha : a ∉ L) (v : Option ι) : Chain (Function.update next a v) p L :=
  Segment.update h ha v

omit [DecidableEq ι] in
/-- **A push**: a node pointed at the head is the new head. -/
theorem Chain.push {p : Option ι} {L : List ι} (h : Chain next p L) {a : ι}
    (hn : next a = p) : Chain next (some a) (a :: L) :=
  ⟨rfl, hn ▸ h⟩

omit [DecidableEq ι] in
/-- Where a chain starts. -/
theorem Chain.head_eq {p : Option ι} {L : List ι} (h : Chain next p L) : p = L.head? := by
  cases L with
  | nil => exact h
  | cons a L => exact h.1

omit [DecidableEq ι] in
/-- What is behind a node of a chain. -/
theorem Chain.behind {p : Option ι} {L M : List ι} {a : ι} (h : Chain next p (L ++ M))
    (ha : L.getLast? = some a) : Chain next (next a) M := by
  obtain ⟨L, rfl⟩ := List.getLast?_eq_some_iff.mp ha
  rw [List.append_assoc] at h
  obtain ⟨r, -, -, hM⟩ := chain_append.mp h
  exact hM

omit [DecidableEq ι] in
/-- The last node of a segment is the one that arrives. -/
theorem Segment.next_last {p q : Option ι} {L : List ι} {a : ι}
    (h : Segment next p (L ++ [a]) q) : next a = q := by
  obtain ⟨r, -, -, hq⟩ := segment_append.mp h
  exact hq

/-- Writing at the last node of a segment redirects its arrival. -/
theorem Segment.redirect {p q : Option ι} {L : List ι} {a : ι}
    (h : Segment next p (L ++ [a]) q) (hnd : a ∉ L) (v : Option ι) :
    Segment (Function.update next a v) p (L ++ [a]) v := by
  obtain ⟨r, hL, hr, -⟩ := segment_append.mp h
  refine segment_append.mpr ⟨r, hL.update hnd v, hr, ?_⟩
  rw [segment_nil, Function.update_self]

/-- **A removal**: the node behind `c` is passed over. -/
theorem Chain.cut {p : Option ι} {X B : List ι} {c m : ι}
    (h : Chain next p (X ++ c :: m :: B)) :
    Chain (Function.update next c (next m)) p (X ++ c :: B) := by
  have hnd := h.nodup
  have hX : c ∉ X := fun hc =>
    List.disjoint_of_nodup_append hnd hc List.mem_cons_self
  have hB : c ∉ B := fun hc =>
    (List.nodup_cons.mp (List.nodup_append.mp hnd).2.1).1 (List.mem_cons_of_mem m hc)
  obtain ⟨r, hpre, hc, -, hm⟩ := chain_append.mp h
  refine chain_append.mpr ⟨r, hpre.update hX _, hc, ?_⟩
  rw [Function.update_self]
  exact Chain.update hm hB _

/-- **An insertion**: a node that leads to what is behind `c` is linked behind `c`. -/
theorem Chain.insert {p : Option ι} {X B : List ι} {c a : ι} (h : Chain next p (X ++ c :: B))
    (ha : a ∉ X ++ c :: B) (hn : next a = next c) :
    Chain (Function.update next c (some a)) p (X ++ c :: a :: B) := by
  have hnd := h.nodup
  have hX : c ∉ X := fun hc =>
    List.disjoint_of_nodup_append hnd hc List.mem_cons_self
  have hB : c ∉ B := (List.nodup_cons.mp (List.nodup_append.mp hnd).2.1).1
  have hac : a ≠ c := by
    rintro rfl
    exact ha (List.mem_append_right X List.mem_cons_self)
  obtain ⟨r, hpre, hc, hb⟩ := chain_append.mp h
  refine chain_append.mpr ⟨r, hpre.update hX _, hc, Function.update_self .., ?_⟩
  rw [Function.update_of_ne hac, hn]
  exact Chain.update hb hB _

/-- **An append**: a node is linked behind the last one. -/
theorem Chain.concat {p : Option ι} {X : List ι} {c a : ι} (h : Chain next p (X ++ [c]))
    (ha : a ∉ X ++ [c]) (hn : next a = none) :
    Chain (Function.update next c (some a)) p (X ++ [c] ++ [a]) := by
  have hX : c ∉ X := fun hc =>
    List.disjoint_of_nodup_append h.nodup hc (List.mem_singleton_self c)
  have hac : a ≠ c := by
    rintro rfl
    exact ha (List.mem_append_right X (List.mem_singleton_self a))
  refine segment_append.mpr ⟨some a, Segment.redirect h hX _, rfl, ?_⟩
  rw [Function.update_of_ne hac, hn]
  exact segment_nil.mpr rfl

omit [DecidableEq ι] in
/-- A node of a chain whose `next` is the end marker is the last one. -/
theorem Chain.eq_last {p : Option ι} {L : List ι} (h : Chain next p L) {a : ι}
    (ha : a ∈ L) (hn : next a = none) : ∃ M, L = M ++ [a] := by
  obtain ⟨M, N, rfl⟩ := List.append_of_mem ha
  obtain ⟨r, -, hN⟩ := chain_append.mp h
  have hnil : N = [] := (Chain.eq_nil_iff hN.2).mpr hn
  exact ⟨M, by rw [hnil]⟩

omit [DecidableEq ι] in
/-- A node of a chain whose `next` is another node is followed by it. -/
theorem Chain.next_mem {p : Option ι} {L : List ι} (h : Chain next p L) {a b : ι}
    (ha : a ∈ L) (hn : next a = some b) : b ∈ L := by
  obtain ⟨M, N, rfl⟩ := List.append_of_mem ha
  obtain ⟨r, -, -, hN⟩ := chain_append.mp h
  rw [hn] at hN
  cases N with
  | nil => exact absurd hN (Option.some_ne_none b)
  | cons c N =>
    obtain rfl : b = c := Option.some.inj hN.1
    exact List.mem_append_right M (List.mem_cons_of_mem a List.mem_cons_self)
