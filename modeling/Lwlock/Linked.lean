import Lwlock.Chain

/-!
# Doubly linked lists

With a `prev` field beside `next`, a list can be left from the inside: a node
takes itself out by writing to its two neighbours. `Linked next prev b p L q`
says that following `next` from `p` visits `L` and arrives at `q`, and that
every `prev` on the way names the node before, the first one naming `b`.

The removal is a function of the two fields alone: it does not know which list
the node is on, and asks no one whether it is on one.
-/

variable {ι : Type*} {next prev next' prev' : ι → Option ι}

/-- Following `next` from `p` visits `L` and arrives at `q`, and the `prev`
fields name the node before, `b` for the first. -/
def Linked (next prev : ι → Option ι) :
    Option ι → Option ι → List ι → Option ι → Prop
  | _, p, [], q => p = q
  | b, p, a :: L, q => p = some a ∧ prev a = b ∧ Linked next prev (some a) (next a) L q

@[simp] theorem linked_nil {b p q : Option ι} : Linked next prev b p [] q ↔ p = q := Iff.rfl

@[simp] theorem linked_cons {b p q : Option ι} {a : ι} {L : List ι} :
    Linked next prev b p (a :: L) q ↔
      p = some a ∧ prev a = b ∧ Linked next prev (some a) (next a) L q := Iff.rfl

/-- A doubly linked list is a segment. -/
theorem Linked.segment {b p q : Option ι} {L : List ι} (h : Linked next prev b p L q) :
    Segment next p L q := by
  induction L generalizing b p with
  | nil => exact h
  | cons a L ih => exact ⟨h.1, ih h.2.2⟩

/-- A doubly linked list that ends visits no node twice. -/
theorem Linked.nodup {b p : Option ι} {L : List ι} (h : Linked next prev b p L none) :
    L.Nodup :=
  Chain.nodup h.segment

/-- **The frame**: a list only reads the fields of its own nodes. -/
theorem Linked.congr {b p q : Option ι} {L : List ι} (h : Linked next prev b p L q)
    (hn : ∀ a ∈ L, next' a = next a) (hp : ∀ a ∈ L, prev' a = prev a) :
    Linked next' prev' b p L q := by
  induction L generalizing b p with
  | nil => exact h
  | cons a L ih =>
    obtain ⟨hpa, hb, hL⟩ := h
    refine ⟨hpa, (hp a List.mem_cons_self).trans hb, ?_⟩
    rw [hn a List.mem_cons_self]
    exact ih hL (fun x hx => hn x (List.mem_cons_of_mem a hx))
      (fun x hx => hp x (List.mem_cons_of_mem a hx))

/-- Lists compose where they meet. -/
theorem linked_append_cons {b p q : Option ι} {L M : List ι} {a : ι} :
    Linked next prev b p (L ++ a :: M) q ↔
      Linked next prev b p (L ++ [a]) (next a) ∧ Linked next prev (some a) (next a) M q := by
  induction L generalizing b p with
  | nil => simp only [List.nil_append, linked_cons, linked_nil, and_true, and_assoc]
  | cons c L ih => simp only [List.cons_append, linked_cons, ih, and_assoc]

/-- The arrival of a list is the `next` of its last node. -/
theorem Linked.next_last {b p q : Option ι} {L : List ι} {a : ι}
    (h : Linked next prev b p (L ++ [a]) q) : next a = q :=
  Segment.next_last h.segment

/-- A node of a list that is not its first one names the node before. -/
theorem Linked.prev_eq {b p q : Option ι} {L M : List ι} {a c : ι}
    (h : Linked next prev b p (L ++ a :: c :: M) q) : prev c = some a :=
  (linked_append_cons.mp h).2.2.1

/-- The first node of a list that ends is on it. -/
theorem Linked.head_mem {b p : Option ι} {L : List ι} {a : ι}
    (h : Linked next prev b p L none) (hp : p = some a) : a ∈ L := by
  cases L with
  | nil => exact absurd (hp.symm.trans h) (Option.some_ne_none a)
  | cons c L => exact Option.some.inj (h.1.symm.trans hp) ▸ List.mem_cons_self

/-- The `prev` fields of a list lead from its last node back to what comes before it. -/
theorem Linked.reverse {b p q : Option ι} {L : List ι} (h : Linked next prev b p L q) :
    Segment prev (L.getLast?.or b) L.reverse b := by
  induction L generalizing b p with
  | nil => rfl
  | cons a L ih =>
    obtain ⟨-, hb, hL⟩ := h
    rw [List.reverse_cons]
    refine segment_append.mpr ⟨some a, ?_, rfl, hb⟩
    have hlast : (a :: L).getLast?.or b = L.getLast?.or (some a) := by
      cases L with
      | nil => rfl
      | cons c L => simp [List.getLast?_cons]
    rw [hlast]
    exact ih hL

variable [DecidableEq ι]

/-- Writing `next` at the last node of a list redirects its arrival. -/
theorem Linked.redirect {b p q : Option ι} {L : List ι} {a : ι}
    (h : Linked next prev b p (L ++ [a]) q) (ha : a ∉ L) (v : Option ι) :
    Linked (Function.update next a v) prev b p (L ++ [a]) v := by
  induction L generalizing b p with
  | nil => exact ⟨h.1, h.2.1, Function.update_self _ _ _⟩
  | cons c L ih =>
    obtain ⟨hp, hb, hL⟩ := h
    rw [List.mem_cons, not_or] at ha
    refine ⟨hp, hb, ?_⟩
    rw [Function.update_of_ne (Ne.symm ha.1)]
    exact ih hL ha.2

/-- **An append**: a node is linked behind the last one. -/
theorem Linked.concat {b p : Option ι} {L : List ι} {a t : ι}
    (h : Linked next prev b p (L ++ [a]) none) (ht : t ∉ L ++ [a]) (hn : next t = none) :
    Linked (Function.update next a (some t)) (Function.update prev t (some a)) b p
      (L ++ [a] ++ [t]) none := by
  have hnd := h.nodup
  induction L generalizing b p with
  | nil =>
    obtain ⟨hp, hb, -⟩ := h
    grind [linked_cons, linked_nil, Function.update_apply]
  | cons c L ih =>
    obtain ⟨hp, hb, hL⟩ := h
    refine ⟨hp, ?_, ?_⟩
    · grind [Function.update_apply]
    · have hca : c ≠ a := by grind
      rw [Function.update_of_ne hca]
      exact ih hL (by grind) (by grind)

/-- The `next` fields after `t` took itself out. -/
def unlinkNext (next prev : ι → Option ι) (t x : ι) : Option ι :=
  if x = t then none else if prev t = some x then next t else next x

/-- The `prev` fields after `t` took itself out. -/
def unlinkPrev (next prev : ι → Option ι) (t x : ι) : Option ι :=
  if x = t then none else if next t = some x then prev t else prev x

/-- The first node of a list takes itself out. -/
theorem Linked.unlink_head {p : Option ι} {M : List ι} {t : ι}
    (h : Linked next prev none p (t :: M) none) :
    Linked (unlinkNext next prev t) (unlinkPrev next prev t) none (next t) M none := by
  have hnd := h.nodup
  obtain ⟨hp, hb, hM⟩ := h
  cases M with
  | nil => exact hM
  | cons n M =>
    obtain ⟨hn, hpn, hM⟩ := hM
    refine ⟨hn, by grind [unlinkPrev], ?_⟩
    have hnn : unlinkNext next prev t n = next n := by grind [unlinkNext]
    rw [hnn]
    exact hM.congr (by grind [unlinkNext]) (by grind [unlinkPrev])

/-- **A node that is not the first takes itself out**, wherever the list
starts. -/
theorem Linked.unlink {b p : Option ι} {L M : List ι} {a t : ι}
    (h : Linked next prev b p (L ++ a :: t :: M) none) :
    Linked (unlinkNext next prev t) (unlinkPrev next prev t) b p (L ++ a :: M) none := by
  have hnd := h.nodup
  have hpt := h.prev_eq
  have hnt : ∀ n, next t = some n → n ∈ M :=
    fun n hn => (linked_append_cons.mp h).2.2.2.head_mem hn
  induction L generalizing b p with
  | nil =>
    obtain ⟨hp, hb, hat, hta, hM⟩ := h
    refine ⟨hp, by grind [unlinkPrev], ?_⟩
    have hna : unlinkNext next prev t a = next t := by grind [unlinkNext]
    rw [hna]
    cases M with
    | nil => exact hM
    | cons n M =>
      obtain ⟨hn, hpn, hM⟩ := hM
      refine ⟨hn, by grind [unlinkPrev], ?_⟩
      have hnn : unlinkNext next prev t n = next n := by grind [unlinkNext]
      rw [hnn]
      exact hM.congr (by grind [unlinkNext]) (by grind [unlinkPrev])
  | cons c L ih =>
    obtain ⟨hp, hb, hL⟩ := h
    refine ⟨hp, ?_, ?_⟩
    · grind [unlinkPrev]
    · have hnc : unlinkNext next prev t c = next c := by grind [unlinkNext]
      rw [hnc]
      exact ih hL (by grind)
