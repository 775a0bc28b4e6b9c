import Lwlock.AdList

/-!
# Steps along a list of pinned elements

Whatever the direction, a step pins the next element that is not masked, and gives up the pin
that it is told to give up; the pins that are forced on masked elements on the way are given
back. So a step is known by two elements, and `moved` is the list after it. An iterator is
known by such steps, and a pop is one that ends with the removal of the element behind it.
-/

namespace AdList

variable {E : Type*} [DecidableEq E] {s s' : State E} {L X Y : List E} {r old : Option E}
  {c e n bad : E} {d : Direction} {it : Iter E} {rounds : ℕ} {unpin : Bool}

/-! ## Pins -/

/-- A field counts up to its bits. -/
theorem incr_eq {bits n : ℕ} (h : n + 1 < 2 ^ bits) : incr bits n = n + 1 := by
  rw [incr, if_neg (Nat.ne_of_lt h)]

theorem decr_eq {bits n : ℕ} (hpos : 1 ≤ n) : decr bits n = n - 1 := by
  rw [decr, if_neg (Nat.ne_of_gt hpos)]

/-- Down and up again. -/
theorem incr_decr {bits n : ℕ} (h : n < 2 ^ bits) : incr bits (decr bits n) = n := by
  rw [incr, decr]
  by_cases h0 : n = 0
  · rw [if_pos h0, Nat.sub_add_cancel (Nat.two_pow_pos bits), if_pos rfl, h0]
  · rw [if_neg h0, Nat.sub_add_cancel (Nat.pos_of_ne_zero h0), if_neg (Nat.ne_of_lt h)]

namespace State

/-- **One pin more and one less.** -/
def moved (s : State E) (r old : Option E) : State E :=
  { s with pinCount := fun x =>
      s.pinCount x + (if r = some x then 1 else 0) - (if old = some x then 1 else 0) }

theorem moved_none : s.moved none none = s := rfl

theorem moved_moved : (s.moved r none).moved none old = s.moved r old := rfl

/-- A pin that is given back. -/
theorem moved_back : ((s.moved r old).moved none r) = s.moved none old := by
  rw [moved, moved, moved]
  congr 1
  funext x
  simp only [reduceCtorEq, if_false]
  omega

/-- A pin that is forced on the way and given back after the next step. -/
theorem moved_through (he : old ≠ some e) (ho : ∀ x, old = some x → 1 ≤ s.pinCount x) :
    (s.moved (some e) old).moved r (some e) = s.moved r old := by
  rw [moved, moved, moved]
  congr 1
  funext x
  by_cases hx : old = some x
  · have hne : ¬ some e = some x := fun hex => he (hx.trans hex.symm)
    have hpos := ho x hx
    simp only [if_pos hx, if_neg hne]
    omega
  · simp only [if_neg hx]
    omega

theorem update_eq_moved (hlt : s.pinCount e + 1 < 2 ^ 15) :
    { s with pinCount := Function.update s.pinCount e (incr 15 (s.pinCount e)) }
      = s.moved (some e) none := by
  rw [moved, incr_eq hlt]
  congr 1
  funext x
  rw [Function.update_apply]
  by_cases hx : x = e
  · rw [hx, if_pos rfl, if_pos rfl, if_neg nofun, Nat.sub_zero]
  · rw [if_neg hx, if_neg fun he => hx (Option.some.inj he).symm, if_neg nofun]
    rfl

theorem elemPin_masked (h : s.mask e = true) : s.elemPin e = some (s, false) := by
  rw [elemPin, if_pos h]

theorem elemPin_spec (h : s.mask e = false) (hlt : s.pinCount e + 1 < 2 ^ 15) :
    s.elemPin e = some (s.moved (some e) none, true) := by
  have hne : incr 15 (s.pinCount e) ≠ 0 := by
    rw [incr_eq hlt]
    exact Nat.succ_ne_zero _
  simp only [elemPin, h, Bool.false_eq_true, if_false, if_neg hne, update_eq_moved hlt]

theorem elemForcePinMasked_spec (hpos : 1 ≤ s.pinCount e) (hlt : s.pinCount e + 1 < 2 ^ 15) :
    s.elemForcePinMasked e = some (s.moved (some e) none, true) := by
  have hne : incr 15 (s.pinCount e) ≠ 0 := by
    rw [incr_eq hlt]
    exact Nat.succ_ne_zero _
  have hne' : s.pinCount e ≠ 0 := by omega
  simp only [elemForcePinMasked, if_neg hne', if_neg hne, update_eq_moved hlt]

/-- A pin can be given up that is not the last one of a masked element. -/
structure Leavable (s : State E) (e : E) : Prop where
  pos : 1 ≤ s.pinCount e
  lt : s.pinCount e < 2 ^ 15
  mask : s.mask e = true → s.pinCount e ≠ 1

theorem elemUnpin_spec (h : s.Leavable e) : s.elemUnpin e = some (s.moved none (some e)) := by
  obtain ⟨hpos, hlt, hmask⟩ := h
  have hnew : decr 15 (s.pinCount e) = s.pinCount e - 1 := decr_eq hpos
  have hno : ¬ (s.mask e = true ∧ s.pinCount e - 1 = 0) := fun hand =>
    hmask hand.1 (by omega)
  have hpins : Function.update s.pinCount e (s.pinCount e - 1)
      = fun x => s.pinCount x + (if (none : Option E) = some x then 1 else 0)
        - (if some e = some x then 1 else 0) := by
    funext x
    rw [Function.update_apply]
    by_cases hx : x = e
    · rw [hx, if_pos rfl, if_neg nofun, if_pos rfl, Nat.add_zero]
    · rw [if_neg hx, if_neg nofun, if_neg fun he => hx (Option.some.inj he).symm]
      rfl
  simp only [elemUnpin, hnew, if_neg hno, hpins, moved]

theorem leave_spec (h : unpin = true → s.Leavable e) :
    s.leave e unpin = some (s.moved none (if unpin then some e else none)) := by
  rw [leave]
  cases unpin with
  | false => rfl
  | true => exact elemUnpin_spec (h rfl)

omit [DecidableEq E] in
/-- Pins of other elements do not matter to one. -/
theorem Leavable.congr (h : s.Leavable e) (hpin : s'.pinCount e = s.pinCount e)
    (hmask : s'.mask e = s.mask e) : s'.Leavable e :=
  ⟨hpin ▸ h.pos, hpin ▸ h.lt, fun hm => hpin ▸ h.mask (hmask ▸ hm)⟩

theorem pinCount_moved_of_ne {x : E} (hr : r ≠ some x) (ho : old ≠ some x) :
    (s.moved r old).pinCount x = s.pinCount x := by
  rw [moved]
  dsimp only
  rw [if_neg hr, if_neg ho]
  rfl

/-! ## Steps -/

/-- **An element can be stepped on**, pinned if it is not masked and forced if it is. -/
def Open (s : State E) (x : E) : Prop :=
  s.pinCount x + 1 < 2 ^ 15 ∧ (s.mask x = true → 1 ≤ s.pinCount x)

/-- The first element that is not masked. -/
def unmasked (s : State E) (Y : List E) : Option E := Y.find? fun x => !s.mask x

omit [DecidableEq E] in
theorem unmasked_cons_of_mask (h : s.mask e = true) : s.unmasked (e :: Y) = s.unmasked Y := by
  rw [unmasked, List.find?_cons_of_neg (by rw [h]; decide), unmasked]

omit [DecidableEq E] in
theorem unmasked_cons_of_not_mask (h : s.mask e = false) : s.unmasked (e :: Y) = some e := by
  rw [unmasked, List.find?_cons_of_pos (by rw [h]; decide)]

omit [DecidableEq E] in
theorem mem_of_unmasked (h : s.unmasked Y = some n) : n ∈ Y ∧ s.mask n = false :=
  ⟨List.mem_of_find?_eq_some h, by simpa using List.find?_some h⟩

theorem nextLoop_spec {p : Option E} (h : Chain s.links.next p Y) (hY : ∀ x ∈ Y, s.Open x)
    (hr : Y.length ≤ rounds) :
    s.nextLoop rounds p = some (s.moved (s.unmasked Y) none, s.unmasked Y) := by
  induction Y generalizing p rounds with
  | nil =>
    obtain rfl : p = none := h
    rw [nextLoop]
    rfl
  | cons e Y ih =>
    obtain ⟨rfl, hrest⟩ := chain_cons.mp h
    obtain ⟨rounds, rfl⟩ : ∃ n, rounds = n + 1 :=
      Nat.exists_eq_add_one.mpr (Nat.lt_of_lt_of_le (Nat.succ_pos Y.length) hr)
    cases hm : s.mask e with
    | true =>
      simp only [nextLoop, elemPin_masked hm, Option.bind_some, Bool.false_eq_true, if_false]
      rw [unmasked_cons_of_mask hm]
      exact ih hrest (fun x hx => hY x (List.mem_cons_of_mem e hx)) (Nat.le_of_succ_le_succ hr)
    | false =>
      simp only [nextLoop, elemPin_spec hm (hY e List.mem_cons_self).1, Option.bind_some, if_true]
      rw [unmasked_cons_of_not_mask hm]

theorem prevIntern_spec (h : Chain s.links.prev (s.links.prev e) Y) (he : e ∉ Y)
    (hY : ∀ x ∈ Y, s.Open x) (hleave : unpin = true → s.Leavable e) (hr : Y.length < rounds) :
    s.prevIntern rounds e unpin
      = some (s.moved (s.unmasked Y) (if unpin then some e else none), s.unmasked Y) := by
  induction Y generalizing s e unpin rounds with
  | nil =>
    obtain ⟨rounds, rfl⟩ : ∃ n, rounds = n + 1 := Nat.exists_eq_add_one.mpr hr
    have hnone : s.links.prev e = none := h
    simp only [prevIntern, hnone, leave_spec hleave, Option.map_some]
    rfl
  | cons p Y ih =>
    have hnd := h.nodup
    obtain ⟨hp, hrest⟩ := chain_cons.mp h
    obtain ⟨rounds, rfl⟩ : ∃ n, rounds = n + 1 :=
      Nat.exists_eq_add_one.mpr (Nat.lt_of_le_of_lt (Nat.zero_le _) hr)
    obtain ⟨hep, heY⟩ : e ≠ p ∧ e ∉ Y := by
      rw [List.mem_cons, not_or] at he
      exact he
    obtain ⟨hlt, hpos⟩ := hY p List.mem_cons_self
    -- giving up the element behind does not depend on the pin taken
    have hleave' : unpin = true → (s.moved (some p) none).Leavable e := fun hu =>
      (hleave hu).congr (pinCount_moved_of_ne (fun he' => hep (Option.some.inj he').symm) nofun) rfl
    cases hm : s.mask p with
    | false =>
      simp only [prevIntern, hp, elemPin_spec hm hlt, Option.bind_some, if_true,
        leave_spec hleave', Option.map_some, moved_moved, unmasked_cons_of_not_mask hm]
    | true =>
      simp only [prevIntern, hp, elemPin_masked hm, Option.bind_some, Bool.false_eq_true, if_false,
        elemForcePinMasked_spec (hpos hm) hlt, if_true, leave_spec hleave', moved_moved]
      rw [unmasked_cons_of_mask hm]
      set old : Option E := if unpin then some e else none with hold
      have hoe : ∀ {x}, x ≠ e → old ≠ some x := by
        intro x hx ho
        rw [hold] at ho
        split at ho
        · exact hx (Option.some.inj ho).symm
        · cases ho
      have hpY : p ∉ Y := (List.nodup_cons.mp hnd).1
      have hpins : ∀ x ∈ Y, (s.moved (some p) old).pinCount x = s.pinCount x := fun x hx =>
        pinCount_moved_of_ne (fun he' => hpY (Option.some.inj he' ▸ hx))
          (hoe (ne_of_mem_of_not_mem hx heY))
      have hpin : (s.moved (some p) old).pinCount p = s.pinCount p + 1 := by
        rw [moved]
        dsimp only
        rw [if_pos rfl, if_neg (hoe (Ne.symm hep)), Nat.sub_zero]
      have hrec := ih (s := s.moved (some p) old) (e := p) hrest hpY
        (fun x hx => ⟨hpins x hx ▸ (hY x (List.mem_cons_of_mem p hx)).1,
          fun hmx => hpins x hx ▸ (hY x (List.mem_cons_of_mem p hx)).2 hmx⟩)
        (fun _ : true = true => ⟨by rw [hpin]; omega, by rw [hpin]; exact hlt, fun _ => by
          rw [hpin]
          have := hpos hm
          omega⟩)
        (Nat.lt_of_succ_lt_succ hr)
      rw [if_pos rfl] at hrec
      refine hrec.trans (congrArg some (Prod.ext ?_ rfl))
      refine moved_through (hoe (Ne.symm hep)) fun x hx => ?_
      rw [hold] at hx
      split at hx
      · next hu =>
        obtain rfl := Option.some.inj hx
        exact (hleave hu).pos
      · cases hx

/-- The field that leads on in a direction. -/
def link (s : State E) : Direction → E → Option E
  | .forward => s.links.next
  | .backward => s.links.prev

/-- The end that a direction starts from. -/
def start (s : State E) : Direction → Option E
  | .forward => s.head
  | .backward => s.tail

omit [DecidableEq E] in
/-- **A list in a direction is a chain.** -/
theorem Holds.chain (h : s.Holds L) (d : Direction) : Chain (s.link d) (s.start d) (view d L) := by
  cases d with
  | forward => exact h.linked.segment
  | backward =>
    have hback := h.linked.reverse
    rw [Option.or_none, ← h.tail] at hback
    exact hback

omit [DecidableEq E] in
theorem Holds.nodup (h : s.Holds L) : L.Nodup := DList.Header.Rep.nodup h

/-- **A step from an element**, in either direction. -/
theorem intern_spec (h : Chain (s.link d) (s.link d e) Y) (he : e ∉ Y)
    (hY : ∀ x ∈ Y, s.Open x) (hleave : unpin = true → s.Leavable e) (hr : Y.length < rounds) :
    s.intern rounds d e unpin
      = some (s.moved (s.unmasked Y) (if unpin then some e else none), s.unmasked Y) := by
  cases d with
  | backward => exact prevIntern_spec h he hY hleave hr
  | forward =>
    have hne : s.unmasked Y ≠ some e := fun hn => he (mem_of_unmasked hn).1
    have hleave' : unpin = true → (s.moved (s.unmasked Y) none).Leavable e := fun hu =>
      (hleave hu).congr (pinCount_moved_of_ne hne nofun) rfl
    have hchain : Chain s.links.next (s.links.next e) Y := h
    show s.nextIntern rounds e unpin = _
    rw [nextIntern, nextLoop_spec hchain hY (Nat.le_of_lt hr), Option.bind_some, leave_spec hleave',
      Option.map_some, moved_moved]

/-- The step that starts at an end. -/
theorem last_spec (h : Chain s.links.prev s.tail Y) (hY : ∀ x ∈ Y, s.Open x)
    (hr : Y.length < rounds) :
    s.last rounds = some (s.moved (s.unmasked Y) none, s.unmasked Y) := by
  cases Y with
  | nil =>
    have hnone : s.tail = none := h
    rw [last, hnone]
    rfl
  | cons p Y =>
    have hpY : p ∉ Y := (List.nodup_cons.mp h.nodup).1
    obtain ⟨hp, hrest⟩ := chain_cons.mp h
    obtain ⟨hlt, hpos⟩ := hY p List.mem_cons_self
    cases hm : s.mask p with
    | false =>
      simp only [last, hp, elemPin_spec hm hlt, Option.bind_some, if_true,
        unmasked_cons_of_not_mask hm]
    | true =>
      simp only [last, hp, elemPin_masked hm, Option.bind_some, Bool.false_eq_true, if_false,
        elemForcePinMasked_spec (hpos hm) hlt, if_true]
      rw [unmasked_cons_of_mask hm]
      have hpins : ∀ x ∈ Y, (s.moved (some p) none).pinCount x = s.pinCount x := fun x hx =>
        pinCount_moved_of_ne (fun he' => hpY (Option.some.inj he' ▸ hx)) nofun
      have hpin : (s.moved (some p) none).pinCount p = s.pinCount p + 1 := by
        rw [moved]
        dsimp only
        rw [if_pos rfl, if_neg nofun, Nat.sub_zero]
      have hrec := prevIntern_spec (s := s.moved (some p) none) (e := p) hrest hpY
        (fun x hx => ⟨hpins x hx ▸ (hY x (List.mem_cons_of_mem p hx)).1,
          fun hmx => hpins x hx ▸ (hY x (List.mem_cons_of_mem p hx)).2 hmx⟩)
        (fun _ : true = true => ⟨by rw [hpin]; omega, by rw [hpin]; exact hlt, fun _ => by
          rw [hpin]
          have := hpos hm
          omega⟩)
        (show Y.length < rounds from Nat.lt_of_succ_lt hr)
      rw [if_pos rfl] at hrec
      exact hrec.trans (congrArg some (Prod.ext (moved_through nofun nofun) rfl))

end State

/-! ## The iterator -/

omit [DecidableEq E] in
/-- What a direction does to a part of a list. -/
theorem view_filter (d : Direction) (p : E → Bool) : view d (L.filter p) = (view d L).filter p := by
  cases d with
  | forward => rfl
  | backward => exact List.filter_reverse.symm

omit [DecidableEq E] in
theorem mem_view : e ∈ view d L ↔ e ∈ L := by
  cases d with
  | forward => exact Iff.rfl
  | backward => exact List.mem_reverse

omit [DecidableEq E] in
theorem length_view (d : Direction) (L : List E) : (view d L).length = L.length := by
  cases d with
  | forward => rfl
  | backward => exact List.length_reverse

/-- What is ahead of an element. -/
theorem ahead_elem (hc : c ∉ X) : ahead (X ++ c :: Y) (.elem c) = Y := by
  have hX : ∀ x ∈ X, decide (x ≠ c) = true := fun x hx =>
    decide_eq_true (ne_of_mem_of_not_mem hx hc)
  rw [ahead, List.dropWhile_append_of_pos hX, List.dropWhile_cons_of_neg (by simp), List.tail_cons]

/-- **What an iterator needs to go on**: what is ahead can be stepped on, and the element that
it is at can be left. -/
structure Iter.Ready (s : State E) (L : List E) (it : Iter E) : Prop where
  holds : s.Holds L
  ahead : ∀ x ∈ ahead (view it.direction L) it.current, s.Open x
  mem : ∀ c, it.current = .elem c → c ∈ L
  leave : ∀ c, it.current = .elem c → s.Leavable c

/-- The element that an iterator is at. -/
def Current.elem? : Current E → Option E
  | .elem c => some c
  | _ => none

/-- The list around the element that an iterator is at. -/
theorem State.Holds.around (h : s.Holds L) (hc : c ∈ L) (d : Direction) :
    ∃ X Y, view d L = X ++ c :: Y ∧ c ∉ X ∧ c ∉ Y ∧ ahead (view d L) (.elem c) = Y ∧
      Chain (s.link d) (s.link d c) Y ∧ Y.length < L.length := by
  obtain ⟨X, Y, hXY⟩ := List.append_of_mem (mem_view (d := d).mpr hc)
  have hchain := h.chain d
  have hnd := hchain.nodup
  have hlen := length_view d L
  rw [hXY] at hchain hnd
  obtain ⟨r, -, -, hY⟩ := chain_append.mp hchain
  have hcX : c ∉ X := fun hx => List.disjoint_of_nodup_append hnd hx List.mem_cons_self
  have hcY : c ∉ Y := (List.nodup_cons.mp (List.nodup_append.mp hnd).2.1).1
  refine ⟨X, Y, hXY, hcX, hcY, by rw [hXY, ahead_elem hcX], hY, ?_⟩
  rw [← hlen, hXY, List.length_append, List.length_cons]
  omega

/-- **A step of the iterator.** -/
theorem Iter.Ready.fetch (h : it.Ready s L) (hr : L.length < rounds) :
    it.fetch rounds s
      = some (s.moved (s.following it.direction L it.current) it.current.elem?,
        s.following it.direction L it.current) := by
  rw [State.following]
  cases hc : it.current with
  | done =>
    rw [Iter.fetch, hc]
    cases it.direction <;> rfl
  | null =>
    have hopen := h.ahead
    rw [hc] at hopen
    have hchain := h.holds.chain it.direction
    have hlen := length_view it.direction L
    rw [Iter.fetch, hc]
    cases hd : it.direction with
    | forward =>
      rw [hd] at hopen hchain hlen
      exact State.nextLoop_spec hchain hopen
        (show (view .forward L).length ≤ rounds by rw [hlen]; exact Nat.le_of_lt hr)
    | backward =>
      rw [hd] at hopen hchain hlen
      exact State.last_spec hchain hopen
        (show (view .backward L).length < rounds by rw [hlen]; exact hr)
  | elem c =>
    obtain ⟨X, Y, -, -, hcY, hahead, hchain, hlen⟩ := h.holds.around (h.mem c hc) it.direction
    have hopen := h.ahead
    rw [hc, hahead] at hopen
    have hstep := State.intern_spec hchain hcY hopen (fun _ : true = true => h.leave c hc)
      (Nat.lt_trans hlen hr)
    rw [hahead, Iter.fetch, hc]
    cases hd : it.direction with
    | forward =>
      rw [hd] at hstep
      exact hstep
    | backward =>
      rw [hd] at hstep
      exact hstep

/-! ## Pop -/

/-- An element that is marked for its removal, with a pin more. -/
def State.marked (s : State E) (c : E) : State E :=
  { s.moved (some c) none with
    mask := Function.update s.mask c true
    count := decr 32 s.count }

/-- An element that is marked and not pinned any more, while another one is pinned. -/
def State.popped (s : State E) (r : Option E) (c : E) : State E :=
  { s with
    mask := Function.update s.mask c true
    count := decr 32 s.count
    pinCount := fun x => if x = c then 0 else s.pinCount x + (if r = some x then 1 else 0) }

/-- **An iterator after a pop**, by the element that comes next. The element that it was at
counts as returned already if it was fetched by another pop. -/
def Iter.popped (it : Iter E) (r : Option E) : Iter E :=
  match r, it.returnCurrent with
  | none, false => { it with current := .done, returnCurrent := true }
  | none, true =>
    { it with current := .done, returnCurrent := true, count := decr 32 it.count }
  | some n, false =>
    { it with current := .elem n, returnCurrent := true, count := incr 32 it.count }
  | some n, true => { it with current := .elem n, returnCurrent := true }

theorem State.pinCount_marked_self : (s.marked c).pinCount c = s.pinCount c + 1 := by
  rw [marked, moved]
  dsimp only
  rw [if_pos rfl, if_neg nofun, Nat.sub_zero]

theorem State.pinCount_marked_of_ne {x : E} (hx : x ≠ c) :
    (s.marked c).pinCount x = s.pinCount x :=
  pinCount_moved_of_ne (fun he => hx (Option.some.inj he).symm) nofun

theorem State.mask_marked_self : (s.marked c).mask c = true := Function.update_self ..

theorem State.mask_marked_of_ne {x : E} (hx : x ≠ c) : (s.marked c).mask x = s.mask x :=
  Function.update_of_ne hx ..

omit [DecidableEq E] in
theorem State.unmasked_congr (h : ∀ x ∈ Y, s'.mask x = s.mask x) : s'.unmasked Y = s.unmasked Y := by
  induction Y with
  | nil => rfl
  | cons x Y ih =>
    have hx := h x List.mem_cons_self
    have hY := ih fun y hy => h y (List.mem_cons_of_mem x hy)
    cases hm : s.mask x with
    | true => rw [unmasked_cons_of_mask hm, unmasked_cons_of_mask (hx.trans hm), hY]
    | false => rw [unmasked_cons_of_not_mask hm, unmasked_cons_of_not_mask (hx.trans hm)]

/-- **The start of a pop** marks the element. -/
theorem Iter.popStart_spec (hc : it.current = .elem c) (hmask : s.mask c = false)
    (hpos : 1 ≤ s.pinCount c) (hlt : s.pinCount c + 1 < 2 ^ 15) :
    it.popStart bad s = some (s.marked c, true) := by
  have hpin : (s.moved (some c) none).pinCount c ≠ 1 := by
    rw [State.moved]
    dsimp only
    rw [if_pos rfl, if_neg nofun]
    omega
  have hm : (s.moved (some c) none).mask c = false := hmask
  have hstart : (s.moved (some c) none).removeElemStart bad c = (s.marked c, .successWait) := by
    simp only [State.removeElemStart, State.elemMask, hm, Bool.false_eq_true, if_false, if_neg hpin]
    rfl
  simp only [popStart, hc, State.elemPin_spec hmask hlt, Option.bind_some, if_true, hstart]

/-- The wait for the other pins, which there are none of. -/
theorem State.removeElemWait_spec (hpin : s.pinCount c = 1) :
    ((s.marked c).moved none (some c)).removeElemWait c = some (s.popped none c) := by
  have hone : ((s.marked c).moved none (some c)).pinCount c = 1 := by
    rw [moved]
    dsimp only
    rw [pinCount_marked_self, if_neg nofun, if_pos rfl, hpin]
  rw [removeElemWait, if_pos ⟨mask_marked_self, hone⟩, popped]
  have hpins : Function.update ((s.marked c).moved none (some c)).pinCount c 0
      = fun x => if x = c then 0 else s.pinCount x + (if (none : Option E) = some x then 1 else 0) := by
    funext x
    rw [Function.update_apply]
    by_cases hx : x = c
    · rw [if_pos hx, if_pos hx]
    · rw [if_neg hx, if_neg hx, pinCount_moved_of_ne (r := none) nofun fun he => hx (Option.some.inj he).symm,
        pinCount_marked_of_ne hx, if_neg nofun, Nat.add_zero]
  rw [hpins]
  simp only [moved, marked]

/-- Somebody else has a pin: the wait does not end. -/
theorem State.removeElemWait_none (hpin : s.pinCount c ≠ 1) :
    ((s.marked c).moved none (some c)).removeElemWait c = none := by
  rw [removeElemWait, if_neg]
  rintro ⟨-, hone⟩
  rw [moved] at hone
  dsimp only at hone
  rw [pinCount_marked_self, if_neg nofun, if_pos rfl] at hone
  exact hpin (by omega)

theorem State.popped_moved (hr : r ≠ some c) : (s.popped none c).moved r none = s.popped r c := by
  rw [moved, popped, popped]
  congr 1
  funext x
  dsimp only
  by_cases hx : x = c
  · rw [if_pos hx, if_pos hx, hx, if_neg hr, if_neg (Option.some_ne_none c).symm]
  · rw [if_neg hx, if_neg hx, if_neg (Option.some_ne_none x).symm]
    rfl

/-- An iterator before it gets the next element again. -/
def Iter.fetched (it : Iter E) (r : Option E) : Iter E :=
  { (if it.returnCurrent then
      ({ it with returnCurrent := false, count := decr 32 it.count }.arrive it.current.elem?).1
    else (it.arrive r).1) with returnCurrent := true }

theorem State.following_eq (d : Direction) (c : Current E) :
    s.following d L c = s.unmasked (ahead (view d L) c) := rfl

/-- What comes next does not depend on the mark of the element before it. -/
theorem State.Holds.following_marked (h : s.Holds L) (hc : c ∈ L) (d : Direction) :
    (s.marked c).following d L (.elem c) = s.following d L (.elem c) := by
  obtain ⟨X, Y, -, -, hcY, hahead, -, -⟩ := h.around hc d
  rw [following_eq, following_eq, hahead]
  exact unmasked_congr fun x hx => mask_marked_of_ne (ne_of_mem_of_not_mem hx hcY)

/-- A marked element has another one behind it that comes next. -/
theorem State.Holds.following_ne (h : s.Holds L) (hc : c ∈ L) (d : Direction) :
    s.following d L (.elem c) ≠ some c := by
  obtain ⟨X, Y, -, -, hcY, hahead, -, -⟩ := h.around hc d
  rw [following_eq, hahead]
  exact fun hn => hcY (mem_of_unmasked hn).1

/-- The iterator is ready to go on from the element that it marked. -/
theorem Iter.Ready.marked (h : it.Ready s L) (hc : it.current = .elem c)
    (hlt : s.pinCount c + 1 < 2 ^ 15) : it.Ready (s.marked c) L := by
  obtain ⟨X, Y, -, -, hcY, hahead, -, -⟩ := h.holds.around (h.mem c hc) it.direction
  have hopen := h.ahead
  have hpos := (h.leave c hc).pos
  rw [hc, hahead] at hopen
  refine ⟨h.holds, ?_, h.mem, fun c' hc' => ?_⟩
  · rw [hc, hahead]
    intro x hx
    have hxc : x ≠ c := ne_of_mem_of_not_mem hx hcY
    rw [State.Open, State.pinCount_marked_of_ne hxc, State.mask_marked_of_ne hxc]
    exact hopen x hx
  · obtain rfl : c = c' := by
      rw [hc] at hc'
      exact Current.elem.inj hc'
    refine ⟨?_, ?_, fun _ => ?_⟩
    · rw [State.pinCount_marked_self]
      omega
    · rw [State.pinCount_marked_self]
      exact hlt
    · rw [State.pinCount_marked_self]
      omega

/-- **The end of a pop up to its wait.** -/
theorem Iter.Ready.popFinish (h : it.Ready s L) (hc : it.current = .elem c)
    (hlt : s.pinCount c + 1 < 2 ^ 15) (hr : L.length < rounds) :
    it.popFinish bad rounds (s.marked c)
      = match s.following it.direction L (.elem c), it.returnCurrent with
        | none, false =>
          (((s.marked c).moved none (some c)).removeElemWait c).map fun q =>
            (q.removeElemDo bad c, { it with current := .done, returnCurrent := true })
        | r, _ => popDo bad rounds ((s.marked c).moved none (some c)) (it.fetched r) c := by
  have hready := h.marked hc hlt
  have hfetch := hready.fetch hr
  have hfol := h.holds.following_marked (h.mem c hc) it.direction
  have hne := h.holds.following_ne (h.mem c hc) it.direction
  have hmem : ∀ n, s.following it.direction L (.elem c) = some n → s.Open n := by
    intro n hn
    refine h.ahead n ?_
    rw [hc]
    exact (State.mem_of_unmasked hn).1
  rw [hc, hfol, Current.elem?] at hfetch
  cases hret : it.returnCurrent with
  | true =>
    have hunpin := State.elemUnpin_spec (hready.leave c hc)
    simp only [Iter.popFinish, Iter.next, hc, hret, if_true, Option.bind_some, Iter.arrive, hunpin,
      Iter.fetched, Current.elem?]
    split <;> trivial
  | false =>
    cases hr' : s.following it.direction L (.elem c) with
    | none =>
      rw [hr'] at hfetch
      simp only [Iter.popFinish, Iter.next, hc, hret, Bool.false_eq_true, if_false, hfetch,
        Option.map_some, Option.bind_some, Iter.arrive]
    | some n =>
      rw [hr'] at hfetch hne
      have hnc : n ≠ c := fun he => hne (congrArg some he)
      have hpin : ((s.marked c).moved (some n) (some c)).pinCount n = s.pinCount n + 1 := by
        rw [State.moved]
        dsimp only
        rw [if_pos rfl, if_neg fun he => hnc (Option.some.inj he).symm,
          State.pinCount_marked_of_ne hnc, Nat.sub_zero]
      have hmask : ((s.marked c).moved (some n) (some c)).mask n = false :=
        (State.mask_marked_of_ne hnc).trans (State.mem_of_unmasked hr').2
      have hleave : ((s.marked c).moved (some n) (some c)).Leavable n :=
        ⟨by rw [hpin]; omega, by rw [hpin]; exact (hmem n hr').1, fun hm => by
          rw [hmask] at hm
          cases hm⟩
      simp only [Iter.popFinish, Iter.next, hc, hret, Bool.false_eq_true, if_false, hfetch,
        Option.map_some, Option.bind_some, Iter.arrive, State.elemUnpin_spec hleave,
        State.moved_back, Iter.fetched]

/-- **The end of a pop after its wait.** -/
theorem Iter.Ready.popDo (bad : E) (h : it.Ready s L) (hc : it.current = .elem c) (hpin : s.pinCount c = 1)
    (hr : L.length < rounds) (it' : Iter E) (hd : it'.direction = it.direction) :
    popDo bad rounds ((s.marked c).moved none (some c)) it' c
      = some ((s.popped (s.following it.direction L (.elem c)) c).removeElemDo bad c,
        match s.following it.direction L (.elem c) with
        | none => { it' with current := .done, count := decr 32 it'.count }
        | some n => { it' with current := .elem n }) := by
  obtain ⟨X, Y, -, -, hcY, hahead, hchain, hlen⟩ := h.holds.around (h.mem c hc) it.direction
  have hopen := h.ahead
  rw [hc, hahead] at hopen
  have hpins : ∀ x ∈ Y, (s.popped none c).pinCount x = s.pinCount x := by
    intro x hx
    rw [State.popped]
    dsimp only
    rw [if_neg (ne_of_mem_of_not_mem hx hcY), if_neg (Option.some_ne_none x).symm, Nat.add_zero]
  have hmasks : ∀ x ∈ Y, (s.popped none c).mask x = s.mask x := fun x hx =>
    Function.update_of_ne (ne_of_mem_of_not_mem hx hcY) ..
  have hstep := State.intern_spec (s := s.popped none c) (e := c) hchain hcY
    (fun x hx => by
      rw [State.Open, hpins x hx, hmasks x hx]
      exact hopen x hx)
    (fun hu : false = true => by cases hu) (Nat.lt_trans hlen hr)
  have hfol : (s.popped none c).unmasked Y = s.following it.direction L (.elem c) := by
    rw [State.following_eq, hahead]
    exact State.unmasked_congr hmasks
  have hne := h.holds.following_ne (h.mem c hc) it.direction
  rw [hfol, if_neg Bool.false_ne_true, State.popped_moved hne] at hstep
  cases hf : s.following it.direction L (.elem c) <;>
    simp only [Iter.popDo, State.removeElemWait_spec hpin, Option.bind_some, hd, hstep, hf,
      Option.map_some]

/-- **A pop** takes the element off the list and moves on. -/
theorem Iter.Ready.pop (bad : E) (h : it.Ready s L) (hc : it.current = .elem c) (hmask : s.mask c = false)
    (hpin : s.pinCount c = 1) (hcount : it.count < 2 ^ 32) (hr : L.length < rounds) :
    it.pop bad rounds s
      = some ((s.popped (s.following it.direction L (.elem c)) c).removeElemDo bad c,
        it.popped (s.following it.direction L (.elem c)), true) := by
  have hlt : s.pinCount c + 1 < 2 ^ 15 := by
    rw [hpin]
    decide
  rw [Iter.pop, popStart_spec hc hmask (Nat.le_of_eq hpin.symm) hlt, Option.bind_some, if_pos rfl,
    h.popFinish hc hlt hr]
  have hfetched : ∀ r, (it.fetched r).direction = it.direction := by
    intro r
    rw [Iter.fetched]
    split
    · cases it.current <;> rfl
    · cases r <;> rfl
  cases hfol : s.following it.direction L (.elem c) with
  | none =>
    cases hret : it.returnCurrent with
    | false =>
      simp only [State.removeElemWait_spec hpin, Option.map_some, Iter.popped, hret]
    | true =>
      have hdo := h.popDo bad hc hpin hr (it.fetched none) (hfetched none)
      rw [hfol] at hdo
      dsimp only
      rw [hdo, Option.map_some]
      simp only [Iter.popped, hret, Iter.fetched, if_true, hc, Current.elem?, Iter.arrive,
        incr_decr hcount]
  | some n =>
    have hdo := h.popDo bad hc hpin hr (it.fetched (some n)) (hfetched (some n))
    rw [hfol] at hdo
    dsimp only
    rw [hdo, Option.map_some]
    cases hret : it.returnCurrent with
    | false => simp only [Iter.popped, hret, Iter.fetched, Bool.false_eq_true, if_false, Iter.arrive]
    | true =>
      simp only [Iter.popped, hret, Iter.fetched, if_true, hc, Current.elem?, Iter.arrive,
        incr_decr hcount]

/-- A pop of an element that somebody else has pinned does not return. -/
theorem Iter.Ready.pop_none (bad : E) (h : it.Ready s L) (hc : it.current = .elem c)
    (hmask : s.mask c = false) (hpin : s.pinCount c ≠ 1) (hlt : s.pinCount c + 1 < 2 ^ 15) (hr : L.length < rounds) :
    it.pop bad rounds s = none := by
  have hwait := State.removeElemWait_none hpin
  have hdo : ∀ it' : Iter E,
      Iter.popDo bad rounds ((s.marked c).moved none (some c)) it' c = none := fun it' => by
    rw [Iter.popDo, hwait, Option.bind_none]
  rw [Iter.pop, popStart_spec hc hmask (h.leave c hc).pos hlt, Option.bind_some, if_pos rfl,
    h.popFinish hc hlt hr]
  split
  · rw [hwait, Option.map_none, Option.map_none]
  · rw [hdo, Option.map_none]

/-- **A removal** takes the element off the list. -/
theorem State.Holds.removeElemDo (h : s.Holds L) (hc : c ∈ L) :
    (s.removeElemDo bad c).Holds (L.filter fun x => decide (x ≠ c)) := by
  obtain ⟨A, B, rfl⟩ := List.append_of_mem hc
  have hnd := h.nodup
  have hcA : ∀ x ∈ A, decide (x ≠ c) = true := fun x hx => decide_eq_true fun he =>
    List.disjoint_of_nodup_append hnd (he ▸ hx) List.mem_cons_self
  have hcB : ∀ x ∈ B, decide (x ≠ c) = true := fun x hx => decide_eq_true fun he =>
    (List.nodup_cons.mp (List.nodup_append.mp hnd).2.1).1 (he ▸ hx)
  have hrep := DList.Header.Rep.remove h bad
  have hfilter : (A ++ c :: B).filter (fun x => decide (x ≠ c)) = A ++ B := by
    rw [List.filter_append, List.filter_cons_of_neg (by simp), List.filter_eq_self.mpr hcA,
      List.filter_eq_self.mpr hcB]
  rw [hfilter]
  exact ⟨hrep.linked, hrep.tail, rfl⟩

end AdList
