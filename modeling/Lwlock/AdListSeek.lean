import Lwlock.AdListStep
import Lwlock.Machine

/-!
# Seeking

An iterator that seeks an element gives up the pin on the one it was at and takes one on the
element it is told, or is given that of its caller. The next call is to hand out what comes
after that element. It does so unless `return_current` is still set: after a pop the flag says
that the element the iterator is at has not been handed out, and a seek leaves it set.

The others hold pins of their own, and may have masked elements; all this stays as it is while
the iterator is at work, apart from the pins that are given to it.
-/

namespace AdList

variable {E : Type*} [DecidableEq E]

/-- **An iterator on its list**: what the list holds, and the pins of the others. -/
structure Scene (E : Type*) where
  st : State E
  it : Iter E
  content : List E
  others : E → ℕ

/-- The calls on an iterator. -/
inductive Call (E : Type*)
  | next
  | pop
  | seek (elem : E) (needPin : Bool)

/-- Without the current element of an iterator. -/
def without (L : List E) : Current E → List E
  | .elem c => L.filter fun x => decide (x ≠ c)
  | _ => L

/-- **A call.** -/
def Scene.call (bad : E) (rounds : ℕ) (q : Scene E) : Call E → Option (Scene E)
  | .next => (q.it.next rounds q.st).map fun p => { q with st := p.1, it := p.2.1 }
  | .pop => (q.it.pop bad rounds q.st).map fun p =>
    { q with
      st := p.1
      it := p.2.1
      content := if p.2.2 then without q.content q.it.current else q.content }
  | .seek e needPin => (q.it.seek q.st e needPin).map fun p =>
    { q with
      st := p.1
      it := p.2.1
      others := if p.2.2 ∧ needPin = false then Function.update q.others e (q.others e - 1)
        else q.others }

/-- **What a caller has to see to**: only the element that the iterator is at is popped, and one
that is sought is on the list, and pinned by the caller unless it is to be pinned. -/
def Scene.Legal (q : Scene E) : Call E → Prop
  | .next => True
  | .pop => ∃ c, q.it.current = .elem c
  | .seek e needPin => e ∈ q.content ∧ (needPin = false → q.st.mask e = false ∧ 1 ≤ q.others e)

/-- The others hold some pins, with room for those of an iterator; what they have masked they
hold a pin on. -/
structure Scene.Fresh (rounds : ℕ) (q : Scene E) : Prop where
  holds : q.st.Holds q.content
  enough : q.content.length < rounds
  init : ∃ d, q.it = Iter.init d
  pins : ∀ x ∈ q.content, q.st.pinCount x = q.others x
  room : ∀ x ∈ q.content, q.others x + 2 < 2 ^ 15
  masked : ∀ x ∈ q.content, q.st.mask x = true → 1 ≤ q.others x

/-- **The histories of an iterator.** -/
def history (bad : E) (rounds : ℕ) : Machine (Scene E) (Call E) where
  start := Scene.Fresh rounds
  step := fun q e => q.call bad rounds e

/-- The histories whose calls are legal. -/
abbrev legal (q : Scene E) (e : Call E) (_ : Scene E) : Prop := q.Legal e

/-- **A seek is right**: one pin of the previous element is given up and one on the new element
is taken if it has to be, and the next call returns what comes after it. -/
def Scene.SeekGood (rounds : ℕ) (q : Scene E) (e : E) (needPin : Bool) : Prop :=
  ∃ s it, q.it.seek q.st e needPin = some (s, it, true) ∧
    (∀ x, s.pinCount x + (if q.it.current = .elem x then 1 else 0)
      = q.st.pinCount x + (if needPin = true ∧ x = e then 1 else 0)) ∧
    ∃ s' it', it.next rounds s
      = some (s', it', q.st.following q.it.direction q.content (.elem e))

/-- **Nothing stays pinned** when the iterator is destroyed. -/
def Scene.Released (q : Scene E) : Prop :=
  ∃ s, q.it.destroy q.st = some s ∧ ∀ x ∈ q.content, s.pinCount x = q.others x

/-! ## The invariant -/

/-- **The pins are those of the others and the one of the iterator.** -/
structure Scene.Inv (rounds : ℕ) (q : Scene E) : Prop where
  holds : q.st.Holds q.content
  enough : q.content.length < rounds
  pins : ∀ x ∈ q.content,
    q.st.pinCount x = q.others x + if q.it.current = .elem x then 1 else 0
  room : ∀ x ∈ q.content, q.others x + 2 < 2 ^ 15
  masked : ∀ x ∈ q.content, q.st.mask x = true → 1 ≤ q.others x
  current : ∀ c, q.it.current = .elem c → c ∈ q.content ∧ q.st.mask c = false
  count : q.it.count < 2 ^ 32

variable {bad : E} {rounds : ℕ} {q q' : Scene E} {c e x : E} {needPin : Bool}

theorem incr_lt {n : ℕ} (h : n < 2 ^ 32) : incr 32 n < 2 ^ 32 := by
  rw [incr]
  split <;> omega

theorem decr_lt {n : ℕ} (h : n < 2 ^ 32) : decr 32 n < 2 ^ 32 := by
  rw [decr]
  split <;> omega

omit [DecidableEq E] in
theorem Current.elem?_eq_some {cur : Current E} : cur.elem? = some x ↔ cur = .elem x := by
  cases cur with
  | elem c => rw [elem?, Option.some.injEq, Current.elem.injEq]
  | null => exact iff_of_false (fun h => by cases h) (by simp)
  | done => exact iff_of_false (fun h => by cases h) (by simp)

namespace Scene.Inv

theorem pin_le (h : q.Inv rounds) (hx : x ∈ q.content) : q.st.pinCount x ≤ q.others x + 1 := by
  rw [h.pins x hx]
  split <;> omega

theorem isOpen (h : q.Inv rounds) (hx : x ∈ q.content) : q.st.Open x := by
  have hle := h.pin_le hx
  have hroom := h.room x hx
  refine ⟨by omega, fun hm => ?_⟩
  have hpos := h.masked x hx hm
  rw [h.pins x hx]
  omega

theorem pin_current (h : q.Inv rounds) (hc : q.it.current = .elem c) :
    q.st.pinCount c = q.others c + 1 := by
  rw [h.pins c (h.current c hc).1, if_pos hc]

theorem leavable (h : q.Inv rounds) (hc : q.it.current = .elem c) : q.st.Leavable c := by
  have hpin := h.pin_current hc
  have hroom := h.room c (h.current c hc).1
  refine ⟨by omega, by omega, fun hm => ?_⟩
  rw [(h.current c hc).2] at hm
  cases hm

theorem ready (h : q.Inv rounds) : q.it.Ready q.st q.content := by
  refine ⟨h.holds, fun x hx => ?_, fun c hc => (h.current c hc).1, fun c hc => h.leavable hc⟩
  refine h.isOpen (mem_view (d := q.it.direction).mp ?_)
  cases hc : q.it.current with
  | null =>
    rw [hc] at hx
    exact hx
  | done =>
    rw [hc] at hx
    cases hx
  | elem c =>
    rw [hc] at hx
    exact (List.dropWhile_suffix _).subset (List.mem_of_mem_tail hx)

/-- What comes next is on the list. -/
theorem following_mem {n : E} (h : q.Inv rounds)
    (hn : q.st.following q.it.direction q.content q.it.current = some n) :
    n ∈ q.content ∧ q.st.mask n = false := by
  have hready := h.ready
  obtain ⟨hmem, hmask⟩ := State.mem_of_unmasked hn
  refine ⟨mem_view (d := q.it.direction).mp ?_, hmask⟩
  cases hc : q.it.current with
  | null =>
    rw [hc] at hmem
    exact hmem
  | done =>
    rw [hc] at hmem
    cases hmem
  | elem c =>
    rw [hc] at hmem
    exact (List.dropWhile_suffix _).subset (List.mem_of_mem_tail hmem)

/-- **An iterator that moves** takes its pin along. -/
theorem move (h : q.Inv rounds) {it : Iter E} {r : Option E}
    (hr : r = q.st.following q.it.direction q.content q.it.current)
    (hit : it.current = match r with | none => .done | some n => .elem n)
    (hcount : it.count < 2 ^ 32) :
    Scene.Inv rounds { q with st := q.st.moved r q.it.current.elem?, it := it } := by
  have hcur : ∀ x, it.current = .elem x ↔ r = some x := by
    intro x
    rw [hit]
    cases r with
    | none => exact iff_of_false nofun nofun
    | some n => rw [Current.elem.injEq, Option.some.injEq]
  refine ⟨h.holds, h.enough, fun x hx => ?_, h.room, h.masked, fun x hx => ?_, hcount⟩
  · show q.st.pinCount x + (if r = some x then 1 else 0)
      - (if q.it.current.elem? = some x then 1 else 0)
      = q.others x + if it.current = .elem x then 1 else 0
    rw [h.pins x hx, if_congr (hcur x) rfl rfl, if_congr Current.elem?_eq_some rfl rfl]
    omega
  · exact h.following_mem (hr.symm.trans ((hcur x).mp hx))

/-- **`_adlist_iter_next` returns**, and what it returns. -/
theorem next (h : q.Inv rounds) : ∃ s it r, q.it.next rounds q.st = some (s, it, r) ∧
    Scene.Inv rounds { q with st := s, it := it } ∧ s.count = q.st.count ∧
    (q.it.returnCurrent = false → r = q.st.following q.it.direction q.content q.it.current) ∧
    (q.it.returnCurrent = true → r = q.it.current.elem?) := by
  by_cases hd : q.it.current = .done
  · refine ⟨q.st, q.it, none, ?_, h, rfl, fun _ => ?_, fun _ => ?_⟩
    · rw [Iter.next, hd]
    · rw [hd]
      rfl
    · rw [hd]
      rfl
  · cases hret : q.it.returnCurrent with
    | false =>
      have hfetch := h.ready.fetch h.enough
      have hmove : ∀ {it r}, r = q.st.following q.it.direction q.content q.it.current →
          it = (q.it.arrive r).1 →
          Scene.Inv rounds { q with st := q.st.moved r q.it.current.elem?, it := it } := by
        rintro it r hr rfl
        refine h.move hr ?_ ?_
        · cases r <;> rfl
        · cases r with
          | none => exact h.count
          | some n => exact incr_lt h.count
      refine ⟨_, _, _, ?_, hmove rfl rfl, rfl, fun _ => rfl, (by simp)⟩
      cases hc : q.it.current with
      | done => exact absurd hc hd
      | null =>
        rw [hc] at hfetch
        simp only [Iter.next, hc, hret, Bool.false_eq_true, if_false, hfetch, Option.map_some]
        cases q.st.following q.it.direction q.content .null <;> rfl
      | elem c =>
        rw [hc] at hfetch
        simp only [Iter.next, hc, hret, Bool.false_eq_true, if_false, hfetch, Option.map_some]
        cases q.st.following q.it.direction q.content (.elem c) <;> rfl
    | true =>
      cases hc : q.it.current with
      | done => exact absurd hc hd
      | null =>
        refine ⟨q.st, { q.it with returnCurrent := false, count := decr 32 q.it.count, current := .done },
          none, ?_, ⟨h.holds, h.enough, fun x hx => ?_, h.room, h.masked,
            (by simp), decr_lt h.count⟩,
          rfl, (by simp), fun _ => rfl⟩
        · simp only [Iter.next, hc, hret, if_true, Iter.arrive]
        · have hpin := h.pins x hx
          rw [hc] at hpin
          exact hpin
      | elem c =>
        refine ⟨q.st, { q.it with returnCurrent := false }, some c, ?_,
          ⟨h.holds, h.enough, h.pins, h.room, h.masked, h.current, h.count⟩, rfl,
            (by simp), fun _ => rfl⟩
        simp only [Iter.next, hc, hret, if_true, Iter.arrive, incr_decr h.count]

omit [DecidableEq E] in
/-- Where an iterator is after a pop. -/
theorem current_popped (it : Iter E) (r : Option E) :
    (it.popped r).current = match r with | none => .done | some n => .elem n := by
  rw [Iter.popped.eq_def]
  cases r <;> cases it.returnCurrent <;> rfl

omit [DecidableEq E] in
theorem count_popped_lt {it : Iter E} (h : it.count < 2 ^ 32) (r : Option E) :
    (it.popped r).count < 2 ^ 32 := by
  rw [Iter.popped.eq_def]
  cases r <;> cases it.returnCurrent
  · exact h
  · exact decr_lt h
  · exact incr_lt h
  · exact h

/-- **A pop that returns** finds no other pin. -/
theorem pop (h : q.Inv rounds) (hc : q.it.current = .elem c) {p : State E × Iter E × Bool}
    (hp : q.it.pop bad rounds q.st = some p) :
    Scene.Inv rounds
      { q with st := p.1, it := p.2.1, content := if p.2.2 then without q.content q.it.current
        else q.content } := by
  obtain ⟨hmem, hmask⟩ := h.current c hc
  have hpin := h.pin_current hc
  have hroom := h.room c hmem
  by_cases hone : q.others c = 0
  · have hpop := h.ready.pop bad hc hmask (by rw [hpin, hone]) h.count h.enough
    obtain rfl := Option.some.inj (hp.symm.trans hpop)
    set r := q.st.following q.it.direction q.content (.elem c) with hr
    have hrc : r ≠ some c := h.holds.following_ne hmem q.it.direction
    rw [if_pos rfl, hc, without]
    have hsub : ∀ x ∈ q.content.filter (fun x => decide (x ≠ c)), x ∈ q.content ∧ x ≠ c := by
      intro x hx
      obtain ⟨hx, hne⟩ := List.mem_filter.mp hx
      exact ⟨hx, of_decide_eq_true hne⟩
    have hholds : (q.st.popped r c).Holds q.content := h.holds
    have hcur : ∀ x, (q.it.popped r).current = .elem x ↔ r = some x := by
      intro x
      rw [current_popped]
      cases r with
      | none => exact iff_of_false nofun nofun
      | some n => rw [Current.elem.injEq, Option.some.injEq]
    refine ⟨hholds.removeElemDo hmem, Nat.lt_of_le_of_lt (List.length_filter_le ..) h.enough,
      fun x hx => ?_, fun x hx => h.room x (hsub x hx).1, fun x hx hm => ?_, fun x hx => ?_,
      count_popped_lt h.count r⟩
    · obtain ⟨hx, hne⟩ := hsub x hx
      have hx' := h.pins x hx
      rw [hc, if_neg fun he => hne (Current.elem.inj he).symm] at hx'
      show (if x = c then 0 else q.st.pinCount x + if r = some x then 1 else 0) = q.others x + _
      rw [if_neg hne, hx', if_congr (hcur x) rfl rfl, Nat.add_zero]
    · obtain ⟨hx, hne⟩ := hsub x hx
      exact h.masked x hx ((Function.update_of_ne hne ..).symm.trans hm)
    · have hrx := (hcur x).mp hx
      have hne : x ≠ c := fun he => hrc (he ▸ hrx)
      have hfol := h.following_mem (n := x) (by rw [hc]; exact hrx)
      exact ⟨List.mem_filter.mpr ⟨hfol.1, decide_eq_true hne⟩,
        (Function.update_of_ne hne ..).trans hfol.2⟩
  · have hno := h.ready.pop_none bad hc hmask (by rw [hpin]; omega)
      (by rw [hpin]; omega) h.enough
    rw [hno] at hp
    cases hp

/-- Nothing is given up if the iterator is at no element. -/
theorem drop {s : State E} {it : Iter E} (hs : ∀ c, it.current = .elem c → s.Leavable c) :
    it.drop s = some (s.moved none it.current.elem?) := by
  rw [Iter.drop]
  cases hc : it.current with
  | elem c => exact State.elemUnpin_spec (hs c hc)
  | null => rfl
  | done => rfl

/-- **A seek that can be done**, with the pins after it. -/
theorem seek (h : q.Inv rounds) (he : e ∈ q.content) (hmask : q.st.mask e = false)
    (hown : needPin = false → 1 ≤ q.others e) :
    q.it.seek q.st e needPin
      = some (q.st.moved (if needPin then some e else none) q.it.current.elem?,
        { q.it with current := .elem e }, true) := by
  have hopen := h.isOpen he
  cases needPin with
  | false =>
    rw [Iter.seek, if_neg Bool.false_ne_true, Option.bind_some, if_pos rfl,
      drop fun c hc => h.leavable hc]
    rfl
  | true =>
    have hdrop : q.it.drop (q.st.moved (some e) none)
        = some ((q.st.moved (some e) none).moved none q.it.current.elem?) := by
      refine drop fun c hc => ?_
      have hpin := h.pin_current hc
      have hroom := h.room c (h.current c hc).1
      have hpin' : (q.st.moved (some e) none).pinCount c
          = q.st.pinCount c + if some e = some c then 1 else 0 := rfl
      refine ⟨?_, ?_, fun hm => ?_⟩
      · rw [hpin']
        omega
      · rw [hpin']
        split <;> omega
      · have hm' : q.st.mask c = true := hm
        rw [(h.current c hc).2] at hm'
        cases hm'
    rw [Iter.seek, if_pos rfl, State.elemPin_spec hmask hopen.1, Option.bind_some, if_pos rfl,
      hdrop, Option.map_some, State.moved_moved]
    rfl

/-- **A seek keeps the pins right.** -/
theorem call_seek (h : q.Inv rounds) (hl : q.Legal (.seek e needPin))
    (hs : q.call bad rounds (.seek e needPin) = some q') : q'.Inv rounds := by
  obtain ⟨he, hown⟩ := hl
  obtain ⟨p, hp, rfl⟩ := Option.map_eq_some_iff.mp hs
  cases hmask : q.st.mask e with
  | true =>
    -- a masked element is not sought
    obtain rfl : needPin = true := by
      cases needPin with
      | true => rfl
      | false => exact absurd hmask (by rw [(hown rfl).1]; decide)
    rw [Iter.seek, if_pos rfl, State.elemPin_masked hmask, Option.bind_some,
      if_neg Bool.false_ne_true] at hp
    obtain rfl := Option.some.inj hp
    exact h
  | false =>
    rw [h.seek he hmask fun hn => (hown hn).2] at hp
    obtain rfl := Option.some.inj hp
    refine ⟨h.holds, h.enough, fun x hx => ?_, fun x hx => ?_, fun x hx hm => ?_, fun c hc => ?_,
      h.count⟩
    · have hpin := h.pins x hx
      have hmoved : (q.st.moved (if needPin then some e else none) q.it.current.elem?).pinCount x
          = q.st.pinCount x + (if (if needPin then some e else none) = some x then 1 else 0)
            - (if q.it.current.elem? = some x then 1 else 0) := rfl
      rw [if_congr Current.elem?_eq_some rfl rfl] at hmoved
      show (q.st.moved _ _).pinCount x = _ + if Current.elem e = Current.elem x then 1 else 0
      rw [hmoved, hpin]
      cases needPin with
      | true =>
        have hsame : (some e = some x) ↔ Current.elem e = Current.elem x := by
          rw [Option.some.injEq, Current.elem.injEq]
        simp only [if_true, Bool.true_eq_false, and_false, if_false, if_congr hsame rfl rfl]
        omega
      | false =>
        have hpos := (hown rfl).2
        simp only [Bool.false_eq_true, if_false, and_self, if_true, reduceCtorEq]
        by_cases hxe : x = e
        · subst hxe
          rw [Function.update_self, if_pos rfl]
          omega
        · rw [Function.update_of_ne hxe, if_neg fun hex => hxe (Current.elem.inj hex).symm]
          omega
    · have hroom := h.room x hx
      dsimp only
      split
      · by_cases hxe : x = e
        · subst hxe
          rw [Function.update_self]
          omega
        · rw [Function.update_of_ne hxe]
          exact hroom
      · exact hroom
    · have hxe : x ≠ e := fun hxe => by
        rw [hxe] at hm
        exact absurd hm (by rw [show (q.st.moved _ _).mask e = q.st.mask e from rfl, hmask]; decide)
      have hpos := h.masked x hx hm
      dsimp only
      split
      · rw [Function.update_of_ne hxe]
        exact hpos
      · exact hpos
    · obtain rfl : e = c := Current.elem.inj hc
      exact ⟨he, hmask⟩

/-- **Every call** keeps the pins right. -/
theorem call (h : q.Inv rounds) {a : Call E} (hl : q.Legal a)
    (hs : q.call bad rounds a = some q') : q'.Inv rounds := by
  cases a with
  | next =>
    obtain ⟨s, it, r, hnext, hinv, -⟩ := h.next
    obtain ⟨p, hp, rfl⟩ := Option.map_eq_some_iff.mp hs
    obtain rfl := Option.some.inj (hp.symm.trans hnext)
    exact hinv
  | pop =>
    obtain ⟨c, hc⟩ := hl
    obtain ⟨p, hp, rfl⟩ := Option.map_eq_some_iff.mp hs
    exact h.pop hc hp
  | seek e needPin => exact h.call_seek hl hs

end Scene.Inv

/-! ## The result -/

omit [DecidableEq E] in
theorem Scene.Fresh.inv [DecidableEq E] (h : q.Fresh rounds) : q.Inv rounds := by
  obtain ⟨d, hit⟩ := h.init
  have hcur : q.it.current = .null := by rw [hit]; rfl
  refine ⟨h.holds, h.enough, fun x hx => ?_, h.room, h.masked, fun c hc => ?_, ?_⟩
  · rw [h.pins x hx, hcur, if_neg nofun, Nat.add_zero]
  · rw [hcur] at hc
    cases hc
  · rw [hit]
    exact Nat.two_pow_pos 32

/-- The pins are right in every history. -/
theorem inv_of_reach (h : (history bad rounds).Reach legal q) : q.Inv rounds :=
  Machine.Reach.invariant (I := Scene.Inv rounds) (fun _ hs => Scene.Fresh.inv hs)
    (fun _ _ _ hq hs hl => hq.call hl hs) h

/-- What is given up in the end. -/
theorem Scene.Inv.released (h : q.Inv rounds) : q.Released := by
  refine ⟨_, Scene.Inv.drop fun c hc => h.leavable hc, fun x hx => ?_⟩
  show q.st.pinCount x + 0 - (if q.it.current.elem? = some x then 1 else 0) = q.others x
  rw [h.pins x hx, if_congr Current.elem?_eq_some rfl rfl]
  omega

/-- **A seek is right exactly if `return_current` is clear.** The element sought is returned
itself if it is not. -/
theorem Scene.Inv.seekGood_iff (h : q.Inv rounds) (he : e ∈ q.content) (hmask : q.st.mask e = false)
    (hown : needPin = false → 1 ≤ q.others e) :
    q.SeekGood rounds e needPin ↔ q.it.returnCurrent = false := by
  have hseek := h.seek he hmask hown
  have hl : q.Legal (.seek e needPin) := ⟨he, fun hn => ⟨hmask, hown hn⟩⟩
  -- the scene after the seek
  set q₁ : Scene E := { q with
    st := q.st.moved (if needPin then some e else none) q.it.current.elem?
    it := { q.it with current := .elem e }
    others := if needPin = false then Function.update q.others e (q.others e - 1)
      else q.others } with hq₁
  have hcall : q.call e rounds (.seek e needPin) = some q₁ := by
    rw [Scene.call, hseek, Option.map_some, hq₁]
    simp only [true_and]
  have h₁ := h.call_seek hl hcall
  obtain ⟨s', it', r, hnext, -, -, hclear, hset⟩ := h₁.next
  have hfol : q₁.st.following q₁.it.direction q₁.content q₁.it.current
      = q.st.following q.it.direction q.content (.elem e) := rfl
  rw [hfol] at hclear
  constructor
  · rintro ⟨s, it, hs, -, s'', it'', hn⟩
    obtain ⟨rfl, rfl⟩ : q₁.st = s ∧ q₁.it = it := by
      have heq := Option.some.inj (hseek.symm.trans hs)
      exact ⟨congrArg Prod.fst heq, congrArg (fun p => p.2.1) heq⟩
    have hr : r = q.st.following q.it.direction q.content (.elem e) := by
      have heq := Option.some.inj (hnext.symm.trans hn)
      exact congrArg (fun p => p.2.2) heq
    refine Bool.eq_false_iff.mpr fun hret => ?_
    have hself : r = some e := hset hret
    exact h.holds.following_ne he q.it.direction (hr.symm.trans hself)
  · intro hret
    refine ⟨q₁.st, q₁.it, hseek, fun x => ?_, s', it', ?_⟩
    · have hle : (if q.it.current = .elem x then 1 else 0) ≤ q.st.pinCount x := by
        split
        · next hc => exact (h.leavable hc).pos
        · exact Nat.zero_le _
      have hif : (if (if needPin then some e else none) = some x then 1 else 0)
          = if needPin = true ∧ x = e then 1 else 0 := by
        cases needPin with
        | false => rfl
        | true => exact if_congr (by rw [if_pos rfl, Option.some.injEq, and_iff_right rfl, eq_comm]) rfl rfl
      show q.st.pinCount x + (if (if needPin then some e else none) = some x then 1 else 0)
        - (if q.it.current.elem? = some x then 1 else 0) + _ = _
      rw [hif, if_congr Current.elem?_eq_some rfl rfl]
      omega
    · rw [hnext, hclear hret]

/-- **Seeking**, in every history of an iterator: what it pinned is given up in the end, and the
call after a seek returns what comes after the element exactly if `return_current` is clear. -/
theorem seekGood_iff_of_reach (h : (history bad rounds).Reach legal q) :
    q.Released ∧ ∀ e ∈ q.content, q.st.mask e = false → ∀ needPin,
      (needPin = false → 1 ≤ q.others e) →
        (q.SeekGood rounds e needPin ↔ q.it.returnCurrent = false) := by
  have hinv := inv_of_reach h
  exact ⟨hinv.released, fun e he hmask needPin hown => hinv.seekGood_iff he hmask hown⟩

/-- A list of three elements, and an iterator. -/
def threeElems : Scene ℕ where
  st :=
    { links := ⟨fun x => if x = 1 then some 2 else if x = 2 then some 3 else none,
        fun x => if x = 3 then some 2 else if x = 2 then some 1 else none⟩
      head := some 1
      tail := some 3
      count := 3
      pinCount := fun _ => 0
      mask := fun _ => false }
  it := Iter.init .forward
  content := [1, 2, 3]
  others := fun _ => 0

theorem reach_three : (history 0 4).Reach legal threeElems :=
  .init ⟨⟨⟨rfl, rfl, rfl, rfl, rfl, rfl, rfl⟩, rfl, rfl⟩, by decide, ⟨.forward, rfl⟩,
    fun _ _ => rfl, fun _ _ => (by decide : 0 + 2 < 2 ^ 15), fun _ _ hm => by cases hm⟩

/-- A fresh iterator seeks the second element. -/
theorem seek_three : threeElems.SeekGood 4 2 true :=
  ((seekGood_iff_of_reach reach_three).2 2 (by decide) rfl true nofun).mpr rfl

/-- **After a pop** an iterator that seeks the last element returns it. -/
theorem exists_stale_seek : ∃ q : Scene ℕ, (history 0 4).Reach legal q ∧ 3 ∈ q.content ∧
    q.st.mask 3 = false ∧ ¬ q.SeekGood 4 3 true := by
  have hrun : ((history 0 4).step threeElems .next).any (fun q₁ =>
      decide (q₁.it.current = .elem 1) && ((history 0 4).step q₁ .pop).any fun q₂ =>
        decide (3 ∈ q₂.content ∧ q₂.st.mask 3 = false ∧ q₂.it.returnCurrent = true)) = true := by
    decide +kernel
  obtain ⟨q₁, hq₁, hrun⟩ := (Option.any_eq_true _ _).mp hrun
  obtain ⟨hcur, hrun⟩ := (Bool.and_eq_true _ _).mp hrun
  obtain ⟨q₂, hq₂, hrun⟩ := (Option.any_eq_true _ _).mp hrun
  obtain ⟨hmem, hmask, hret⟩ := of_decide_eq_true hrun
  have h₂ := (reach_three.tail hq₁ trivial).tail hq₂ ⟨1, of_decide_eq_true hcur⟩
  refine ⟨q₂, h₂, hmem, hmask, fun hgood => ?_⟩
  have hclear := ((inv_of_reach h₂).seekGood_iff hmem hmask
    (fun hn : true = false => by cases hn)).mp hgood
  rw [hret] at hclear
  cases hclear

end AdList
