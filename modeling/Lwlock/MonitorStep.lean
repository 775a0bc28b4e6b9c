import Lwlock.MonitorInv

/-!
# Locking a monitor keeps the invariant

The steps of `lw_monitor_lock`: taking the slot over, the section of the thread
that has it, and the section of the thread that does not.
-/

namespace Monitor

variable {T P M : Type} [DecidableEq T] [DecidableEq P] [DecidableEq M]

omit [DecidableEq P] [DecidableEq M] in
/-- Who stands behind `v` in a line, after a thread moved that is not in it. -/
theorem behind_update {pc : T → Pc P M} {q : List (T × Kind)} {t v : T} {c : Pc P M}
    (h : q.Pairwise fun a b => a.1 = v → (pc b.1).IsCv) (ht : ∀ k, (t, k) ∉ q) :
    q.Pairwise fun a b => a.1 = v → (Function.update pc t c b.1).IsCv := by
  refine List.Pairwise.imp_of_mem ?_ h
  rintro ⟨a, ka⟩ ⟨b, kb⟩ - hb hab
  have hbt : b ≠ t := fun hbt => ht kb (hbt ▸ hb)
  rw [Function.update_of_ne hbt]
  exact hab

omit [DecidableEq T] [DecidableEq P] [DecidableEq M] in
/-- A thread that does not wait is in no line. -/
theorem Lines.not_mem {s : State T P M} {place : M → Place T M} (hL : Lines s place) {t : T}
    (ht : (s.pc t).waits = none) (m : M) (k : Kind) : (t, k) ∉ (s.lock m).queue := by
  intro hm
  have hsrc := (hL.queue m t k hm).1
  rw [(hL.waits t ht).1] at hsrc
  cases hsrc

omit [DecidableEq P] [DecidableEq M] in
/-- **The lines stay** when a thread that is in none of them moves to a point at which it does not
wait, and every monitor that is waited on stays in use and keeps its pointer. -/
theorem Lines.change {s s' : State T P M} {place place' : M → Place T M} {t : T} {c : Pc P M}
    (hL : Lines s place) (hw : (s.pc t).waits = none) (hpc : s'.pc = Function.update s.pc t c)
    (hc : c.waits = none ∧ c.waitsOn = none ∧ c.emptied = none) (hsrc : s'.src = s.src)
    (hwoken : s'.woken = s.woken) (hq : ∀ m, (s'.lock m).queue = (s.lock m).queue)
    (hh : ∀ m, (s'.lock m).holder = none → (s.lock m).holder = none ∨ (s.lock m).queue = [])
    (huse : ∀ u m, s.src u = some m → s'.ptr m = s.ptr m ∧ (place' m).Live)
    (hidle : ∀ m, ¬ (place' m).Live → (s.lock m).queue = [])
    (habs : ∀ m u, place' m = .absorb u → place m = .absorb u) : Lines s' place' := by
  obtain ⟨hcw, hco, hce⟩ := hc
  obtain ⟨hst, hwt⟩ := hL.waits t hw
  have hnt := hL.not_mem hw
  have hpcs : ∀ u, u = t ∧ s'.pc u = c ∨ u ≠ t ∧ s'.pc u = s.pc u := by
    intro u
    by_cases hu : u = t
    · exact .inl ⟨hu, by rw [hpc, hu, Function.update_self]⟩
    · exact .inr ⟨hu, by rw [hpc, Function.update_of_ne hu]⟩
  have hqueue : ∀ m u k, (u, k) ∈ (s.lock m).queue → s'.pc u = s.pc u := by
    intro m u k hm
    rcases hpcs u with ⟨rfl, -⟩ | ⟨-, hu⟩
    · exact absurd hm (hnt m k)
    · exact hu
  refine ⟨fun m hm => (hq m).trans (hidle m hm), fun u m hu => ?_, fun u hu => ?_, fun u m hu => ?_,
    fun u m hu hf => ?_, fun m u k hm => ?_, fun m => ?_, fun m hm u k hu => ?_, fun m u hm => ?_,
    fun m u hm hu v k hv => ?_, fun u m hu => ?_⟩
  · rw [hsrc] at hu
    rcases hpcs u with ⟨rfl, -⟩ | ⟨-, hpu⟩
    · rw [hst] at hu
      cases hu
    · rw [hpu, (huse u m hu).1]
      exact ⟨(hL.src u m hu).1, (huse u m hu).2⟩
  · rw [hsrc, hwoken]
    rcases hpcs u with ⟨rfl, -⟩ | ⟨-, hpu⟩
    · exact ⟨hst, hwt⟩
    · exact hL.waits u (hpu ▸ hu)
  · rw [hsrc]
    rcases hpcs u with ⟨-, hpu⟩ | ⟨-, hpu⟩
    · rw [hpu, hco] at hu
      cases hu
    · exact hL.waitsOn u m (hpu ▸ hu)
  · rw [hq m]
    exact hL.queued u m (hsrc ▸ hu) (hwoken ▸ hf)
  · rw [hq m] at hm
    rw [hsrc, hwoken, hqueue m u k hm]
    exact hL.queue m u k hm
  · rw [hq m]
    exact hL.nodup m
  · rw [hq m] at hu
    rcases hh m hm with hm | hm
    · exact hL.cvOnly m hm u k hu
    · rw [hm] at hu
      cases hu
  · rw [hq m, hpc]
    exact behind_update (hL.behind m u (habs m u hm)) (hnt m)
  · rw [hq m] at hv
    rw [hqueue m v k hv]
    refine hL.settled m u (habs m u hm) ?_ v k hv
    rw [hwoken] at hu
    rcases hpcs u with ⟨rfl, -⟩ | ⟨-, hpu⟩
    · exact .inl hw
    · exact hpu ▸ hu
  · rcases hpcs u with ⟨-, hpu⟩ | ⟨-, hpu⟩
    · rw [hpu, hce] at hu
      cases hu
    · rw [hq m]
      exact hL.emptied u m (hpu ▸ hu)

/-! ## Taking a slot -/

omit [DecidableEq T] [DecidableEq P] [DecidableEq M] in
/-- A monitor whose lock is free and whose condition bit is clear has no
users. -/
theorem no_users {cfg : Config P M} {s : State T P M} {place : M → Place T M} {m : M}
    (hR : Rights cfg s place) (hL : Lines s place) (hh : (s.lock m).holder = none)
    (hc : (s.lock m).cvBit = false) : ∀ t, s.src t ≠ some m := by
  have hq : (s.lock m).queue = [] := by
    refine List.eq_nil_iff_forall_not_mem.mpr ?_
    rintro ⟨u, k⟩ hu
    obtain rfl := hL.cvOnly m hh u k hu
    rw [Bitlock.cvBit, List.any_eq_false] at hc
    exact hc _ hu rfl
  intro t ht
  cases hw : s.woken t with
  | true =>
    have := (hR.holder m t).mpr (Or.inr (Or.inr (Or.inr ⟨hw, ht⟩)))
    rw [hh] at this
    cases this
  | false =>
    have := hL.queued t m ht hw
    rw [hq] at this
    cases this

/-- **`lw_monitor_grab_if_unused`.** -/
theorem grab_sound {cfg : Config P M} {s : State T P M} {t : T} {p : P} (hs : Sound cfg s)
    (hpc : s.pc t = .lockGrab p) : Sound cfg (grabIfUnused cfg s t p) := by
  unfold grabIfUnused
  dsimp only
  split
  · exact hs.goto (by rw [hpc]; rfl)
  · rename_i hfree
    obtain ⟨place, L, hP, hR, hL⟩ := hs
    rw [not_or, not_not] at hfree
    obtain ⟨hcv, hh⟩ := hfree
    have hfix := cfg.hash_fixed p
    have hsrc : s.ptr (cfg.hash p) ≠ some p → ∀ u, s.src u ≠ some (cfg.hash p) := by
      intro hne
      refine no_users hR hL hh ?_
      cases hcb : (s.lock (cfg.hash p)).cvBit with
      | true => exact absurd ⟨hcb, hne⟩ hcv
      | false => rfl
    have hno : ∀ u, ¬ Holds cfg s u (cfg.hash p) := by
      intro u hu
      have := (hR.holder _ u).mpr hu
      rw [hh] at this
      cases this
    have hnt := hL.not_mem (show (s.pc t).waits = none by rw [hpc]; rfl)
    simp only [State.take, State.setLock, State.goto]
    refine ⟨place, L, ?_, ?_, ?_⟩
    · obtain ⟨h1, h2, h3, h4, h5, h6, h7, h8, h9, h10, h11, h12⟩ := hP
      constructor
      all_goals first
        | assumption
        | grind -linarith [Function.update_apply, Pc.copy, Pc.slot, Pc.releasing]
    · obtain ⟨h1, h2, h3, h4, h5, h6, h7, h8⟩ := hR
      obtain ⟨p1, p2, p3, p4, p5, p6, p7, p8, p9, p10, p11, p12⟩ := hP
      simp only [Holds] at *
      constructor
      all_goals simp only [Holds]
      all_goals first
        | assumption
        | grind -linarith [Function.update_apply, Pc.copyHeld, Pc.slot, Pc.stealing, Place.Live]
    · obtain ⟨h1, h2, h3, h4, h5, h6, h7, h8, h9, h10, h11⟩ := hL
      have hq : ∀ m, (Function.update s.lock (cfg.hash p)
          { s.lock (cfg.hash p) with holder := some t } m).queue = (s.lock m).queue := by
        grind -linarith [Function.update_apply]
      constructor
      all_goals simp only [hq]
      case behind => exact fun m u hm => behind_update (h9 m u hm) (hnt m)
      all_goals first
        | assumption
        | grind -linarith [Function.update_apply, Pc.waits, Pc.waitsOn, Pc.IsCv, Pc.emptied, Place.Live]

omit [DecidableEq P] in
/-- **A thread returns with the slot it took over**, when no copy is in the
chain. -/
theorem grantSlot_sound {cfg : Config P M} {s : State T P M} {place : M → Place T M}
    {L : M → List M} {t : T} {p : P} (h : Inv cfg s place L)
    (hpc : (s.pc t).stealing = some p) (hc : ∀ x ∈ L (cfg.hash p), s.ptr x ≠ some p) :
    Inv cfg (s.grant t p (cfg.hash p)) place L := by
  have hslot := Pc.slot_of_stealing hpc
  have hfix := cfg.hash_fixed p
  obtain ⟨hP, hR, hL⟩ := h
  have hview : (s.pc t).copy = none ∧ (s.pc t).copyHeld = none ∧ (s.pc t).releasing = none
      ∧ (s.pc t).waits = none ∧ (s.pc t).waitsOn = none ∧ (s.pc t).emptied = none
      ∧ ¬ (s.pc t).IsCv := by
    cases hc : s.pc t <;> simp_all [Pc.stealing, Pc.copy, Pc.copyHeld, Pc.releasing, Pc.waits,
      Pc.waitsOn, Pc.emptied, Pc.IsCv]
  have hnt := hL.not_mem hview.2.2.2.1
  have hsrc := hL.waits t hview.2.2.2.1
  have hmem := hP.mem _ hfix
  simp only [State.grant, State.setOwn, State.goto]
  refine ⟨?_, ?_, ?_⟩
  · obtain ⟨h1, h2, h3, h4, h5, h6, h7, h8, h9, h10, h11, h12⟩ := hP
    constructor
    all_goals first
      | assumption
      | grind -linarith [Function.update_apply, Pc.copy, Pc.slot, Pc.releasing]
  · obtain ⟨h1, h2, h3, h4, h5, h6, h7, h8⟩ := hR
    obtain ⟨p1, p2, p3, p4, p5, p6, p7, p8, p9, p10, p11, p12⟩ := hP
    simp only [Holds] at *
    constructor
    all_goals simp only [Holds]
    all_goals first
      | assumption
      | grind -linarith [Function.update_apply, Pc.copyHeld, Pc.slot, Pc.stealing, Place.Live]
  · obtain ⟨h1, h2, h3, h4, h5, h6, h7, h8, h9, h10, h11⟩ := hL
    constructor
    case behind => exact fun m u hm => behind_update (h9 m u hm) (hnt m)
    all_goals first
      | assumption
      | grind -linarith [Function.update_apply, Pc.waits, Pc.waitsOn, Pc.IsCv, Pc.emptied, Place.Live]

/-! ## Taking a monitor, or queueing on it -/

/-- A program point outside every section, at which the thread has nothing. -/
def Pc.Plain (c : Pc P M) : Prop :=
  c.slot = none ∧ c.stealing = none ∧ c.copy = none ∧ c.copyHeld = none ∧ c.emptied = none
    ∧ c.releasing = none ∧ c.waits = none ∧ c.waitsOn = none ∧ ¬ c.IsCv

omit [DecidableEq P] in
/-- **A thread takes the free lock of a monitor of its pointer** and returns. -/
theorem take_inv {cfg : Config P M} {s : State T P M} {place : M → Place T M} {L : M → List M}
    {t : T} {p : P} {m : M} (h : Inv cfg s place L) (hpc : (s.pc t).Plain)
    (hm : s.ptr m = some p) (hl : (place m).Live) (hh : (s.lock m).holder = none) :
    Inv cfg ((s.take t m).grant t p m) place L := by
  obtain ⟨hP, hR, hL⟩ := h
  obtain ⟨c1, c2, c3, c4, c5, c6, c7, c8, c9⟩ := hpc
  have hnt := hL.not_mem c7
  have hsrc := hL.waits t c7
  simp only [State.take, State.setLock, State.grant, State.setOwn, State.goto]
  refine ⟨?_, ?_, ?_⟩
  · obtain ⟨h1, h2, h3, h4, h5, h6, h7, h8, h9, h10, h11, h12⟩ := hP
    constructor
    all_goals first
      | assumption
      | grind -linarith [Function.update_apply, Pc.copy, Pc.slot, Pc.releasing]
  · obtain ⟨h1, h2, h3, h4, h5, h6, h7, h8⟩ := hR
    simp only [Holds] at *
    constructor
    all_goals simp only [Holds]
    all_goals first
      | assumption
      | grind -linarith [Function.update_apply, Pc.copyHeld, Pc.slot, Pc.stealing, Place.Live]
  · obtain ⟨h1, h2, h3, h4, h5, h6, h7, h8, h9, h10, h11⟩ := hL
    have hq : ∀ x, (Function.update s.lock m { s.lock m with holder := some t } x).queue
        = (s.lock x).queue := by
      grind -linarith [Function.update_apply]
    constructor
    all_goals simp only [hq]
    case behind => exact fun x u hx => behind_update (h9 x u hx) (hnt x)
    all_goals first
      | assumption
      | grind -linarith [Function.update_apply, Pc.waits, Pc.waitsOn, Pc.IsCv, Pc.emptied, Place.Live]

omit [DecidableEq T] [DecidableEq P] [DecidableEq M] in
/-- A thread that has emptied a copy has it. -/
theorem Pc.copy_of_emptied {c : Pc P M} {m : M} (h : c.emptied = some m) : c.copy = some m := by
  unfold Pc.emptied at h
  split at h
  · exact h
  · cases h

omit [DecidableEq T] [DecidableEq P] [DecidableEq M] in
/-- Threads in no line. -/
theorem not_mem_fst {q : List (T × Kind)} {t : T} (h : ∀ k, (t, k) ∉ q) :
    t ∉ q.map Prod.fst := by
  intro ht
  obtain ⟨⟨u, k⟩, hu, rfl⟩ := List.mem_map.mp ht
  exact h k hu

omit [DecidableEq P] in
/-- **A thread queues on a locked monitor of its pointer** that is not being
absorbed. -/
theorem queue_inv {cfg : Config P M} {s : State T P M} {place : M → Place T M} {L : M → List M}
    {t : T} {p : P} {m : M} (h : Inv cfg s place L) (hpc : (s.pc t).Plain)
    (hm : s.ptr m = some p) (hl : (place m).Live) (ha : ∀ u, place m ≠ .absorb u)
    (hh : (s.lock m).holder ≠ none) :
    Inv cfg ((s.enqueue t m .lock).goto t (.waitLock p m)) place L := by
  obtain ⟨hP, hR, hL⟩ := h
  obtain ⟨c1, c2, c3, c4, c5, c6, c7, c8, c9⟩ := hpc
  have hnt := hL.not_mem c7
  have hsrc := hL.waits t c7
  simp only [State.enqueue, State.setLock, State.goto]
  refine ⟨?_, ?_, ?_⟩
  · obtain ⟨h1, h2, h3, h4, h5, h6, h7, h8, h9, h10, h11, h12⟩ := hP
    constructor
    all_goals first
      | assumption
      | grind -linarith [Function.update_apply, Pc.copy, Pc.slot, Pc.releasing]
  · obtain ⟨h1, h2, h3, h4, h5, h6, h7, h8⟩ := hR
    have hq : ∀ x, (Function.update s.lock m
        { s.lock m with queue := (s.lock m).queue ++ [(t, .lock)] } x).holder
        = (s.lock x).holder := by
      grind -linarith [Function.update_apply]
    simp only [Holds] at *
    constructor
    all_goals simp only [Holds, hq]
    all_goals first
      | assumption
      | grind -linarith [Function.update_apply, Pc.copyHeld, Pc.slot, Pc.stealing, Place.Live]
  · obtain ⟨h1, h2, h3, h4, h5, h6, h7, h8, h9, h10, h11⟩ := hL
    obtain ⟨p1, p2, p3, p4, p5, p6, p7, p8, p9, p10, p11, p12⟩ := hP
    have hfst : ∀ x, t ∉ (s.lock x).queue.map Prod.fst := fun x => not_mem_fst (hnt x)
    have hemp : ∀ u, (s.pc u).emptied ≠ some m := by
      intro u hu
      exact ha u ((p10 m u).mpr (Pc.copy_of_emptied hu))
    constructor
    case behind =>
      intro x u hx
      have hxm : x ≠ m := fun hxm => ha u (hxm ▸ hx)
      dsimp only
      rw [Function.update_of_ne hxm]
      exact behind_update (h9 x u hx) (hnt x)
    all_goals first
      | assumption
      | grind -linarith [Function.update_apply, Pc.waits, Pc.waitsOn, Pc.IsCv, Pc.emptied, Place.Live]

omit [DecidableEq P] in
/-- `lockFound` on a monitor of the caller's pointer. -/
theorem lockFound_inv {cfg : Config P M} {s : State T P M} {place : M → Place T M}
    {L : M → List M} {t : T} {p : P} {m : M} (h : Inv cfg s place L) (hpc : (s.pc t).Plain)
    (hm : s.ptr m = some p) (hl : (place m).Live) (ha : ∀ u, place m ≠ .absorb u) :
    Inv cfg (lockFound s t p m) place L := by
  unfold lockFound
  split
  · rename_i hh
    exact take_inv h hpc hm hl hh
  · rename_i hh
    exact queue_inv h hpc hm hl ha hh

/-! ## Absorbing a copy -/

omit [DecidableEq T] [DecidableEq P] in
/-- The chains after a copy was taken out and its own link cleared. -/
theorem Pool.absorb_chain {cfg : Config P M} {s : State T P M} {place : M → Place T M}
    {L : M → List M} (hP : Pool cfg s place L) {h m : M} {A B : List M}
    (hh : cfg.fixed h = true) (hL : L h = A ++ m :: B) (h' : M) (hh' : cfg.fixed h' = true) :
    Chain (Function.update (Function.update s.next (A.getLastD h) (s.next m)) m none) (some h')
      (h' :: Function.update L h (A ++ B) h') := by
  obtain ⟨hchain, hmem⟩ := hP.cut hh hL
  refine (hchain h' hh').update (fun hm => ?_) _
  have hpm : place m = .chain h := (hP.mem h hh m).mp (by rw [hL]; simp)
  rcases List.mem_cons.mp hm with rfl | hm
  · rw [(hP.slot m).mpr hh'] at hpm
    cases hpm
  · exact ((hmem h' m hh').mp hm).1 rfl

omit [DecidableEq T] [DecidableEq P] [DecidableEq M] in
/-- The last monitor of a part of a chain is the head or in the chain itself. -/
theorem Pool.place_last {cfg : Config P M} {s : State T P M} {place : M → Place T M}
    {L : M → List M} (hP : Pool cfg s place L) {h : M} {A : List M} (hh : cfg.fixed h = true)
    (hA : A ⊆ L h) : A.getLastD h = h ∨ place (A.getLastD h) = .chain h := by
  obtain ⟨X, hX⟩ := exists_cons_eq_concat h A
  have hmem : A.getLastD h ∈ h :: A := by
    rw [hX]
    simp
  rcases List.mem_cons.mp hmem with heq | hmem
  · exact Or.inl heq
  · exact Or.inr ((hP.mem h hh _).mp (hA hmem))

omit [DecidableEq T] [DecidableEq P] [DecidableEq M] in
/-- The fields the pool is about. -/
theorem Pool.congr {cfg : Config P M} {s s' : State T P M} {place : M → Place T M}
    {L : M → List M} (hP : Pool cfg s place L) (hptr : s'.ptr = s.ptr) (hfree : s'.free = s.free)
    (hnext : s'.next = s.next) (hpc : s'.pc = s.pc) : Pool cfg s' place L := by
  obtain ⟨h1, h2, h3, h4, h5, h6, h7, h8, h9, h10, h11, h12⟩ := hP
  constructor <;> simpa only [hptr, hfree, hnext, hpc]

omit [DecidableEq P] in
/-- **A copy is taken out of the chain** by a thread that goes on to absorb it. -/
theorem Pool.absorb_section {cfg : Config P M} {s : State T P M} {place : M → Place T M}
    {L : M → List M} {t : T} {p : P} {m : M} {A B : List M} {c : Pc P M}
    (hP : Pool cfg s place L) (hpc : s.pc t = .lockSection p true)
    (hA : L (cfg.hash p) = A ++ m :: B) (hm : s.ptr m = some p) (hcopy : c.copy = some m)
    (hslot : c.slot = some p) (hrel : c.releasing = none) :
    Pool cfg ({ s with next := Function.update (Function.update s.next
        (A.getLastD (cfg.hash p)) (s.next m)) m none }.goto t c)
      (Function.update place m (.absorb t)) (Function.update L (cfg.hash p) (A ++ B)) := by
  have hfix := cfg.hash_fixed p
  have hpm : place m = .chain (cfg.hash p) := (hP.mem _ hfix m).mp (by rw [hA]; simp)
  have hch := hP.absorb_chain hfix hA
  have hmem := (hP.cut hfix hA).2
  have hprev := hP.place_last hfix (A := A) (by rw [hA]; simp)
  have hslot' := (hP.slot _).mpr hfix
  generalize A.getLastD (cfg.hash p) = b at *
  obtain ⟨h1, h2, h3, h4, h5, h6, h7, h8, h9, h10, h11, h12⟩ := hP
  simp only [State.goto]
  constructor
  case chain => exact hch
  all_goals first
    | assumption
    | grind -linarith [Function.update_apply, Pc.copy, Pc.slot, Pc.releasing]

omit [DecidableEq P] in
/-- **The section that takes a copy out**, when the copy is free. -/
theorem absorbTake_inv {cfg : Config P M} {s : State T P M} {place : M → Place T M}
    {L : M → List M} {t : T} {p : P} {m : M} {A B : List M} (h : Inv cfg s place L)
    (hpc : s.pc t = .lockSection p true) (hA : L (cfg.hash p) = A ++ m :: B)
    (hm : s.ptr m = some p) (hh : (s.lock m).holder = none) :
    Inv cfg (({ s with next := Function.update (Function.update s.next
        (A.getLastD (cfg.hash p)) (s.next m)) m none }.take t m).goto t (.absorbMove p m))
      (Function.update place m (.absorb t)) (Function.update L (cfg.hash p) (A ++ B)) := by
  have hfix := cfg.hash_fixed p
  obtain ⟨hP, hR, hL⟩ := h
  have hpm : place m = .chain (cfg.hash p) := (hP.mem _ hfix m).mp (by rw [hA]; simp)
  have hpool := hP.absorb_section hpc hA hm (c := .absorbMove p m) rfl rfl rfl
  have hnt := hL.not_mem (show (s.pc t).waits = none by rw [hpc]; rfl)
  have hsrc := hL.waits t (show (s.pc t).waits = none by rw [hpc]; rfl)
  simp only [State.take, State.setLock, State.goto]
  refine ⟨?_, ?_, ?_⟩
  · exact hpool.congr rfl rfl rfl rfl
  · obtain ⟨h1, h2, h3, h4, h5, h6, h7, h8⟩ := hR
    obtain ⟨p1, p2, p3, p4, p5, p6, p7, p8, p9, p10, p11, p12⟩ := hP
    simp only [Holds] at *
    constructor
    all_goals simp only [Holds]
    all_goals first
      | assumption
      | grind -linarith [Function.update_apply, Pc.copyHeld, Pc.slot, Pc.stealing, Place.Live]
  · obtain ⟨h1, h2, h3, h4, h5, h6, h7, h8, h9, h10, h11⟩ := hL
    have hq : ∀ x, (Function.update s.lock m { s.lock m with holder := some t } x).queue
        = (s.lock x).queue := by
      grind -linarith [Function.update_apply]
    constructor
    all_goals simp only [hq]
    case behind =>
      intro x u hx
      refine behind_update ?_ (hnt x)
      by_cases hxm : x = m
      · subst hxm
        rw [Function.update_self] at hx
        obtain rfl : t = u := Place.absorb.inj hx
        refine List.pairwise_of_forall_mem_list ?_
        rintro ⟨a, ka⟩ ha b - hat
        obtain rfl : a = t := hat
        exact absurd ha (hnt x ka)
      · rw [Function.update_of_ne hxm] at hx
        exact h9 x u hx
    all_goals first
      | assumption
      | grind -linarith [Function.update_apply, Pc.waits, Pc.waitsOn, Pc.IsCv, Pc.emptied, Place.Live]

omit [DecidableEq P] in
/-- **The section that takes a copy out**, when the copy is in use: the thread
queues on it behind everybody who came through `lw_monitor_lock`. -/
theorem absorbQueue_inv {cfg : Config P M} {s : State T P M} {place : M → Place T M}
    {L : M → List M} {t : T} {p : P} {m : M} {A B : List M} (h : Inv cfg s place L)
    (hpc : s.pc t = .lockSection p true) (hA : L (cfg.hash p) = A ++ m :: B)
    (hm : s.ptr m = some p) (hh : (s.lock m).holder ≠ none) :
    Inv cfg (({ s with next := Function.update (Function.update s.next
        (A.getLastD (cfg.hash p)) (s.next m)) m none }.enqueue t m .lock).goto t
        (.absorbWait p m))
      (Function.update place m (.absorb t)) (Function.update L (cfg.hash p) (A ++ B)) := by
  have hfix := cfg.hash_fixed p
  obtain ⟨hP, hR, hL⟩ := h
  have hpm : place m = .chain (cfg.hash p) := (hP.mem _ hfix m).mp (by rw [hA]; simp)
  have hpool := hP.absorb_section hpc hA hm (c := .absorbWait p m) rfl rfl rfl
  have hnt := hL.not_mem (show (s.pc t).waits = none by rw [hpc]; rfl)
  have hsrc := hL.waits t (show (s.pc t).waits = none by rw [hpc]; rfl)
  simp only [State.enqueue, State.setLock, State.goto]
  refine ⟨?_, ?_, ?_⟩
  · exact hpool.congr rfl rfl rfl rfl
  · obtain ⟨h1, h2, h3, h4, h5, h6, h7, h8⟩ := hR
    obtain ⟨p1, p2, p3, p4, p5, p6, p7, p8, p9, p10, p11, p12⟩ := hP
    have hq : ∀ x, (Function.update s.lock m
        { s.lock m with queue := (s.lock m).queue ++ [(t, .lock)] } x).holder
        = (s.lock x).holder := by
      grind -linarith [Function.update_apply]
    simp only [Holds] at *
    constructor
    all_goals simp only [Holds, hq]
    all_goals first
      | assumption
      | grind -linarith [Function.update_apply, Pc.copyHeld, Pc.slot, Pc.stealing, Place.Live]
  · obtain ⟨h1, h2, h3, h4, h5, h6, h7, h8, h9, h10, h11⟩ := hL
    have hfst : ∀ x, t ∉ (s.lock x).queue.map Prod.fst := fun x => not_mem_fst (hnt x)
    have hemp : ∀ u, (s.pc u).emptied ≠ some m := by
      intro u hu
      have := (hP.absorb m u).mpr (Pc.copy_of_emptied hu)
      rw [hpm] at this
      cases this
    constructor
    case behind =>
      intro x u hx
      dsimp only
      by_cases hxm : x = m
      · subst hxm
        rw [Function.update_self] at hx
        obtain rfl : t = u := Place.absorb.inj hx
        rw [Function.update_self, List.pairwise_append]
        refine ⟨?_, List.pairwise_singleton _ _, ?_⟩
        · refine List.pairwise_of_forall_mem_list ?_
          rintro ⟨a, ka⟩ ha b - hat
          obtain rfl : a = t := hat
          exact absurd ha (hnt x ka)
        · rintro ⟨a, ka⟩ ha b - hat
          obtain rfl : a = t := hat
          exact absurd ha (hnt x ka)
      · rw [Function.update_of_ne hxm] at hx ⊢
        exact behind_update (h9 x u hx) (hnt x)
    all_goals first
      | assumption
      | grind -linarith [Function.update_apply, Pc.waits, Pc.waitsOn, Pc.IsCv, Pc.emptied, Place.Live]

/-! ## The section of a thread that did not get the slot -/

omit [DecidableEq T] [DecidableEq P] [DecidableEq M] in
/-- A monitor of the pool is unused. -/
theorem Inv.unused {cfg : Config P M} {s : State T P M} {place : M → Place T M} {L : M → List M}
    (h : Inv cfg s place L) {a : M} (ha : a ∈ s.free) :
    place a = .free ∧ s.ptr a = none ∧ s.next a = none ∧ s.lock a = ⟨none, []⟩ := by
  have hpl := (h.pool.free a).mp ha
  have hnl : ¬ (place a).Live := by rw [hpl]; exact not_false
  obtain ⟨hp, hn⟩ := h.pool.fresh a hpl
  refine ⟨hpl, hp, hn, ?_⟩
  have h1 := h.rights.idle a hnl
  have h2 := h.lines.idle a hnl
  cases hb : s.lock a
  rw [hb] at h1 h2
  simp only at h1 h2
  rw [h1, h2]

omit [DecidableEq P] in
/-- A monitor that was taken from the pool and not used goes back as it was. -/
theorem alloc_release {cfg : Config P M} {s s₁ : State T P M} {place : M → Place T M}
    {L : M → List M} {t : T} {p : P} {a : M} (h : Inv cfg s place L)
    (hal : s.alloc t p = some (s₁, a)) : s₁.release a = some s := by
  cases hf : s.free with
  | nil => simp only [State.alloc, hf, reduceCtorEq] at hal
  | cons b free =>
    simp only [State.alloc, hf, Option.some.injEq, Prod.mk.injEq] at hal
    obtain ⟨rfl, rfl⟩ := hal
    obtain ⟨-, hp, hn, hl⟩ := h.unused (a := b) (by rw [hf]; exact List.mem_cons_self)
    have hfind : (Bitlock.mk (some t) ([] : List (T × Kind))).unlockReturnWaiter
        = (⟨none, []⟩, none) := rfl
    simp only [State.release, State.handOff, Function.update_self, hfind, State.wake,
      State.setLock, Function.update_idem, Bitlock.cvBit, Bitlock.waitBit, List.any_nil,
      Option.isSome_none, Bool.or_self, Bool.false_eq_true, if_false, Option.some.injEq]
    rw [← hl, ← hn, ← hp, Function.update_eq_self, Function.update_eq_self,
      Function.update_eq_self, ← hf]

omit [DecidableEq P] in
/-- **A new monitor is linked behind the last one of a chain** that has none for
the pointer. -/
theorem insert_inv {cfg : Config P M} {s : State T P M} {place : M → Place T M} {L : M → List M}
    {t : T} {p : P} {a : M} {free : List M} (h : Inv cfg s place L) (hpc : (s.pc t).Plain)
    (hf : s.free = a :: free) (hh : s.ptr (cfg.hash p) ≠ some p)
    (hc : ∀ x ∈ L (cfg.hash p), s.ptr x ≠ some p) :
    Inv cfg ({ s with
        free := free
        next := Function.update (Function.update s.next a none)
          ((L (cfg.hash p)).getLastD (cfg.hash p)) (some a)
        ptr := Function.update s.ptr a (some p)
        lock := Function.update s.lock a ⟨some t, []⟩ }.grant t p a)
      (Function.update place a (.chain (cfg.hash p)))
      (Function.update L (cfg.hash p) (L (cfg.hash p) ++ [a])) := by
  have hfix := cfg.hash_fixed p
  obtain ⟨hpa, hap, han, hal⟩ := h.unused (a := a) (by rw [hf]; exact List.mem_cons_self)
  obtain ⟨hP, hR, hL⟩ := h
  obtain ⟨c1, c2, c3, c4, c5, c6, c7, c8, c9⟩ := hpc
  have hnt := hL.not_mem c7
  have hsrc := hL.waits t c7
  have hnf : a ∉ free := by
    have := hP.nodup
    rw [hf] at this
    exact (List.nodup_cons.mp this).1
  have hmem := hP.mem _ hfix
  have hlast := hP.place_last hfix (A := L (cfg.hash p)) (List.Subset.refl _)
  have hslot := (hP.slot _).mpr hfix
  have hno : ∀ h', cfg.fixed h' = true → a ∉ h' :: L h' := by
    intro h' hh' ha
    rcases List.mem_cons.mp ha with rfl | ha
    · rw [(hP.slot a).mpr hh'] at hpa
      cases hpa
    · rw [(hP.mem h' hh' a).mp ha] at hpa
      cases hpa
  have hnext : Function.update s.next a none = s.next := by
    rw [← han, Function.update_eq_self]
  have hch : ∀ h', cfg.fixed h' = true →
      Chain (Function.update s.next ((L (cfg.hash p)).getLastD (cfg.hash p)) (some a)) (some h')
        (h' :: Function.update L (cfg.hash p) (L (cfg.hash p) ++ [a]) h') := by
    intro h' hh'
    by_cases heq : h' = cfg.hash p
    · subst heq
      rw [Function.update_self]
      obtain ⟨X, hX⟩ := exists_cons_eq_concat (cfg.hash p) (L (cfg.hash p))
      have hchain := hP.chain _ hfix
      have hna := hno _ hfix
      rw [← List.cons_append, hX]
      rw [hX] at hchain hna
      exact hchain.concat hna han
    · rw [Function.update_of_ne heq]
      refine (hP.chain h' hh').update (fun hm => ?_) _
      have h2 := (hP.slot h').mpr hh'
      have h3 := hP.mem h' hh' ((L (cfg.hash p)).getLastD (cfg.hash p))
      grind -linarith
  generalize (L (cfg.hash p)).getLastD (cfg.hash p) = b at *
  simp only [State.grant, State.setOwn, State.goto, hnext]
  refine ⟨?_, ?_, ?_⟩
  · obtain ⟨h1, h2, h3, h4, h5, h6, h7, h8, h9, h10, h11, h12⟩ := hP
    constructor
    case chain => exact hch
    all_goals first
      | assumption
      | grind -linarith [Function.update_apply, Pc.copy, Pc.slot, Pc.releasing]
  · obtain ⟨h1, h2, h3, h4, h5, h6, h7, h8⟩ := hR
    obtain ⟨p1, p2, p3, p4, p5, p6, p7, p8, p9, p10, p11, p12⟩ := hP
    simp only [Holds] at *
    constructor
    all_goals simp only [Holds]
    all_goals first
      | assumption
      | grind -linarith [Function.update_apply, Pc.copyHeld, Pc.slot, Pc.stealing, Place.Live]
  · have hnu : ∀ u, s.src u ≠ some a := by
      intro u hu
      have hlive := (hL.src u a hu).2
      rw [hpa] at hlive
      exact hlive
    refine hL.change (t := t) (c := .idle) c7 rfl ⟨rfl, rfl, rfl⟩ rfl rfl (fun x => ?_)
      (fun x hx => ?_) (fun u x hu => ?_) (fun x hx => ?_) fun x u hx => ?_
    · grind -linarith [Function.update_apply]
    · dsimp only at hx
      by_cases hxa : x = a
      · rw [hxa, Function.update_self] at hx
        cases hx
      · rw [Function.update_of_ne hxa] at hx
        exact .inl hx
    · have hxa : x ≠ a := fun hxa => hnu u (hxa ▸ hu)
      dsimp only
      rw [Function.update_of_ne hxa, Function.update_of_ne hxa]
      exact ⟨rfl, (hL.src u x hu).2⟩
    · refine hL.idle x fun hlive => hx ?_
      by_cases hxa : x = a
      · rw [hxa, Function.update_self]
        trivial
      · rw [Function.update_of_ne hxa]
        exact hlive
    · grind -linarith [Function.update_apply]

omit [DecidableEq T] in
/-- **The search from the head** after a monitor was taken from the pool: it sees
the chain as it was. -/
theorem Inv.findFromHead_spec [Fintype M] {cfg : Config P M} {s s₁ : State T P M}
    {place : M → Place T M} {L : M → List M} {t : T} {p : P} {a : M} (h : Inv cfg s place L)
    (hal : s.alloc t p = some (s₁, a)) (hh : s.ptr (cfg.hash p) ≠ some p) :
    (∃ m prev, m ∈ L (cfg.hash p) ∧ s.ptr m = some p
      ∧ findFromHead cfg s₁ p = some (some m, prev))
    ∨ ((∀ x ∈ L (cfg.hash p), s.ptr x ≠ some p)
      ∧ findFromHead cfg s₁ p = some (none, (L (cfg.hash p)).getLastD (cfg.hash p))) := by
  have hfix := cfg.hash_fixed p
  cases hf : s.free with
  | nil => simp only [State.alloc, hf, reduceCtorEq] at hal
  | cons b free =>
    simp only [State.alloc, hf, Option.some.injEq, Prod.mk.injEq] at hal
    obtain ⟨rfl, rfl⟩ := hal
    obtain ⟨hpb, -, hbn, -⟩ := h.unused (a := b) (by rw [hf]; exact List.mem_cons_self)
    have hptr : ∀ x ∈ cfg.hash p :: L (cfg.hash p),
        Function.update s.ptr b (some p) x = s.ptr x := by
      intro x hx
      refine Function.update_of_ne ?_ _ _
      rintro rfl
      have h2 := (h.pool.slot _).mpr hfix
      have h3 := h.pool.mem _ hfix x
      grind -linarith
    have hchain := h.pool.chain _ hfix
    rw [show s.next = Function.update s.next b none by rw [← hbn, Function.update_eq_self]]
      at hchain
    rcases findMonitorForPtr_spec ({ s with
        free := free
        next := Function.update s.next b none
        ptr := Function.update s.ptr b (some p)
        lock := Function.update s.lock b ⟨some t, []⟩ }) p (cfg.hash p) hchain
      (h.pool.length_lt p) with ⟨A, m, B, hAB, hm, hfind⟩ | ⟨hnone, hfind⟩
    · have hmem : m ∈ cfg.hash p :: L (cfg.hash p) := by rw [hAB]; simp
      replace hm : s.ptr m = some p := (hptr m hmem).symm.trans hm
      rcases List.mem_cons.mp hmem with rfl | hmem
      · exact absurd hm hh
      · exact Or.inl ⟨m, _, hmem, hm, hfind⟩
    · rw [List.getLastD_cons] at hfind
      refine Or.inr ⟨fun x hx hxp => ?_, hfind⟩
      have hx' := List.mem_cons_of_mem (cfg.hash p) hx
      exact hnone x hx' ((hptr x hx').trans hxp)

/-- **The section of a thread that did not get the slot.** -/
theorem searchSection_sound [Fintype M] {cfg : Config P M} {s s' : State T P M} {t : T} {p : P}
    (hs : Sound cfg s) (hpc : s.pc t = .lockSection p false)
    (hc : searchSection cfg s t p = some s') : Sound cfg s' := by
  obtain ⟨place, L, h⟩ := hs
  have hplain : (s.pc t).Plain := by
    rw [hpc]
    exact ⟨rfl, rfl, rfl, rfl, rfl, rfl, rfl, rfl, not_false⟩
  have hfix := cfg.hash_fixed p
  unfold searchSection at hc
  split at hc
  · -- the slot is tied to the pointer
    rename_i hm
    cases hc
    have hslot := (h.pool.slot _).mpr hfix
    refine ⟨place, L, lockFound_inv h hplain hm ?_ ?_⟩
    · rw [hslot]
      trivial
    · intro u hu
      rw [hslot] at hu
      cases hu
  · rename_i hm
    cases hal : s.alloc t p with
    | none => simp only [hal, reduceCtorEq] at hc
    | some r =>
      obtain ⟨s₁, a⟩ := r
      simp only [hal] at hc
      rcases h.findFromHead_spec hal hm with ⟨m, prev, hmem, hmp, hf⟩ | ⟨hnone, hf⟩
      · -- a monitor of the chain is
        have hpm := (h.pool.mem _ hfix m).mp hmem
        have hne : m ≠ cfg.hash p := by
          rintro rfl
          exact hm hmp
        simp only [hf, alloc_release h hal, if_neg hne] at hc
        cases hc
        refine ⟨place, L, lockFound_inv h hplain hmp ?_ ?_⟩
        · rw [hpm]
          trivial
        · intro u hu
          rw [hpm] at hu
          cases hu
      · -- none is: the new monitor is linked in
        simp only [hf] at hc
        cases hc
        cases hfree : s.free with
        | nil => simp only [State.alloc, hfree, reduceCtorEq] at hal
        | cons b free =>
          have hins := insert_inv h hplain hfree hm hnone
          simp only [State.alloc, hfree, Option.some.injEq, Prod.mk.injEq] at hal
          obtain ⟨rfl, rfl⟩ := hal
          exact ⟨_, _, hins⟩

/-- **The section of a thread that has the slot.** -/
theorem absorbSection_sound [Fintype M] {cfg : Config P M} {s s' : State T P M} {t : T} {p : P}
    (hs : Sound cfg s) (hpc : s.pc t = .lockSection p true)
    (hc : absorbSection cfg s t p = some s') : Sound cfg s' := by
  obtain ⟨place, L, h⟩ := hs
  unfold absorbSection at hc
  rcases h.pool.findInChain_spec p with ⟨A, m, B, hA, hm, hf⟩ | ⟨hnone, hf⟩
  · simp only [hf] at hc
    split at hc
    · rename_i hh
      cases hc
      exact ⟨_, _, absorbTake_inv h hpc hA hm hh⟩
    · rename_i hh
      cases hc
      exact ⟨_, _, absorbQueue_inv h hpc hA hm hh⟩
  · simp only [hf] at hc
    cases hc
    exact ⟨place, L, grantSlot_sound h (by rw [hpc]; rfl) hnone⟩

end Monitor
