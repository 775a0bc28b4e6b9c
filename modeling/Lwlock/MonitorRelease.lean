import Lwlock.MonitorHandoff

/-!
# Releasing a monitor keeps the invariant

A monitor goes back to the pool in two ways: the thread that absorbed a copy
releases it, and the last user of a float monitor does. The first one clears the
`next` word of what it takes out of the chain; the second one does not, and
that is the one way for a check of `lw_monitor_destroy` to fail.
-/

namespace Monitor

variable {T P M : Type} [DecidableEq T] [DecidableEq P] [DecidableEq M]

omit [DecidableEq P] in
/-- **`lw_monitor_release`** of a monitor on which nobody waits: it aborts if the
`next` word is set. -/
theorem release_eq {s : State T P M} {m : M} (hq : (s.lock m).queue = []) :
    s.release m = if s.next m = none then some { s with
        ptr := Function.update s.ptr m none
        lock := Function.update s.lock m ⟨none, []⟩
        free := m :: s.free }
      else none := by
  have hret : (s.lock m).unlockReturnWaiter = (⟨none, []⟩, none) := by
    unfold Bitlock.unlockReturnWaiter
    rw [hq]
    rfl
  simp only [State.release, State.handOff, hret, State.wake, State.setLock, Function.update_self,
    Bitlock.cvBit, Bitlock.waitBit, List.any_nil, Option.isSome_none, Bool.or_false,
    Bool.false_or]
  cases s.next m with
  | none => rfl
  | some x => rfl

omit [DecidableEq P] in
/-- **A thread releases the copy it emptied** and returns with the slot. -/
theorem absorbRelease_inv {cfg : Config P M} {s : State T P M} {place : M → Place T M}
    {L : M → List M} {t : T} {p : P} {m : M} (h : Inv cfg s place L)
    (hpc : s.pc t = .absorbRelease p m) :
    Inv cfg ({ s with
        ptr := Function.update s.ptr m none
        lock := Function.update s.lock m ⟨none, []⟩
        free := m :: s.free }.grant t p (cfg.hash p))
      (Function.update place m .free) L := by
  have hfix := cfg.hash_fixed p
  obtain ⟨hP, hR, hL⟩ := h
  have hw : (s.pc t).waits = none := by rw [hpc]; rfl
  have hnt := hL.not_mem hw
  have hsrc := hL.waits t hw
  have hpm : place m = .absorb t := (hP.absorb m t).mpr (by rw [hpc]; rfl)
  have hslot := (hP.slot _).mpr hfix
  have hq : (s.lock m).queue = [] := hL.emptied t m (by rw [hpc]; rfl)
  have hheld : (s.lock m).holder = some t :=
    (hR.holder m t).mpr (Or.inr (Or.inr (Or.inl (by rw [hpc]; rfl))))
  have hsm : ∀ u, s.src u ≠ some m := by
    intro u hu
    cases hwk : s.woken u with
    | true =>
      have hu' := (hR.holder m u).mpr (Or.inr (Or.inr (Or.inr ⟨hwk, hu⟩)))
      obtain rfl : t = u := Option.some.inj (hheld.symm.trans hu')
      rw [hsrc.1] at hu
      cases hu
    | false =>
      have := hL.queued u m hu hwk
      rw [hq] at this
      cases this
  have hown : ∀ u, s.own u m = none := by
    intro u
    by_contra hu
    have hu' := (hR.holder m u).mpr (Or.inl hu)
    obtain rfl : t = u := Option.some.inj (hheld.symm.trans hu')
    exact hu (hR.copy_own t m (by rw [hpc]; rfl))
  have hsl : s.ptr (cfg.hash p) = some p := hR.slot t p (by rw [hpc]; rfl)
  have hnext := (hP.absorbed m t hpm).1
  simp only [State.grant, State.setOwn, State.goto]
  refine ⟨?_, ?_, ?_⟩
  · obtain ⟨h1, h2, h3, h4, h5, h6, h7, h8, h9, h10, h11, h12⟩ := hP
    constructor
    all_goals first
      | assumption
      | grind -linarith [Function.update_apply, Pc.copy, Pc.slot, Pc.releasing]
  · obtain ⟨h1, h2, h3, h4, h5, h6, h7, h8⟩ := hR
    obtain ⟨p1, p2, p3, p4, p5, p6, p7, p8, p9, p10, p11, p12⟩ := hP
    simp only [Holds] at *
    constructor
    all_goals simp only [Holds]
    all_goals first
      | assumption
      | grind -linarith [Function.update_apply, Pc.copyHeld, Pc.slot, Pc.stealing, Place.Live]
  · refine hL.change (t := t) (c := .idle) hw rfl ⟨rfl, rfl, rfl⟩ rfl rfl (fun x => ?_)
      (fun x hx => ?_) (fun u x hu => ?_) (fun x hx => ?_) fun x u hx => ?_
    · grind -linarith [Function.update_apply]
    · dsimp only at hx
      by_cases hxm : x = m
      · exact .inr (hxm ▸ hq)
      · rw [Function.update_of_ne hxm] at hx
        exact .inl hx
    · have hxm : x ≠ m := fun hxm => hsm u (hxm ▸ hu)
      dsimp only
      rw [Function.update_of_ne hxm, Function.update_of_ne hxm]
      exact ⟨rfl, (hL.src u x hu).2⟩
    · by_cases hxm : x = m
      · exact hxm ▸ hq
      · rw [Function.update_of_ne hxm] at hx
        exact hL.idle x hx
    · grind -linarith [Function.update_apply]

/-! ## The last user of a float monitor -/

omit [DecidableEq P] in
/-- **A monitor without users is taken out of its chain** by a thread that goes
on to release it. -/
theorem popRelease_inv {cfg : Config P M} {s : State T P M} {place : M → Place T M}
    {L : M → List M} {t : T} {p : P} {m : M} {A B : List M} (h : Inv cfg s place L)
    (hpc : (s.pc t).Plain) (hA : L (cfg.hash p) = A ++ m :: B)
    (hh : (s.lock m).holder = none) (hq : (s.lock m).queue = []) :
    Inv cfg ({ s with
        next := Function.update s.next (A.getLastD (cfg.hash p)) (s.next m) }.goto t
        (.unlockRelease m))
      (Function.update place m (.release t)) (Function.update L (cfg.hash p) (A ++ B)) := by
  have hfix := cfg.hash_fixed p
  obtain ⟨hP, hR, hL⟩ := h
  obtain ⟨c1, c2, c3, c4, c5, c6, c7, c8, c9⟩ := hpc
  have hnt := hL.not_mem c7
  have hsrc := hL.waits t c7
  have hpm : place m = .chain (cfg.hash p) := (hP.mem _ hfix m).mp (by rw [hA]; simp)
  obtain ⟨hch, hmem⟩ := hP.cut hfix hA
  have hprev := hP.place_last hfix (A := A) (by rw [hA]; simp)
  have hslot := (hP.slot _).mpr hfix
  have hsm : ∀ u, s.src u ≠ some m := no_users hR hL hh (by rw [Bitlock.cvBit, hq]; rfl)
  have hno : ∀ u, ¬ Holds cfg s u m := by
    intro u hu
    have := (hR.holder m u).mpr hu
    rw [hh] at this
    cases this
  generalize A.getLastD (cfg.hash p) = b at *
  simp only [State.goto]
  refine ⟨?_, ?_, ?_⟩
  · obtain ⟨h1, h2, h3, h4, h5, h6, h7, h8, h9, h10, h11, h12⟩ := hP
    constructor
    case chain => exact hch
    all_goals first
      | assumption
      | grind -linarith [Function.update_apply, Pc.copy, Pc.slot, Pc.releasing]
  · obtain ⟨h1, h2, h3, h4, h5, h6, h7, h8⟩ := hR
    obtain ⟨p1, p2, p3, p4, p5, p6, p7, p8, p9, p10, p11, p12⟩ := hP
    simp only [Holds] at *
    constructor
    all_goals simp only [Holds]
    all_goals first
      | assumption
      | grind -linarith [Function.update_apply, Pc.copyHeld, Pc.slot, Pc.stealing, Place.Live]
  · refine hL.change (t := t) (c := .unlockRelease m) c7 rfl ⟨rfl, rfl, rfl⟩ rfl rfl (fun _ => rfl)
      (fun _ => .inl) (fun u x hu => ?_) (fun x hx => ?_) fun x u hx => ?_
    · have hxm : x ≠ m := fun hxm => hsm u (hxm ▸ hu)
      rw [Function.update_of_ne hxm]
      exact ⟨rfl, (hL.src u x hu).2⟩
    · by_cases hxm : x = m
      · exact hxm ▸ hq
      · rw [Function.update_of_ne hxm] at hx
        exact hL.idle x hx
    · grind -linarith [Function.update_apply]

omit [DecidableEq P] in
/-- **The monitor is pushed on `free_monitors`**, or a check fails and it is
lost. -/
theorem pushFree_inv {cfg : Config P M} {s : State T P M} {place : M → Place T M}
    {L : M → List M} {t : T} {m : M} (h : Inv cfg s place L) (hpc : s.pc t = .unlockRelease m)
    (hn : s.next m = none) :
    Inv cfg ({ s with
        ptr := Function.update s.ptr m none
        lock := Function.update s.lock m ⟨none, []⟩
        free := m :: s.free }.goto t .idle) (Function.update place m .free) L := by
  obtain ⟨hP, hR, hL⟩ := h
  have hw : (s.pc t).waits = none := by rw [hpc]; rfl
  have hnt := hL.not_mem hw
  have hsrc := hL.waits t hw
  have hpm : place m = .release t := (hP.release m t).mpr (by rw [hpc]; rfl)
  have hnl : ¬ (place m).Live := by rw [hpm]; exact not_false
  have hq := hL.idle m hnl
  have hh := hR.idle m hnl
  have hlock : Function.update s.lock m ⟨none, []⟩ = s.lock := by
    refine Function.update_eq_self_iff.mpr ?_
    cases hb : s.lock m
    rw [hb] at hq hh
    simp only at hq hh
    rw [hq, hh]
  simp only [State.goto, hlock]
  refine ⟨?_, ?_, ?_⟩
  · obtain ⟨h1, h2, h3, h4, h5, h6, h7, h8, h9, h10, h11, h12⟩ := hP
    constructor
    all_goals first
      | assumption
      | grind -linarith [Function.update_apply, Pc.copy, Pc.slot, Pc.releasing]
  · obtain ⟨h1, h2, h3, h4, h5, h6, h7, h8⟩ := hR
    obtain ⟨p1, p2, p3, p4, p5, p6, p7, p8, p9, p10, p11, p12⟩ := hP
    simp only [Holds] at *
    constructor
    all_goals simp only [Holds]
    all_goals first
      | assumption
      | grind -linarith [Function.update_apply, Pc.copyHeld, Pc.slot, Pc.stealing, Place.Live]
  · obtain ⟨h1, h2, h3, h4, h5, h6, h7, h8, h9, h10, h11⟩ := hL
    constructor
    case behind =>
      intro x u hx
      refine behind_update (h9 x u ?_) (hnt x)
      grind -linarith [Function.update_apply]
    all_goals first
      | assumption
      | grind -linarith [Function.update_apply, Pc.waits, Pc.waitsOn, Pc.IsCv, Pc.emptied, Place.Live]

omit [DecidableEq P] in
/-- **A check of `lw_monitor_destroy` fails**: the monitor is in no chain and not
in the pool. -/
theorem abort_inv {cfg : Config P M} {s : State T P M} {place : M → Place T M} {L : M → List M}
    {t : T} {m : M} (h : Inv cfg s place L) (hpc : s.pc t = .unlockRelease m) :
    Inv cfg (s.goto t .aborted) (Function.update place m .lost) L := by
  obtain ⟨hP, hR, hL⟩ := h
  have hw : (s.pc t).waits = none := by rw [hpc]; rfl
  have hnt := hL.not_mem hw
  have hsrc := hL.waits t hw
  have hpm : place m = .release t := (hP.release m t).mpr (by rw [hpc]; rfl)
  simp only [State.goto]
  refine ⟨?_, ?_, ?_⟩
  · obtain ⟨h1, h2, h3, h4, h5, h6, h7, h8, h9, h10, h11, h12⟩ := hP
    constructor
    all_goals first
      | assumption
      | grind -linarith [Function.update_apply, Pc.copy, Pc.slot, Pc.releasing]
  · obtain ⟨h1, h2, h3, h4, h5, h6, h7, h8⟩ := hR
    simp only [Holds] at *
    constructor
    all_goals simp only [Holds]
    all_goals first
      | assumption
      | grind -linarith [Function.update_apply, Pc.copyHeld, Pc.slot, Pc.stealing, Place.Live]
  · obtain ⟨h1, h2, h3, h4, h5, h6, h7, h8, h9, h10, h11⟩ := hL
    constructor
    case behind =>
      intro x u hx
      refine behind_update (h9 x u ?_) (hnt x)
      grind -linarith [Function.update_apply]
    all_goals first
      | assumption
      | grind -linarith [Function.update_apply, Pc.waits, Pc.waitsOn, Pc.IsCv, Pc.emptied, Place.Live]

end Monitor
