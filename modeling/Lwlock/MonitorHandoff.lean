import Lwlock.MonitorStep

/-!
# Waiting, unlocking and releasing keep the invariant

The steps by which the lock of a monitor changes hands, by which the waiters of
a copy are moved to the slot, and by which a monitor goes back to the pool.
-/

namespace Monitor

variable {T P M : Type} [DecidableEq T] [DecidableEq P] [DecidableEq M]

/-! ## A thread wakes up -/

omit [DecidableEq P] in
/-- **A thread that was handed a monitor returns with it**: with the one it
queued on in `lw_monitor_lock`, and with the one it was moved to in
`lw_monitor_wait`. -/
theorem wakeGrant_inv {cfg : Config P M} {s : State T P M} {place : M → Place T M}
    {L : M → List M} {t : T} {p : P} {m : M} (h : Inv cfg s place L)
    (hpc : s.pc t = .waitLock p m ∨ s.pc t = .cvWaiting p) (hw : s.woken t = true)
    (hsrc : s.src t = some m) : Inv cfg ((s.clearSrc t).grant t p m) place L := by
  obtain ⟨hP, hR, hL⟩ := h
  have hview : (s.pc t).slot = none ∧ (s.pc t).stealing = none ∧ (s.pc t).copy = none
      ∧ (s.pc t).copyHeld = none ∧ (s.pc t).releasing = none ∧ (s.pc t).waits = some p
      ∧ (s.pc t).emptied = none := by
    rcases hpc with hpc | hpc <;> rw [hpc] <;> exact ⟨rfl, rfl, rfl, rfl, rfl, rfl, rfl⟩
  have hnt : ∀ x k, (t, k) ∉ (s.lock x).queue := by
    intro x k hx
    have := (hL.queue x t k hx).2.1
    rw [hw] at this
    cases this
  simp only [State.clearSrc, State.grant, State.setOwn, State.goto]
  refine ⟨?_, ?_, ?_⟩
  · obtain ⟨h1, h2, h3, h4, h5, h6, h7, h8, h9, h10, h11, h12⟩ := hP
    constructor
    all_goals first
      | assumption
      | grind -linarith [Function.update_apply, Pc.copy, Pc.slot, Pc.releasing]
  · obtain ⟨h1, h2, h3, h4, h5, h6, h7, h8⟩ := hR
    obtain ⟨l1, l2, l3, l4, l5, l6, l7, l8, l9, l10, l11⟩ := hL
    simp only [Holds] at *
    constructor
    all_goals simp only [Holds]
    all_goals first
      | assumption
      | grind -linarith [Function.update_apply, Pc.copyHeld, Pc.slot, Pc.stealing, Place.Live]
  · obtain ⟨h1, h2, h3, h4, h5, h6, h7, h8, h9, h10, h11⟩ := hL
    constructor
    case behind => exact fun x u hx => behind_update (h9 x u hx) (hnt x)
    all_goals first
      | assumption
      | grind -linarith [Function.update_apply, Pc.waits, Pc.waitsOn, Pc.IsCv, Pc.emptied, Place.Live]

omit [DecidableEq P] [DecidableEq M] in
/-- **A thread has the copy it waited for.** -/
theorem wakeAbsorb_inv {cfg : Config P M} {s : State T P M} {place : M → Place T M}
    {L : M → List M} {t : T} {p : P} {m : M} (h : Inv cfg s place L)
    (hpc : s.pc t = .absorbWait p m) (hw : s.woken t = true) :
    Inv cfg ((s.clearSrc t).goto t (.absorbMove p m)) place L := by
  obtain ⟨hP, hR, hL⟩ := h
  have hsrc : s.src t = some m := hL.waitsOn t m (by rw [hpc]; rfl)
  have hnt : ∀ x k, (t, k) ∉ (s.lock x).queue := by
    intro x k hx
    have := (hL.queue x t k hx).2.1
    rw [hw] at this
    cases this
  simp only [State.clearSrc, State.goto]
  refine ⟨?_, ?_, ?_⟩
  · obtain ⟨h1, h2, h3, h4, h5, h6, h7, h8, h9, h10, h11, h12⟩ := hP
    constructor
    all_goals first
      | assumption
      | grind -linarith [Function.update_apply, Pc.copy, Pc.slot, Pc.releasing]
  · obtain ⟨h1, h2, h3, h4, h5, h6, h7, h8⟩ := hR
    simp only [Holds] at *
    constructor
    all_goals simp only [Holds]
    all_goals first
      | assumption
      | grind -linarith [Function.update_apply, Pc.copyHeld, Pc.slot, Pc.stealing, Place.Live]
  · obtain ⟨h1, h2, h3, h4, h5, h6, h7, h8, h9, h10, h11⟩ := hL
    have hpm := (hP.absorb m t).mpr (by rw [hpc]; rfl)
    have hp10 := hP.absorb
    constructor
    case behind => exact fun x u hx => behind_update (h9 x u hx) (hnt x)
    all_goals first
      | assumption
      | grind -linarith [Function.update_apply, Pc.waits, Pc.waitsOn, Pc.IsCv, Pc.emptied, Pc.copy, Place.Live]

/-! ## The lock changes hands -/

omit [DecidableEq T] in
/-- **What `lw_bitlock64_unlock_return_waiter` does**: the first lock waiter has
the lock, or nobody has. -/
theorem unlockReturnWaiter_cases (b : Bitlock T) :
    ((∀ u k, (u, k) ∈ b.queue → k = .cv) ∧ b.unlockReturnWaiter = (⟨none, b.queue⟩, none))
    ∨ ∃ A u B, b.queue = A ++ (u, .lock) :: B ∧ (∀ v k, (v, k) ∈ A → k = .cv)
      ∧ b.unlockReturnWaiter = (⟨some u, A ++ B⟩, some u) := by
  have hcv : ∀ k : Kind, k ≠ .lock → k = .cv := by
    intro k hk
    cases k with
    | lock => exact absurd rfl hk
    | cv => rfl
  unfold Bitlock.unlockReturnWaiter
  cases hf : b.queue.find? forLock with
  | none =>
    refine Or.inl ⟨fun u k hu => hcv k ?_, rfl⟩
    have := List.find?_eq_none.mp hf (u, k) hu
    simpa only [forLock, decide_eq_true_eq] using this
  | some e =>
    obtain ⟨he, A, B, hAB, hA⟩ := List.find?_eq_some_iff_append.mp hf
    obtain ⟨u, k⟩ := e
    obtain rfl : k = .lock := by simpa only [forLock, decide_eq_true_eq] using he
    refine Or.inr ⟨A, u, B, hAB, fun v k hv => hcv k ?_, ?_⟩
    · have := hA (v, k) hv
      simpa only [forLock, Bool.not_eq_true', decide_eq_false_iff_not] using this
    · have hA' : ∀ a ∈ A, ¬ forLock a = true := by
        intro a ha
        rw [Bool.not_eq_true, ← Bool.not_eq_true']
        exact hA a ha
      rw [hAB, List.eraseP_append_right _ hA', List.eraseP_cons_of_pos he]

omit [DecidableEq P] in
/-- **A lock is given up** with nobody in line for it. -/
theorem drop_inv {cfg : Config P M} {s : State T P M} {place : M → Place T M} {L : M → List M}
    {t : T} {p : P} {m : M} (h : Inv cfg s place L) (hpc : s.pc t = .idle)
    (hown : s.own t m = some p) (hq : ∀ u k, (u, k) ∈ (s.lock m).queue → k = .cv) :
    Inv cfg ((s.setOwn t m none).setLock m ⟨none, (s.lock m).queue⟩) place L := by
  obtain ⟨hP, hR, hL⟩ := h
  have hsrc := hL.waits t (show (s.pc t).waits = none by rw [hpc]; rfl)
  simp only [State.setLock, State.setOwn]
  refine ⟨hP.congr rfl rfl rfl rfl, ?_, ?_⟩
  · obtain ⟨h1, h2, h3, h4, h5, h6, h7, h8⟩ := hR
    simp only [Holds] at *
    constructor
    all_goals simp only [Holds]
    all_goals first
      | assumption
      | grind -linarith [Function.update_apply, Pc.copyHeld, Pc.slot, Pc.stealing, Place.Live]
  · obtain ⟨h1, h2, h3, h4, h5, h6, h7, h8, h9, h10, h11⟩ := hL
    have hq' : ∀ x, (Function.update s.lock m ⟨none, (s.lock m).queue⟩ x).queue
        = (s.lock x).queue := by
      grind -linarith [Function.update_apply]
    constructor
    all_goals simp only [hq']
    all_goals first
      | assumption
      | grind -linarith [Function.update_apply]

omit [DecidableEq T] [DecidableEq P] [DecidableEq M] in
/-- A thread that absorbs a copy waits on it or does not wait. -/
theorem Pc.waitsOn_of_copy {c : Pc P M} {m : M} (h : c.copy = some m) :
    c.waits = none ∨ c.waitsOn = some m := by
  unfold Pc.copy at h
  split at h
  · exact Or.inr h
  · exact Or.inl rfl
  · exact Or.inl rfl
  · cases h

omit [DecidableEq P] in
/-- **A lock is handed over** to the first in line. -/
theorem pass_inv {cfg : Config P M} {s : State T P M} {place : M → Place T M} {L : M → List M}
    {t u : T} {p : P} {m : M} {A B : List (T × Kind)} (h : Inv cfg s place L)
    (hpc : s.pc t = .idle) (hown : s.own t m = some p)
    (hq : (s.lock m).queue = A ++ (u, .lock) :: B) (hA : ∀ v k, (v, k) ∈ A → k = .cv) :
    Inv cfg (((s.setOwn t m none).setLock m ⟨some u, A ++ B⟩).wake (some u)) place L := by
  obtain ⟨hP, hR, hL⟩ := h
  have hsrc := hL.waits t (show (s.pc t).waits = none by rw [hpc]; rfl)
  have hnt := hL.not_mem (show (s.pc t).waits = none by rw [hpc]; rfl)
  have hu := hL.queue m u .lock (by rw [hq]; simp)
  have hut : u ≠ t := by
    rintro rfl
    exact hnt m .lock (by rw [hq]; simp)
  have hsub : (A ++ B).Sublist (s.lock m).queue := by
    rw [hq]
    exact List.Sublist.append_left (List.sublist_cons_self _ _) _
  have hnd := hL.nodup m
  have hndq : ∀ k, (u, k) ∉ A ++ B := by
    intro k hk
    rw [hq, List.map_append, List.map_cons] at hnd
    have hk' : u ∈ A.map Prod.fst ++ B.map Prod.fst := by
      rw [← List.map_append]
      exact List.mem_map.mpr ⟨(u, k), hk, rfl⟩
    exact (List.nodup_cons.mp (List.nodup_middle.mp hnd)).1 hk'
  simp only [State.setLock, State.setOwn, State.wake]
  refine ⟨hP.congr rfl rfl rfl rfl, ?_, ?_⟩
  · obtain ⟨h1, h2, h3, h4, h5, h6, h7, h8⟩ := hR
    simp only [Holds] at *
    constructor
    all_goals simp only [Holds]
    all_goals first
      | assumption
      | grind -linarith [Function.update_apply, Pc.copyHeld, Pc.slot, Pc.stealing, Place.Live]
  · obtain ⟨h1, h2, h3, h4, h5, h6, h7, h8, h9, h10, h11⟩ := hL
    constructor
    case behind =>
      intro x v hx
      dsimp only
      by_cases hxm : x = m
      · subst hxm
        rw [Function.update_self]
        exact (h9 x v hx).sublist hsub
      · rw [Function.update_of_ne hxm]
        exact h9 x v hx
    case nodup =>
      intro x
      dsimp only
      by_cases hxm : x = m
      · subst hxm
        rw [Function.update_self]
        exact (h7 x).sublist (hsub.map _)
      · rw [Function.update_of_ne hxm]
        exact h7 x
    case settled =>
      intro x v hx hcond w k hw
      dsimp only at hcond hw
      by_cases hxm : x = m
      · subst hxm
        rw [Function.update_self] at hw
        by_cases hvu : v = u
        · -- the thread that absorbs has its turn: nobody of `lw_monitor_lock` is left
          subst hvu
          rcases List.mem_append.mp hw with hw' | hw'
          · exact (h6 x w k (hsub.subset hw)).2.2 (hA w k hw')
          · have hpair := h9 x v hx
            rw [hq] at hpair
            exact List.rel_of_pairwise_cons (List.pairwise_append.mp hpair).2.1 hw' rfl
        · rw [Function.update_of_ne hvu] at hcond
          exact h10 x v hx hcond w k (hsub.subset hw)
      · rw [Function.update_of_ne hxm] at hw
        have hvu : v ≠ u := by
          rintro rfl
          rcases Pc.waitsOn_of_copy ((hP.absorb x v).mp hx) with hn | hon
          · rw [(h3 v hn).1] at hu
            cases hu.1
          · rw [h4 v x hon] at hu
            exact hxm (Option.some.inj hu.1)
        rw [Function.update_of_ne hvu] at hcond
        exact h10 x v hx hcond w k hw
    case queued =>
      intro w x hw hwk
      dsimp only at hw hwk ⊢
      have hwu : w ≠ u := by
        rintro rfl
        rw [Function.update_self] at hwk
        cases hwk
      rw [Function.update_of_ne hwu] at hwk
      have hmem := h5 w x hw hwk
      by_cases hxm : x = m
      · subst hxm
        rw [hq] at hmem
        grind -linarith [Function.update_self]
      · rw [Function.update_of_ne hxm]
        exact hmem
    all_goals first
      | assumption
      | grind -linarith [Function.update_apply]

omit [DecidableEq P] in
/-- **`lw_bitlock64_unlock_return_waiter`** by the thread that owns the monitor. -/
theorem handOff_inv {cfg : Config P M} {s : State T P M} {place : M → Place T M} {L : M → List M}
    {t : T} {p : P} {m : M} (h : Inv cfg s place L) (hpc : s.pc t = .idle)
    (hown : s.own t m = some p) : Inv cfg ((s.setOwn t m none).handOff m) place L := by
  unfold State.handOff
  rcases unlockReturnWaiter_cases (s.lock m) with ⟨hq, heq⟩ | ⟨A, u, B, hq, hA, heq⟩
  · rw [show (s.setOwn t m none).lock m = s.lock m from rfl, heq]
    exact drop_inv h hpc hown hq
  · rw [show (s.setOwn t m none).lock m = s.lock m from rfl, heq]
    exact pass_inv h hpc hown hq hA

omit [DecidableEq P] in
/-- **A thread queues for the condition** of a monitor it has given up. -/
theorem cvQueue_inv {cfg : Config P M} {s : State T P M} {place : M → Place T M} {L : M → List M}
    {t : T} {p : P} {m : M} (h : Inv cfg s place L) (hpc : s.pc t = .idle)
    (hm : s.ptr m = some p) (hl : (place m).Live) (hemp : ∀ u, (s.pc u).emptied ≠ some m) :
    Inv cfg ((s.enqueue t m .cv).goto t (.cvWaiting p)) place L := by
  obtain ⟨hP, hR, hL⟩ := h
  have hw : (s.pc t).waits = none := by rw [hpc]; rfl
  have hnt := hL.not_mem hw
  have hsrc := hL.waits t hw
  simp only [State.enqueue, State.setLock, State.goto]
  refine ⟨?_, ?_, ?_⟩
  · obtain ⟨h1, h2, h3, h4, h5, h6, h7, h8, h9, h10, h11, h12⟩ := hP
    constructor
    all_goals first
      | assumption
      | grind -linarith [Function.update_apply, Pc.copy, Pc.slot, Pc.releasing]
  · obtain ⟨h1, h2, h3, h4, h5, h6, h7, h8⟩ := hR
    have hq : ∀ x, (Function.update s.lock m
        { s.lock m with queue := (s.lock m).queue ++ [(t, .cv)] } x).holder
        = (s.lock x).holder := by
      grind -linarith [Function.update_apply]
    simp only [Holds] at *
    constructor
    all_goals simp only [Holds, hq]
    all_goals first
      | assumption
      | grind -linarith [Function.update_apply, Pc.copyHeld, Pc.slot, Pc.stealing, Place.Live]
  · obtain ⟨h1, h2, h3, h4, h5, h6, h7, h8, h9, h10, h11⟩ := hL
    have hfst : ∀ x, t ∉ (s.lock x).queue.map Prod.fst := fun x => not_mem_fst (hnt x)
    constructor
    case behind =>
      intro x u hx
      dsimp only
      have hold := behind_update (c := .cvWaiting p) (h9 x u hx) (hnt x)
      by_cases hxm : x = m
      · subst hxm
        rw [Function.update_self, List.pairwise_append]
        refine ⟨hold, List.pairwise_singleton _ _, ?_⟩
        rintro a - b hb -
        rw [List.mem_singleton.mp hb, Function.update_self]
        trivial
      · rw [Function.update_of_ne hxm]
        exact hold
    all_goals first
      | assumption
      | grind -linarith [Function.update_apply, Pc.waits, Pc.waitsOn, Pc.IsCv, Pc.emptied, Place.Live]

/-! ## Signals -/

omit [DecidableEq T] in
/-- A signal leaves everybody where they stand. -/
theorem signalFirst_fst (q : List (T × Kind)) :
    (signalFirst q).map Prod.fst = q.map Prod.fst := by
  induction q with
  | nil => rfl
  | cons e q ih =>
    obtain ⟨u, k⟩ := e
    cases k with
    | lock => rw [signalFirst, List.map_cons, ih, List.map_cons]
    | cv => rfl

omit [DecidableEq P] in
/-- **A signal or a broadcast** changes what the waiters of a held monitor wait
for, and nothing else. -/
theorem signal_inv {cfg : Config P M} {s : State T P M} {place : M → Place T M} {L : M → List M}
    {m : M} {q : List (T × Kind)} (h : Inv cfg s place L) (hh : (s.lock m).holder ≠ none)
    (hq : q.map Prod.fst = (s.lock m).queue.map Prod.fst)
    (hk : ∀ u, (u, .cv) ∈ q → (u, .cv) ∈ (s.lock m).queue) :
    Inv cfg (s.setLock m { s.lock m with queue := q }) place L := by
  obtain ⟨hP, hR, hL⟩ := h
  have hmem : ∀ u k, (u, k) ∈ q → ∃ k', (u, k') ∈ (s.lock m).queue := by
    intro u k hu
    have : u ∈ (s.lock m).queue.map Prod.fst := hq ▸ List.mem_map.mpr ⟨(u, k), hu, rfl⟩
    obtain ⟨⟨v, k'⟩, hv, rfl⟩ := List.mem_map.mp this
    exact ⟨k', hv⟩
  have hnil : (s.lock m).queue = [] → q = [] := by
    intro h0
    rw [h0] at hq
    exact List.map_eq_nil_iff.mp hq
  simp only [State.setLock]
  refine ⟨hP.congr rfl rfl rfl rfl, ?_, ?_⟩
  · obtain ⟨h1, h2, h3, h4, h5, h6, h7, h8⟩ := hR
    have hq' : ∀ x, (Function.update s.lock m { s.lock m with queue := q } x).holder
        = (s.lock x).holder := by
      grind -linarith [Function.update_apply]
    simp only [Holds] at *
    constructor
    all_goals simp only [Holds, hq']
    all_goals assumption
  · obtain ⟨h1, h2, h3, h4, h5, h6, h7, h8, h9, h10, h11⟩ := hL
    constructor
    case behind =>
      intro x u hx
      dsimp only
      by_cases hxm : x = m
      · subst hxm
        rw [Function.update_self]
        have hold := h9 x u hx
        have hold' : ((s.lock x).queue.map Prod.fst).Pairwise fun a b => a = u → (s.pc b).IsCv :=
          List.pairwise_map.mpr hold
        rw [← hq] at hold'
        exact List.pairwise_map.mp hold'
      · rw [Function.update_of_ne hxm]
        exact h9 x u hx
    all_goals first
      | assumption
      | grind -linarith [Function.update_apply]

/-! ## Moving the users of a copy -/

omit [DecidableEq P] in
/-- **`monitor_move_users`**: only threads in `lw_monitor_wait` are left on the
copy, and they learn of the slot when they wake up. -/
theorem moveUsers_inv {cfg : Config P M} {s : State T P M} {place : M → Place T M}
    {L : M → List M} {t : T} {p : P} {m : M} (h : Inv cfg s place L)
    (hpc : s.pc t = .absorbMove p m) :
    Inv cfg ((moveUsers s m (cfg.hash p)).goto t (.absorbRelease p m)) place L := by
  obtain ⟨hP, hR, hL⟩ := h
  have hw : (s.pc t).waits = none := by rw [hpc]; rfl
  have hnt := hL.not_mem hw
  have hsrc := hL.waits t hw
  have hpm : place m = .absorb t := (hP.absorb m t).mpr (by rw [hpc]; rfl)
  have hph : place (cfg.hash p) = .slot := (hP.slot _).mpr (cfg.hash_fixed p)
  have hne : cfg.hash p ≠ m := by
    intro heq
    rw [heq, hpm] at hph
    cases hph
  have hcv : ∀ u k, (u, k) ∈ (s.lock m).queue → (s.pc u).IsCv :=
    hL.settled m t hpm (Or.inl hw)
  have hmp : s.ptr m = s.ptr (cfg.hash p) := by
    have h1 := (hP.absorbed m t hpm).2
    have h2 := hR.slot t p (by rw [hpc]; rfl)
    rw [h1, h2, hpc]
    rfl
  have hhold : (s.lock (cfg.hash p)).holder = some t :=
    (hR.holder _ t).mpr (Or.inr (Or.inl (by rw [hpc]; rfl)))
  have hcvon : ∀ u, (s.pc u).IsCv → (s.pc u).waitsOn = none ∧ (s.pc u).waits ≠ none := by
    intro u hu
    cases hc : s.pc u <;> rw [hc] at hu <;>
      first | exact ⟨rfl, Option.some_ne_none _⟩ | exact hu.elim
  simp only [moveUsers, State.goto]
  refine ⟨?_, ?_, ?_⟩
  · obtain ⟨h1, h2, h3, h4, h5, h6, h7, h8, h9, h10, h11, h12⟩ := hP
    constructor
    all_goals first
      | assumption
      | grind -linarith [Function.update_apply, Pc.copy, Pc.slot, Pc.releasing]
  · obtain ⟨h1, h2, h3, h4, h5, h6, h7, h8⟩ := hR
    have hq : ∀ x, (Function.update (Function.update s.lock (cfg.hash p)
        { s.lock (cfg.hash p) with
          queue := (s.lock (cfg.hash p)).queue ++ (s.lock m).queue }) m
        { s.lock m with queue := [] } x).holder = (s.lock x).holder := by
      grind -linarith [Function.update_apply]
    have hmoved : ∀ u, s.woken u = true → u ∉ (s.lock m).queue.map Prod.fst := by
      intro u hu hmem
      obtain ⟨⟨v, k⟩, hv, rfl⟩ := List.mem_map.mp hmem
      have := (hL.queue m v k hv).2.1
      rw [hu] at this
      cases this
    simp only [Holds] at *
    constructor
    all_goals simp only [Holds, hq]
    all_goals first
      | assumption
      | grind -linarith [Function.update_apply, Pc.copyHeld, Pc.slot, Pc.stealing, Place.Live]
  · obtain ⟨h1, h2, h3, h4, h5, h6, h7, h8, h9, h10, h11⟩ := hL
    have hmoved : ∀ u, u ∈ (s.lock m).queue.map Prod.fst →
        s.src u = some m ∧ s.woken u = false ∧ (s.pc u).IsCv ∧ u ≠ t := by
      intro u hu
      obtain ⟨⟨v, k⟩, hv, rfl⟩ := List.mem_map.mp hu
      have hv' := h6 m v k hv
      exact ⟨hv'.1, hv'.2.1, hcv v k hv, fun hvt => hnt m k (hvt ▸ hv)⟩
    have hqueue : ∀ x, (Function.update (Function.update s.lock (cfg.hash p)
        { s.lock (cfg.hash p) with
          queue := (s.lock (cfg.hash p)).queue ++ (s.lock m).queue }) m
        { s.lock m with queue := [] } x).queue = if x = m then [] else if x = cfg.hash p then
          (s.lock (cfg.hash p)).queue ++ (s.lock m).queue else (s.lock x).queue := by
      grind -linarith [Function.update_apply]
    have hholder : ∀ x, (Function.update (Function.update s.lock (cfg.hash p)
        { s.lock (cfg.hash p) with
          queue := (s.lock (cfg.hash p)).queue ++ (s.lock m).queue }) m
        { s.lock m with queue := [] } x).holder = (s.lock x).holder := by
      grind -linarith [Function.update_apply]
    have hp10 := hP.absorb
    have hempty : ∀ v x, (s.pc v).emptied = some x → x ≠ cfg.hash p := by
      rintro v x hv rfl
      have := (hp10 _ v).mpr (Pc.copy_of_emptied hv)
      rw [hph] at this
      cases this
    constructor
    all_goals simp only [hqueue, hholder]
    case behind =>
      intro x u hx
      by_cases hxm : x = m
      · rw [if_pos hxm]
        exact List.Pairwise.nil
      · have hxh : x ≠ cfg.hash p := by
          rintro rfl
          rw [hph] at hx
          cases hx
        rw [if_neg hxm, if_neg hxh]
        exact behind_update (h9 x u hx) (hnt x)
    case nodup =>
      intro x
      split
      · exact List.nodup_nil
      · split
        · rw [List.map_append, List.nodup_append]
          refine ⟨h7 _, h7 _, ?_⟩
          rintro a ha b hb rfl
          obtain ⟨⟨v, k⟩, hv, rfl⟩ := List.mem_map.mp ha
          have hv' := (h6 _ v k hv).1
          rw [(hmoved v hb).1] at hv'
          exact hne (Option.some.inj hv').symm
        · exact h7 x
    all_goals first
      | assumption
      | grind -linarith [Function.update_apply, Pc.waits, Pc.waitsOn, Pc.IsCv, Pc.emptied, Place.Live]

end Monitor
