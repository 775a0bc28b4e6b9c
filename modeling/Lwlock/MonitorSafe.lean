import Lwlock.MonitorRelease

/-!
# Monitors exclude each other per pointer

Every call and every step of a thread keeps the invariant, so it holds in every
state of every run, whatever the pointers hash to. What follows is mutual
exclusion per pointer, and that the id a thread was given names the monitor
whose lock it has.
-/

namespace Monitor

variable {T P M : Type} [DecidableEq T] [DecidableEq P] [DecidableEq M]

/-! ## Calls -/

omit [DecidableEq P] in
@[simp] theorem handOff_pc (s : State T P M) (m : M) : (s.handOff m).pc = s.pc := by
  unfold State.handOff
  cases (s.lock m).unlockReturnWaiter.2 <;> rfl

omit [DecidableEq P] in
@[simp] theorem handOff_ptr (s : State T P M) (m : M) : (s.handOff m).ptr = s.ptr := by
  unfold State.handOff
  cases (s.lock m).unlockReturnWaiter.2 <;> rfl

omit [DecidableEq P] in
@[simp] theorem handOff_next (s : State T P M) (m : M) : (s.handOff m).next = s.next := by
  unfold State.handOff
  cases (s.lock m).unlockReturnWaiter.2 <;> rfl

omit [DecidableEq P] in
@[simp] theorem handOff_free (s : State T P M) (m : M) : (s.handOff m).free = s.free := by
  unfold State.handOff
  cases (s.lock m).unlockReturnWaiter.2 <;> rfl

omit [DecidableEq P] in
/-- **`lw_monitor_unlock`** up to its section. -/
theorem unlock_sound {cfg : Config P M} {s : State T P M} {t : T} {p : P} {m : M}
    (hs : Sound cfg s) (hpc : s.pc t = .idle) (hown : s.own t m = some p) :
    Sound cfg (unlock cfg s t p m) := by
  obtain ⟨place, L, h⟩ := hs
  have hoff : Sound cfg ((s.setOwn t m none).handOff m) := ⟨place, L, handOff_inv h hpc hown⟩
  unfold unlock
  dsimp only
  split
  · exact hoff
  · refine hoff.goto ?_
    rw [handOff_pc, show (s.setOwn t m none).pc t = .idle from hpc]
    rfl

omit [DecidableEq P] in
/-- **`lw_monitor_wait`** up to its sleep. -/
theorem wait_sound {cfg : Config P M} {s : State T P M} {t : T} {p : P} {m : M}
    (hs : Sound cfg s) (hpc : s.pc t = .idle) (hown : s.own t m = some p) :
    Sound cfg ((((s.setOwn t m none).handOff m).enqueue t m .cv).goto t (.cvWaiting p)) := by
  obtain ⟨place, L, h⟩ := hs
  obtain ⟨hm, hl⟩ := h.rights.own t m p hown
  have hheld : (s.lock m).holder = some t :=
    (h.rights.holder m t).mpr (Or.inl (by rw [hown]; exact Option.some_ne_none p))
  refine ⟨place, L, cvQueue_inv (handOff_inv h hpc hown) ?_ ?_ hl ?_⟩
  · rw [handOff_pc]
    exact hpc
  · rw [handOff_ptr]
    exact hm
  · -- a copy that was emptied is held by the thread that absorbs it
    intro u hu
    rw [handOff_pc] at hu
    change (s.pc u).emptied = some m at hu
    have hcopy : (s.pc u).copyHeld = some m := by
      cases hc : s.pc u <;> rw [hc] at hu <;> first | exact hu | cases hu
    have := (h.rights.holder m u).mpr (Or.inr (Or.inr (Or.inl hcopy)))
    obtain rfl : t = u := Option.some.inj (hheld.symm.trans this)
    rw [hpc] at hu
    cases hu

omit [DecidableEq T] in
/-- A signal makes nobody wait for the condition. -/
theorem mem_of_signalFirst {q : List (T × Kind)} {u : T} (h : (u, .cv) ∈ signalFirst q) :
    (u, .cv) ∈ q := by
  induction q with
  | nil => exact h
  | cons e q ih =>
    obtain ⟨v, k⟩ := e
    cases k with
    | lock =>
      rcases List.mem_cons.mp h with heq | h
      · cases heq
      · exact List.mem_cons_of_mem _ (ih h)
    | cv =>
      rcases List.mem_cons.mp h with heq | h
      · cases heq
      · exact List.mem_cons_of_mem _ h

/-- **Every call keeps the invariant.** -/
theorem call_sound {cfg : Config P M} {s s' : State T P M} {t : T} {op : Op P M}
    (hs : Sound cfg s) (hc : call cfg s t op = some s') : Sound cfg s' := by
  have hheld : ∀ m p, s.own t m = some p → (s.lock m).holder ≠ none := by
    intro m p hown hn
    obtain ⟨place, L, h⟩ := hs
    have := (h.rights.holder m t).mpr (Or.inl (by rw [hown]; exact Option.some_ne_none p))
    rw [hn] at this
    cases this
  unfold call at hc
  split at hc
  · rename_i hpc
    cases hc
    exact hs.goto (by rw [hpc]; rfl)
  · rename_i hpc
    split at hc <;> cases hc
    rename_i hown
    exact unlock_sound hs hpc hown
  · rename_i hpc
    split at hc <;> cases hc
    rename_i hown
    exact wait_sound hs hpc hown
  · split at hc <;> cases hc
    rename_i hown
    obtain ⟨place, L, h⟩ := hs
    exact ⟨place, L, signal_inv h (hheld _ _ hown) (signalFirst_fst _)
      fun u hu => mem_of_signalFirst hu⟩
  · split at hc <;> cases hc
    rename_i hown
    obtain ⟨place, L, h⟩ := hs
    refine ⟨place, L, signal_inv h (hheld _ _ hown) ?_ fun u hu => ?_⟩
    · rw [List.map_map]
      rfl
    · obtain ⟨e, -, he⟩ := List.mem_map.mp hu
      cases he
  · cases hc

/-! ## Steps -/

/-- **The section of `lw_monitor_unlock`.** -/
theorem freeSection_sound [Fintype M] {cfg : Config P M} {s s' : State T P M} {t : T} {p : P}
    {m : M} (hs : Sound cfg s) (hpc : s.pc t = .unlockSection p m)
    (hc : freeSection cfg s t p m = some s') : Sound cfg s' := by
  obtain ⟨place, L, h⟩ := hs
  have hplain : (s.pc t).Plain := by
    rw [hpc]
    exact ⟨rfl, rfl, rfl, rfl, rfl, rfl, rfl, rfl, not_false⟩
  have hidle : Sound cfg (s.goto t .idle) := Sound.goto ⟨place, L, h⟩ (by rw [hpc]; rfl)
  unfold freeSection frees at hc
  rcases h.pool.findInChain_spec p with ⟨A, x, B, hA, hx, hf⟩ | ⟨hnone, hf⟩
  · simp only [hf, Bool.and_eq_true, decide_eq_true_eq, Option.isNone_iff_eq_none,
      List.isEmpty_iff] at hc
    split at hc
    · rename_i hfree
      obtain ⟨⟨rfl, hh⟩, hq⟩ := hfree
      cases hc
      exact ⟨_, _, popRelease_inv h hplain hA hh hq⟩
    · cases hc
      exact hidle
  · simp only [hf, Bool.false_eq_true, if_false, Option.some.injEq] at hc
    rw [← hc]
    exact hidle

omit [DecidableEq P] in
/-- What the last step of an unlock does: it aborts if the `next` word of the
monitor is set, and pushes the monitor on the pool otherwise. -/
theorem Inv.release_take {cfg : Config P M} {s : State T P M} {place : M → Place T M}
    {L : M → List M} {t : T} {m : M} (h : Inv cfg s place L) (hpc : s.pc t = .unlockRelease m) :
    (s.take t m).release m = if s.next m = none then some { s with
        ptr := Function.update s.ptr m none
        lock := Function.update s.lock m ⟨none, []⟩
        free := m :: s.free }
      else none := by
  have hpm : place m = .release t := (h.pool.release m t).mpr (by rw [hpc]; rfl)
  have hnl : ¬ (place m).Live := by rw [hpm]; exact not_false
  rw [release_eq]
  · simp only [State.take, State.setLock, Function.update_idem]
  · simp only [State.take, State.setLock, Function.update_self]
    exact h.lines.idle m hnl

/-- **Every step of a thread keeps the invariant.** -/
theorem move_sound [Fintype M] {cfg : Config P M} {s s' : State T P M} {t : T} {busy : Bool}
    (hs : Sound cfg s) (hc : move cfg s t busy = some s') : Sound cfg s' := by
  obtain ⟨place, L, h⟩ := id hs
  unfold move at hc
  split at hc
  case h_1 => cases hc
  case h_2 hpc =>
    cases hc
    exact grab_sound hs hpc
  case h_3 p hpc =>
    split at hc <;> cases hc
    · rename_i hn
      refine ⟨place, L, grantSlot_sound h (by rw [hpc]; rfl) ?_⟩
      have hchain := (h.pool.chain _ (cfg.hash_fixed p)).2
      rw [hn.1] at hchain
      rw [(Chain.eq_nil_iff hchain).mpr rfl]
      exact fun x hx => absurd hx List.not_mem_nil
    · exact hs.goto (by rw [hpc]; rfl)
  case h_4 hpc => exact absorbSection_sound hs hpc hc
  case h_5 hpc => exact searchSection_sound hs hpc hc
  case h_6 p m hpc =>
    split at hc <;> cases hc
    rename_i hw
    exact ⟨place, L, wakeAbsorb_inv h hpc hw⟩
  case h_7 p m hpc =>
    cases hc
    exact ⟨place, L, moveUsers_inv h hpc⟩
  case h_8 p m hpc =>
    have hn := (h.pool.absorbed m t ((h.pool.absorb m t).mpr (by rw [hpc]; rfl))).1
    simp only [release_eq (h.lines.emptied t m (by rw [hpc]; rfl)), if_pos hn] at hc
    cases hc
    exact ⟨_, L, absorbRelease_inv h hpc⟩
  case h_9 p m hpc =>
    split at hc <;> cases hc
    rename_i hw
    exact ⟨place, L, wakeGrant_inv h (Or.inl hpc) hw (h.lines.waitsOn t m (by rw [hpc]; rfl))⟩
  case h_10 hpc => exact freeSection_sound hs hpc hc
  case h_11 m hpc =>
    rw [h.release_take hpc] at hc
    by_cases hn : s.next m = none
    · simp only [if_pos hn] at hc
      cases hc
      exact ⟨_, L, pushFree_inv h hpc hn⟩
    · simp only [if_neg hn] at hc
      cases hc
      exact ⟨_, L, abort_inv h hpc⟩
  case h_12 p hpc =>
    split at hc
    · rename_i hw
      obtain ⟨m, hm, rfl⟩ := Option.map_eq_some_iff.mp hc
      exact ⟨place, L, wakeGrant_inv h (Or.inr hpc) hw hm⟩
    · cases hc
  case h_13 => cases hc

/-! ## Runs -/

omit [DecidableEq T] [DecidableEq P] [DecidableEq M] in
/-- The monitors as `lw_monitor_module_init` leaves them are sound. -/
theorem Start.sound {cfg : Config P M} {s : State T P M} (h : Start cfg s) : Sound cfg s := by
  obtain ⟨h1, h2, h3, h4, h5, h6, h7, h8, h9⟩ := h
  refine ⟨fun m => if cfg.fixed m then .slot else .free, fun _ => [], ?_, ?_, ?_⟩
  · constructor
    case chain =>
      intro x hx
      exact ⟨rfl, h2 x⟩
    all_goals grind -linarith [Pc.copy, Pc.releasing]
  · constructor
    all_goals grind -linarith [Holds, Pc.slot, Pc.copyHeld, Place.Live]
  · constructor
    all_goals grind -linarith [Pc.waits, Pc.waitsOn, Pc.emptied, Place.Live]

/-- **Every reachable state is sound**, along any run. -/
theorem sound_of_reach [Fintype M] {cfg : Config P M}
    {ok : State T P M → Event T P M → State T P M → Prop} {s : State T P M}
    (h : (machine T cfg).Reach ok s) : Sound cfg s := by
  refine h.invariant (I := Sound cfg) (fun s hs => Start.sound hs) ?_
  intro s e s' hs he _
  cases e with
  | call t op => exact call_sound hs he
  | move t busy => exact move_sound hs he

/-- **What a monitor promises** in a state: one user per pointer, one float
monitor per pointer in each chain, and ids that name locks their threads
have. -/
structure Exclusive (cfg : Config P M) (s : State T P M) : Prop where
  user : ∀ t u m m' p, s.own t m = some p → s.own u m' = some p → t = u ∧ m = m'
  float : ∀ h, cfg.fixed h = true → ∃ l, Chain s.next (some h) (h :: l)
    ∧ (∀ m ∈ l, cfg.fixed m = false)
    ∧ ∀ m ∈ l, ∀ m' ∈ l, ∀ p, s.ptr m = some p → s.ptr m' = some p → m = m'
  id : ∀ t m p, s.own t m = some p → (s.lock m).holder = some t ∧ s.ptr m = some p

/-- **Monitors exclude each other**, in every state of every run. -/
theorem exclusive_of_reach [Fintype M] (cfg : Config P M) {s : State T P M}
    (h : (machine T cfg).Reach Machine.anyStep s) : Exclusive cfg s := by
  have hs := sound_of_reach h
  obtain ⟨place, L, hi⟩ := id hs
  refine ⟨fun t u m m' p => own_unique hs, fun h hh => ?_, fun t m p hown => ?_⟩
  · refine ⟨L h, hi.pool.chain h hh, fun m hm => ?_, fun m hm m' hm' p hp hp' => ?_⟩
    · have hpm := (hi.pool.mem h hh m).mp hm
      rw [← Bool.not_eq_true]
      intro hfix
      rw [(hi.pool.slot m).mpr hfix] at hpm
      cases hpm
    · exact hi.pool.unique m m' h ((hi.pool.mem h hh m).mp hm) ((hi.pool.mem h hh m').mp hm')
        (hp.trans hp'.symm)
  · refine ⟨(hi.rights.holder m t).mpr (Or.inl ?_), (hi.rights.own t m p hown).1⟩
    rw [hown]
    exact Option.some_ne_none p

/-! ## A slot taken over -/

/-- One slot for every pointer, and a float of three. -/
def oneSlot : Config (Fin 3) (Fin 4) where
  hash := fun _ => 0
  fixed := fun m => decide (m = 0)
  hash_fixed := fun _ => rfl

/-- The monitors of `oneSlot` at the start. -/
def oneSlotInit : State (Fin 3) (Fin 3) (Fin 4) where
  ptr := fun _ => none
  next := fun _ => none
  lock := fun _ => ⟨none, []⟩
  free := [1, 2, 3]
  src := fun _ => none
  woken := fun _ => false
  pc := fun _ => .idle
  own := fun _ _ => none

theorem oneSlotInit_start : Start oneSlot oneSlotInit := by
  constructor <;> decide

/-- Thread `0` has the slot for pointer `0`, so thread `1` gets a float monitor
for pointer `1`. Thread `0` unlocks and thread `2` takes the slot over for
pointer `1`: it has to wait for the float monitor, on which thread `1` then
waits for a signal. -/
def takeOver : List (Event (Fin 3) (Fin 3) (Fin 4)) :=
  [.call 0 (.lock 0), .move 0 false, .move 0 false,
    .call 1 (.lock 1), .move 1 false, .move 1 false,
    .call 0 (.unlock 0 0),
    .call 2 (.lock 1), .move 2 false, .move 2 false, .move 2 false,
    .call 1 (.wait 1 1), .move 2 false, .move 2 false, .move 2 false]

/-- After the take-over the waiting thread wakes up with the slot. -/
theorem exclusive_after_takeOver :
    ∃ s : State (Fin 3) (Fin 3) (Fin 4), s.own 1 0 = some 1 ∧ s.own 1 1 = none
      ∧ s.free = [1, 2, 3] ∧ Exclusive oneSlot s := by
  obtain ⟨s, hs, hp⟩ := Machine.Reach.exists_of_exec (machine (Fin 3) oneSlot)
    Machine.anyStep oneSlotInit_start
    (p := fun s => decide (s.own 1 0 = some 1 ∧ s.own 1 1 = none ∧ s.free = [1, 2, 3]))
    (takeOver ++ [.call 2 (.signal 1 0), .call 2 (.unlock 1 0), .move 1 false]) (by decide)
  obtain ⟨h₁, h₂, h₃⟩ := of_decide_eq_true hp
  exact ⟨s, h₁, h₂, h₃, exclusive_of_reach oneSlot hs⟩

end Monitor
