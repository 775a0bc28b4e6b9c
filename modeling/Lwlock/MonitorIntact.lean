import Lwlock.MonitorSafe

/-!
# When releasing a monitor does not abort

`lw_monitor_lock` clears the `next` word of a copy it takes out of the chain;
`lw_monitor_unlock` links the predecessor past the monitor it frees and leaves
that monitor's own `next` word as it is. `lw_monitor_destroy` then verifies that
the word is clear, so an unlock completes exactly if the monitor it frees is the
last one of its chain. As long as every unlock frees the last one, nothing
aborts, and what an unlock does to the chains and to the pool is what it should
be.
-/

namespace Monitor

variable {T P M : Type} [DecidableEq T] [DecidableEq P] [DecidableEq M]

/-- Whether a step, if it is the section of an unlock that frees a monitor, frees
the last one of the chain. -/
def freesLast [Fintype M] (cfg : Config P M) (s : State T P M) : Event T P M → Bool
  | .call _ _ => true
  | .move t _ => match s.pc t with
    | .unlockSection p m => !frees cfg s p m || (s.next m).isNone
    | _ => true

/-- **The guard**: every unlock that frees a monitor frees the last one of its
chain. -/
def FreesLast [Fintype M] (cfg : Config P M) (s : State T P M) (e : Event T P M)
    (_ : State T P M) : Prop :=
  freesLast cfg s e = true

instance [Fintype M] (cfg : Config P M) (s : State T P M) (e : Event T P M) (s' : State T P M) :
    Decidable (FreesLast cfg s e s') :=
  inferInstanceAs (Decidable (_ = true))

/-! ## The invariant -/

/-- **Nothing has aborted, and nothing is about to**: every monitor that is about
to be released has a clear `next` word. -/
structure Clean (pc : T → Pc P M) (next : M → Option M) : Prop where
  alive : ∀ t, pc t ≠ .aborted
  last : ∀ t m, pc t = .unlockRelease m → next m = none

omit [DecidableEq P] [DecidableEq M] in
/-- A thread moves on. -/
theorem Clean.goto {pc : T → Pc P M} {next : M → Option M} {t : T} {c : Pc P M}
    (h : Clean pc next) (hc : c ≠ .aborted) (hr : ∀ m, c = .unlockRelease m → next m = none) :
    Clean (Function.update pc t c) next := by
  obtain ⟨h1, h2⟩ := h
  constructor <;> grind -linarith [Function.update_apply]

omit [DecidableEq T] [DecidableEq P] in
/-- A `next` word of a monitor that is not being released is set. -/
theorem Clean.link {pc : T → Pc P M} {next : M → Option M} {b : M} {v : Option M}
    (h : Clean pc next) (hb : ∀ t, pc t ≠ .unlockRelease b) :
    Clean pc (Function.update next b v) := by
  obtain ⟨h1, h2⟩ := h
  constructor <;> grind -linarith [Function.update_apply]

omit [DecidableEq T] [DecidableEq P] [DecidableEq M] in
/-- A monitor that is a slot or in a chain is not being released. -/
theorem Pool.not_releasing {cfg : Config P M} {s : State T P M} {place : M → Place T M}
    {L : M → List M} (hP : Pool cfg s place L) {b h : M}
    (hb : place b = .slot ∨ place b = .chain h ∨ place b = .free) (t : T) :
    s.pc t ≠ .unlockRelease b := by
  intro hpc
  have hrel := (hP.release b t).mpr (by rw [hpc]; rfl)
  rw [hrel] at hb
  rcases hb with hb | hb | hb <;> cases hb

omit [DecidableEq T] [DecidableEq P] [DecidableEq M] in
/-- Nor is the last one of a part of a chain, its head included. -/
theorem Pool.last_not_releasing {cfg : Config P M} {s : State T P M} {place : M → Place T M}
    {L : M → List M} (hP : Pool cfg s place L) {h : M} {A : List M} (hh : cfg.fixed h = true)
    (hA : A ⊆ L h) (t : T) : s.pc t ≠ .unlockRelease (A.getLastD h) := by
  rcases hP.place_last hh hA with heq | hpl
  · rw [heq]
    exact hP.not_releasing (h := h) (Or.inl ((hP.slot h).mpr hh)) t
  · exact hP.not_releasing (Or.inr (Or.inl hpl)) t

/-! ## Steps -/

/-- Calls. -/
theorem call_clean {cfg : Config P M} {s s' : State T P M} {t : T} {op : Op P M}
    (h : Clean s.pc s.next) (hc : call cfg s t op = some s') : Clean s'.pc s'.next := by
  unfold call at hc
  split at hc
  · cases hc
    exact h.goto (by simp) (by simp)
  · split at hc <;> cases hc
    unfold unlock
    dsimp only
    split
    · rw [handOff_pc, handOff_next]
      exact h
    · simp only [State.goto, handOff_pc, handOff_next]
      exact h.goto (by simp) (by simp)
  · split at hc <;> cases hc
    simp only [State.goto, State.enqueue, State.setLock, handOff_pc, handOff_next]
    exact h.goto (by simp) (by simp)
  · split at hc <;> cases hc
    exact h
  · split at hc <;> cases hc
    exact h
  · cases hc

omit [DecidableEq P] in
/-- Locking or queueing on a monitor that was found. -/
theorem lockFound_clean {s : State T P M} {t : T} {p : P} {m : M} (h : Clean s.pc s.next) :
    Clean (lockFound s t p m).pc (lockFound s t p m).next := by
  unfold lockFound
  split
  · exact h.goto nofun nofun
  · exact h.goto nofun nofun

/-- The section of a thread that did not get the slot. -/
theorem searchSection_clean [Fintype M] {cfg : Config P M} {s s' : State T P M} {t : T} {p : P}
    (hs : Sound cfg s) (h : Clean s.pc s.next) (hc : searchSection cfg s t p = some s') :
    Clean s'.pc s'.next := by
  obtain ⟨place, L, hi⟩ := hs
  have hfix := cfg.hash_fixed p
  unfold searchSection at hc
  split at hc
  · cases hc
    exact lockFound_clean h
  · rename_i hm
    cases hal : s.alloc t p with
    | none => simp only [hal, reduceCtorEq] at hc
    | some r =>
      obtain ⟨s₁, a⟩ := r
      simp only [hal] at hc
      rcases hi.findFromHead_spec hal hm with ⟨m, prev, hmem, hmp, hf⟩ | ⟨hnone, hf⟩
      · have hne : m ≠ cfg.hash p := by
          rintro rfl
          exact hm hmp
        simp only [hf, alloc_release hi hal, if_neg hne] at hc
        cases hc
        exact lockFound_clean h
      · simp only [hf] at hc
        cases hc
        cases hfree : s.free with
        | nil => simp only [State.alloc, hfree, reduceCtorEq] at hal
        | cons b free =>
          obtain ⟨hpb, -⟩ := hi.unused (a := b) (by rw [hfree]; exact List.mem_cons_self)
          simp only [State.alloc, hfree, Option.some.injEq, Prod.mk.injEq] at hal
          obtain ⟨rfl, rfl⟩ := hal
          refine Clean.goto (Clean.link (Clean.link h ?_) ?_) (by simp) (by simp)
          · exact hi.pool.not_releasing (h := b) (Or.inr (Or.inr hpb))
          · exact hi.pool.last_not_releasing hfix (List.Subset.refl _)

/-- The section of a thread that has the slot. -/
theorem absorbSection_clean [Fintype M] {cfg : Config P M} {s s' : State T P M} {t : T} {p : P}
    (hs : Sound cfg s) (h : Clean s.pc s.next) (hc : absorbSection cfg s t p = some s') :
    Clean s'.pc s'.next := by
  obtain ⟨place, L, hi⟩ := hs
  have hfix := cfg.hash_fixed p
  unfold absorbSection at hc
  rcases hi.pool.findInChain_spec p with ⟨A, m, B, hA, hm, hf⟩ | ⟨hnone, hf⟩
  · have hpm : place m = .chain (cfg.hash p) := (hi.pool.mem _ hfix m).mp (by rw [hA]; simp)
    have hcut : Clean s.pc (Function.update
        (Function.update s.next (A.getLastD (cfg.hash p)) (s.next m)) m none) := by
      refine Clean.link (Clean.link h ?_) ?_
      · exact hi.pool.last_not_releasing hfix (by rw [hA]; simp)
      · exact hi.pool.not_releasing (Or.inr (Or.inl hpm))
    simp only [hf] at hc
    split at hc
    · cases hc
      exact hcut.goto (by simp) (by simp)
    · cases hc
      exact hcut.goto (by simp) (by simp)
  · simp only [hf] at hc
    cases hc
    exact h.goto (by simp) (by simp)

/-- **What the section of an unlock does**: it takes the monitor out that it
frees, which is in the chain, and leaves the chain as it was otherwise. -/
theorem freeSection_cases [Fintype M] {cfg : Config P M} {s : State T P M}
    {place : M → Place T M} {L : M → List M} (hi : Inv cfg s place L) (t : T) (p : P) (m : M) :
    (frees cfg s p m = true ∧ ∃ A B, L (cfg.hash p) = A ++ m :: B
      ∧ freeSection cfg s t p m = some ({ s with
        next := Function.update s.next (A.getLastD (cfg.hash p)) (s.next m) }.goto t
        (.unlockRelease m)))
    ∨ (frees cfg s p m = false ∧ freeSection cfg s t p m = some (s.goto t .idle)) := by
  unfold freeSection
  cases hfr : frees cfg s p m with
  | true =>
    rcases hi.pool.findInChain_spec p with ⟨A, x, B, hA, hx, hf⟩ | ⟨hnone, hf⟩
    · have hxm : x = m := by
        unfold frees at hfr
        simp only [hf, Bool.and_eq_true, decide_eq_true_eq] at hfr
        exact hfr.1.1
      subst hxm
      refine Or.inl ⟨rfl, A, B, hA, ?_⟩
      simp only [hf, if_true]
    · unfold frees at hfr
      simp only [hf, Bool.false_eq_true] at hfr
  | false =>
    refine Or.inr ⟨rfl, ?_⟩
    rcases hi.pool.findInChain_spec p with ⟨A, x, B, -, -, hf⟩ | ⟨-, hf⟩
    · simp only [hf, Bool.false_eq_true, if_false]
    · simp only [hf, Bool.false_eq_true, if_false]

/-- Every step of a thread, if the monitor it may free is the last of its
chain. -/
theorem move_clean [Fintype M] {cfg : Config P M} {s s' : State T P M} {t : T} {busy : Bool}
    (hs : Sound cfg s) (h : Clean s.pc s.next) (hc : move cfg s t busy = some s')
    (hlast : freesLast cfg s (.move t busy) = true) : Clean s'.pc s'.next := by
  obtain ⟨place, L, hi⟩ := id hs
  unfold move at hc
  split at hc
  case h_1 => cases hc
  case h_2 =>
    cases hc
    unfold grabIfUnused
    dsimp only
    split
    · exact h.goto nofun nofun
    · exact h.goto nofun nofun
  case h_3 =>
    split at hc <;> cases hc
    · exact h.goto nofun nofun
    · exact h.goto nofun nofun
  case h_4 => exact absorbSection_clean hs h hc
  case h_5 => exact searchSection_clean hs h hc
  case h_6 =>
    split at hc <;> cases hc
    exact h.goto nofun nofun
  case h_7 =>
    cases hc
    exact h.goto nofun nofun
  case h_8 p m hpc =>
    have hn := (hi.pool.absorbed m t ((hi.pool.absorb m t).mpr (by rw [hpc]; rfl))).1
    simp only [release_eq (hi.lines.emptied t m (by rw [hpc]; rfl)), if_pos hn] at hc
    cases hc
    exact h.goto nofun nofun
  case h_9 =>
    split at hc <;> cases hc
    exact h.goto nofun nofun
  case h_10 p m hpc =>
    rcases freeSection_cases hi t p m with ⟨hfr, A, B, hA, heq⟩ | ⟨-, heq⟩
    · rw [heq] at hc
      cases hc
      have hn : s.next m = none := by
        simp only [freesLast, hpc, hfr, Bool.not_true, Bool.false_or,
          Option.isNone_iff_eq_none] at hlast
        exact hlast
      have hfix := cfg.hash_fixed p
      have hchain := hi.pool.chain _ hfix
      -- the monitor is not its own predecessor
      have hne : A.getLastD (cfg.hash p) ≠ m := by
        have hnd := hchain.nodup
        obtain ⟨X, hX⟩ := exists_cons_eq_concat (cfg.hash p) A
        rw [hA, ← List.cons_append, hX] at hnd
        intro heq
        rw [heq] at hnd
        grind -linarith
      refine Clean.goto (Clean.link h ?_) nofun ?_
      · exact hi.pool.last_not_releasing hfix (by rw [hA]; simp)
      · rintro x ⟨⟩
        change Function.update s.next (A.getLastD (cfg.hash p)) (s.next m) m = none
        rw [Function.update_of_ne hne.symm]
        exact hn
    · rw [heq] at hc
      cases hc
      exact h.goto nofun nofun
  case h_11 m hpc =>
    rw [hi.release_take hpc] at hc
    simp only [if_pos (h.last t m hpc)] at hc
    cases hc
    exact h.goto nofun nofun
  case h_12 =>
    split at hc
    · obtain ⟨m, hm, rfl⟩ := Option.map_eq_some_iff.mp hc
      exact h.goto nofun nofun
    · cases hc
  case h_13 => cases hc

/-! ## What an unlock does -/

/-- **Releasing is orderly** in a state: nothing has aborted, and an unlock goes
through. Its call leaves the chains and the pool alone; its section takes the
monitor it frees out of the one chain that has it, and keeps the order of
everything else; its last step pushes that monitor, which nobody else is about
to push, on the pool that does not have it. -/
structure Orderly [Fintype M] (cfg : Config P M) (s : State T P M) : Prop where
  alive : ∀ t, s.pc t ≠ .aborted
  enter : ∀ t p m, s.pc t = .idle → s.own t m = some p →
    ∃ s', call cfg s t (.unlock p m) = some s' ∧ s'.next = s.next ∧ s'.free = s.free
      ∧ (s'.pc t = .idle ∨ s'.pc t = .unlockSection p m)
  unlink : ∀ t p m busy, s.pc t = .unlockSection p m →
    ∃ s', move cfg s t busy = some s' ∧ s'.free = s.free
      ∧ s'.pc t = (if frees cfg s p m then .unlockRelease m else .idle)
      ∧ ∀ h, cfg.fixed h = true → ∃ l, Chain s.next (some h) (h :: l)
        ∧ Chain s'.next (some h) (h :: if frees cfg s p m ∧ h = cfg.hash p then l.erase m else l)
        ∧ (frees cfg s p m = true → (m ∈ l ↔ h = cfg.hash p))
  push : ∀ t m busy, s.pc t = .unlockRelease m →
    ∃ s', move cfg s t busy = some s' ∧ s'.next = s.next ∧ s'.pc t = .idle
      ∧ m ∉ s.free ∧ s'.free = m :: s.free ∧ s'.free.Nodup
      ∧ ∀ u, s.pc u = .unlockRelease m → u = t

/-- The call of an unlock. -/
theorem unlock_enter {cfg : Config P M} {s : State T P M} {t : T} {p : P} {m : M}
    (hpc : s.pc t = .idle) (hown : s.own t m = some p) :
    ∃ s', call cfg s t (.unlock p m) = some s' ∧ s'.next = s.next ∧ s'.free = s.free
      ∧ (s'.pc t = .idle ∨ s'.pc t = .unlockSection p m) := by
  refine ⟨unlock cfg s t p m, ?_, ?_⟩
  · simp only [call, hpc, if_pos hown]
  · unfold unlock
    dsimp only
    split
    · refine ⟨handOff_next _ _, handOff_free _ _, Or.inl ?_⟩
      rw [handOff_pc]
      exact hpc
    · refine ⟨handOff_next _ _, handOff_free _ _, Or.inr ?_⟩
      simp only [State.goto, Function.update_self]

/-- The section of an unlock. -/
theorem unlock_unlink [Fintype M] {cfg : Config P M} {s : State T P M} (hs : Sound cfg s) {t : T}
    {p : P} {m : M} (busy : Bool) (hpc : s.pc t = .unlockSection p m) :
    ∃ s', move cfg s t busy = some s' ∧ s'.free = s.free
      ∧ s'.pc t = (if frees cfg s p m then .unlockRelease m else .idle)
      ∧ ∀ h, cfg.fixed h = true → ∃ l, Chain s.next (some h) (h :: l)
        ∧ Chain s'.next (some h) (h :: if frees cfg s p m ∧ h = cfg.hash p then l.erase m else l)
        ∧ (frees cfg s p m = true → (m ∈ l ↔ h = cfg.hash p)) := by
  obtain ⟨place, L, hi⟩ := hs
  have hfix := cfg.hash_fixed p
  simp only [move, hpc]
  rcases freeSection_cases hi t p m with ⟨hfr, A, B, hA, heq⟩ | ⟨hfr, heq⟩
  · refine ⟨_, heq, rfl, ?_, fun h hh => ⟨L h, hi.pool.chain h hh, ?_, fun _ => ?_⟩⟩
    · simp only [State.goto, Function.update_self, hfr, if_true]
    · have hcut := (hi.pool.cut hfix hA).1 h hh
      have hAB : A ++ B = (L (cfg.hash p)).erase m := by
        have hnd := (hi.pool.chain _ hfix).nodup
        rw [hA] at hnd ⊢
        have hm : m ∉ A := by grind -linarith
        rw [List.erase_append_right _ hm, List.erase_cons_head]
      by_cases hhp : h = cfg.hash p
      · subst hhp
        rw [if_pos ⟨hfr, rfl⟩, ← hAB]
        rw [Function.update_self] at hcut
        exact hcut
      · rw [if_neg (fun hc => hhp hc.2)]
        rw [Function.update_of_ne hhp] at hcut
        exact hcut
    · have hpm : place m = .chain (cfg.hash p) := (hi.pool.mem _ hfix m).mp (by rw [hA]; simp)
      rw [hi.pool.mem h hh m, hpm, Place.chain.injEq]
      exact eq_comm
  · refine ⟨_, heq, rfl, ?_, fun h hh => ⟨L h, hi.pool.chain h hh, ?_, fun hc => ?_⟩⟩
    · simp only [State.goto, Function.update_self, hfr, Bool.false_eq_true, if_false]
    · simp only [hfr, Bool.false_eq_true, false_and, if_false]
      exact hi.pool.chain h hh
    · rw [hfr] at hc
      cases hc

/-- The last step of an unlock, of a monitor that was the last of its chain. -/
theorem unlock_push [Fintype M] {cfg : Config P M} {s : State T P M} (hs : Sound cfg s)
    (hcl : Clean s.pc s.next) {t : T} {m : M} (busy : Bool) (hpc : s.pc t = .unlockRelease m) :
    ∃ s', move cfg s t busy = some s' ∧ s'.next = s.next ∧ s'.pc t = .idle
      ∧ m ∉ s.free ∧ s'.free = m :: s.free ∧ s'.free.Nodup
      ∧ ∀ u, s.pc u = .unlockRelease m → u = t := by
  obtain ⟨place, L, hi⟩ := hs
  have hpm : place m = .release t := (hi.pool.release m t).mpr (by rw [hpc]; rfl)
  have hnf : m ∉ s.free := by
    rw [hi.pool.free m, hpm]
    nofun
  simp only [move, hpc, hi.release_take hpc, if_pos (hcl.last t m hpc)]
  refine ⟨_, rfl, rfl, Function.update_self _ _ _, hnf, rfl,
    List.nodup_cons.mpr ⟨hnf, hi.pool.nodup⟩, fun u hu => ?_⟩
  have := (hi.pool.release m u).mpr (by rw [hu]; rfl)
  rw [hpm, Place.release.injEq] at this
  exact this.symm

/-- **Releasing is orderly in every state of every run in which each unlock frees
the last monitor of a chain.** -/
theorem orderly_of_freesLast [Fintype M] (cfg : Config P M) {s : State T P M}
    (h : (machine T cfg).Reach (FreesLast cfg) s) : Orderly cfg s := by
  have hs := sound_of_reach h
  have hcl : Sound cfg s ∧ Clean s.pc s.next := by
    refine h.invariant (I := fun s => Sound cfg s ∧ Clean s.pc s.next) (fun s hs => ?_) ?_
    · refine ⟨Start.sound hs, fun t => ?_, fun t m => ?_⟩
      · rw [hs.pc]
        nofun
      · rw [hs.pc]
        nofun
    · rintro s e s' ⟨hs, hcl⟩ he hlast
      cases e with
      | call t op => exact ⟨call_sound hs he, call_clean hcl he⟩
      | move t busy => exact ⟨move_sound hs he, move_clean hs hcl he hlast⟩
  exact ⟨hcl.2.alive, fun t p m => unlock_enter, fun t p m busy => unlock_unlink hs busy,
    fun t m busy => unlock_push hs hcl.2 busy⟩

/-- Three pointers of one slot: thread `0` has the slot, threads `1` and `2` have
float monitors, in this order. -/
def threeUsers : List (Event (Fin 3) (Fin 3) (Fin 4)) :=
  [.call 0 (.lock 0), .move 0 false, .move 0 false,
    .call 1 (.lock 1), .move 1 false, .move 1 false,
    .call 2 (.lock 2), .move 2 false, .move 2 false]

/-- **The first float monitor is freed first**, and its unlock aborts. -/
theorem exists_unlock_aborted :
    ∃ s : State (Fin 3) (Fin 3) (Fin 4), (machine (Fin 3) oneSlot).Reach Machine.anyStep s
      ∧ s.pc 1 = .aborted ∧ s.own 2 2 = some 2 ∧ ¬ Orderly oneSlot s := by
  obtain ⟨s, hs, hp⟩ := Machine.Reach.exists_of_exec (machine (Fin 3) oneSlot)
    Machine.anyStep oneSlotInit_start
    (p := fun s => decide (s.pc 1 = .aborted ∧ s.own 2 2 = some 2))
    (threeUsers ++ [.call 1 (.unlock 1 1), .move 1 false, .move 1 false]) (by decide)
  obtain ⟨h₁, h₂⟩ := of_decide_eq_true hp
  exact ⟨s, hs, h₁, h₂, fun ho => ho.alive 1 h₁⟩

/-- The last float monitor is freed first, and then the other one. -/
theorem orderly_last_first :
    ∃ s : State (Fin 3) (Fin 3) (Fin 4), s.pc 1 = .unlockRelease 1 ∧ s.free = [2, 3]
      ∧ Orderly oneSlot s := by
  obtain ⟨s, hs, hp⟩ := Machine.Reach.exists_of_exec (machine (Fin 3) oneSlot)
    (FreesLast oneSlot) oneSlotInit_start
    (p := fun s => decide (s.pc 1 = .unlockRelease 1 ∧ s.free = [2, 3]))
    (threeUsers ++ [.call 2 (.unlock 2 2), .move 2 false, .move 2 false,
      .call 1 (.unlock 1 1), .move 1 false]) (by decide)
  obtain ⟨h₁, h₂⟩ := of_decide_eq_true hp
  exact ⟨s, h₁, h₂, orderly_of_freesLast oneSlot hs⟩

end Monitor
