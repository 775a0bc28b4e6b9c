import Lwlock.MonitorSafe
import Lwlock.MonitorChain

/-!
# Monitors and the width of their keys

A monitor keeps the pointer it is tied to in a field of 61 bits. The pointers that are
accepted may have one bit more. Some comparisons are made between two values of the field,
others between the field and the whole pointer, so a pointer that does not fit is stored,
and not recognised where the whole of it is compared.

The steps of `lw_monitor_lock` are those of the monitors with what is stored and what is
compared as the program has it. A search that has linked in a monitor for a pointer that
does not fit links that monitor to itself and does not end.
-/

namespace MonitorKey

open Monitor MonitorChain

variable {T M : Type}

/-- `LW_MONITOR_PTR_MAX`. -/
def ptrMax : ℕ := 2 ^ 62 - 1

/-- `LW_MONITOR_PTR_IS_ACCEPTABLE`. -/
def Acceptable (p : Ptr) : Prop := p.toNat ≤ ptrMax

instance (p : Ptr) : Decidable (Acceptable p) := inferInstanceAs (Decidable (_ ≤ _))

/-- **`ptrlock` after `lw_monitor_init`**, or after `lw_monitor_grab_if_unused` of a monitor
nobody waits on. -/
def lockedWithPtr (p : Ptr) : BitVec 64 := setPtr61 lockBit (toPtr61 p)

/-- **The comparison of `find_monitor_for_ptr`.** -/
def findMatches (ptrlock : BitVec 64) (p : Ptr) : Bool :=
  decide ((ptr61 ptrlock).setWidth 64 = p)

/-- **The comparisons of `lw_monitor_lock_if_ptr_matches`**: of its own local, and of the
word of the monitor. -/
def lockIfMatches (ptrlock : BitVec 64) (p : Ptr) : Bool :=
  decide ((ptr61 (setPtr61 0 (toPtr61 p))).setWidth 64 = p)
    && decide ((ptr61 ptrlock).setWidth 64 = p)

/-- `ptrlock.fields.ptr61` after a pointer was stored, if it is not `0`. -/
def keyOf (p : Ptr) : Option Ptr := if toPtr61 p = 0 then none else some (ofPtr61 (toPtr61 p))

/-! ## The machine -/

section Machine

variable [DecidableEq T] [DecidableEq M]

/-- **`lw_monitor_grab_if_unused`**, which compares two values of the field. -/
def grabIfUnused (cfg : Config Ptr M) (s : State T Ptr M) (t : T) (p : Ptr) : State T Ptr M :=
  let h := cfg.hash p
  if ((s.lock h).cvBit = true ∧ s.ptr h ≠ keyOf p) ∨ (s.lock h).holder ≠ none then
    s.goto t (.lockSection p false)
  else ({ s with ptr := Function.update s.ptr h (keyOf p) }.take t h).goto t (.lockFast p)

/-- `lw_monitor_alloc`. -/
def alloc (s : State T Ptr M) (t : T) (p : Ptr) : Option (State T Ptr M × M) :=
  match s.free with
  | [] => none
  | a :: free => some ({ s with
      free := free
      next := Function.update s.next a none
      ptr := Function.update s.ptr a (keyOf p)
      lock := Function.update s.lock a ⟨some t, []⟩ }, a)

/-- **The section of a thread that did not get the slot.** -/
def searchSection [Fintype M] (cfg : Config Ptr M) (s : State T Ptr M) (t : T) (p : Ptr) :
    Option (State T Ptr M) :=
  if ofPtr61 (toPtr61 p) = p ∧ s.ptr (cfg.hash p) = some p then
    some (lockFound s t p (cfg.hash p))
  else match alloc s t p with
    | none => none
    | some (s, a) => match findFromHead cfg s p with
      | none => none
      | some (none, last) =>
        -- the loop goes on at the new monitor and ends there only if it is recognised
        if s.ptr a = some p then
          some ({ s with next := Function.update s.next last (some a) }.grant t p a)
        else none
      | some (some m, _) => match s.release a with
        | none => some (s.goto t .aborted)
        | some s =>
          if m = cfg.hash p then some (s.goto t (.lockGrab p)) else some (lockFound s t p m)

/-- **One step of a thread.** -/
def move [Fintype M] (cfg : Config Ptr M) (s : State T Ptr M) (t : T) (busy : Bool) :
    Option (State T Ptr M) :=
  match s.pc t with
  | .lockGrab p => some (grabIfUnused cfg s t p)
  | .lockSection p false => searchSection cfg s t p
  | _ => Monitor.move cfg s t busy

/-- A call; `lw_monitor_lock` aborts on a pointer that is not acceptable. -/
def call (cfg : Config Ptr M) (s : State T Ptr M) (t : T) (op : Op Ptr M) :
    Option (State T Ptr M) :=
  match s.pc t, op with
  | .idle, .lock p => if Acceptable p then some (s.goto t (.lockGrab p)) else some (s.goto t .aborted)
  | _, op => Monitor.call cfg s t op

/-- **The monitors with keys of 61 bits** as a machine. -/
def machine (T : Type) [DecidableEq T] [Fintype M] (cfg : Config Ptr M) :
    Machine (State T Ptr M) (Event T Ptr M) where
  start := Start cfg
  step := fun s e => match e with
    | .call t op => call cfg s t op
    | .move t busy => move cfg s t busy

end Machine

/-- The calls of `lw_monitor_lock` are for pointers of a set. -/
def Uses (S : Set Ptr) (_ : State T Ptr M) (e : Event T Ptr M) (_ : State T Ptr M) : Prop :=
  ∀ t p, e = .call t (.lock p) → p ∈ S

/-- **Pointers are really locked**: the key that is stored is recognised by both comparisons,
different pointers have different keys, and a pointer is given to one thread at a time. -/
structure Locked (T : Type) [DecidableEq T] [DecidableEq M] [Fintype M] (cfg : Config Ptr M)
    (S : Set Ptr) : Prop where
  find : ∀ p ∈ S, findMatches (lockedWithPtr p) p = true
  lockIf : ∀ p ∈ S, lockIfMatches (lockedWithPtr p) p = true
  distinct : ∀ p ∈ S, ∀ q ∈ S, ptr61 (lockedWithPtr p) = ptr61 (lockedWithPtr q) → p = q
  exclusive : ∀ s : State T Ptr M, (machine T cfg).Reach (Uses S) s →
    ∀ p ∈ S, ∀ t u m m', s.own t m = some p → s.own u m' = some p → t = u ∧ m = m'

/-! ## Pointers that fit -/

/-- **A key is recognised exactly if the pointer fits** into the field. -/
theorem findMatches_iff (p : Ptr) : findMatches (lockedWithPtr p) p = true ↔ p.toNat < 2 ^ 61 := by
  rw [findMatches, lockedWithPtr, ptr61_setPtr61, decide_eq_true_iff]
  constructor
  · intro h
    rw [← h, BitVec.toNat_setWidth, Nat.mod_eq_of_lt ((toPtr61 p).isLt.trans (by decide))]
    exact (toPtr61 p).isLt
  · exact ofPtr61_toPtr61

theorem lockIfMatches_iff (p : Ptr) :
    lockIfMatches (lockedWithPtr p) p = true ↔ p.toNat < 2 ^ 61 := by
  have h := findMatches_iff p
  rw [findMatches, lockedWithPtr, ptr61_setPtr61] at h
  rw [lockIfMatches, lockedWithPtr, ptr61_setPtr61, ptr61_setPtr61, Bool.and_self, h]

theorem keyOf_eq {p : Ptr} (h : p.toNat < 2 ^ 61) (h0 : p ≠ 0) : keyOf p = some p := by
  have hof := ofPtr61_toPtr61 h
  have hne : toPtr61 p ≠ 0 := fun hz => h0 (by rw [← hof, hz]; rfl)
  rw [keyOf, if_neg hne, hof]

section Steps

variable [DecidableEq T] [DecidableEq M] [Fintype M] {cfg : Config Ptr M} {s s' : State T Ptr M}

omit [Fintype M] in
/-- For a pointer that fits the steps are those of the monitors. -/
theorem grabIfUnused_eq {p : Ptr} (hk : keyOf p = some p) (t : T) :
    grabIfUnused cfg s t p = Monitor.grabIfUnused cfg s t p := by
  rw [grabIfUnused, hk]
  rfl

omit [DecidableEq T] [Fintype M] in
theorem alloc_eq {p : Ptr} (hk : keyOf p = some p) (t : T) : alloc s t p = s.alloc t p := by
  cases hf : s.free <;> simp only [alloc.eq_def, State.alloc.eq_def, hk, hf]

theorem searchSection_eq {p : Ptr} (hk : keyOf p = some p) (hof : ofPtr61 (toPtr61 p) = p) (t : T) :
    searchSection cfg s t p = Monitor.searchSection cfg s t p := by
  rw [searchSection.eq_def, Monitor.searchSection.eq_def, alloc_eq hk]
  by_cases hptr : s.ptr (cfg.hash p) = some p
  · rw [if_pos ⟨hof, hptr⟩, if_pos hptr]
  · rw [if_neg fun hx => hptr hx.2, if_neg hptr]
    cases hal : s.alloc t p with
    | none => rfl
    | some sa =>
      obtain ⟨s₁, a⟩ := sa
      have ha : s₁.ptr a = some p := by
        rw [State.alloc.eq_def] at hal
        split at hal
        · cases hal
        · obtain ⟨rfl, rfl⟩ := Prod.mk.inj (Option.some.inj hal)
          exact Function.update_self _ _ _
      simp only [if_pos ha]
      cases hfind : findFromHead cfg s₁ p with
      | none => rfl
      | some x =>
        obtain ⟨o, last⟩ := x
        cases o with
        | none => rfl
        | some m => cases hrel : s₁.release a <;> rfl

/-- The pointer of a thread whose next step compares keys. -/
def asks : Pc Ptr M → Option Ptr
  | .lockGrab p | .lockSection p false => some p
  | _ => none

omit [DecidableEq T] [DecidableEq M] [Fintype M] in
theorem release_pc {m : M} [DecidableEq T] [DecidableEq M] (he : s.release m = some s') :
    s'.pc = s.pc := by
  rw [State.release.eq_def] at he
  dsimp only at he
  split at he
  · cases he
  · obtain rfl := Option.some.inj he
    rw [State.handOff, State.wake.eq_def]
    split <;> rfl

omit [Fintype M] in
/-- A thread that locks a monitor asks for nothing any more. -/
theorem lockFound_pc (t : T) (p : Ptr) (m : M) :
    ∃ q, (lockFound s t p m).pc = Function.update s.pc t q ∧ asks q = none := by
  rw [lockFound]
  split
  · exact ⟨_, rfl, rfl⟩
  · exact ⟨_, rfl, rfl⟩

/-- **A step of a thread** asks for no other pointer. -/
theorem move_pc {t : T} {busy : Bool} (he : Monitor.move cfg s t busy = some s') :
    ∃ q, s'.pc = Function.update s.pc t q ∧ (asks q = none ∨ asks q = asks (s.pc t)) := by
  cases hpc : s.pc t with
  | idle | aborted =>
    rw [Monitor.move, hpc] at he
    cases he
  | lockGrab p =>
    rw [Monitor.move, hpc] at he
    obtain rfl := Option.some.inj he
    rw [Monitor.grabIfUnused]
    split
    · exact ⟨_, rfl, .inr rfl⟩
    · exact ⟨_, rfl, .inl rfl⟩
  | lockFast p =>
    rw [Monitor.move, hpc] at he
    dsimp only at he
    split at he <;> obtain rfl := Option.some.inj he <;> exact ⟨_, rfl, .inl rfl⟩
  | lockSection p got =>
    cases got with
    | true =>
      rw [Monitor.move, hpc] at he
      have he' : absorbSection cfg s t p = some s' := he
      rw [absorbSection.eq_def] at he'
      split at he'
      · cases he'
      · obtain rfl := Option.some.inj he'
        exact ⟨_, rfl, .inl rfl⟩
      · dsimp only at he'
        split at he' <;> obtain rfl := Option.some.inj he' <;> exact ⟨_, rfl, .inl rfl⟩
    | false =>
      rw [Monitor.move, hpc] at he
      have he' : Monitor.searchSection cfg s t p = some s' := he
      rw [Monitor.searchSection.eq_def] at he'
      split at he'
      · obtain rfl := Option.some.inj he'
        obtain ⟨q, hq, hnone⟩ := lockFound_pc t p (cfg.hash p) (s := s)
        exact ⟨q, hq, .inl hnone⟩
      · split at he'
        · cases he'
        · next s₁ a hal =>
          have hpc₁ : s₁.pc = s.pc := by
            rw [State.alloc.eq_def] at hal
            split at hal
            · cases hal
            · obtain ⟨rfl, rfl⟩ := Prod.mk.inj (Option.some.inj hal)
              rfl
          split at he'
          · cases he'
          · obtain rfl := Option.some.inj he'
            exact ⟨.idle, by rw [← hpc₁]; rfl, .inl rfl⟩
          · next m last _ =>
            split at he'
            · obtain rfl := Option.some.inj he'
              exact ⟨.aborted, by rw [← hpc₁]; rfl, .inl rfl⟩
            · next s₂ hrel =>
              have hpc₂ : s₂.pc = s.pc := (release_pc hrel).trans hpc₁
              split at he'
              · obtain rfl := Option.some.inj he'
                exact ⟨.lockGrab p, by rw [← hpc₂]; rfl, .inr rfl⟩
              · obtain rfl := Option.some.inj he'
                obtain ⟨q, hq, hnone⟩ := lockFound_pc t p m (s := s₂)
                exact ⟨q, by rw [hq, hpc₂], .inl hnone⟩
  | absorbWait p m =>
    rw [Monitor.move, hpc] at he
    dsimp only at he
    split at he
    · obtain rfl := Option.some.inj he
      exact ⟨_, rfl, .inl rfl⟩
    · cases he
  | absorbMove p m =>
    rw [Monitor.move, hpc] at he
    obtain rfl := Option.some.inj he
    exact ⟨_, rfl, .inl rfl⟩
  | absorbRelease p m =>
    rw [Monitor.move, hpc] at he
    dsimp only at he
    split at he
    · obtain rfl := Option.some.inj he
      exact ⟨_, rfl, .inl rfl⟩
    · next s₁ hrel =>
      obtain rfl := Option.some.inj he
      exact ⟨.idle, by rw [← release_pc hrel]; rfl, .inl rfl⟩
  | waitLock p m =>
    rw [Monitor.move, hpc] at he
    dsimp only at he
    split at he
    · obtain rfl := Option.some.inj he
      exact ⟨_, rfl, .inl rfl⟩
    · cases he
  | unlockSection p m =>
    rw [Monitor.move, hpc] at he
    have he' : freeSection cfg s t p m = some s' := he
    rw [freeSection.eq_def] at he'
    split at he'
    · cases he'
    · split at he' <;> obtain rfl := Option.some.inj he' <;> exact ⟨_, rfl, .inl rfl⟩
  | unlockRelease m =>
    rw [Monitor.move, hpc] at he
    dsimp only at he
    split at he
    · obtain rfl := Option.some.inj he
      exact ⟨_, rfl, .inl rfl⟩
    · next s₁ hrel =>
      obtain rfl := Option.some.inj he
      exact ⟨.idle, by rw [show s.pc = s₁.pc from (release_pc hrel).symm]; rfl, .inl rfl⟩
  | cvWaiting p =>
    rw [Monitor.move, hpc] at he
    dsimp only at he
    split at he
    · obtain ⟨m, -, rfl⟩ := Option.map_eq_some_iff.mp he
      exact ⟨_, rfl, .inl rfl⟩
    · cases he

omit [Fintype M] in
theorem handOff_pc (m : M) : (s.handOff m).pc = s.pc := by
  rw [State.handOff, State.wake.eq_def]
  split <;> rfl

omit [Fintype M] in
/-- A call asks for its own pointer only. -/
theorem call_pc {t : T} {op : Op Ptr M} (he : Monitor.call cfg s t op = some s') :
    ∃ q, s'.pc = Function.update s.pc t q
      ∧ (asks q = none ∨ asks q = asks (s.pc t) ∨ ∃ p, op = .lock p ∧ q = .lockGrab p) := by
  have hstay : s'.pc = s.pc → ∃ q, s'.pc = Function.update s.pc t q
      ∧ (asks q = none ∨ asks q = asks (s.pc t) ∨ ∃ p, op = .lock p ∧ q = .lockGrab p) :=
    fun hpc => ⟨s.pc t, by rw [hpc, Function.update_eq_self], .inr (.inl rfl)⟩
  rw [Monitor.call.eq_def] at he
  split at he
  · next p _ =>
    obtain rfl := Option.some.inj he
    exact ⟨_, rfl, .inr (.inr ⟨p, rfl, rfl⟩)⟩
  · next p m _ =>
    split at he
    · obtain rfl := Option.some.inj he
      have hpcs : (unlock cfg s t p m).pc = s.pc
          ∨ (unlock cfg s t p m).pc = Function.update s.pc t (.unlockSection p m) := by
        simp only [unlock]
        split
        · exact .inl (handOff_pc m)
        · right
          show Function.update ((s.setOwn t m none).handOff m).pc t _ = _
          rw [handOff_pc]
          rfl
      rcases hpcs with hpc | hpc
      · exact hstay hpc
      · exact ⟨_, hpc, .inl rfl⟩
    · cases he
  · next p m _ =>
    split at he
    · obtain rfl := Option.some.inj he
      refine ⟨.cvWaiting p, ?_, .inl rfl⟩
      show Function.update ((s.setOwn t m none).handOff m).pc t _ = _
      rw [handOff_pc]
      rfl
    · cases he
  · split at he
    · obtain rfl := Option.some.inj he
      exact hstay rfl
    · cases he
  · split at he
    · obtain rfl := Option.some.inj he
      exact hstay rfl
    · cases he
  · cases he

variable {S : Set Ptr}

/-- **As long as the pointers fit**, the runs are runs of the monitors. -/
theorem reach_monitor (hS : ∀ p ∈ S, p ≠ 0 ∧ p.toNat < 2 ^ 61)
    (h : (machine T cfg).Reach (Uses S) s) :
    (Monitor.machine T cfg).Reach Machine.anyStep s ∧ ∀ t p, asks (s.pc t) = some p → p ∈ S := by
  refine h.invariant (I := fun s => (Monitor.machine T cfg).Reach Machine.anyStep s
    ∧ ∀ t p, asks (s.pc t) = some p → p ∈ S) ?_ ?_
  · intro s hs
    refine ⟨.init hs, fun t p hp => ?_⟩
    rw [hs.pc t] at hp
    cases hp
  · rintro s e s' ⟨hr, ha⟩ he hok
    have hkey : ∀ p ∈ S, keyOf p = some p ∧ ofPtr61 (toPtr61 p) = p :=
      fun p hp => ⟨keyOf_eq (hS p hp).2 (hS p hp).1, ofPtr61_toPtr61 (hS p hp).2⟩
    have hask : ∀ {t : T} {q : Pc Ptr M}, s'.pc = Function.update s.pc t q →
        (∀ p, asks q = some p → p ∈ S) → ∀ u p, asks (s'.pc u) = some p → p ∈ S := by
      intro t q hpc hq u p hp
      rw [hpc] at hp
      by_cases hu : u = t
      · rw [hu, Function.update_self] at hp
        exact hq p hp
      · rw [Function.update_of_ne hu] at hp
        exact ha u p hp
    cases e with
    | call t op =>
      have hcall : Monitor.call cfg s t op = some s' := by
        have hc : call cfg s t op = some s' := he
        rw [call.eq_def] at hc
        split at hc
        · next p hpc =>
          have hp : p ∈ S := hok t p rfl
          have hacc : Acceptable p := by
            have hlt := (hS p hp).2
            rw [Acceptable, ptrMax]
            omega
          rw [if_pos hacc] at hc
          rw [Monitor.call.eq_def, hpc]
          exact hc
        · exact hc
      obtain ⟨q, hpc, hq⟩ := call_pc hcall
      refine ⟨hr.tail (show (Monitor.machine T cfg).step s (.call t op) = some s' from hcall) trivial,
        hask hpc fun p hp => ?_⟩
      rcases hq with hq | hq | ⟨p', rfl, rfl⟩
      · rw [hq] at hp
        cases hp
      · exact ha t p (hq ▸ hp)
      · obtain rfl := Option.some.inj hp
        exact hok t _ rfl
    | move t busy =>
      have hmove : Monitor.move cfg s t busy = some s' := by
        have hm : move cfg s t busy = some s' := he
        rw [move.eq_def] at hm
        split at hm
        · next p hpc =>
          have hp : p ∈ S := ha t p (by rw [hpc]; rfl)
          rw [grabIfUnused_eq (hkey p hp).1] at hm
          rw [Monitor.move, hpc]
          exact hm
        · next p hpc =>
          have hp : p ∈ S := ha t p (by rw [hpc]; rfl)
          rw [searchSection_eq (hkey p hp).1 (hkey p hp).2] at hm
          rw [Monitor.move, hpc]
          exact hm
        · exact hm
      obtain ⟨q, hpc, hq⟩ := move_pc hmove
      refine ⟨hr.tail (show (Monitor.machine T cfg).step s (.move t busy) = some s' from hmove) trivial,
        hask hpc fun p hp => ?_⟩
      rcases hq with hq | hq
      · rw [hq] at hp
        cases hp
      · exact ha t p (hq ▸ hp)

/-- **Pointers are really locked exactly if they fit** into the field of the key. -/
theorem locked_iff (hS : ∀ p ∈ S, p ≠ 0 ∧ Acceptable p) :
    Locked T cfg S ↔ ∀ p ∈ S, p.toNat < 2 ^ 61 := by
  constructor
  · exact fun h p hp => (findMatches_iff p).mp (h.find p hp)
  · intro hfit
    refine ⟨fun p hp => (findMatches_iff p).mpr (hfit p hp),
      fun p hp => (lockIfMatches_iff p).mpr (hfit p hp), fun p hp q hq heq => ?_,
      fun s hs p _ t u m m' ht hu => ?_⟩
    · rw [lockedWithPtr, lockedWithPtr, ptr61_setPtr61, ptr61_setPtr61] at heq
      rw [← ofPtr61_toPtr61 (hfit p hp), heq, ofPtr61_toPtr61 (hfit q hq)]
    · obtain ⟨hr, -⟩ := reach_monitor (fun p hp => ⟨(hS p hp).1, hfit p hp⟩) hs
      exact (exclusive_of_reach cfg hr).user t u m m' p ht hu

end Steps

/-- A pointer that fits, with one slot and one float monitor. -/
theorem locked_eight :
    Locked (Fin 2) (M := Fin 2) ⟨fun _ => 0, fun m => m == 0, fun _ => rfl⟩ {8} :=
  (locked_iff fun p hp => by rw [Set.mem_singleton_iff.mp hp]; decide).mpr
    fun p hp => by rw [Set.mem_singleton_iff.mp hp]; decide

/-- **A pointer that is accepted and does not fit**: what is stored for it is not recognised,
and it is what is stored for another pointer. -/
theorem exists_unrecognised : (∃ p q : Ptr, p ≠ 0 ∧ Acceptable p ∧ Acceptable q ∧ p ≠ q
    ∧ findMatches (lockedWithPtr p) p = false ∧ lockIfMatches (lockedWithPtr p) p = false
    ∧ lockedWithPtr p = lockedWithPtr q)
    ∧ ∀ cfg : Config Ptr (Fin 2), ¬ Locked (Fin 2) cfg {p | p ≠ 0 ∧ Acceptable p} := by
  have hfind : findMatches (lockedWithPtr (BitVec.ofNat 64 (2 ^ 61 + 8)))
      (BitVec.ofNat 64 (2 ^ 61 + 8)) = false := by decide +kernel
  refine ⟨⟨BitVec.ofNat 64 (2 ^ 61 + 8), 8, by decide, by decide, by decide, by decide, hfind,
    by decide +kernel, by decide +kernel⟩, fun cfg h => ?_⟩
  have hmem : BitVec.ofNat 64 (2 ^ 61 + 8) ∈ {p : Ptr | p ≠ 0 ∧ Acceptable p} :=
    ⟨by decide, by decide⟩
  rw [h.find _ hmem] at hfind
  cases hfind

end MonitorKey
