import Lwlock.RwBitlockIsolated

/-!
# The mark of a waiter and its place in the wait list

`complete_wait` reads the tag of the waiter, sets a field of the copy and writes
the copy back, without the lock of the wait list. A reader that was woken up
while the count was saturated does this while it is still in the list, and there
the unlock of any other reader may take it out and clear its `in_list`. Here the
read and the write are steps of their own.

The machine with the two steps refines the one where `complete_wait` is a single
step: the read is silent, and a client between its read and its write counts as
one that was told and has not run yet. This holds as long as no section takes a
waiter out of the list between the two; if one does, the old mark comes back.
-/

namespace RwBitlock

variable {C K ι : Type} {cfg : Config K ι} [DecidableEq C] [DecidableEq K] [DecidableEq ι]

/-! ## The two steps of `complete_wait` -/

/-- **A state with the tags in hand**: what `complete_wait` of a client has read and
has not written back. -/
structure Split (C K ι : Type) where
  base : State C K ι
  read : C → Option Tag

/-- **`complete_wait`**: the end of the wait with the read of the tag, or the write. -/
def completeWait (s : Split C K ι) (c : C) (k : K) (rd : Bool) : Option (Split C K ι) :=
  match s.read c with
  | none =>
    if s.base.signalled c then
      if (s.base.tag c).haveLock ∧ (s.base.tag c).needToWait
          ∧ (s.base.tag c).waitedForLock = false then
        some { base := { s.base with signalled := Function.update s.base.signalled c false }
               read := Function.update s.read c (some (s.base.tag c)) }
      else some { s with base := s.base.goto c .aborted }
    else none
  | some tag =>
    some { base := { s.base.setTag c { tag with waitedForLock := true } with
             src := Function.update s.base.src c none
             granted := Function.update s.base.granted c false }.goto c
             (if rd then .reading k else .writing k)
           read := Function.update s.read c none }

/-- **The machine with a split `complete_wait`.** All other steps are as they were. -/
def split (C : Type) [DecidableEq C] (cfg : Config K ι) :
    Machine (Split C K ι) (Event C K ι) where
  start := fun s => Start s.base ∧ ∀ c, s.read c = none
  step := fun s e =>
    let rest := ((machine C cfg).step s.base e).map fun t => { s with base := t }
    match e with
    | .move c => match s.base.pc c with
      | .waiting k rd => completeWait s c k rd
      | _ => rest
    | _ => rest

/-- A step that is not one of `complete_wait`. -/
def Other (s : State C K ι) (e : Event C K ι) : Prop :=
  ∀ c k rd, e = .move c → s.pc c ≠ .waiting k rd

/-- **The waiter of another client that a section of `readunlock` takes out of the
list**, because it is counted there. -/
def unlinks (cfg : Config K ι) (s : State C K ι) : Event C K ι → Option C
  | .move c => match s.pc c with
    | .readUnlockSection k =>
      if leavesWork cfg s k = true ∧ (s.tag c).inList = false then
        (s.found cfg k).head?.filter fun f => (s.tag f).haveLock
      else none
    | _ => none
  | _ => none

/-- **Nobody is taken out of the list with its tag in hand.** -/
def Undisturbed (cfg : Config K ι) (s : Split C K ι) (e : Event C K ι) (_ : Split C K ι) : Prop :=
  ∀ f ∈ unlinks cfg s.base e, s.read f = none

instance (s : Split C K ι) (e : Event C K ι) (s' : Split C K ι) :
    Decidable (Undisturbed cfg s e s') :=
  inferInstanceAs (Decidable (∀ f ∈ unlinks cfg s.base e, s.read f = none))

/-! ## Told, and not run yet -/

/-- A state in which some clients more were told. -/
def State.told (s : State C K ι) (p : C → Bool) : State C K ι :=
  { s with signalled := fun c => s.signalled c || p c }

/-- **The state of the machine with a single step**: who has its tag in hand was told
and has not run yet. -/
def Split.abs (s : Split C K ι) : State C K ι :=
  s.base.told fun c => (s.read c).isSome

section told

variable {s : State C K ι} {p : C → Bool} {c : C} {k : K}

omit [DecidableEq K] in
theorem told_append (hp : p c = false) (tag : Tag) :
    (s.told p).append cfg c k tag = (s.append cfg c k tag).told p := by
  have hsig : Function.update (fun d => s.signalled d || p d) c false
      = fun d => Function.update s.signalled c false d || p d := by
    funext d
    by_cases hd : d = c
    · rw [hd, Function.update_self, Function.update_self, hp]
      rfl
    · rw [Function.update_of_ne hd, Function.update_of_ne hd]
  show ({ s.setTag c tag with
    src := _, signalled := Function.update (fun d => s.signalled d || p d) c false
    granted := _, list := _ } : State C K ι) = _
  rw [hsig]
  rfl

omit [DecidableEq C] [DecidableEq K] [DecidableEq ι] in
theorem told_ite (q : Prop) [Decidable q] (s t : State C K ι) (p : C → Bool) :
    (if q then s else t).told p = if q then s.told p else t.told p :=
  apply_ite (fun u => State.told u p) q s t

omit [DecidableEq C] [DecidableEq ι] in
theorem told_setRdlock (try' under : Bool) :
    setRdlock cfg (s.told p) k try' under = (setRdlock cfg s k try' under).told p := by
  simp only [setRdlock, told_ite]
  rfl

omit [DecidableEq C] [DecidableEq ι] in
theorem told_setWrlock (try' under : Bool) :
    setWrlock (s.told p) k try' under = (setWrlock s k try' under).told p := by
  simp only [setWrlock, told_ite]
  rfl

omit [DecidableEq ι] in
theorem told_readlock (try' : Bool) :
    readlock cfg (s.told p) c k try' = (readlock cfg s c k try').told p := by
  simp only [readlock, told_setRdlock, told_ite]
  rfl

theorem told_readSection (hp : p c = false) (try' : Bool) :
    readSection cfg (s.told p) c k try' = (readSection cfg s c k try').told p := by
  simp only [readSection, told_setRdlock, told_append hp, told_ite]
  rfl

omit [DecidableEq ι] in
theorem told_writelock (try' : Bool) :
    writelock cfg (s.told p) c k try' = (writelock cfg s c k try').told p := by
  simp only [writelock, told_setWrlock, told_ite]
  rfl

theorem told_writeSection (hp : p c = false) :
    writeSection cfg (s.told p) c k = (writeSection cfg s c k).told p := by
  simp only [writeSection, told_setWrlock, told_append hp, told_ite]
  rfl

omit [DecidableEq ι] in
theorem told_readunlock :
    readunlock cfg (s.told p) c k = (readunlock cfg s c k).told p := by
  simp only [readunlock, told_ite]
  rfl

theorem told_readUnlockSection :
    readUnlockSection cfg (s.told p) c k = (readUnlockSection cfg s c k).told p := by
  have hfound : (s.told p).found cfg k = s.found cfg k := rfl
  rw [readUnlockSection, readUnlockSection, hfound]
  cases s.found cfg k with
  | nil =>
    simp only [told_ite]
    rfl
  | cons f rest =>
    simp only [told_ite]
    rfl

theorem told_writeUnlockSection :
    writeUnlockSection cfg (s.told p) c k = (writeUnlockSection cfg s c k).told p := by
  have hfound : (s.told p).found cfg k = s.found cfg k := rfl
  have hfind := findEligibleWaiters_congr (s := s) (t := s.told p) rfl
  have hwake := wakeEligibleReaders_congr (s := s) (t := s.told p) rfl
  rw [writeUnlockSection, writeUnlockSection, hfound]
  cases s.found cfg k with
  | nil => rfl
  | cons f m =>
    -- who is woken up in the list is told in any case
    have hsig : ∀ o : List C, (fun d => if d ∈ o then true else (s.told p).signalled d)
        = fun d => (if d ∈ o then true else s.signalled d) || p d := by
      intro o
      funext d
      by_cases hd : d ∈ o
      · rw [if_pos hd, if_pos hd, Bool.true_or]
      · rw [if_neg hd, if_neg hd]
        rfl
    simp only [hfind, hwake, hsig]
    rfl

end told

/-! ## What the other steps leave alone -/

/-- Nothing happened to a waiter. -/
structure Kept (s s' : State C K ι) (d : C) : Prop where
  tag : s'.tag d = s.tag d
  signalled : s'.signalled d = s.signalled d
  pc : s'.pc d = s.pc d

/-- **A step of the machine with more clients told** is the same step. -/
theorem step_told {s s' : State C K ι} {e : Event C K ι} {p : C → Bool}
    (hp : ∀ c, p c = true → ∃ k rd, s.pc c = .waiting k rd) (ho : Other s e)
    (he : (machine C cfg).step s e = some s') :
    (machine C cfg).step (s.told p) e = some (s'.told p) := by
  have hpf : ∀ c, (∀ k rd, s.pc c ≠ .waiting k rd) → p c = false := by
    intro c hc
    by_contra h
    obtain ⟨k, rd, hk⟩ := hp c (Bool.not_eq_false _ ▸ h)
    exact hc k rd hk
  cases e with
  | call c op =>
    simp only [machine, call] at he ⊢
    rw [show (s.told p).pc c = s.pc c from rfl]
    split at he
    · rw [told_readlock, Option.some.inj he]
    · rw [told_writelock, Option.some.inj he]
    · rw [told_readunlock, Option.some.inj he]
    · rw [show writeunlock (s.told p) c _ = (writeunlock s c _).told p by
        simp only [writeunlock, told_ite]
        rfl, Option.some.inj he]
    · cases he
  | move c =>
    simp only [machine, move] at he ⊢
    rw [show (s.told p).pc c = s.pc c from rfl]
    cases hpc : s.pc c with
    | idle | reading | writing | foreign | aborted => simp [hpc] at he
    | waiting k rd => exact absurd hpc (ho c k rd rfl)
    | readSection k try' =>
      simp only [hpc] at he ⊢
      rw [told_readSection (hpf c (by rw [hpc]; simp)), Option.some.inj he]
    | writeSection k =>
      simp only [hpc] at he ⊢
      rw [told_writeSection (hpf c (by rw [hpc]; simp)), Option.some.inj he]
    | readUnlockSection k =>
      simp only [hpc] at he ⊢
      rw [told_readUnlockSection, Option.some.inj he]
    | writeUnlockSection k =>
      simp only [hpc] at he ⊢
      rw [told_writeUnlockSection, Option.some.inj he]
    | granting k ds =>
      cases ds with
      | nil =>
        simp only [hpc] at he ⊢
        rw [← Option.some.inj he]
        rfl
      | cons d ds =>
        simp only [hpc] at he ⊢
        have hsig : Function.update (s.told p).signalled d true
            = fun e => Function.update s.signalled d true e || p e := by
          funext e
          by_cases hed : e = d
          · rw [hed, Function.update_self, Function.update_self, Bool.true_or]
          · rw [Function.update_of_ne hed, Function.update_of_ne hed]
            rfl
        rw [hsig, ← Option.some.inj he]
        rfl
  | join c i tag =>
    simp only [machine] at he ⊢
    rw [show (s.told p).pc c = s.pc c from rfl]
    split_ifs at he ⊢
    rw [← Option.some.inj he]
    rfl
  | leave c =>
    simp only [machine] at he ⊢
    rw [show (s.told p).pc c = s.pc c from rfl]
    split at he
    · rw [← Option.some.inj he]
      rfl
    · cases he

omit [DecidableEq ι] in
theorem Kept.goto {s s' : State C K ι} {c d : C} {p : Pc C K ι} (h : Kept s s' d) (hcd : d ≠ c) :
    Kept s (s'.goto c p) d :=
  ⟨h.tag, h.signalled, (Function.update_of_ne hcd _ _).trans h.pc⟩

omit [DecidableEq K] [DecidableEq ι] in
theorem Kept.setTag {s s' : State C K ι} {c d : C} {tag : Tag} (h : Kept s s' d) (hcd : d ≠ c) :
    Kept s (s'.setTag c tag) d :=
  ⟨(Function.update_of_ne hcd _ _).trans h.tag, h.signalled, h.pc⟩

omit [DecidableEq K] in
theorem Kept.append {s s' : State C K ι} {c d : C} {k : K} {tag : Tag} (h : Kept s s' d)
    (hcd : d ≠ c) : Kept s (s'.append cfg c k tag) d :=
  ⟨(Function.update_of_ne hcd _ _).trans h.tag, (Function.update_of_ne hcd _ _).trans h.signalled,
    h.pc⟩

omit [DecidableEq C] [DecidableEq ι] in
theorem Kept.setBits {s s' : State C K ι} {d : C} {k : K} {w : Bool} {r : ℕ} (h : Kept s s' d) :
    Kept s (s'.setBits k w r) d :=
  ⟨h.tag, h.signalled, h.pc⟩

omit [DecidableEq K] in
theorem Kept.remove {s s' : State C K ι} {d : C} {i : ι} {ds : List C} (h : Kept s s' d) :
    Kept s (s'.remove i ds) d :=
  ⟨h.tag, h.signalled, h.pc⟩

omit [DecidableEq C] [DecidableEq K] [DecidableEq ι] in
theorem Kept.refl (s : State C K ι) (d : C) : Kept s s d :=
  ⟨rfl, rfl, rfl⟩

omit [DecidableEq C] [DecidableEq K] [DecidableEq ι] in
theorem Kept.ite {s t u : State C K ι} {d : C} {q : Prop} [Decidable q] (ht : Kept s t d)
    (hu : Kept s u d) : Kept s (if q then t else u) d := by
  split_ifs
  · exact ht
  · exact hu

/-- Two states in which the clients are the same. -/
structure SameClients (s s' : State C K ι) : Prop where
  tag : s'.tag = s.tag
  signalled : s'.signalled = s.signalled
  granted : s'.granted = s.granted
  pc : s'.pc = s.pc

omit [DecidableEq C] [DecidableEq K] [DecidableEq ι] in
theorem SameClients.kept {s s' : State C K ι} (h : SameClients s s') (d : C) : Kept s s' d :=
  ⟨congrFun h.tag d, congrFun h.signalled d, congrFun h.pc d⟩

omit [DecidableEq C] [DecidableEq ι] in
theorem setRdlock_clients (s : State C K ι) (k : K) (try' under : Bool) :
    SameClients s (setRdlock cfg s k try' under) := by
  unfold setRdlock
  split_ifs <;> exact ⟨rfl, rfl, rfl, rfl⟩

omit [DecidableEq C] [DecidableEq ι] in
theorem setWrlock_clients (s : State C K ι) (k : K) (try' under : Bool) :
    SameClients s (setWrlock s k try' under) := by
  unfold setWrlock
  split_ifs <;> exact ⟨rfl, rfl, rfl, rfl⟩

/-- **Who was told is not in the line**, so an unlock of a writer does not find it. -/
theorem Good.not_found {s : State C K ι} {c d : C} {k : K} (h : Good cfg s)
    (hpc : s.pc c = .writeUnlockSection k) (halone : Alone cfg s k) (hd : s.signalled d = true) :
    d ∉ s.found cfg k := by
  obtain ⟨hrep, g, hc, hs⟩ := h
  rw [hrep.found halone]
  intro hmem
  have hwr : g.wr k ≠ none := by
    rw [(hc.wr c k).mpr (.inl (by rw [show (s.abs cfg).pc c = s.pc c from rfl, hpc]; rfl))]
    nofun
  have hq : queueOf cfg s.list s.pc k = g.surplus k ++ g.line k := hc.queue k
  rw [hq, ((hs k).writing hwr).1, List.nil_append] at hmem
  have hg : s.granted d = true := (hc.signalled d hd).1
  rw [show s.granted d = false from (hc.line k d hmem).2.1] at hg
  cases hg

/-- **The section of `writeunlock`** leaves those alone that were told. -/
theorem writeUnlockSection_keeps {s : State C K ι} {p : C → Bool} {c d : C} {k : K}
    (h : Good cfg (s.told p)) (hd : p d = true) (hpc : s.pc c = .writeUnlockSection k)
    (halone : Alone cfg s k) (hcd : d ≠ c) : Kept s (writeUnlockSection cfg s c k) d := by
  have hnot : d ∉ s.found cfg k :=
    h.not_found (d := d) hpc halone (by
      rw [show (s.told p).signalled d = (s.signalled d || p d) from rfl, hd, Bool.or_true])
  have hhand : ∀ taken surplus w r, d ∉ surplus → Kept s (s.handOver cfg c k taken surplus w r) d := by
    intro taken surplus w r ho
    exact Kept.goto ⟨if_neg ho, if_neg ho, rfl⟩ hcd
  cases hm : s.found cfg k with
  | nil =>
    rw [writeUnlockSection, hm]
    exact (Kept.refl s d).goto hcd
  | cons f m =>
    rw [hm] at hnot
    cases hf : (s.tag f).rdlock with
    | false =>
      rw [writeUnlockSection_writer hm hf]
      exact hhand _ _ _ _ List.not_mem_nil
    | true =>
      obtain ⟨R, O, rest, hfm, -, -, -, -, -, hsec⟩ := writeUnlockSection_readers (c := c) hm hf
        (le_trans (by decide) (cfg.three_le_maxReaders k))
      rw [hsec]
      refine hhand _ _ _ _ fun ho => hnot ?_
      rw [hfm]
      exact List.mem_append_right _ (List.mem_append_left _ ho)

/-- **The section of `readunlock`** leaves those alone that were told, except for the
one that it takes out of the list. -/
theorem readUnlockSection_keeps {s : State C K ι} {p : C → Bool} {c d : C} {k : K}
    (h : Good cfg (s.told p)) (hd : p d = true) (hpc : s.pc c = .readUnlockSection k)
    (hun : d ∉ unlinks cfg s (.move c)) (hcd : d ≠ c) : Kept s (readUnlockSection cfg s c k) d := by
  have hs := Kept.refl s d
  have hhave : (s.tag d).haveLock = true := by
    obtain ⟨-, g, hc, -⟩ := h
    refine (hc.signalled d ?_).2
    rw [show ((s.told p).abs cfg).signalled d = (s.signalled d || p d) from rfl, hd, Bool.or_true]
  rw [readUnlockSection]
  by_cases hl : leavesWork cfg s k = false
  · rw [if_pos hl]
    exact .ite (hs.goto hcd) (hs.setBits.goto hcd)
  · rw [if_neg hl]
    by_cases hin : (s.tag c).inList = true
    · rw [if_pos hin]
      exact .ite ((hs.remove.setTag hcd).goto hcd) (hs.goto hcd)
    · rw [if_neg hin]
      cases hm : s.found cfg k with
      | nil => exact hs.setBits.goto hcd
      | cons f rest =>
        dsimp only
        by_cases hf : (s.tag f).haveLock = true
        · have hdf : d ≠ f := by
            rintro rfl
            refine hun ?_
            simp only [unlinks, hpc, hm]
            rw [if_pos ⟨Bool.not_eq_false _ ▸ hl, Bool.not_eq_true _ ▸ hin⟩]
            simp [hf]
          rw [if_pos hf]
          exact (hs.remove.setTag hdf).goto hcd
        · have hdf : d ≠ f := fun hdf => hf (hdf ▸ hhave)
          rw [if_neg hf]
          refine .ite (hs.goto hcd) (.ite (.goto (.setBits ?_) hcd) (hs.setBits.goto hcd))
          have hrem : Kept s (s.remove (cfg.list k) [f]) d := hs.remove
          have hsf : Kept s ((s.remove (cfg.list k) [f]).setTag f { s.tag f with inList := false }) d :=
            hrem.setTag hdf
          exact ⟨hsf.tag, hsf.signalled, hsf.pc⟩

/-- **Every other step** leaves those alone that were told. -/
theorem step_keeps {s s' : State C K ι} {e : Event C K ι} {p : C → Bool} {d : C}
    (h : Good cfg (s.told p)) (hd : p d = true) (hw : ∃ k rd, s.pc d = .waiting k rd)
    (ho : Other s e) (hsh : Unshared cfg s e s') (hun : d ∉ unlinks cfg s e)
    (he : (machine C cfg).step s e = some s') : Kept s s' d := by
  have hs := Kept.refl s d
  have hne : ∀ c, (∀ k rd, s.pc c ≠ .waiting k rd) → d ≠ c := by
    rintro c hc rfl
    obtain ⟨k, rd, hk⟩ := hw
    exact hc k rd hk
  cases e with
  | call c op =>
    simp only [machine, call] at he
    split at he
    · next k try' hpc =>
      have hcd := hne c (by rw [hpc]; simp)
      have hclients : SameClients s (setRdlock cfg s k try' false) := setRdlock_clients s k try' false
      have hset := hclients.kept d
      rw [← Option.some.inj he]
      exact .ite ((hset.setTag hcd).goto hcd) (.ite hset (hset.goto hcd))
    · next k try' hpc =>
      have hcd := hne c (by rw [hpc]; simp)
      have hset := (setWrlock_clients s k try' false).kept d
      rw [← Option.some.inj he]
      exact .ite ((hset.setTag hcd).goto hcd) (.ite hset (hset.goto hcd))
    · next k hpc =>
      have hcd := hne c (by rw [hpc]; simp)
      rw [← Option.some.inj he]
      exact .ite (hs.goto hcd) (hs.setBits.goto hcd)
    · next k hpc =>
      have hcd := hne c (by rw [hpc]; simp)
      rw [← Option.some.inj he]
      exact .ite (hs.goto hcd) (hs.setBits.goto hcd)
    · cases he
  | move c =>
    have hcd := hne c (ho c · · rfl)
    simp only [machine, move] at he
    cases hpc : s.pc c with
    | idle | reading | writing | foreign | aborted => simp [hpc] at he
    | waiting k rd => exact absurd hpc (ho c k rd rfl)
    | readSection k try' =>
      have hclients : SameClients s (setRdlock cfg s k try' true) := setRdlock_clients s k try' true
      have hset := hclients.kept d
      simp only [hpc] at he
      rw [← Option.some.inj he]
      exact .ite ((hset.setTag hcd).goto hcd) (.ite (hset.goto hcd)
        (.ite ((hset.append hcd).goto hcd) ((hset.append hcd).goto hcd)))
    | writeSection k =>
      have hset := (setWrlock_clients s k false true).kept d
      simp only [hpc] at he
      rw [← Option.some.inj he]
      exact .ite ((hset.setTag hcd).goto hcd) ((hset.append hcd).goto hcd)
    | readUnlockSection k =>
      simp only [hpc] at he
      rw [← Option.some.inj he]
      exact readUnlockSection_keeps h hd hpc hun hcd
    | writeUnlockSection k =>
      simp only [hpc] at he
      rw [← Option.some.inj he]
      exact writeUnlockSection_keeps h hd hpc (hsh k (by simp only [searches, hpc]; rfl)) hcd
    | granting k ds =>
      cases ds with
      | nil =>
        simp only [hpc] at he
        rw [← Option.some.inj he]
        exact hs.goto hcd
      | cons f ds =>
        -- who is to be woken up was not told
        have hdf : d ≠ f := by
          rintro rfl
          obtain ⟨-, g, hc, -⟩ := h
          have hno : (s.signalled d || p d) = false := (hc.grants c d (by
            rw [show ((s.told p).abs cfg).pc c = s.pc c from rfl, hpc]
            exact List.mem_cons_self)).2.1
          rw [hd, Bool.or_true] at hno
          cases hno
        simp only [hpc] at he
        rw [← Option.some.inj he]
        have hset : Kept s (s.setTag f { s.tag f with inList := false, haveLock := true }) d :=
          hs.setTag hdf
        exact Kept.goto ⟨hset.tag, Function.update_of_ne hdf _ _, hset.pc⟩ hcd
  | join c i tag =>
    simp only [machine] at he
    split_ifs at he with hc
    have hcd := hne c (by rw [hc.1]; simp)
    rw [← Option.some.inj he]
    have hset : Kept s (s.setTag c tag) d := hs.setTag hcd
    exact Kept.goto ⟨hset.tag, hset.signalled, hset.pc⟩ hcd
  | leave c =>
    simp only [machine] at he
    split at he
    · next i hpc =>
      rw [← Option.some.inj he]
      exact hs.remove.goto (hne c (by rw [hpc]; simp))
    · cases he

/-! ## Who was handed the lock -/

/-- **Who was handed the lock** was told, or somebody is about to tell. -/
def Owed (s : State C K ι) : Prop :=
  ∀ c, s.granted c = true → s.signalled c = true ∨ ∃ c', c ∈ (s.pc c').grants

omit [DecidableEq C] [DecidableEq K] [DecidableEq ι] in
/-- One client moves. -/
theorem Owed.step {s s' : State C K ι} {c : C} {p : Pc C K ι} (h : Owed s) (hself : s'.pc c = p)
    (hpc : ∀ c', c' ≠ c → s'.pc c' = s.pc c')
    (hg : ∀ d, s'.granted d = true → s'.signalled d = true ∨ d ∈ p.grants
      ∨ (s.granted d = true ∧ s'.signalled d = s.signalled d ∧ d ∉ (s.pc c).grants)) : Owed s' := by
  intro d hd
  rcases hg d hd with hsig | hgr | ⟨hd', hsig, hno⟩
  · exact .inl hsig
  · exact .inr ⟨c, hself ▸ hgr⟩
  · rw [hsig]
    refine (h d hd').imp_right ?_
    rintro ⟨c', hc'⟩
    have hne : c' ≠ c := by
      rintro rfl
      exact hno hc'
    exact ⟨c', (hpc c' hne).symm ▸ hc'⟩

omit [DecidableEq K] [DecidableEq ι] in
/-- A client moves that has nobody to wake up. -/
theorem Owed.goto {s s' : State C K ι} {c : C} {p : Pc C K ι} (h : Owed s) (hs : SameClients s s')
    (hc : (s.pc c).grants = []) : Owed (s'.goto c p) := by
  refine h.step (c := c) (Function.update_self _ _ _) (fun c' hne => ?_) fun d hd => .inr (.inr ⟨?_, ?_, ?_⟩)
  · exact (Function.update_of_ne hne _ _).trans (congrFun hs.pc c')
  · exact hs.granted ▸ hd
  · exact congrFun hs.signalled d
  · rw [hc]
    exact List.not_mem_nil

/-- A client goes into the list. -/
theorem Owed.append {s s' : State C K ι} {c : C} {k : K} {tag : Tag} {p : Pc C K ι} (h : Owed s)
    (hs : SameClients s s') (hc : (s.pc c).grants = []) :
    Owed ((s'.append cfg c k tag).goto c p) := by
  refine h.step (c := c) (Function.update_self _ _ _) (fun c' hne => ?_) fun d hd => .inr (.inr ?_)
  · exact (Function.update_of_ne hne _ _).trans (congrFun hs.pc c')
  · have hd : Function.update s'.granted c false d = true := hd
    have hdc : d ≠ c := by
      rintro rfl
      rw [Function.update_self] at hd
      cases hd
    rw [Function.update_of_ne hdc, hs.granted] at hd
    refine ⟨hd, (Function.update_of_ne hdc _ _).trans (congrFun hs.signalled d), ?_⟩
    rw [hc]
    exact List.not_mem_nil

omit [DecidableEq C] [DecidableEq K] [DecidableEq ι] in
theorem Owed.ite {s t : State C K ι} {q : Prop} [Decidable q] (hs : Owed s) (ht : Owed t) :
    Owed (if q then s else t) := by
  split_ifs
  · exact hs
  · exact ht

omit [DecidableEq K] [DecidableEq ι] in
/-- A client moves after its tag, the list and the bits were changed. -/
theorem Owed.other {s s' : State C K ι} {c : C} {p : Pc C K ι} (h : Owed s)
    (hsig : s'.signalled = s.signalled) (hg : s'.granted = s.granted) (hpc : s'.pc = s.pc)
    (hc : (s.pc c).grants = []) : Owed (s'.goto c p) :=
  Owed.goto (s := { s with tag := s'.tag }) h ⟨rfl, hsig, hg, hpc⟩ hc

/-- **The section of `writeunlock`** tells or is about to tell. -/
theorem writeUnlockSection_owed {s : State C K ι} {c : C} {k : K} (h : Owed s)
    (hpc : s.pc c = .writeUnlockSection k) : Owed (writeUnlockSection cfg s c k) := by
  have hc : (s.pc c).grants = [] := by rw [hpc]; rfl
  have hhand : ∀ taken surplus w r, Owed (s.handOver cfg c k taken surplus w r) := by
    intro taken surplus w r
    refine h.step (c := c) (Function.update_self _ _ _) (fun c' hne => Function.update_of_ne hne _ _) fun d hd => ?_
    rw [hc]
    by_cases ho : d ∈ surplus
    · exact .inl (if_pos ho)
    · by_cases ht : d ∈ taken
      · exact .inr (.inl ht)
      · refine .inr (.inr ⟨?_, if_neg ho, List.not_mem_nil⟩)
        exact (if_neg (not_or.mpr ⟨ht, ho⟩)).symm.trans hd
  cases hm : s.found cfg k with
  | nil =>
    rw [writeUnlockSection, hm]
    exact h.other rfl rfl rfl hc
  | cons f m =>
    cases hf : (s.tag f).rdlock with
    | false =>
      rw [writeUnlockSection_writer hm hf]
      exact hhand _ _ _ _
    | true =>
      obtain ⟨R, O, rest, -, -, -, -, -, -, hsec⟩ := writeUnlockSection_readers (c := c) hm hf
        (le_trans (by decide) (cfg.three_le_maxReaders k))
      rw [hsec]
      exact hhand _ _ _ _

/-- **The section of `readunlock`** is about to tell a writer. -/
theorem readUnlockSection_owed {s : State C K ι} {c : C} {k : K} (h : Owed s)
    (hpc : s.pc c = .readUnlockSection k) : Owed (readUnlockSection cfg s c k) := by
  have hc : (s.pc c).grants = [] := by rw [hpc]; rfl
  rw [readUnlockSection]
  refine .ite (.ite (h.other rfl rfl rfl hc) (h.other rfl rfl rfl hc))
    (.ite (.ite (h.other rfl rfl rfl hc) (h.other rfl rfl rfl hc)) ?_)
  cases s.found cfg k with
  | nil => exact h.other rfl rfl rfl hc
  | cons f rest =>
    refine .ite (h.other rfl rfl rfl hc) (.ite (h.other rfl rfl rfl hc)
      (.ite ?_ (h.other rfl rfl rfl hc)))
    refine h.step (c := c) (Function.update_self _ _ _) (fun c' hne => Function.update_of_ne hne _ _) fun d hd => ?_
    have hd : Function.update s.granted f true d = true := hd
    rw [hc]
    by_cases hdf : d = f
    · exact .inr (.inl (hdf ▸ List.mem_singleton_self f))
    · rw [Function.update_of_ne hdf] at hd
      exact .inr (.inr ⟨hd, rfl, List.not_mem_nil⟩)

/-- **Every step** keeps it. -/
theorem step_owed {s s' : State C K ι} {e : Event C K ι} (h : Owed s)
    (he : (machine C cfg).step s e = some s') : Owed s' := by
  cases e with
  | call c op =>
    simp only [machine, call] at he
    split at he
    · next k try' hpc =>
      have hc : (s.pc c).grants = [] := by rw [hpc]; rfl
      have hset : SameClients s (setRdlock cfg s k try' false) := setRdlock_clients s k try' false
      have hown : Owed (setRdlock cfg s k try' false) := by
        intro d hd
        rw [hset.signalled, hset.pc]
        exact h d (hset.granted ▸ hd)
      rw [← Option.some.inj he]
      exact .ite (h.other hset.signalled hset.granted hset.pc hc)
        (.ite hown (h.goto hset hc))
    · next k try' hpc =>
      have hc : (s.pc c).grants = [] := by rw [hpc]; rfl
      have hset := setWrlock_clients s k try' false
      have hown : Owed (setWrlock s k try' false) := by
        intro d hd
        rw [hset.signalled, hset.pc]
        exact h d (hset.granted ▸ hd)
      rw [← Option.some.inj he]
      exact .ite (h.other hset.signalled hset.granted hset.pc hc)
        (.ite hown (h.goto hset hc))
    · next k hpc =>
      have hc : (s.pc c).grants = [] := by rw [hpc]; rfl
      rw [← Option.some.inj he]
      exact .ite (h.other rfl rfl rfl hc) (h.other rfl rfl rfl hc)
    · next k hpc =>
      have hc : (s.pc c).grants = [] := by rw [hpc]; rfl
      rw [← Option.some.inj he]
      exact .ite (h.other rfl rfl rfl hc) (h.other rfl rfl rfl hc)
    · cases he
  | move c =>
    simp only [machine, move] at he
    cases hpc : s.pc c with
    | idle | reading | writing | foreign | aborted => simp [hpc] at he
    | waiting k rd =>
      have hc : (s.pc c).grants = [] := by rw [hpc]; rfl
      simp only [hpc] at he
      by_cases hsig : s.signalled c = true
      · rw [if_pos hsig] at he
        split at he
        · rw [← Option.some.inj he]
          refine h.step (c := c) (Function.update_self _ _ _)
            (fun c' hne => Function.update_of_ne hne _ _) fun d hd => ?_
          have hd : Function.update s.granted c false d = true := hd
          have hdc : d ≠ c := by
            rintro rfl
            rw [Function.update_self] at hd
            cases hd
          rw [Function.update_of_ne hdc] at hd
          refine .inr (.inr ⟨hd, Function.update_of_ne hdc _ _, ?_⟩)
          rw [hc]
          exact List.not_mem_nil
        · rw [← Option.some.inj he]
          exact h.other rfl rfl rfl hc
      · rw [if_neg hsig] at he
        cases he
    | readSection k try' =>
      have hc : (s.pc c).grants = [] := by rw [hpc]; rfl
      have hset : SameClients s (setRdlock cfg s k try' true) := setRdlock_clients s k try' true
      simp only [hpc] at he
      rw [← Option.some.inj he]
      exact .ite (h.other hset.signalled hset.granted hset.pc hc) (.ite (h.goto hset hc)
        (.ite (h.append hset hc) (h.append hset hc)))
    | writeSection k =>
      have hc : (s.pc c).grants = [] := by rw [hpc]; rfl
      have hset := setWrlock_clients s k false true
      simp only [hpc] at he
      rw [← Option.some.inj he]
      exact .ite (h.other hset.signalled hset.granted hset.pc hc) (h.append hset hc)
    | readUnlockSection k =>
      simp only [hpc] at he
      rw [← Option.some.inj he]
      exact readUnlockSection_owed h hpc
    | writeUnlockSection k =>
      simp only [hpc] at he
      rw [← Option.some.inj he]
      exact writeUnlockSection_owed h hpc
    | granting k ds =>
      cases ds with
      | nil =>
        simp only [hpc] at he
        rw [← Option.some.inj he]
        exact h.other rfl rfl rfl (by rw [hpc]; rfl)
      | cons f ds =>
        simp only [hpc] at he
        rw [← Option.some.inj he]
        refine h.step (c := c) (Function.update_self _ _ _) (fun c' hne => Function.update_of_ne hne _ _) fun d hd => ?_
        rw [hpc]
        by_cases hdf : d = f
        · obtain rfl := hdf
          left
          show Function.update s.signalled d true d = true
          exact Function.update_self _ _ _
        · by_cases hds : d ∈ ds
          · exact .inr (.inl hds)
          · refine .inr (.inr ⟨hd, Function.update_of_ne hdf _ _, fun hmem => ?_⟩)
            rcases List.mem_cons.mp hmem with hdf' | hds'
            · exact hdf hdf'
            · exact hds hds'
  | join c i tag =>
    simp only [machine] at he
    split_ifs at he with hc
    rw [← Option.some.inj he]
    exact h.other rfl rfl rfl (by rw [hc.1]; rfl)
  | leave c =>
    simp only [machine] at he
    split at he
    · next i hpc =>
      rw [← Option.some.inj he]
      exact h.other rfl rfl rfl (by rw [hpc]; rfl)
    · cases he

/-! ## The invariant -/

/-- **The invariant of the split machine**: that of the machine with a single step,
and a tag in hand is the one that its waiter has. -/
structure Split.Good (cfg : Config K ι) (s : Split C K ι) : Prop where
  good : RwBitlock.Good cfg s.abs
  owed : Owed s.abs
  waits : ∀ c tag, s.read c = some tag → ∃ k rd, s.base.pc c = .waiting k rd
  taken : ∀ c tag, s.read c = some tag → s.base.signalled c = false
  same : ∀ c tag, s.read c = some tag → s.base.tag c = tag
  verified : ∀ c tag, s.read c = some tag →
    tag.haveLock = true ∧ tag.needToWait = true ∧ tag.waitedForLock = false

omit [DecidableEq C] [DecidableEq ι] in
theorem Split.Good.init {s : Split C K ι} (h : Start s.base ∧ ∀ c, s.read c = none) :
    s.Good cfg := by
  have hab : s.abs = s.base := by
    rw [Split.abs, State.told]
    simp only [h.2, Option.isSome_none, Bool.or_false]
  refine ⟨hab ▸ h.1.good, fun c hc => ?_, fun c tag hr => ?_, fun c tag hr => ?_, fun c tag hr => ?_,
    fun c tag hr => ?_⟩
  · rw [hab, h.1.granted c] at hc
    cases hc
  all_goals
    rw [h.2 c] at hr
    cases hr

/-- **Any other step**, also of the machine with a single step. -/
theorem Split.Good.other {s : Split C K ι} {t : State C K ι} {e : Event C K ι} (h : s.Good cfg)
    (ho : Other s.base e) (hsh : Unshared cfg s.base e t)
    (hun : ∀ f ∈ unlinks cfg s.base e, s.read f = none)
    (he : (machine C cfg).step s.base e = some t) : Split.Good cfg { s with base := t } := by
  have hkept : ∀ c tag, s.read c = some tag → Kept s.base t c := by
    intro c tag hr
    refine step_keeps h.good (by rw [hr]; rfl) (h.waits c tag hr) ho hsh (fun hc => ?_) he
    rw [hun c hc] at hr
    cases hr
  have htold : (machine C cfg).step s.abs e = some (t.told fun c => (s.read c).isSome) := by
    refine step_told (fun c hc => ?_) ho he
    obtain ⟨tag, hr⟩ := Option.isSome_iff_exists.mp hc
    exact h.waits c tag hr
  have hsh' : ∀ u, Unshared cfg s.abs e u := fun _ => hsh
  exact
    { good := step_good h.good htold (hsh' _)
      owed := step_owed h.owed htold
      waits := fun c tag hr => (hkept c tag hr).pc ▸ h.waits c tag hr
      taken := fun c tag hr => (hkept c tag hr).signalled.trans (h.taken c tag hr)
      same := fun c tag hr => (hkept c tag hr).tag.trans (h.same c tag hr)
      verified := h.verified }

/-- **The read** is silent: the client stays one that was told. -/
theorem Split.abs_read {s : Split C K ι} {c : C} (hr : s.read c = none)
    (hsig : s.base.signalled c = true) (tag : Tag) :
    Split.abs { base := { s.base with signalled := Function.update s.base.signalled c false }
                read := Function.update s.read c (some tag) } = s.abs := by
  have hsame : (fun d => Function.update s.base.signalled c false d
      || (Function.update s.read c (some tag) d).isSome)
      = fun d => s.base.signalled d || (s.read d).isSome := by
    funext d
    by_cases hd : d = c
    · rw [hd, Function.update_self, Function.update_self, hsig, hr]
      rfl
    · rw [Function.update_of_ne hd, Function.update_of_ne hd]
  simp only [Split.abs, State.told, hsame]

/-- **The write** is the single step, if the tag is still the one that was read. -/
theorem Split.Good.write {s t : Split C K ι} {c : C} {k : K} {rd : Bool} {tag : Tag}
    (h : s.Good cfg) (hpc : s.base.pc c = .waiting k rd) (hr : s.read c = some tag)
    (he : completeWait s c k rd = some t) : (machine C cfg).step s.abs (.move c) = some t.abs := by
  obtain rfl := h.same c tag hr
  have hv := h.verified c _ hr
  have hsig : s.abs.signalled c = true := by
    show (s.base.signalled c || (s.read c).isSome) = true
    rw [hr]
    exact Bool.or_true _
  simp only [completeWait, hr, Option.some.injEq] at he
  subst he
  simp only [machine, move]
  rw [show s.abs.pc c = .waiting k rd from hpc]
  dsimp only
  rw [if_pos hsig, if_pos (show (s.abs.tag c).haveLock = true ∧ (s.abs.tag c).needToWait = true
    ∧ (s.abs.tag c).waitedForLock = false from hv)]
  have hsame : Function.update s.abs.signalled c false
      = fun d => s.base.signalled d || (Function.update s.read c none d).isSome := by
    funext d
    by_cases hd : d = c
    · rw [hd, Function.update_self, Function.update_self, h.taken c _ hr]
      rfl
    · rw [Function.update_of_ne hd, Function.update_of_ne hd]
      rfl
  rw [hsame]
  rfl

/-- **A step of `complete_wait` keeps the invariant.** -/
theorem Split.Good.completeWait {s t : Split C K ι} {c : C} {k : K} {rd : Bool}
    (h : s.Good cfg) (hpc : s.base.pc c = .waiting k rd)
    (he : RwBitlock.completeWait s c k rd = some t) : t.Good cfg := by
  cases hr : s.read c with
  | none =>
    rw [RwBitlock.completeWait, hr] at he
    dsimp only at he
    by_cases hsig : s.base.signalled c = true
    · obtain ⟨-, g, hc, -⟩ := h.good
      -- a client that was told has what `complete_wait` verifies
      have hw : (s.abs.pc c).waits = some (k, rd) := by
        rw [show s.abs.pc c = s.base.pc c from rfl, hpc]
        rfl
      have hhave : (s.base.tag c).haveLock = true :=
        (hc.signalled c (show (s.base.signalled c || (s.read c).isSome) = true by
          rw [hsig, Bool.true_or])).2
      obtain ⟨-, hneed, hwaited, -⟩ := hc.waits c k rd hw
      have hv : (s.base.tag c).haveLock = true ∧ (s.base.tag c).needToWait = true
          ∧ (s.base.tag c).waitedForLock = false := ⟨hhave, hneed, hwaited⟩
      rw [if_pos hsig, if_pos hv, Option.some.injEq] at he
      subst he
      have hab := Split.abs_read hr hsig (s.base.tag c)
      refine ⟨hab ▸ h.good, hab ▸ h.owed, fun d tag hd => ?_, fun d tag hd => ?_,
        fun d tag hd => ?_, fun d tag hd => ?_⟩
      all_goals
        dsimp only at hd ⊢
        by_cases hdc : d = c
        · subst hdc
          rw [Function.update_self, Option.some.injEq] at hd
          first
            | exact ⟨k, rd, hpc⟩
            | exact Function.update_self _ _ _
            | exact hd
            | exact hd ▸ hv
        · rw [Function.update_of_ne hdc] at hd
          first
            | exact h.waits d tag hd
            | exact (Function.update_of_ne hdc _ _).trans (h.taken d tag hd)
            | exact h.same d tag hd
            | exact h.verified d tag hd
    · rw [if_neg hsig] at he
      cases he
  | some tag =>
    have hstep := h.write hpc hr he
    have hsh : Unshared cfg s.abs (.move c) t.abs := by
      intro j hj
      rw [searches, show s.abs.pc c = .waiting k rd from hpc] at hj
      cases hj
    rw [RwBitlock.completeWait, hr] at he
    obtain rfl := Option.some.inj he
    refine ⟨step_good h.good hstep hsh, step_owed h.owed hstep, fun d tag' hd => ?_,
      fun d tag' hd => ?_, fun d tag' hd => ?_, fun d tag' hd => ?_⟩
    all_goals
      dsimp only at hd
      have hdc : d ≠ c := by
        rintro rfl
        rw [Function.update_self] at hd
        cases hd
      rw [Function.update_of_ne hdc] at hd
    · obtain ⟨k', rd', hk⟩ := h.waits d tag' hd
      exact ⟨k', rd', (Function.update_of_ne hdc _ _).trans hk⟩
    · exact h.taken d tag' hd
    · exact (Function.update_of_ne hdc _ _).trans (h.same d tag' hd)
    · exact h.verified d tag' hd

/-- **Every step keeps the invariant**, if locks that share a wait list have different
bits and nobody is taken out of the list with its tag in hand. -/
theorem Split.Good.step (hap : ∀ j k, cfg.list j = cfg.list k → cfg.startBit j = cfg.startBit k →
      cfg.numBits j = cfg.numBits k → j = k) {s t : Split C K ι} {e : Event C K ι}
    (h : s.Good cfg) (he : (split C cfg).step s e = some t) (hok : Undisturbed cfg s e t) :
    t.Good cfg := by
  have hother : Other s.base e →
      ((machine C cfg).step s.base e).map (fun u => { s with base := u }) = some t → t.Good cfg := by
    intro ho hmap
    obtain ⟨u, hu, rfl⟩ := Option.map_eq_some_iff.mp hmap
    have hsh : Unshared cfg s.abs e u := unshared_of_apart h.good.1 hap e u
    exact h.other ho hsh hok hu
  simp only [split] at he
  cases e with
  | call c op => exact hother nofun he
  | move c =>
    dsimp only at he
    split at he
    · next k rd hpc => exact h.completeWait hpc he
    · next hno =>
      refine hother (fun c' k rd hc hk => ?_) he
      cases hc
      exact hno k rd hk
  | join c i tag => exact hother nofun he
  | leave c => exact hother nofun he

/-- **The mark and the list agree**, as far as the one client of a lock is concerned. -/
structure Marked (cfg : Config K ι) (s : State C K ι) (k : K) : Prop where
  /-- A client with a read lock that nobody is about to wake up. -/
  agrees : ∀ c, ReadHolder s.pc s.granted c k → (∀ c', c ∉ (s.pc c').grants) →
    ((s.tag c).inList = true ↔ c ∈ s.list (cfg.list k))
  /-- A section of `readunlock` takes out what is in the list. -/
  removes : ∀ c, s.pc c = .readUnlockSection k → (s.tag c).inList = true →
    c ∈ s.list (cfg.list k)
  /-- After `readunlock` nothing is left. -/
  leaves : ∀ c i, s.pc c = .idle → c ∉ s.list i
  /-- No `lw_verify` fails. -/
  alive : ∀ c, s.pc c ≠ .aborted

omit [DecidableEq C] [DecidableEq ι] in
/-- A state that satisfies the invariant. -/
theorem Split.Good.marked {s : Split C K ι} (h : s.Good cfg) (k : K) : Marked cfg s.base k := by
  obtain ⟨hrep, g, hc, hs⟩ := h.good
  have hagrees : ∀ c, ReadHolder s.base.pc s.base.granted c k →
      (∀ c', c ∉ (s.base.pc c').grants) →
      ((s.base.tag c).inList = true ↔ c ∈ s.base.list (cfg.list k)) := by
    intro c hhold hno
    have htold : (s.base.pc c).reads = some k
        ∨ ((s.base.pc c).waits = some (k, true) ∧ s.abs.signalled c = true) := by
      refine hhold.imp_right fun ⟨hw, hg⟩ => ⟨hw, ?_⟩
      exact (h.owed c hg).resolve_right fun ⟨c', hc'⟩ => hno c' hc'
    have hlock : (s.base.pc c).lockOf = some k := by
      rcases hhold with hr | ⟨hw, -⟩
      · cases hpc : s.base.pc c <;> rw [hpc] at hr <;> cases hr <;> rfl
      · cases hpc : s.base.pc c <;> rw [hpc] at hw <;> cases hw <;> rfl
    have hq : queueOf cfg s.base.list s.base.pc k = g.surplus k ++ g.line k := hc.queue k
    constructor
    · intro hin
      have hover : c ∈ g.surplus k := hc.inList c k htold hin
      have hmem : c ∈ queueOf cfg s.base.list s.base.pc k := hq ▸ List.mem_append_left _ hover
      exact (mem_queueOf.mp hmem).1
    · intro hmem
      have hmem : c ∈ g.surplus k ++ g.line k := hq ▸ mem_queueOf.mpr ⟨hmem, hlock⟩
      rcases List.mem_append.mp hmem with ho | hl
      · exact (hc.surplus k c ho).2.2.2.1
      · exact (hc.line k c hl).2.2.2.1
  refine ⟨hagrees, fun c hpc hin => ?_, fun c i hpc => ?_, hc.alive⟩
  · have hhold : ReadHolder s.base.pc s.base.granted c k := .inl (by rw [hpc]; rfl)
    refine (hagrees c hhold fun c' hc' => ?_).mp hin
    -- who is to be woken up waits
    have hg : s.base.granted c = true := (hc.grants c' c hc').1
    exact hc.granted c hg (by rw [show (s.abs.abs cfg).pc c = s.base.pc c from rfl, hpc]; rfl)
  · refine hrep.not_mem (c := c) ?_ (fun j => ?_) i
    · rw [show s.abs.pc c = s.base.pc c from rfl, hpc]
      rfl
    · rw [show s.abs.pc c = s.base.pc c from rfl, hpc]
      nofun

/-- **The mark of a reader agrees with the list** in every run of one reader-writer
bitlock in which no section takes a waiter out of the list between the read and the
write of its `complete_wait`. -/
theorem marked_of_reach (cfg : Config Unit ι) {s : Split C Unit ι}
    (h : (split C cfg).Reach (Undisturbed cfg) s) : Marked cfg s.base () :=
  (h.invariant (I := Split.Good cfg) (fun _ => Split.Good.init)
    fun _ _ _ hg he hok => hg.step (fun _ _ _ _ _ => rfl) he hok).marked ()

omit [DecidableEq ι] in
/-- When a section takes a waiter of another client out of the list. -/
theorem mem_unlinks {s : State C K ι} {c f : C} (hf : f ∈ unlinks cfg s (.move c)) :
    ∃ k rest, s.pc c = .readUnlockSection k ∧ leavesWork cfg s k = true
      ∧ (s.tag c).inList = false ∧ s.found cfg k = f :: rest ∧ (s.tag f).haveLock = true := by
  rw [unlinks] at hf
  cases hpc : s.pc c with
  | readUnlockSection k =>
    rw [hpc] at hf
    dsimp only at hf
    by_cases hl : leavesWork cfg s k = true ∧ (s.tag c).inList = false
    · rw [if_pos hl] at hf
      obtain ⟨hhead, hhave⟩ := Option.filter_eq_some_iff.mp hf
      obtain ⟨rest, hm⟩ := List.head?_eq_some_iff.mp hhead
      exact ⟨k, rest, rfl, hl.1, hl.2, hm, hhave⟩
    · rw [if_neg hl] at hf
      cases hf
  | _ =>
    rw [hpc] at hf
    cases hf

/-- **Taken out with its tag in hand**, a reader has the mark and is in no list, as soon
as it writes the tag back. -/
theorem stale_of_unlinked (hap : ∀ j k, cfg.list j = cfg.list k → cfg.startBit j = cfg.startBit k →
      cfg.numBits j = cfg.numBits k → j = k) {s t u : Split C K ι} {c f : C} {tag : Tag}
    (h : s.Good cfg) (hr : s.read f = some tag) (hf : f ∈ unlinks cfg s.base (.move c))
    (he : (split C cfg).step s (.move c) = some t) (he' : (split C cfg).step t (.move f) = some u) :
    (u.base.tag f).inList = true ∧ ∀ i, f ∉ u.base.list i := by
  obtain ⟨k', rd, hpcf⟩ := h.waits f tag hr
  obtain ⟨hrep, g, hc, -⟩ := h.good
  obtain rfl := h.same f tag hr
  obtain ⟨k, rest, hpc, hl, hinc, hm, hhave⟩ := mem_unlinks hf
  have hcf : f ≠ c := by
    rintro rfl
    rw [hpcf] at hpc
    cases hpc
  have halone : Alone cfg s.abs k := by
    refine unshared_of_apart hrep hap (.move c) s.abs k ?_
    have hcond : leavesWork cfg s.abs k = true ∧ (s.abs.tag c).inList = false := ⟨hl, hinc⟩
    rw [searches, show s.abs.pc c = .readUnlockSection k from hpc]
    dsimp only
    rw [if_pos hcond]
    rfl
  have hmem : f ∈ s.base.found cfg k := hm ▸ List.mem_cons_self
  have hlock : (s.base.pc f).lockOf = some k := halone f hmem
  -- it is counted in the list, so it had the mark
  have hin : (s.base.tag f).inList = true := by
    have hq : queueOf cfg s.base.list s.base.pc k = g.surplus k ++ g.line k := hc.queue k
    have hfound : s.base.found cfg k = g.surplus k ++ g.line k := (hrep.found halone).trans hq
    rw [hfound] at hmem
    rcases List.mem_append.mp hmem with ho | hline
    · exact (hc.surplus k f ho).2.2.2.1
    · exact (hc.line k f hline).2.2.2.1
  have hnot : ∀ i, f ∉ (s.base.remove (cfg.list k) [f]).list i := by
    intro i hi
    obtain ⟨hi', hne⟩ := mem_remove.mp hi
    rcases hrep.place i f hi' with ⟨hfor, -⟩ | ⟨j, hj, hji, -⟩
    · rw [show s.abs.pc f = .waiting k' rd from hpcf] at hfor
      cases hfor
    · obtain rfl : j = k := Option.some.inj (hj.symm.trans hlock)
      exact hne hji.symm (List.mem_singleton_self f)
  -- the section, and then the write
  have ht : t = { s with base := ((s.base.remove (cfg.list k) [f]).setTag f
      { s.base.tag f with inList := false }).goto c .idle } := by
    simp only [split, machine, move, hpc, Option.map_some, Option.some.injEq] at he
    rw [← he, readUnlockSection, if_neg (by rw [hl]; simp), if_neg (by rw [hinc]; simp), hm]
    simp only [hhave, if_true]
  subst ht
  have hpcf' : (Function.update s.base.pc c .idle f) = .waiting k' rd :=
    (Function.update_of_ne hcf _ _).trans hpcf
  simp only [split, State.goto, State.setTag, State.remove, hpcf', completeWait, hr,
    Option.some.injEq] at he'
  subst he'
  dsimp only
  rw [Function.update_self]
  exact ⟨hin, hnot⟩

/-! ## A mark that comes back -/

/-- One lock, one writer bit and two reader bits. -/
def lone : Config Unit Unit where
  list := fun _ => ()
  startBit := fun _ => 0
  numBits := fun _ => 3
  three_le := fun _ => le_rfl
  fits := fun _ => by decide

/-- The lock at the start. -/
def loneInit : Split (Fin 6) Unit Unit where
  base :=
    { w := fun _ => false
      r := fun _ => 0
      list := fun _ => []
      src := fun _ => none
      tag := fun _ => ⟨0, 0, false, false, false, false, false, false⟩
      signalled := fun _ => false
      granted := fun _ => false
      pc := fun _ => .idle }
  read := fun _ => none

theorem loneInit_start : (split (Fin 6) lone).start loneInit :=
  ⟨by constructor <;> intro <;> rfl, fun _ => rfl⟩

/-- A writer unlocks for five readers, two of them woken up in the list; then client
`4` reads its tag. -/
def crowd : List (Event (Fin 6) Unit Unit) :=
  [.call 0 (.writelock () false), .call 1 (.readlock () false), .move 1,
    .call 2 (.readlock () false), .move 2, .call 3 (.readlock () false), .move 3,
    .call 4 (.readlock () false), .move 4, .call 5 (.readlock () false), .move 5,
    .call 0 .writeunlock, .move 0, .move 0, .move 0, .move 0, .move 0, .move 4]

/-- Client `4` writes its tag back before client `1` unlocks and takes it out of the
list; client `5` has its tag in hand. -/
theorem marked_crowd :
    ∃ s : Split (Fin 6) Unit Unit, s.base.list () = [5] ∧ s.base.pc 4 = .readUnlockSection ()
      ∧ (s.base.tag 4).inList = false ∧ s.read 5 ≠ none ∧ Marked lone s.base () := by
  obtain ⟨s, hs, hp⟩ := Machine.Reach.exists_of_exec (split (Fin 6) lone)
    (Undisturbed lone) loneInit_start
    (p := fun s => decide (s.base.list () = [5] ∧ s.base.pc 4 = .readUnlockSection ()
      ∧ (s.base.tag 4).inList = false ∧ s.read 5 ≠ none))
    (crowd ++ [.move 4, .move 1, .move 1, .call 1 .readunlock, .move 1, .move 5,
      .call 4 .readunlock]) (by decide +kernel)
  obtain ⟨h₁, h₂, h₃, h₄⟩ := of_decide_eq_true hp
  exact ⟨s, h₁, h₂, h₃, h₄, marked_of_reach lone hs⟩

/-- **A mark comes back**: client `1` takes client `4` out of the list while that one
has its tag in hand. Client `4` writes the old tag back, and its unlock goes on to
remove a waiter that is not in the list. -/
theorem exists_stale_mark :
    ∃ s : Split (Fin 6) Unit Unit, (split (Fin 6) lone).Reach Machine.anyStep s
      ∧ (∀ c, (s.base.pc c).grants = []) ∧ ReadHolder s.base.pc s.base.granted 4 ()
      ∧ s.base.pc 4 = .readUnlockSection () ∧ leavesWork lone s.base () = true
      ∧ (s.base.tag 4).inList = true ∧ 4 ∉ s.base.list () := by
  obtain ⟨s, hs, hp⟩ := Machine.Reach.exists_of_exec (split (Fin 6) lone)
    Machine.anyStep loneInit_start
    (p := fun s => decide ((∀ c, (s.base.pc c).grants = []) ∧ s.base.pc 4 = .readUnlockSection ()
      ∧ leavesWork lone s.base () = true ∧ (s.base.tag 4).inList = true ∧ 4 ∉ s.base.list ()))
    (crowd ++ [.move 1, .move 1, .call 1 .readunlock, .move 1, .move 4, .call 4 .readunlock])
    (by decide +kernel)
  obtain ⟨h₁, h₂, h₃, h₄, h₅⟩ := of_decide_eq_true hp
  exact ⟨s, hs, h₁, .inl (by rw [h₂]; rfl), h₂, h₃, h₄, h₅⟩

end RwBitlock
