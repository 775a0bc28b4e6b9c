import Lwlock.RwBitlockSafe
import Lwlock.Bitlock

/-!
# Whom a write unlock serves

An unlock of a writer hands the lock to the first of the lock's waiters, and if
that is a reader to all the readers in front of the first writer. As many of
them as the count can hold leave the wait list; the others are woken up in it,
as overflow entries. The bits are then those of the new holders, with the writer
bit kept for a writer that still waits.

The walk goes through the whole list, where waiters of bitlock mutexes stand
between those of the lock. Their tags are two bits of a word, and a tag of a
reader-writer lock has three adjacent bits set: they are passed over.
-/

namespace RwBitlock

variable {C K ι : Type} {cfg : Config K ι} [DecidableEq C] [DecidableEq K] [DecidableEq ι]

/-! ## The waiters of bitlock mutexes -/

/-- A tag read off its word, field by field. -/
def tagOfWord (w : BitVec 64) : Tag where
  startBit := (w.extractLsb' 0 6).toNat
  numBits := (w.extractLsb' 6 6).toNat
  rdlock := w.getLsbD 12
  inList := w.getLsbD 13
  haveLock := w.getLsbD 14
  needToWait := w.getLsbD 15
  waitedForLock := w.getLsbD 16
  rwUniq := w.getLsbD 17 && w.getLsbD 18 && w.getLsbD 19

/-- The tag of a waiter of a bitlock mutex: the lock bit, and the wait bit or
the bit of the condition. -/
def MutexTag (tag : Tag) : Prop :=
  ∃ i j, tag = tagOfWord (Word.bit 64 i ||| Word.bit 64 j)

/-- **Two bits are not three.** -/
theorem MutexTag.rwUniq {tag : Tag} (h : MutexTag tag) : tag.rwUniq = false := by
  obtain ⟨i, j, rfl⟩ := h
  have hbit : ∀ b, (Word.bit 64 i ||| Word.bit 64 j).getLsbD b = true → b = i ∨ b = j := by
    intro b hb
    rw [BitVec.getLsbD_or, Word.bit, Word.bit, BitVec.getLsbD_twoPow, BitVec.getLsbD_twoPow] at hb
    grind
  rw [tagOfWord, ← Bool.not_eq_true]
  intro h
  obtain ⟨h, h₁₉⟩ := (Bool.and_eq_true _ _).mp h
  obtain ⟨h₁₇, h₁₈⟩ := (Bool.and_eq_true _ _).mp h
  have := hbit _ h₁₇
  have := hbit _ h₁₈
  have := hbit _ h₁₉
  omega

/-- The tags of the bitlock mutexes are of this kind. -/
theorem mutexTag_tagOf {A K' ι' : Type} (m : Bitlock.Config A K' ι') (k : K')
    (kind : Monitor.Kind) : MutexTag (tagOfWord (m.tagOf k kind)) := by
  have hbit : ∀ n i, n ≤ 64 → ∃ j, (Word.bit n i).setWidth 64 = Word.bit 64 j := by
    intro n i hn
    refine ⟨if i < n then i else 64, BitVec.eq_of_getLsbD_eq fun b hb => ?_⟩
    rw [BitVec.getLsbD_setWidth, Word.bit, Word.bit, BitVec.getLsbD_twoPow, BitVec.getLsbD_twoPow]
    grind
  have hw := m.width_le (m.addr k)
  obtain ⟨i, hi⟩ := hbit _ (m.lockAt k) hw
  cases kind with
  | lock =>
    obtain ⟨j, hj⟩ := hbit _ (m.waitAt k) hw
    refine ⟨i, j, ?_⟩
    show tagOfWord ((Word.bit _ (m.lockAt k) ||| Word.bit _ (m.waitAt k)).setWidth 64) = _
    rw [BitVec.setWidth_or, hi, hj]
  | cv =>
    obtain ⟨j, hj⟩ := hbit _ (m.cvAt k) hw
    refine ⟨i, j, ?_⟩
    show tagOfWord ((Word.bit _ (m.lockAt k) ||| Word.bit _ (m.cvAt k)).setWidth 64) = _
    rw [BitVec.setWidth_or, hi, hj]

/-! ## The order of a handoff -/

/-- The waiters of a lock in its wait list, in order. -/
def waitersOf (cfg : Config K ι) (s : State C K ι) (k : K) : List C :=
  (s.list (cfg.list k)).filter fun d => (s.pc d).waits.any fun p => decide (p.1 = k)

/-- The wait list of the lock holds its waiters and those of bitlock mutexes, each
once. -/
structure Mixed (cfg : Config K ι) (s : State C K ι) (k : K) : Prop where
  nodup : (s.list (cfg.list k)).Nodup
  entry : ∀ d ∈ s.list (cfg.list k),
    (∃ rd, s.pc d = .waiting k rd ∧ s.tag d = waitTag cfg k rd false) ∨
      s.pc d = .foreign (cfg.list k) ∧ MutexTag (s.tag d)

/-- The waiters that get the lock: the first one if it is a writer, else the
readers in front of the first writer. -/
def grantees (rd : C → Bool) : List C → List C
  | [] => []
  | f :: m => if rd f then (f :: m).takeWhile rd else [f]

/-- Those of them that leave the wait list: as many as the count holds. -/
def leavers (rd : C → Bool) (max : ℕ) : List C → List C
  | [] => []
  | f :: m => if rd f then ((f :: m).takeWhile rd).take max else [f]

/-- **What a write unlock leaves**: the lock is with the waiters it is to serve. -/
structure Served (cfg : Config K ι) (s s' : State C K ι) (k : K) (G L : List C) : Prop where
  /-- The waiters served have the lock, and are marked as in the list if they
  stay; the other tags are as before. -/
  tag : ∀ d, s'.tag d =
    if d ∈ G then { s.tag d with haveLock := true, inList := decide (d ∉ L) } else s.tag d
  /-- They and nobody else are woken up. -/
  signalled : ∀ d, s'.signalled d = if d ∈ G then true else s.signalled d
  /-- The others keep their place. -/
  list : s'.list = Function.update s.list (cfg.list k)
    ((s.list (cfg.list k)).filter fun d => decide (d ∉ L))
  /-- The count is that of the readers that left the list, or whether somebody
  remains behind a writer. -/
  count : s'.r = Function.update s.r k
    (if (waitersOf cfg s k).head?.any fun d => (s.tag d).rdlock then L.length
      else if (waitersOf cfg s k).length = 1 then 0 else 1)
  /-- The writer bit is set for a writer, and after readers exactly if a writer
  remains. -/
  writer : s'.w = Function.update s.w k
    (if (waitersOf cfg s k).head?.any fun d => (s.tag d).rdlock then
      decide (∃ d ∈ waitersOf cfg s k, d ∉ G ∧ (s.tag d).rdlock = false) else true)

omit [DecidableEq C] [DecidableEq ι] in
/-- The search stops at the waiters of the lock. -/
theorem Mixed.found {s : State C K ι} {k : K} (h : Mixed cfg s k) :
    s.found cfg k = waitersOf cfg s k := by
  refine List.filter_congr fun d hd => ?_
  rcases h.entry d hd with ⟨rd, hpc, htag⟩ | ⟨hpc, htag⟩
  · rw [hpc, htag]
    simp [isMatch, waitTag, Pc.waits]
  · rw [hpc, isMatch, htag.rwUniq]
    rfl

omit [DecidableEq C] [DecidableEq ι] in
/-- What a waiter is marked with before it is served. -/
theorem Mixed.tag_of_mem {s : State C K ι} {k : K} {d : C} (h : Mixed cfg s k)
    (hd : d ∈ waitersOf cfg s k) : (s.tag d).inList = true := by
  obtain ⟨hd, hw⟩ := List.mem_filter.mp hd
  rcases h.entry d hd with ⟨rd, -, htag⟩ | ⟨hpc, -⟩
  · rw [htag]
    rfl
  · rw [hpc] at hw
    cases hw

/-- **The grants, one after the other**: the waiters taken out of the list are
marked and woken up. -/
theorem exec_granting (cfg : Config K ι) (s : State C K ι) {c : C} {k : K} {ds : List C}
    (hpc : s.pc c = .granting k ds) :
    ∃ s', (machine C cfg).exec Machine.anyStep s (List.replicate (ds.length + 1) (.move c)) = some s' ∧
      (∀ d, s'.tag d =
        if d ∈ ds then { s.tag d with inList := false, haveLock := true } else s.tag d) ∧
      (∀ d, s'.signalled d = if d ∈ ds then true else s.signalled d) ∧
      s'.list = s.list ∧ s'.r = s.r ∧ s'.w = s.w ∧ s'.pc c = .idle := by
  induction ds generalizing s with
  | nil =>
    have hstep : (machine C cfg).step s (.move c) = some (s.goto c .idle) := by
      simp only [machine, move, hpc]
    exact ⟨s.goto c .idle, by rw [List.length_nil, List.replicate_one, Machine.exec, hstep]; rfl,
      fun d => rfl, fun d => rfl, rfl, rfl, rfl, Function.update_self ..⟩
  | cons d ds ih =>
    let s₁ : State C K ι := { s.setTag d { s.tag d with inList := false, haveLock := true } with
      signalled := Function.update s.signalled d true }.goto c (.granting k ds)
    have hstep : (machine C cfg).step s (.move c) = some s₁ := by
      simp only [machine, move, hpc, s₁]
    obtain ⟨s', hs', htag, hsig, hrest⟩ := ih s₁ (Function.update_self ..)
    refine ⟨s', ?_, fun e => ?_, fun e => ?_, hrest⟩
    · rw [List.length_cons, List.replicate_succ, Machine.exec, hstep, Option.bind_some]
      exact hs'
    · rw [htag e, show s₁.tag = Function.update s.tag d _ from rfl]
      by_cases hed : e = d
      · subst hed
        rw [Function.update_self, if_pos List.mem_cons_self]
        split <;> rfl
      · simp only [Function.update_of_ne hed, List.mem_cons, hed, false_or]
    · rw [hsig e, show s₁.signalled = Function.update s.signalled d true from rfl]
      by_cases hed : e = d
      · subst hed
        rw [Function.update_self, if_pos List.mem_cons_self, ite_self]
      · simp only [Function.update_of_ne hed, List.mem_cons, hed, false_or]

omit [DecidableEq C] in
/-- The first readers of a list and the rest, by any split that looks so. -/
theorem takeWhile_eq {rd : C → Bool} {R rest : List C} (hR : ∀ d ∈ R, rd d = true)
    (hrest : ∀ d, rest.head? = some d → rd d = false) : (R ++ rest).takeWhile rd = R := by
  rw [List.takeWhile_append_of_pos hR]
  cases rest with
  | nil => rw [List.takeWhile_nil, List.append_nil]
  | cons d rest =>
    rw [List.takeWhile_cons_of_neg (by rw [hrest d rfl]; exact Bool.false_ne_true),
      List.append_nil]

/-- **From the section of the unlock on**: what it hands over is handed over. -/
theorem handOver_served {s : State C K ι} {c : C} {k : K} {L O rest : List C} {w : Bool} {r : ℕ}
    (h : Mixed cfg s k) (hwaiters : waitersOf cfg s k = L ++ (O ++ rest))
    (hr : r = if (waitersOf cfg s k).head?.any fun d => (s.tag d).rdlock then L.length
      else if (waitersOf cfg s k).length = 1 then 0 else 1)
    (hw : w = if (waitersOf cfg s k).head?.any fun d => (s.tag d).rdlock then
      decide (∃ d ∈ waitersOf cfg s k, d ∉ L ++ O ∧ (s.tag d).rdlock = false) else true) :
    ∃ s', (machine C cfg).exec Machine.anyStep (s.handOver cfg c k L O w r)
        (List.replicate (L.length + 1) (.move c)) = some s' ∧ s'.pc c = .idle ∧
      Served cfg s s' k (L ++ O) L := by
  obtain ⟨s', hs', htag, hsig, hlist, hr', hw', hidle⟩ :=
    exec_granting cfg (s.handOver cfg c k L O w r) (Function.update_self ..)
  have hnd : (L ++ O).Nodup := by
    have hall := h.nodup.filter (fun d => (s.pc d).waits.any fun p => decide (p.1 = k))
    rw [show List.filter _ _ = L ++ (O ++ rest) from hwaiters, ← List.append_assoc] at hall
    exact (List.nodup_append.mp hall).1
  refine ⟨s', hs', hidle, fun d => ?_, fun d => ?_, hlist, ?_, ?_⟩
  · rw [htag d]
    show (if d ∈ L then { (if d ∈ O then { s.tag d with haveLock := true } else s.tag d) with
      inList := false, haveLock := true } else if d ∈ O then { s.tag d with haveLock := true }
      else s.tag d) = _
    by_cases hL : d ∈ L
    · have hO : d ∉ O := fun hO => (List.nodup_append.mp hnd).2.2 d hL d hO rfl
      simp only [hL, hO, if_true, if_false, List.mem_append, true_or, not_true, decide_false]
    · by_cases hO : d ∈ O
      · -- an overflow entry stays as marked in the list
        have hin := h.tag_of_mem (d := d) (by
          rw [hwaiters]
          exact List.mem_append_right _ (List.mem_append_left _ hO))
        simp only [hL, hO, if_true, if_false, List.mem_append, or_true, not_false_eq_true,
          decide_true, hin]
      · simp only [hL, hO, if_false, List.mem_append, or_self]
  · rw [hsig d]
    show (if d ∈ L then true else if d ∈ O then true else s.signalled d) = _
    simp only [List.mem_append]
    split <;> simp_all
  · rw [hr', ← hr]
    rfl
  · rw [hw', ← hw]
    rfl

/-- **The section of the unlock and what follows it.** -/
theorem section_serves {s : State C K ι} {c : C} {k : K} (hpc : s.pc c = .writeUnlockSection k)
    (h : Mixed cfg s k) (hne : waitersOf cfg s k ≠ []) :
    ∃ n s', (machine C cfg).exec Machine.anyStep s (List.replicate n (.move c)) = some s' ∧
      s'.pc c = .idle ∧ Served cfg s s' k (grantees (fun d => (s.tag d).rdlock) (waitersOf cfg s k))
        (leavers (fun d => (s.tag d).rdlock) (cfg.maxReaders k) (waitersOf cfg s k)) := by
  obtain ⟨f, m, hfm⟩ := List.exists_cons_of_ne_nil hne
  have hfound : s.found cfg k = f :: m := h.found.trans hfm
  have hstep : (machine C cfg).step s (.move c) = some (writeUnlockSection cfg s c k) := by
    simp only [machine, move, hpc]
  -- what the section hands over, as the lists of the specification
  obtain ⟨L, O, rest, w, r, hsplit, hG, hL, hsec, hr, hw⟩ : ∃ L O rest w r,
      f :: m = L ++ (O ++ rest) ∧
      grantees (fun d => (s.tag d).rdlock) (f :: m) = L ++ O ∧
      leavers (fun d => (s.tag d).rdlock) (cfg.maxReaders k) (f :: m) = L ∧
      writeUnlockSection cfg s c k = s.handOver cfg c k L O w r ∧
      (r = if (s.tag f).rdlock then L.length else if (f :: m).length = 1 then 0 else 1) ∧
      (w = if (s.tag f).rdlock then
        decide (∃ d ∈ f :: m, d ∉ L ++ O ∧ (s.tag d).rdlock = false) else true) := by
    cases hf : (s.tag f).rdlock with
    | false =>
      refine ⟨[f], [], m, true, if m = [] then 0 else 1, rfl, ?_, ?_,
        writeUnlockSection_writer hfound hf, ?_, rfl⟩
      · simp only [grantees, hf, Bool.false_eq_true, if_false, List.append_nil]
      · simp only [leavers, hf, Bool.false_eq_true, if_false]
      · cases m with
        | nil => rfl
        | cons d m => rfl
    | true =>
      obtain ⟨R, O, rest, hsplit, hrd, hR, hmax, hO, hrest, hsec⟩ :=
        writeUnlockSection_readers (c := c) hfound hf
          (le_trans (by decide) (cfg.three_le_maxReaders k))
      have hrun : (f :: m).takeWhile (fun d => (s.tag d).rdlock) = R ++ O := by
        rw [hsplit, ← List.append_assoc]
        exact takeWhile_eq hrd hrest
      refine ⟨R, O, rest, !rest.isEmpty, R.length, hsplit, ?_, ?_, hsec, rfl, ?_⟩
      · simp only [grantees, hf, if_true, hrun]
      · simp only [leavers, hf, if_true, hrun]
        by_cases hnil : O = []
        · rw [hnil, List.append_nil]
          exact List.take_of_length_le hmax
        · rw [← hO hnil]
          exact List.take_left
      · -- the first of the rest is a writer, and no writer stands before it
        have hnd : (R ++ O ++ rest).Nodup := by
          rw [List.append_assoc, ← hsplit, ← hfm]
          exact h.nodup.filter _
        have hiff : rest ≠ [] ↔ ∃ d ∈ f :: m, d ∉ R ++ O ∧ (s.tag d).rdlock = false := by
          constructor
          · intro hne
            obtain ⟨d, rest', rfl⟩ := List.exists_cons_of_ne_nil hne
            refine ⟨d, ?_, fun hd => ?_, hrest d rfl⟩
            · rw [hsplit]
              simp
            · exact (List.nodup_append.mp hnd).2.2 d hd d List.mem_cons_self rfl
          · rintro ⟨d, hd, hnot, -⟩ rfl
            rw [hsplit, List.append_nil] at hd
            exact hnot hd
        rw [if_pos rfl, ← decide_eq_decide.mpr hiff]
        cases rest <;> rfl
  obtain ⟨s', hs', hidle, hserved⟩ := handOver_served (c := c) (w := w) (r := r) h (hfm.trans hsplit)
    (by rw [hfm]; exact hr) (by rw [hfm]; exact hw)
  refine ⟨L.length + 2, s', ?_, hidle, ?_⟩
  · rw [List.replicate_succ, Machine.exec, hstep, Option.bind_some, hsec]
    exact hs'
  · rw [hfm, hG, hL]
    exact hserved

/-- **The order of the handoff.** A writer unlocks a lock that is contended. Its
wait list holds, in any order, waiters of the lock and waiters of bitlock
mutexes. Then the unlock runs to its end, and has served the waiters it is to
serve. -/
theorem writeunlock_serves {s : State C K ι} {c : C} {k : K} (hpc : s.pc c = .writing k)
    (hr : s.r k ≠ 0) (h : Mixed cfg s k) (hne : waitersOf cfg s k ≠ []) :
    ∃ n s', (machine C cfg).exec Machine.anyStep s
        (.call c .writeunlock :: List.replicate n (.move c)) = some s' ∧
      s'.pc c = .idle ∧ Served cfg s s' k (grantees (fun d => (s.tag d).rdlock) (waitersOf cfg s k))
        (leavers (fun d => (s.tag d).rdlock) (cfg.maxReaders k) (waitersOf cfg s k)) := by
  have hstep : (machine C cfg).step s (.call c .writeunlock) =
      some (s.goto c (.writeUnlockSection k)) := by
    simp only [machine, call, hpc, writeunlock, hr, ne_eq, not_false_eq_true, if_true]
  -- the unlocking client is not in the list, so moving it changes nobody's place
  have hother : ∀ d ∈ s.list (cfg.list k), (s.goto c (.writeUnlockSection k)).pc d = s.pc d := by
    intro d hd
    refine Function.update_of_ne ?_ _ _
    rintro rfl
    rcases h.entry d hd with ⟨rd, hd, -⟩ | ⟨hd, -⟩
    · cases hpc.symm.trans hd
    · cases hpc.symm.trans hd
  have hwaiters : waitersOf cfg (s.goto c (.writeUnlockSection k)) k = waitersOf cfg s k :=
    List.filter_congr fun d hd => by rw [hother d hd]
  have hmixed : Mixed cfg (s.goto c (.writeUnlockSection k)) k :=
    ⟨h.nodup, fun d hd => by rw [hother d hd]; exact h.entry d hd⟩
  obtain ⟨n, s', hs', hidle, hserved⟩ := section_serves (c := c) (Function.update_self ..) hmixed
    (by rwa [hwaiters])
  refine ⟨n, s', ?_, hidle, ?_⟩
  · rw [Machine.exec, hstep, Option.bind_some]
    exact hs'
  · rw [hwaiters] at hserved
    exact ⟨hserved.tag, hserved.signalled, hserved.list,
      by rw [hserved.count, hwaiters]; rfl, by rw [hserved.writer, hwaiters]; rfl⟩

/-- A lock with room for three readers, of which client `0` is the writer. Four
readers and a writer wait, and a waiter of a bitlock mutex between them. -/
def mixedQueue : State (Fin 8) Unit Unit where
  w := fun _ => true
  r := fun _ => 1
  list := fun _ => [1, 6, 2, 3, 4, 5]
  src := fun _ => none
  tag := fun d => if d = 6 then tagOfWord (Word.bit 64 31 ||| Word.bit 64 30)
    else waitTag ⟨fun _ => (), fun _ => 0, fun _ => 3, by decide, Config.fits_three⟩ ()
      (decide (d ≠ 5)) false
  signalled := fun _ => false
  granted := fun _ => false
  pc := fun d => if d = 0 then .writing () else if d = 6 then .foreign () else
    .waiting () (decide (d ≠ 5))

/-- One reader more than the count holds: three leave the list, the fourth stays
as an overflow entry, and the writer bit is set for the writer behind them. -/
theorem writeunlock_serves_overflow :
    ∃ cfg : Config Unit Unit, cfg.maxReaders () = 3 ∧ ∃ n s',
      (machine (Fin 8) cfg).exec Machine.anyStep mixedQueue
        (.call 0 .writeunlock :: List.replicate n (.move 0)) = some s' ∧ s'.pc 0 = .idle ∧
      Served cfg mixedQueue s' () [1, 2, 3, 4] [1, 2, 3] := by
  let cfg : Config Unit Unit := ⟨fun _ => (), fun _ => 0, fun _ => 3, by decide, by decide⟩
  have hmixed : Mixed cfg mixedQueue () := by
    refine ⟨by decide, fun d hd => ?_⟩
    have hcases : d = 6 ∨ d ≠ 6 ∧ d ≠ 0 := by
      revert d
      decide
    rcases hcases with rfl | ⟨h6, h0⟩
    · exact .inr ⟨rfl, 31, 30, rfl⟩
    · exact .inl ⟨decide (d ≠ 5), by simp only [mixedQueue, h0, h6, if_false],
        by simp only [mixedQueue, h6, if_false, cfg]⟩
  exact ⟨cfg, by decide, writeunlock_serves rfl (by decide) hmixed (by decide)⟩

end RwBitlock
