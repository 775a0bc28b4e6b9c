import Lwlock.RwBitlockSim

/-!
# The debug build follows the release build: unlocking

An unlock that searches the wait list asserts a good deal about what it finds: that the
waiters it comes to are marked as being in the list, that a waiter with the lock is a
reader past a saturated count, that the waiters taken out together are of one kind. All of
it is in the invariant of the release build.
-/

namespace RwBitlock.Debug

variable {C K ι : Type} {cfg : Config K ι} {k : K} {own : C → Bool} {pay : K → BitVec 32} {ft : C → Tag}
  {D D' : State C K ι} {s s' : RwBitlock.State C K ι} {c d f : C} {ds m rest : List C}

/-! ## What is known of a client that has a lock -/

/-- A client at a lock is none of another module. -/
theorem Pc.not_foreign {p : Pc C K ι} (h : p.lockOf = some k) (i : ι) : p ≠ .foreign i := by
  rintro rfl
  cases h

section facts

variable [DecidableEq K]

/-- **A reader**: the count is not zero, and the reader is in the list only past a saturated
count. -/
theorem reader_facts (h : Good cfg s) (hreads : (s.pc c).reads = some k) :
    1 ≤ s.r k ∧ s.signalled c = false
      ∧ ((s.tag c).inList = true → s.r k = cfg.maxReaders k ∧ (s.tag c).haveLock = true
        ∧ (s.tag c).rdlock = true ∧ c ∈ s.list (cfg.list k)) := by
  obtain ⟨hrep, g, hinv⟩ := h
  have hch : c ∈ g.hold k := (hinv.clients.hold c k).mpr (.inl hreads)
  obtain ⟨-, pos, -, sat, -⟩ := (hinv.shape k).reading hch
  refine ⟨pos, ?_, fun hin => ?_⟩
  · by_contra hsig
    have hw := hinv.clients.granted c (hinv.clients.signalled c (Bool.not_eq_false _ ▸ hsig)).1
    exact hw (Pc.reads_only hreads).2.1
  · have ho := hinv.clients.inList c k (.inl hreads) hin
    obtain ⟨-, hhave, hrd, -⟩ := hinv.clients.surplus k c ho
    have hq : queueOf cfg s.list s.pc k = g.surplus k ++ g.line k := hinv.clients.queue k
    have hmem : c ∈ queueOf cfg s.list s.pc k := hq ▸ List.mem_append_left _ ho
    exact ⟨sat (List.ne_nil_of_mem ho), hhave, hrd, (mem_queueOf.mp hmem).1⟩

/-- **A writer**: the writer bit is set, and the count says whether somebody waits. -/
theorem writer_facts (h : Good cfg s) (hwrites : (s.pc c).writes = some k) :
    s.w k = true ∧ (s.r k ≠ 0 → s.r k = 1) := by
  obtain ⟨-, g, hinv⟩ := h
  have hwr : g.wr k = some c := (hinv.clients.wr c k).mpr (.inl hwrites)
  obtain ⟨-, -, hw, hr⟩ := (hinv.shape k).writing (by rw [hwr]; nofun)
  refine ⟨hw, fun hne => ?_⟩
  have hr : s.r k = if g.line k = [] then 0 else 1 := hr
  by_cases hl : g.line k = []
  · rw [if_pos hl] at hr
    exact absurd hr hne
  · rwa [if_neg hl] at hr

omit [DecidableEq K] in
/-- **What an unlock finds**, if it is waiters of its own lock, is what the release build
finds. -/
theorem found_sim (hs : Sim cfg pay D s) (hrep : Rep cfg s)
    (halone : ∀ d ∈ D.found cfg k, (D.pc d).lockOf = some k) :
    D.found cfg k = s.found cfg k ∧ Alone cfg s k ∧ ∀ d ∈ D.found cfg k, D.tag d = s.tag d := by
  have hfound : D.found cfg k = s.found cfg k := by
    rw [State.found, RwBitlock.State.found, hs.list]
    refine List.filter_congr fun d hd => ?_
    rcases hrep.place _ d hd with ⟨hf, hu⟩ | ⟨j, hj, -⟩
    · have hno : ¬ isMatch cfg (D.tag d) k = true := by
        intro hm
        have hmem : d ∈ D.found cfg k := List.mem_filter.mpr ⟨hs.list ▸ hd, hm⟩
        have := halone d hmem
        rw [hs.pc, hf] at this
        cases this
      rw [Bool.eq_false_iff.mpr hno, isMatch, hu, Bool.false_and, Bool.false_and]
    · rw [hs.tag d j (by rw [hs.pc]; exact hj)]
  refine ⟨hfound, fun d hd => ?_, fun d hd => hs.tag d k (halone d hd)⟩
  rw [← hs.pc]
  exact halone d (hfound ▸ hd)

end facts

/-! ## `readunlock` -/

/-- The test on what `clear_rdlock` returned. -/
theorem leavesWork_sim (hs : Sim cfg pay D s) (k : K) :
    leavesWork cfg k (cfg.word k (pay k) (s.w k) (s.r k)) = RwBitlock.leavesWork cfg s k :=
  leavesWork_word (hs.outside k) (hs.le k)

variable [DecidableEq C] [DecidableEq K]

omit [DecidableEq K] in
/-- **The end of `readunlock`**: a buffer that has waited is free to be destroyed. -/
theorem readDone_eq (hsrc : (D.tag c).needToWait = true → D.src c = none)
    (hsig : D.signalled c = false) : readDone D c = some (D.goto c .idle) := by
  rw [readDone, State.eventDestroy]
  split
  · rename_i hneed
    rw [lwAssert_pos (hsrc hneed), lwAssert_pos hsig]
    rfl
  · rfl

/-- **A count is taken back**, at the end of the section. -/
theorem readSwap_sub {p : BitVec 32} {w : Bool} {r : ℕ} {first : Option C} {wake : Bool}
    (hp : cfg.Outside k p) (hr : r ≤ cfg.maxReaders k) (hpos : 1 ≤ r)
    (hlock : D.lock k = cfg.word k p w r) (hl : leavesWork cfg k (cfg.word k p w r) = true)
    (hwake : wake = true → r = 1) :
    readSwap cfg k D c (cfg.word k p w r) (cfg.word k p w r - cfg.readerInc k) first wake
      = if wake then some (((D.setLock k (cfg.word k p w (r - 1))).setLocals c
            ⟨cfg.word k p w r, true, false⟩).goto c (.granting k first.toList))
        else readDone (D.setLock k (cfg.word k p w (r - 1))) c := by
  have hmax := cfg.three_le_maxReaders k
  have hone : wake = false ∨ cfg.word k p w r &&& cfg.readerMask k = cfg.readerInc k := by
    cases wake with
    | false => exact .inl rfl
    | true => exact .inr ((word_readers_eq_inc hp hr (by omega)).mpr (hwake rfl))
  have hne : cfg.word k p w r ≠ cfg.word k p w (r - 1) := by
    rw [ne_eq, word_inj hp hr hp (by omega)]
    intro h
    omega
  rw [readSwap, lwAssert_pos hone, word_sub_readerInc hp hr hpos, if_pos hne, lwAssert_pos hl,
    hlock, Word.swapWithMask_pos fun _ _ => rfl, word_replace_readers hp hr hp (by omega)]
  rfl

/-- **The count stays**, at the end of the section. -/
theorem readSwap_keep {v : BitVec 32} {first : Option C} {wake : Bool}
    (hwake : wake = false ∨ v &&& cfg.readerMask k = cfg.readerInc k)
    (hkeep : (v &&& cfg.readerMask k = cfg.readerMask k
        ∧ (∃ f ∈ first, (D.tag f).haveLock = true ∧ (D.tag f).rdlock = true))
      ∨ (v &&& cfg.writerMask k ≠ 0#32 ∧ v &&& cfg.readerMask k ≠ 0#32)) :
    readSwap cfg k D c v v first wake
      = if wake then some ((D.setLocals c ⟨v, true, false⟩).goto c (.granting k first.toList))
        else readDone D c := by
  rw [readSwap, lwAssert_pos hwake, if_neg (not_not.mpr rfl), lwAssert_pos hkeep]
  rfl

variable [DecidableEq ι]

section reader

variable (hs : Sim cfg pay D s) (hi : Inv cfg own pay ft D) (h : Good cfg s)
  (hact : ∀ c', c ∉ (D.pc c').grants)
include hs hi h hact

omit [DecidableEq ι] in
/-- A reader gives the lock up, and is done. -/
theorem done_passes (hreads : (D.pc c).reads = some k) {r : ℕ} (hr : r ≤ cfg.maxReaders k) :
    Passes cfg own pay ft (readDone (D.setLock k (cfg.word k (pay k) (s.w k) r)) c)
      ((s.setBits k (s.w k) r).goto c .idle) := by
  have hcl := hi.client c
  have hsig : s.signalled c = false := (reader_facts h (hs.pc ▸ hreads)).2.1
  rw [readDone_eq]
  · refine ⟨_, rfl, (hs.setLock hr).goto_out rfl,
      hi.step (((Frame.refl c D).setLock _).goto _) hi.on hact ?_⟩
    refine Client.out (Function.update_self _ _ _) fun ho => ?_
    exact hcl.free ho (Pc.reads_only hreads).2.1
  · exact hcl.waited (.inl (by rw [hreads]; nofun))
  · show D.signalled c = false
    rw [hs.signalled, hsig]

omit [DecidableEq ι] in
/-- **`readunlock`** up to its section. -/
theorem readunlock_passes (hpc : D.pc c = .reading k) (hrange : Range cfg k) :
    Passes cfg own pay ft (readunlock cfg k D c) (RwBitlock.readunlock cfg s c k) := by
  have hcl := hi.client c
  have hreads : (D.pc c).reads = some k := by rw [hpc]; rfl
  obtain ⟨hpos, hsig, hover⟩ := reader_facts h (hs.pc ▸ hreads)
  have hp := hs.outside k
  have hle := hs.le k
  have hhave : (D.tag c).haveLock = true := hcl.haveLock (by rw [hreads]; nofun)
  have hne : cfg.word k (pay k) (s.w k) (s.r k) &&& cfg.readerMask k ≠ 0#32 := by
    rw [ne_eq, word_readers_eq_zero hp hle]
    omega
  rw [readunlock, lwAssert_pos hrange, lwAssert_pos hhave, hs.lock k, lwAssert_pos hne,
    clearRdlock_word hp hle hpos, Option.bind_some, RwBitlock.readunlock]
  simp only [leavesWork_sim hs]
  by_cases hl : RwBitlock.leavesWork cfg s k = true
  · rw [if_pos hl, if_pos hl, if_pos hl]
    have hset := hs.setLock (k := k) (w := s.w k) hle
    rw [setBits_self rfl rfl] at hset
    refine ⟨_, rfl, hset.goto fun _ _ => ?_,
      hi.step (((Frame.refl c D).setLock _).goto _) hi.on hact ?_⟩
    · exact hs.tag c k (by rw [hpc]; rfl)
    · refine Client.reading (k := k) (.inr (Function.update_self _ _ _)) (fun ho => ?_) hhave
        (hcl.waited (.inl (by rw [hreads]; nofun)))
      exact hcl.free ho (Pc.reads_only hreads).2.1
  · rw [if_neg hl, if_neg hl, if_neg hl, lwAssert_pos]
    · exact done_passes hs hi h hact hreads (by omega)
    · show (D.tag c).inList = false
      rw [hs.tag c k (by rw [hpc]; rfl)]
      by_contra hin
      have hsat := (hover (Bool.not_eq_false _ ▸ hin)).1
      exact (leavesWork_eq_false.mp (Bool.eq_false_iff.mpr hl)).1 hsat

/-- **A waiter counted in the list leaves it**, and the reader is done. -/
theorem dropOver_passes (hreads : (D.pc c).reads = some k) (hmem : f ∈ D.list (cfg.list k))
    (hlo : (D.pc f).lockOf = some k) (hhave : (D.tag f).haveLock = true)
    (hrd : (D.tag f).rdlock = true) (hsat : s.r k = cfg.maxReaders k) :
    ∃ D₁, D.remove (cfg.list k) [f] = some D₁ ∧ D₁.tag = D.tag
      ∧ Passes cfg own pay ft (readSwap cfg k (D₁.setTag f { D₁.tag f with inList := false }) c
          (cfg.word k (pay k) (s.w k) (s.r k)) (cfg.word k (pay k) (s.w k) (s.r k)) (some f) false)
        (((s.remove (cfg.list k) [f]).setTag f { s.tag f with inList := false }).goto c .idle) := by
  have hcl := hi.client c
  have hsig : s.signalled c = false := (reader_facts h (hs.pc ▸ hreads)).2.1
  obtain ⟨D₁, hD₁, hsim, hon, hsame⟩ := remove_sim hs hi.on (l := [f]) (i := cfg.list k)
    fun d hd => List.mem_singleton.mp hd ▸ hmem
  have htag : D.tag f = s.tag f := hs.tag f k hlo
  have htag₁ : D₁.tag f = D.tag f := congrFun hsame.tag f
  have hf : Frame c D (D₁.setTag f { D₁.tag f with inList := false }) :=
    (hsame.frame c).mark rfl rfl id (fun _ => rfl) (by rw [hsame.pc]; exact Pc.not_foreign hlo)
  refine ⟨D₁, hD₁, hsame.tag, ?_⟩
  rw [readSwap_keep (.inl rfl), if_neg Bool.false_ne_true, readDone_eq]
  · refine ⟨_, rfl, ?_, hi.step (hf.goto _) hon hact ?_⟩
    · rw [← htag, htag₁]
      exact (hsim.setTag _).goto_out rfl
    · refine Client.out (Function.update_self _ _ _) fun ho => ?_
      exact (congrFun hsame.src c).trans (hcl.free ho (Pc.reads_only hreads).2.1)
  · intro hneed
    refine (congrFun hsame.src c).trans (hcl.waited (.inl (by rw [hreads]; nofun)) ?_)
    rw [setTag_tag] at hneed
    split at hneed
    · rename_i hcf
      rw [hcf, ← htag₁]
      exact hneed
    · rwa [hsame.tag] at hneed
  · show D₁.signalled c = false
    rw [hsame.signalled, hs.signalled, hsig]
  · refine .inl ⟨(word_readers_eq_mask (hs.outside k) (hs.le k)).mpr hsat, f, rfl, ?_⟩
    rw [setTag_tag, if_pos rfl, htag₁]
    exact ⟨hhave, hrd⟩

/-- **The section of `readunlock`**, with a writer that waits at the head of the list. -/
theorem handWriter_passes (hpc : D.pc c = .readUnlockSection k) (hmem : f ∈ D.list (cfg.list k))
    (hlo : (D.pc f).lockOf = some k) (hrd : (D.tag f).rdlock = false)
    (hl : RwBitlock.leavesWork cfg s k = true) :
    Passes cfg own pay ft
      ((if decide (cfg.word k (pay k) (s.w k) (s.r k) &&& cfg.readerMask k = cfg.readerInc k) then
          (D.remove (cfg.list k) [f]).map fun D => D.setTag f { D.tag f with inList := false }
        else some D).bind fun D =>
        readSwap cfg k D c (cfg.word k (pay k) (s.w k) (s.r k))
          (if rest = [] ∨ cfg.word k (pay k) (s.w k) (s.r k) &&& cfg.readerMask k = cfg.readerMask k
            then cfg.word k (pay k) (s.w k) (s.r k) - cfg.readerInc k
            else cfg.word k (pay k) (s.w k) (s.r k)) (some f)
          (decide (cfg.word k (pay k) (s.w k) (s.r k) &&& cfg.readerMask k = cfg.readerInc k)))
      (if s.r k = 1 then
        ({ (s.remove (cfg.list k) [f]).setTag f { s.tag f with inList := false } with
          granted := Function.update s.granted f true }.setBits k (s.w k)
            (if rest = [] ∨ s.r k = cfg.maxReaders k then s.r k - 1 else s.r k)).goto c
          (.granting k [f])
      else (s.setBits k (s.w k)
        (if rest = [] ∨ s.r k = cfg.maxReaders k then s.r k - 1 else s.r k)).goto c .idle) := by
  have hcl := hi.client c
  have hreads : (D.pc c).reads = some k := by rw [hpc]; rfl
  obtain ⟨hpos, hsig, hover⟩ := reader_facts h (hs.pc ▸ hreads)
  have hp := hs.outside k
  have hle := hs.le k
  have hmax := cfg.three_le_maxReaders k
  have hlw := (leavesWork_sim hs k).trans hl
  simp only [word_readers_eq_inc hp hle (show 1 ≤ cfg.maxReaders k by omega),
    word_readers_eq_mask hp hle]
  by_cases h1 : s.r k = 1
  · -- the last reader hands the lock to the writer
    obtain ⟨D₁, hD₁, hsim, hon, hsame⟩ := remove_sim hs hi.on (l := [f]) (i := cfg.list k)
      fun d hd => List.mem_singleton.mp hd ▸ hmem
    have htag : D.tag f = s.tag f := hs.tag f k hlo
    have htag₁ : D₁.tag f = D.tag f := congrFun hsame.tag f
    have hf : Frame c D (D₁.setTag f { D₁.tag f with inList := false }) :=
      (hsame.frame c).mark rfl rfl id (fun _ => rfl) (by rw [hsame.pc]; exact Pc.not_foreign hlo)
    have hend : ∀ (r' : ℕ) (l : Locals), l.doWakeup = true → r' ≤ cfg.maxReaders k →
        Passes cfg own pay ft
          (some ((((D₁.setTag f { D₁.tag f with inList := false }).setLock k
            (cfg.word k (pay k) (s.w k) r')).setLocals c l).goto c (.granting k [f])))
          (({ (s.remove (cfg.list k) [f]).setTag f { s.tag f with inList := false } with
            granted := Function.update s.granted f true }.setBits k (s.w k) r').goto c
            (.granting k [f])) := by
      intro r' l hl' hr'
      have hset := ((hsim.setTag (d := f) { D₁.tag f with inList := false }).granted
        (Function.update s.granted f true)).setLock (k := k) (w := s.w k) hr'
      rw [← htag, ← htag₁]
      refine ⟨_, rfl, (hset.setLocals l).goto_out rfl,
        hi.step (((hf.setLock _).setLocals _).goto _) hon hact ?_⟩
      have hloc : ((((D₁.setTag f { D₁.tag f with inList := false }).setLock k
          (cfg.word k (pay k) (s.w k) r')).setLocals c l).goto c (.granting k [f])).locals c = l :=
        Function.update_self _ _ _
      have htags : ∀ d, ((((D₁.setTag f { D₁.tag f with inList := false }).setLock k
          (cfg.word k (pay k) (s.w k) r')).setLocals c l).goto c (.granting k [f])).tag d
          = if d = f then { D₁.tag f with inList := false } else D₁.tag d :=
        fun d => setTag_tag D₁ f d _
      refine Client.granting (k := k) (l := [f]) (Function.update_self _ _ _) ?_ ?_ ?_
      · exact fun ho => (congrFun hsame.src c).trans (hcl.free ho (Pc.reads_only hreads).2.1)
      · intro _ hneed
        refine (congrFun hsame.src c).trans (hcl.waited (.inl (by rw [hreads]; simp)) ?_)
        rw [htags] at hneed
        split at hneed
        · rename_i hcf
          rwa [hcf, ← htag₁]
        · rwa [hsame.tag] at hneed
      · intro d hd
        rw [List.mem_singleton.mp hd, hloc, if_pos hl', htags, if_pos rfl]
        exact ⟨by rw [← hrd, ← htag₁], rfl⟩
    have hlock : (D₁.setTag f { D₁.tag f with inList := false }).lock k
        = cfg.word k (pay k) (s.w k) (s.r k) := (congrFun hsame.lock k).trans (hs.lock k)
    have hns : ¬ s.r k = cfg.maxReaders k := by omega
    rw [decide_eq_true h1, if_pos rfl, hD₁, Option.map_some, Option.bind_some, if_pos h1]
    by_cases hrest : rest = []
    · rw [if_pos (.inl hrest), if_pos (.inl hrest), readSwap_sub hp hle hpos hlock hlw fun _ => h1,
        if_pos rfl]
      exact hend _ _ rfl (by omega)
    · -- somebody waits behind the writer, and the count says so
      have hor : ¬ (rest = [] ∨ s.r k = cfg.maxReaders k) := not_or.mpr ⟨hrest, hns⟩
      have hw : s.w k = true := by
        rw [RwBitlock.leavesWork, decide_eq_false hns, Bool.false_or, Bool.and_eq_true] at hl
        exact hl.1
      rw [if_neg hor, if_neg hor, readSwap_keep, if_pos rfl]
      · have hkeep := hend (s.r k) ⟨cfg.word k (pay k) (s.w k) (s.r k), true, false⟩ rfl hle
        rw [← hlock, setLock_self, hlock] at hkeep
        exact hkeep
      · exact .inr ((word_readers_eq_inc hp hle (by omega)).mpr h1)
      · refine .inr ⟨?_, ?_⟩
        · rw [ne_eq, word_writer_eq_zero hp hle, hw]
          simp
        · rw [ne_eq, word_readers_eq_zero hp hle]
          omega
  · have hsat : s.r k = cfg.maxReaders k := by
      by_contra hne
      exact absurd hl (Bool.eq_false_iff.mp (leavesWork_eq_false.mpr ⟨hne, fun hd => h1 hd.2⟩))
    rw [decide_eq_false h1, if_neg Bool.false_ne_true, Option.bind_some, if_pos (.inr hsat),
      if_neg h1, if_pos (.inr hsat), readSwap_sub hp hle hpos (hs.lock k) hlw fun hd => absurd hd Bool.false_ne_true,
      if_neg Bool.false_ne_true]
    exact done_passes hs hi h hact hreads (by omega)

/-- **The section of `readunlock`**, if what it finds is waiters of the lock. -/
theorem readUnlockSection_passes (hpc : D.pc c = .readUnlockSection k)
    (halone : RwBitlock.leavesWork cfg s k = true → (s.tag c).inList = false →
      ∀ d ∈ D.found cfg k, (D.pc d).lockOf = some k) :
    Passes cfg own pay ft (readUnlockSection cfg k D c) (RwBitlock.readUnlockSection cfg s c k) := by
  have hcl := hi.client c
  have hreads : (D.pc c).reads = some k := by rw [hpc]; rfl
  have hreads' : (s.pc c).reads = some k := hs.pc ▸ hreads
  obtain ⟨hpos, hsig, hover⟩ := reader_facts h hreads'
  have hp := hs.outside k
  have hle := hs.le k
  have hmax := cfg.three_le_maxReaders k
  have htag : D.tag c = s.tag c := hs.tag c k (by rw [hpc]; rfl)
  rw [readUnlockSection, hs.lock k, clearRdlock_word hp hle hpos, Option.bind_some]
  simp only [leavesWork_sim hs]
  by_cases hl : RwBitlock.leavesWork cfg s k = false
  · -- the count was taken back after all
    have hin : (s.tag c).inList = false := by
      by_contra hin
      exact (leavesWork_eq_false.mp hl).1 (hover (Bool.not_eq_false _ ▸ hin)).1
    rw [RwBitlock.readUnlockSection, if_pos hl, if_pos hl, hl, if_neg Bool.false_ne_true,
      lwAssert_pos (show ((D.setLock k (cfg.word k (pay k) (s.w k) (s.r k - 1))).tag c).inList
        = false from (congrArg Tag.inList htag).trans hin), hin, if_neg Bool.false_ne_true]
    exact done_passes hs hi h hact hreads (by omega)
  have hl' : RwBitlock.leavesWork cfg s k = true := Bool.eq_true_of_not_eq_false hl
  have hself : D.setLock k (cfg.word k (pay k) (s.w k) (s.r k)) = D := by
    rw [← hs.lock k, setLock_self]
  rw [if_neg hl, hl', if_pos rfl, hself, hs.lock k, leavesWork_sim hs, lwAssert_pos hl',
    RwBitlock.readUnlockSection, if_neg hl, htag]
  by_cases hin : (s.tag c).inList = true
  · -- the reader was counted in the list
    obtain ⟨hsat, hhave, hrd, hmem⟩ := hover hin
    obtain ⟨D₁, hD₁, -, hpass⟩ := dropOver_passes hs hi h hact hreads (f := c) (hs.list ▸ hmem)
      (by rw [hpc]; rfl)
      (by rw [htag, hhave]) (by rw [htag, hrd]) hsat
    rw [if_pos hin, if_pos hin, if_pos hsat, hD₁, Option.bind_some,
      lwAssert_pos ((word_readers_eq_mask hp hle).mpr hsat)]
    exact hpass
  rw [if_neg hin, if_neg hin]
  have hin := Bool.eq_false_iff.mpr hin
  have hlo := halone hl' hin
  obtain ⟨hfound, halone', htags⟩ := found_sim hs h.1 hlo
  obtain ⟨hrep, g, hinv⟩ := id h
  have hq := found_eq hrep hinv.clients halone'
  have hch : c ∈ g.hold k := (hinv.clients.hold c k).mpr (.inl hreads')
  obtain ⟨-, -, -, sat, first, hw, -⟩ := (hinv.shape k).reading hch
  rw [hfound] at htags hlo ⊢
  -- who is found is marked as being in the list
  have hmarked : ∀ d ∈ s.found cfg k, (D.tag d).inList = true := by
    intro d hd
    rw [htags d hd]
    rcases List.mem_append.mp (hq ▸ hd) with hd | hd
    · exact (hinv.clients.surplus k d hd).2.2.2.1
    · exact (hinv.clients.line k d hd).2.2.2.1
  have hfmem : ∀ d ∈ s.found cfg k, d ∈ D.list (cfg.list k) := fun d hd =>
    hs.list ▸ (List.mem_filter.mp hd).1
  rcases hf : s.found cfg k with - | ⟨f, rest⟩
  · have hnil := List.append_eq_nil_iff.mp (hq.symm.trans hf)
    have hlw := (leavesWork_sim hs k).trans hl'
    dsimp only
    rw [readSwap_sub hp hle hpos (hs.lock k) hlw fun hd => absurd hd Bool.false_ne_true,
      if_neg Bool.false_ne_true]
    exact done_passes hs hi h hact hreads (by omega)
  have hmem : f ∈ s.found cfg k := by rw [hf]; exact List.mem_cons_self
  dsimp only
  rw [lwAssert_pos (show D.Marked (f :: rest) by
    rintro d hd
    obtain rfl : f = d := Option.some.inj hd
    exact hmarked f hmem), htags f hmem]
  by_cases hhave : (s.tag f).haveLock = true
  · have hfo : f ∈ g.surplus k := by
      rcases List.mem_append.mp (hq ▸ hmem) with hd | hd
      · exact hd
      · rw [show (s.tag f).haveLock = false from (hinv.clients.line k f hd).2.2.1] at hhave
        cases hhave
    have hrd : (s.tag f).rdlock = true := (hinv.clients.surplus k f hfo).2.2.1
    have hsat : s.r k = cfg.maxReaders k := sat (List.ne_nil_of_mem hfo)
    obtain ⟨D₁, hD₁, -, hpass⟩ := dropOver_passes hs hi h hact hreads (hfmem f hmem) (hlo f hmem)
      (by rw [htags f hmem, hhave]) (by rw [htags f hmem, hrd]) hsat
    rw [if_pos hhave, if_pos hhave, lwAssert_pos hrd,
      lwAssert_pos ((word_readers_eq_mask hp hle).mpr hsat), hD₁, Option.bind_some]
    exact hpass
  · have ho : g.surplus k = [] := by
      rcases ho : g.surplus k with - | ⟨d, o⟩
      · rfl
      · rw [ho, hf] at hq
        obtain rfl : f = d := (List.cons.inj hq).1
        exact absurd (hinv.clients.surplus k f (by rw [ho]; exact List.mem_cons_self)).2.1 hhave
    rw [ho, List.nil_append, hf] at hq
    have hrd : (s.tag f).rdlock = false := first f (by rw [← hq]; rfl)
    rw [if_neg hhave, if_neg hhave, lwAssert_pos hrd,
      if_neg (show ¬ (s.tag f).rdlock = true by rw [hrd]; exact Bool.false_ne_true),
      lwAssert_pos (show D.Marked rest by
        intro d hd
        refine hmarked d ?_
        rw [hf]
        exact List.mem_cons_of_mem _ (List.mem_of_mem_head? hd))]
    exact handWriter_passes hs hi h hact hpc (hfmem f hmem) (hlo f hmem)
      (by rw [htags f hmem, hrd]) hl'

end reader

/-! ## `writeunlock` -/

section writer

variable (hs : Sim cfg pay D s) (hi : Inv cfg own pay ft D) (h : Good cfg s)
  (hact : ∀ c', c ∉ (D.pc c').grants)
include hs hi h hact

omit [DecidableEq ι] in
/-- **`writeunlock`** up to its section. -/
theorem writeunlock_passes (hpc : D.pc c = .writing k) (hrange : Range cfg k) :
    Passes cfg own pay ft (writeunlock cfg k D c) (RwBitlock.writeunlock s c k) := by
  have hcl := hi.client c
  have hwrites : (s.pc c).writes = some k := by rw [← hs.pc, hpc]; rfl
  obtain ⟨hw, hone⟩ := writer_facts h hwrites
  have hp := hs.outside k
  have hle := hs.le k
  have hfree : own c = true → D.src c = none := fun ho => hcl.free ho (by rw [hpc]; rfl)
  rw [writeunlock, lwAssert_pos hrange, hs.lock k, clearWrlock_word hp hle hw, Option.bind_some,
    RwBitlock.writeunlock]
  simp only [word_readers_eq_zero hp hle]
  by_cases hr : s.r k = 0
  · rw [if_pos hr, if_neg (not_not.mpr hr), if_neg (not_not.mpr hr)]
    refine ⟨_, rfl, (hs.setLock hle).goto_out rfl,
      hi.step (((Frame.refl c D).setLock _).goto _) hi.on hact ?_⟩
    exact Client.out (Function.update_self _ _ _) hfree
  · rw [if_neg hr, if_pos hr, if_pos hr]
    have hself : D.setLock k (cfg.word k (pay k) (s.w k) (s.r k)) = D := by
      rw [← hs.lock k, setLock_self]
    rw [hself]
    refine ⟨_, rfl, (hs.setLocals _).goto_out rfl,
      hi.step (((Frame.refl c D).setLocals _).goto _) hi.on hact ?_⟩
    have hgoto : ((D.setLocals c ⟨cfg.word k (pay k) (s.w k) (s.r k), false, false⟩).goto c
        (.writeUnlockSection k)).pc c = .writeUnlockSection k := Function.update_self _ _ _
    have hloc : ((D.setLocals c ⟨cfg.word k (pay k) (s.w k) (s.r k), false, false⟩).goto c
        (.writeUnlockSection k)).locals c = ⟨cfg.word k (pay k) (s.w k) (s.r k), false, false⟩ :=
      Function.update_self _ _ _
    constructor <;> simp [hgoto, hloc, Pc.waits, Pc.reads, Pc.releases, Pc.grants]
    · rw [hw, hone hr]
    · exact hfree

end writer

omit [DecidableEq C] [DecidableEq K] [DecidableEq ι] in
/-- **`find_eligible_waiters`**, on waiters that are marked as being in the list. -/
theorem findEligibleWaiters_sim {m taken : List C} (htag : ∀ d ∈ m, D.tag d = s.tag d)
    (hin : ∀ d ∈ m, (D.tag d).inList = true) (want : Bool) (max : ℕ) :
    findEligibleWaiters D want max m taken
      = some (RwBitlock.findEligibleWaiters s want max m taken) := by
  induction m generalizing taken with
  | nil => rfl
  | cons d m ih =>
    have hmarked : D.Marked m := fun e he =>
      hin e (List.mem_cons_of_mem _ (List.mem_of_mem_head? he))
    rw [findEligibleWaiters, lwAssert_pos hmarked, RwBitlock.findEligibleWaiters,
      htag d List.mem_cons_self]
    split
    · exact ih (fun e he => htag e (List.mem_cons_of_mem _ he))
        fun e he => hin e (List.mem_cons_of_mem _ he)
    · rfl

/-- Readers are woken up where they stand. -/
def told (D : State C K ι) (O : List C) : State C K ι :=
  { D with
    tag := fun d => if d ∈ O then { D.tag d with haveLock := true } else D.tag d
    signalled := fun d => if d ∈ O then true else D.signalled d }

/-- A waiter is told, and its tag stored. -/
def State.told₁ (D : State C K ι) (d : C) (t : Tag) : State C K ι :=
  { D.setTag d t with signalled := Function.update D.signalled d true }

omit [DecidableEq K] [DecidableEq ι] in
/-- One reader after the other is woken up. -/
theorem told_cons (D : State C K ι) (d : C) (O : List C) :
    told (D.told₁ d { D.tag d with haveLock := true }) O = told D (d :: O) := by
  have htag : ∀ e, (D.told₁ d { D.tag d with haveLock := true }).tag e
      = if e = d then { D.tag d with haveLock := true } else D.tag e :=
    fun e => setTag_tag D d e _
  have hsig : ∀ e, (D.told₁ d { D.tag d with haveLock := true }).signalled e
      = if e = d then true else D.signalled e := fun e => Function.update_apply _ _ _ _
  have htags : (told (D.told₁ d { D.tag d with haveLock := true }) O).tag
      = (told D (d :: O)).tag := by
    funext e
    simp only [told, htag, List.mem_cons]
    by_cases he : e = d
    · subst he
      simp
    · simp [he]
  have hsigs : (told (D.told₁ d { D.tag d with haveLock := true }) O).signalled
      = (told D (d :: O)).signalled := by
    funext e
    simp only [told, hsig, List.mem_cons]
    by_cases he : e = d
    · subst he
      simp
    · simp [he]
  calc told (D.told₁ d { D.tag d with haveLock := true }) O
      = { D with
          tag := (told (D.told₁ d { D.tag d with haveLock := true }) O).tag
          signalled := (told (D.told₁ d { D.tag d with haveLock := true }) O).signalled } := rfl
    _ = told D (d :: O) := by rw [htags, hsigs]; rfl

omit [DecidableEq K] [DecidableEq ι] in
/-- **`wake_eligible_readers`**, on waiters that nobody has woken up yet. -/
theorem wakeEligibleReaders_sim {m : List C} (hnod : m.Nodup) (htag : ∀ d ∈ m, D.tag d = s.tag d)
    (hin : ∀ d ∈ m, (D.tag d).inList = true) (hsig : ∀ d ∈ m, D.signalled d = false) :
    wakeEligibleReaders D m = some (told D (RwBitlock.wakeEligibleReaders s m).1,
      (RwBitlock.wakeEligibleReaders s m).1, (RwBitlock.wakeEligibleReaders s m).2) := by
  induction m generalizing D with
  | nil =>
    rw [wakeEligibleReaders, RwBitlock.wakeEligibleReaders, told]
    simp only [List.not_mem_nil, if_false]
  | cons d m ih =>
    have hmarked : D.Marked m := fun e he =>
      hin e (List.mem_cons_of_mem _ (List.mem_of_mem_head? he))
    rw [wakeEligibleReaders, lwAssert_pos hmarked, RwBitlock.wakeEligibleReaders,
      htag d List.mem_cons_self]
    split
    · have hnot : ∀ e ∈ m, e ≠ d := fun e he hed => (List.nodup_cons.mp hnod).1 (hed ▸ he)
      have hwake : (D.setTag d { s.tag d with haveLock := true }).wakeup d
          = some (D.told₁ d { s.tag d with haveLock := true }) :=
        lwAssert_pos (hsig d List.mem_cons_self) _
      rw [hwake, Option.bind_some, ih (List.nodup_cons.mp hnod).2]
      · rw [Option.map_some, ← htag d List.mem_cons_self, told_cons]
      · intro e he
        exact (Function.update_of_ne (hnot e he) _ _).trans (htag e (List.mem_cons_of_mem _ he))
      · intro e he
        rw [show (D.told₁ d { s.tag d with haveLock := true }).tag e = D.tag e from
          Function.update_of_ne (hnot e he) _ _]
        exact hin e (List.mem_cons_of_mem _ he)
      · intro e he
        exact (Function.update_of_ne (hnot e he) _ _).trans (hsig e (List.mem_cons_of_mem _ he))
    · rw [told]
      simp only [List.not_mem_nil, if_false]

omit [DecidableEq K] [DecidableEq ι] in
/-- Nobody is woken up. -/
theorem told_nil (D : State C K ι) : told D [] = D := by
  rw [told]
  simp only [List.not_mem_nil, if_false]

omit [DecidableEq K] [DecidableEq ι] in
/-- **The word that `writeunlock` stores** passes its assertions, and readers past a
saturated count are woken up. -/
theorem newWord_eq {taken : List C} {rd more next : Bool} (hnod : rest.Nodup)
    (htag : ∀ d ∈ rest, D.tag d = s.tag d) (hin : ∀ d ∈ rest, (D.tag d).inList = true)
    (hsig : ∀ d ∈ rest, D.signalled d = false) (hlen : taken.length ≤ cfg.maxReaders k) :
    newWord cfg k D rd taken rest more next
      = let o := if more ∧ rd ∧ taken.length = cfg.maxReaders k ∧ next then
            RwBitlock.wakeEligibleReaders s rest
          else ([], more)
        some (told D o.1, cfg.word k 0#32 (if rd then o.2 else true)
          (if rd then taken.length else if more then 1 else 0)) := by
  have hmax := cfg.three_le_maxReaders k
  have hzero : cfg.word k 0#32 true 0 &&& cfg.readerMask k = 0#32 :=
    (word_readers_eq_zero outside_zero (Nat.zero_le _)).mpr rfl
  have hsat : cfg.word k 0#32 false taken.length = cfg.readerMask k
      ↔ taken.length = cfg.maxReaders k := by
    rw [readerMask_eq, word_inj outside_zero hlen outside_zero le_rfl]
    simp
  rw [newWord, readerInc_mul]
  cases rd with
  | false =>
    cases more with
    | false =>
      simp only [Bool.false_eq_true, if_false, false_and, told_nil]
      rw [writerMask_eq]
    | true =>
      have hadd : cfg.writerMask k + cfg.readerInc k = cfg.word k 0#32 true 1 := by
        rw [writerMask_eq, word_add_readerInc outside_zero (by omega)]
      simp only [Bool.false_eq_true, if_false, if_true, false_and, and_false, told_nil]
      rw [lwAssert_pos ⟨trivial, by rw [writerMask_eq]; exact hzero⟩, hadd,
        lwAssert_pos writerMask_or_readerInc.symm]
  | true =>
    cases more with
    | false => simp only [Bool.false_eq_true, if_false, if_true, false_and, told_nil]
    | true =>
      simp only [Bool.true_eq_false, if_false, if_true, true_and, hsat]
      by_cases hfull : taken.length = cfg.maxReaders k
      · cases next with
        | false =>
          simp only [hfull, Bool.false_eq_true, and_false, if_false, if_true, told_nil]
          rw [word_or_writerMask]
        | true =>
          have hmarked : D.Marked rest := fun d hd => hin d (List.mem_of_mem_head? hd)
          simp only [hfull, and_self, if_true]
          rw [lwAssert_pos hmarked, wakeEligibleReaders_sim hnod htag hin hsig, Option.map_some]
          cases (RwBitlock.wakeEligibleReaders s rest).2
          · rfl
          · rw [if_pos rfl, word_or_writerMask]
      · simp only [hfull, false_and, if_false, told_nil]
        rw [word_or_writerMask]

omit [DecidableEq K] [DecidableEq ι] in
theorem told_sim (h : Sim cfg pay D s) (O : List C) (g : C → Bool) : Sim cfg pay (told D O)
    { s with
      tag := fun d => if d ∈ O then { s.tag d with haveLock := true } else s.tag d
      signalled := fun d => if d ∈ O then true else s.signalled d
      granted := g } :=
  { h with
    signalled := by
      show (fun d => if d ∈ O then true else D.signalled d) = _
      rw [h.signalled]
    tag := by
      intro e k he
      show (if e ∈ O then { D.tag e with haveLock := true } else D.tag e) = _
      rw [h.tag e k he] }

omit [DecidableEq K] [DecidableEq ι] in
theorem told_frame (c : C) {O : List C} (hO : ∀ d ∈ O, ∀ i, D.pc d ≠ .foreign i) :
    Frame c D (told D O) := by
  have htag : ∀ e, (told D O).tag e = if e ∈ O then { D.tag e with haveLock := true }
    else D.tag e := fun _ => rfl
  refine ⟨fun _ _ => rfl, fun _ _ => rfl, fun _ _ => rfl, ?_, ?_, ?_, ?_, ?_⟩
  rotate_right
  · intro e i _ hp
    rw [htag, if_neg fun he => hO e he i hp]
  all_goals
    intro e _
    rw [htag]
    split <;> first | rfl | exact id | exact fun _ => rfl

omit [DecidableEq C] [DecidableEq K] [DecidableEq ι] in
/-- **Both fields are swapped**, unless they stay. -/
theorem swapBoth {p : BitVec 32} {w w' : Bool} {r r' : ℕ} (hp : cfg.Outside k p)
    (hr : r ≤ cfg.maxReaders k) (hr' : r' ≤ cfg.maxReaders k) :
    (if cfg.word k p w r &&& cfg.lockMask k ≠ cfg.word k 0#32 w' r' then
        Word.swapWithMask (cfg.word k p w r) (~~~cfg.lockMask k)
          (cfg.word k p w r &&& cfg.lockMask k) (cfg.word k 0#32 w' r')
      else some (cfg.word k p w r)) = some (cfg.word k p w' r') := by
  rw [word_and_lockMask_eq hp hr]
  by_cases heq : cfg.word k 0#32 w r = cfg.word k 0#32 w' r'
  · obtain ⟨-, rfl, rfl⟩ := (word_inj outside_zero hr outside_zero hr').mp heq
    rw [if_neg (not_not.mpr rfl)]
  · have hold : cfg.word k p w r &&& cfg.lockMask k = cfg.word k 0#32 w r &&& cfg.lockMask k := by
      rw [word_and_lockMask_eq hp hr, word_and_lockMask_eq outside_zero hr]
    rw [if_pos heq, Word.swapWithMask_pos (Word.and_eq_and_iff.mp hold),
      word_replace hp hr outside_zero hr']

/-- **The section of `writeunlock`**, if what it finds is waiters of the lock. -/
theorem writeUnlockSection_passes (hs : Sim cfg pay D s) (hi : Inv cfg own pay ft D) (h : Good cfg s)
    (hact : ∀ c', c ∉ (D.pc c').grants) (hpc : D.pc c = .writeUnlockSection k)
    (halone : ∀ d ∈ D.found cfg k, (D.pc d).lockOf = some k) :
    Passes cfg own pay ft (writeUnlockSection cfg k D c)
      (RwBitlock.writeUnlockSection cfg s c k) := by
  have hcl := hi.client c
  have hpc' : s.pc c = .writeUnlockSection k := hs.pc ▸ hpc
  have hfree : own c = true → D.src c = none := fun ho => hcl.free ho (by rw [hpc]; rfl)
  have hp := hs.outside k
  have hle := hs.le k
  have hmax := cfg.three_le_maxReaders k
  obtain ⟨hfound, halone', htags⟩ := found_sim hs h.1 halone
  obtain ⟨hrep, g, hinv⟩ := id h
  have hwrites : ((s.abs cfg).pc c).writes = some k := by
    rw [show (s.abs cfg).pc c = s.pc c from rfl, hpc']
    rfl
  have hwr : g.wr k = some c := (hinv.clients.wr c k).mpr (.inl hwrites)
  obtain ⟨hover, -, hw, hr⟩ := (hinv.shape k).writing (by rw [hwr]; simp)
  have hline : g.line k ≠ [] := hinv.clients.hands c k (by
    rw [show (s.abs cfg).pc c = s.pc c from rfl, hpc']
    rfl)
  rw [if_neg hline] at hr
  have hlock : D.lock k = cfg.word k (pay k) true 1 := by
    rw [hs.lock k, show s.w k = true from hw, show s.r k = 1 from hr]
  have hq := found_eq hrep hinv.clients halone'
  rw [hover, List.nil_append] at hq
  rw [hfound] at htags
  -- all that are found wait, and nobody has woken them up
  have hin : ∀ d ∈ s.found cfg k, (D.tag d).inList = true := by
    intro d hd
    rw [htags d hd]
    exact (hinv.clients.line k d (hq ▸ hd)).2.2.2.1
  have hsig : ∀ d ∈ s.found cfg k, D.signalled d = false := by
    intro d hd
    by_contra hsig
    have hgr := (hinv.clients.signalled d (by
      rw [show (s.abs cfg).signalled d = D.signalled d from congrFun hs.signalled.symm d]
      exact Bool.not_eq_false _ ▸ hsig)).1
    rw [(hinv.clients.line k d (hq ▸ hd)).2.1] at hgr
    cases hgr
  have hnod : (s.found cfg k).Nodup := (hrep.nodup _).filter _
  have hmem : ∀ d ∈ s.found cfg k, d ∈ D.list (cfg.list k) := fun d hd =>
    hs.list ▸ (List.mem_filter.mp hd).1
  rw [writeUnlockSection, lwAssert_pos ((hcl.old k hpc).trans hlock.symm), hfound,
    RwBitlock.writeUnlockSection]
  rcases hf : s.found cfg k with - | ⟨f, m⟩
  · exact absurd (hq.symm.trans hf) hline
  rw [hf] at htags hin hsig hnod hmem
  have hmarked : D.Marked (f :: m) := by
    intro d hd
    obtain rfl : f = d := Option.some.inj hd
    exact hin f List.mem_cons_self
  dsimp only
  rw [lwAssert_pos hmarked, htags f List.mem_cons_self, findEligibleWaiters_sim htags hin,
    Option.bind_some]
  generalize hrd : (s.tag f).rdlock = rd
  have hmax' : (if rd = true then cfg.maxReaders k else 1) ≤ cfg.maxReaders k := by
    split <;> omega
  obtain ⟨T, rest, hm, he, hT, hlen, hnext⟩ := findEligibleWaiters_spec s rd
    (if rd = true then cfg.maxReaders k else 1) (f :: m) [] (Nat.zero_le _)
  rw [List.nil_append] at he hlen hnext
  rw [he]
  dsimp only
  have hpos : 0 < T.length := by
    rcases T with - | ⟨d, T⟩
    · have hz := hnext f (by rw [← List.nil_append rest, ← hm]; rfl) hrd
      rw [List.length_nil] at hz
      split at hz <;> omega
    · exact Nat.succ_pos _
  have hsub : ∀ d ∈ T, d ∈ f :: m := fun d hd => hm ▸ List.mem_append_left _ hd
  have hsub' : ∀ d ∈ rest, d ∈ f :: m := fun d hd => hm ▸ List.mem_append_right _ hd
  obtain ⟨D₁, hD₁, hsim, hon, hsame⟩ := remove_sim hs hi.on (l := T) (i := cfg.list k)
    fun d hd => hmem d (hsub d hd)
  have hdrop : (f :: m).drop T.length = rest := by rw [hm, List.drop_left]
  rw [hD₁, Option.bind_some, lwAssert_pos ⟨hpos, hlen.trans hmax'⟩, hdrop,
    newWord_eq (s := s) ((hm ▸ hnod).of_append_right)
      (fun d hd => by rw [hsame.tag]; exact htags d (hsub' d hd))
      (fun d hd => by rw [hsame.tag]; exact hin d (hsub' d hd))
      (fun d hd => by rw [hsame.signalled]; exact hsig d (hsub' d hd)) (hlen.trans hmax'),
    Option.bind_some]
  dsimp only
  have hwoken : ∀ d ∈ (if (!rest.isEmpty) = true ∧ rd = true ∧ T.length = cfg.maxReaders k
      ∧ (rest.head?.any fun d => (s.tag d).rdlock) = true then RwBitlock.wakeEligibleReaders s rest
      else ([], !rest.isEmpty)).1, d ∈ rest := by
    intro d hd
    split at hd
    · obtain ⟨O, rest', hO, hwake, -⟩ := wakeEligibleReaders_spec s rest
      rw [hwake] at hd
      exact hO ▸ List.mem_append_left _ hd
    · cases hd
  generalize (if (!rest.isEmpty) = true ∧ rd = true ∧ T.length = cfg.maxReaders k
      ∧ (rest.head?.any fun d => (s.tag d).rdlock) = true then RwBitlock.wakeEligibleReaders s rest
    else ([], !rest.isEmpty)) = o at hwoken ⊢
  have hcount : (if rd = true then T.length else if (!rest.isEmpty) = true then 1 else 0)
      ≤ cfg.maxReaders k := by
    split
    · exact hlen.trans hmax'
    · split <;> omega
  have hlock' : (told D₁ o.1).lock k = cfg.word k (pay k) true 1 :=
    (congrFun hsame.lock k).trans hlock
  have htold : Frame c D₁ (told D₁ o.1) := told_frame c fun d hd => by
    rw [hsame.pc]
    exact Pc.not_foreign (halone d (hfound ▸ hf ▸ hsub' d (hwoken d hd)))
  rw [hlock', swapBoth hp (by omega) hcount, Option.map_some]
  refine ⟨_, rfl, (((told_sim hsim o.1 _).setLock hcount).setLocals _).goto_out rfl,
    hi.step (((((hsame.frame c).trans htold).setLock _).setLocals _).goto _) hon hact ?_⟩
  have hloc : ∀ (E : State C K ι) (l : Locals) (q : Pc C K ι),
      ((E.setLocals c l).goto c q).locals c = l := fun _ _ _ => Function.update_self _ _ _
  refine Client.granting (k := k) (l := T) (Function.update_self _ _ _) ?_ ?_ ?_
  · exact fun ho => (congrFun hsame.src c).trans (hfree ho)
  · rw [hloc]
    simp
  · intro d hd
    rw [hloc, if_neg Bool.false_ne_true]
    have hrdlock : (D₁.tag d).rdlock = rd := by
      rw [hsame.tag, htags d (hsub d hd), hT d hd]
    rw [← hrdlock]
    show (if d ∈ o.1 then { D₁.tag d with haveLock := true } else D₁.tag d).rdlock = _
    split <;> rfl

/-! ## Waking up -/

omit [DecidableEq ι] in
/-- **A client is told** that it was handed a lock. -/
theorem grant_passes (hs : Sim cfg pay D s) (hi : Inv cfg own pay ft D) (h : Good cfg s)
    (hact : ∀ c', c ∉ (D.pc c').grants) (hpc : D.pc c = .granting k (d :: ds)) :
    Passes cfg own pay ft (grant k D c d ds)
      ({ s.setTag d { s.tag d with inList := false, haveLock := true } with
        signalled := Function.update s.signalled d true }.goto c (.granting k ds)) := by
  have hcl := hi.client c
  obtain ⟨-, g, hinv⟩ := h
  have hd : d ∈ ((s.abs cfg).pc c).grants := by
    rw [show (s.abs cfg).pc c = D.pc c from congrFun hs.pc.symm c, hpc]
    exact List.mem_cons_self
  obtain ⟨hgr, hsig, -⟩ := hinv.clients.grants c d hd
  have hw := hinv.clients.granted d hgr
  have hlo : ∃ j, (D.pc d).lockOf = some j := by
    rw [hs.pc]
    cases hp : s.pc d with
    | waiting j rd => exact ⟨j, rfl⟩
    | _ => exact absurd (by rw [show (s.abs cfg).pc d = s.pc d from rfl, hp]; rfl) hw
  obtain ⟨j, hlo⟩ := hlo
  have htag : D.tag d = s.tag d := hs.tag d j hlo
  have hgrants : ∀ e ∈ d :: ds, _ := fun e he => hcl.grants e (by rw [hpc]; exact he)
  have hsig' : D.signalled d = false := (congrFun hs.signalled d).trans hsig
  have hwake : ∀ t, (D.setTag d t).wakeup d = some (D.told₁ d t) := fun t => lwAssert_pos hsig' _
  have hgrant : grant k D c d ds
      = some ((D.told₁ d { D.tag d with inList := false, haveLock := true }).goto c
        (.granting k ds)) := by
    have hd := hgrants d List.mem_cons_self
    rw [grant]
    split at hd
    · rename_i hw
      have hin : { D.tag d with haveLock := true }
          = { D.tag d with inList := false, haveLock := true } := by rw [← hd.2]
      rw [if_pos hw, lwAssert_pos hd, Option.bind_some, hwake, hin, Option.map_some]
    · rename_i hw
      rw [if_neg hw, lwAssert_pos hd, Option.bind_some, hwake, Option.map_some]
  have hset := hs.setTag (d := d) { D.tag d with inList := false, haveLock := true }
  have hf : Frame c D (D.told₁ d { D.tag d with inList := false, haveLock := true }) :=
    { (Frame.refl c D).mark (d := d) (t := { D.tag d with inList := false, haveLock := true })
        rfl rfl (fun _ => rfl) (fun _ => rfl) (Pc.not_foreign hlo) with }
  rw [hgrant]
  refine ⟨_, rfl, ?_, hi.step (hf.goto _) hi.on hact ?_⟩
  · have hsim : Sim cfg pay (D.told₁ d { D.tag d with inList := false, haveLock := true })
        { s.setTag d { D.tag d with inList := false, haveLock := true } with
          signalled := Function.update s.signalled d true } := by
      refine { hset with signalled := ?_ }
      show Function.update D.signalled _ _ = Function.update s.signalled _ _
      rw [hs.signalled]
    rw [← htag]
    exact hsim.goto_out rfl
  · have htags : ∀ e, ((D.told₁ d { D.tag d with inList := false, haveLock := true }).goto c
        (.granting k ds)).tag e
        = if e = d then { D.tag d with inList := false, haveLock := true } else D.tag e :=
      fun e => setTag_tag D d e _
    have hsame : ∀ e, (((D.told₁ d { D.tag d with inList := false, haveLock := true }).goto c
        (.granting k ds)).tag e).needToWait = (D.tag e).needToWait := by
      intro e
      rw [htags]
      split
      · rename_i he
        rw [he]
      · rfl
    refine Client.granting (k := k) (l := ds) (Function.update_self _ _ _) ?_ ?_ ?_
    · exact fun ho => hcl.free ho (by rw [hpc]; rfl)
    · intro hwake hneed
      rw [hsame] at hneed
      exact hcl.waited (.inr ⟨hwake, by rw [hpc]; nofun⟩) hneed
    · intro e he
      have he' := hgrants e (List.mem_cons_of_mem _ he)
      show if (D.locals c).doWakeup = true then _ else _
      rw [htags]
      split at he'
      · rename_i hw
        rw [if_pos hw]
        split
        · rename_i hed
          exact ⟨hed ▸ he'.1, rfl⟩
        · exact he'
      · rename_i hw
        rw [if_neg hw]
        split
        · rename_i hed
          exact hed ▸ he'
        · exact he'

omit [DecidableEq ι] in
/-- **All are woken up**; a reader that has waited destroys its event. -/
theorem granted_passes (hs : Sim cfg pay D s) (hi : Inv cfg own pay ft D) (h : Good cfg s)
    (hact : ∀ c', c ∉ (D.pc c').grants) (hpc : D.pc c = .granting k []) :
    Passes cfg own pay ft
      (if (D.locals c).doWakeup then readDone D c else some (D.goto c .idle)) (s.goto c .idle) := by
  have hcl := hi.client c
  have hpass : Passes cfg own pay ft (some (D.goto c .idle)) (s.goto c .idle) := by
    refine ⟨_, rfl, hs.goto_out rfl, hi.step ((Frame.refl c D).goto _) hi.on hact ?_⟩
    refine Client.out (Function.update_self _ _ _) fun ho => ?_
    exact hcl.free ho (by rw [hpc]; rfl)
  split
  · rename_i hw
    rw [readDone_eq (hcl.waited (.inr ⟨hw, by rw [hpc]; nofun⟩))]
    · exact hpass
    · rw [hs.signalled]
      obtain ⟨-, g, hinv⟩ := h
      by_contra hsig
      have hwaits := hinv.clients.granted c (hinv.clients.signalled c (Bool.not_eq_false _ ▸ hsig)).1
      refine hwaits ?_
      rw [show (s.abs cfg).pc c = D.pc c from congrFun hs.pc.symm c, hpc]
      rfl
  · exact hpass

end RwBitlock.Debug
