import Lwlock.RwBitlockDebug
import Lwlock.RwBitlockSafe

/-!
# The debug build follows the release build

The assertions of a debug build are decided by what the release build keeps: who has a
lock, how its count stands, what the tags of the waiters say. `Sim` reads the fields of the
release build out of the words of the debug build; beside it `Inv` says about the locals of
a call, about the lists that elements know and about `wait_src` what only the assertions
look at.

For every operation, the debug build passes all its assertions and does what the release
build does. One of them needs a word without payload.
-/

namespace RwBitlock.Debug

variable {C K ι α : Type} {cfg : Config K ι} {k : K}

theorem lwAssert_pos {p : Prop} [Decidable p] (h : p) (o : Option α) : lwAssert p o = o :=
  if_pos h

theorem lwAssert_neg {p : Prop} [Decidable p] (h : ¬ p) (o : Option α) : lwAssert p o = none :=
  if_neg h

/-! ## The helpers on words -/

variable (cfg k) in
/-- **The assertions about the masks hold.** -/
theorem masks : Masks cfg k := by
  refine ⟨one_shiftLeft_and_sub_one _, one_shiftLeft_and_sub_one _, readerMask_and_writerMask,
    cfg.readerInc_eq_shiftLeft k, ?_⟩
  have hmax := cfg.three_le_maxReaders k
  rw [BitVec.and_comm, cfg.readerInc_eq, readers_and_readerMask (by omega)]

section word

variable {pay : BitVec 32} {w : Bool} {r : ℕ} (hp : cfg.Outside k pay) (h : r ≤ cfg.maxReaders k)
include hp h

/-- The tests of `set_rdlock` are tests of the fields. -/
theorem setRdlock_word (try' under : Bool) :
    setRdlock cfg k (cfg.word k pay w r) try' under
      = some (cfg.word k pay w (if w then if (!under || try') ∨ r ≠ 0 then r else r + 1
          else if r = cfg.maxReaders k then r else r + 1)) := by
  have hmax := cfg.three_le_maxReaders k
  have hadd : r ≠ cfg.maxReaders k →
      cfg.word k pay w r + cfg.readerInc k = cfg.word k pay w (r + 1) :=
    fun hr => word_add_readerInc hp (by omega)
  rw [setRdlock, lwAssert_pos (masks cfg k)]
  simp only [ne_eq, word_writer_eq_zero hp h, word_readers_eq_zero hp h, word_readers_eq_mask hp h,
    Bool.not_eq_false]
  by_cases hw : w = true
  · rw [if_pos hw, if_pos hw]
    by_cases hu : (!under || try') = true
    · rw [if_pos hu, if_pos (.inl hu)]
    · rw [if_neg hu]
      by_cases hr : r = 0
      · rw [if_neg (not_not.mpr hr), if_neg (by rw [not_or, not_not]; exact ⟨hu, hr⟩),
          hadd (by omega)]
      · rw [if_pos hr, if_pos (.inr hr)]
  · rw [if_neg hw, if_neg hw]
    by_cases hr : r = cfg.maxReaders k
    · rw [if_pos hr, if_pos hr]
    · rw [if_neg hr, if_neg hr, hadd hr]

/-- **`set_wrlock`** passes its assertion, except under the lock of the list, beside a
payload, when a writer has the lock and nobody waits yet. -/
theorem setWrlock_word {try' under : Bool}
    (hok : under = true → try' = false → w = true → r = 0 → pay = 0#32) :
    setWrlock cfg k (cfg.word k pay w r) try' under
      = some (if w then cfg.word k pay w (if (!under || try') ∨ r ≠ 0 then r else r + 1)
          else if r ≠ 0 ∧ (!under || try') then cfg.word k pay w r
          else cfg.word k pay true r) := by
  have hmax := cfg.three_le_maxReaders k
  rw [setWrlock, lwAssert_pos (masks cfg k)]
  simp only [ne_eq, word_writer_eq_zero hp h, word_readers_eq_zero hp h, Bool.not_eq_false]
  by_cases hw : w = true
  · rw [if_pos hw, if_pos hw]
    by_cases hu : (!under || try') = true
    · rw [if_pos hu, if_pos (.inl hu)]
    · rw [if_neg hu]
      by_cases hr : r = 0
      · have hadd : cfg.word k pay w r + cfg.readerInc k = cfg.word k pay w (r + 1) :=
          word_add_readerInc hp (by omega)
        have hpay : pay = 0#32 := by
          rw [Bool.or_eq_true, not_or, Bool.not_eq_true, Bool.not_eq_true, Bool.not_eq_false'] at hu
          exact hok hu.1 hu.2 hw hr
        rw [if_neg (not_not.mpr hr), if_neg (by rw [not_or, not_not]; exact ⟨hu, hr⟩), hadd,
          lwAssert_pos]
        subst hpay hr hw
        exact writerMask_or_readerInc.symm
      · rw [if_pos hr, if_pos (.inr hr)]
  · rw [if_neg hw, if_neg hw]
    by_cases hr : r = 0
    · rw [if_neg (not_not.mpr hr), if_neg (fun hd => hd.1 hr), word_or_writerMask]
    · rw [if_pos hr]
      by_cases hu : (!under || try') = true
      · rw [if_pos hu, if_pos ⟨hr, hu⟩]
      · rw [if_neg hu, if_neg (fun hd => hu hd.2), word_or_writerMask]

/-- Beside a payload the assertion of `set_wrlock` fails. -/
theorem setWrlock_fails (hw : w = true) (hr : r = 0) (hpay : pay ≠ 0#32) :
    setWrlock cfg k (cfg.word k pay w r) false true = none := by
  have hmax := cfg.three_le_maxReaders k
  rw [setWrlock, lwAssert_pos (masks cfg k)]
  simp only [ne_eq, word_writer_eq_zero hp h, word_readers_eq_zero hp h, Bool.not_eq_false]
  rw [if_pos hw, if_neg (by decide), if_neg (not_not.mpr hr), lwAssert_neg]
  subst hw hr
  rw [word_add_readerInc hp (by omega), writerMask_or_readerInc, word_inj hp (by omega) outside_zero (by omega)]
  exact fun heq => hpay heq.1

/-- The test on what `clear_rdlock` returned. -/
theorem leavesWork_word : leavesWork cfg k (cfg.word k pay w r)
    = (decide (r = cfg.maxReaders k) || (w && decide (r = 1))) := by
  have hmax := cfg.three_le_maxReaders k
  rw [leavesWork]
  simp only [ne_eq, word_writer_eq_zero hp h, word_readers_eq_mask hp h,
    word_readers_eq_inc hp h (show 1 ≤ cfg.maxReaders k by omega), Bool.not_eq_false]
  rw [Bool.eq_iff_iff]
  simp

/-- **`clear_rdlock`** of a lock that a reader has. -/
theorem clearRdlock_word (hr : 1 ≤ r) : clearRdlock cfg k (cfg.word k pay w r)
    = some (cfg.word k pay w (if leavesWork cfg k (cfg.word k pay w r) then r else r - 1)) := by
  have hmax := cfg.three_le_maxReaders k
  have hpos : ¬ r = 0 := by omega
  rw [leavesWork_word hp h, clearRdlock, lwAssert_pos (masks cfg k)]
  simp only [ne_eq, word_writer_eq_zero hp h, word_readers_eq_zero hp h, word_readers_eq_mask hp h,
    word_readers_eq_inc hp h (show 1 ≤ cfg.maxReaders k by omega), Bool.not_eq_false]
  rw [lwAssert_pos hpos]
  by_cases h1 : r = cfg.maxReaders k
  · rw [if_pos h1, decide_eq_true h1, Bool.true_or, if_pos rfl]
  · rw [if_neg h1, decide_eq_false h1, Bool.false_or]
    by_cases h2 : r = 1 ∧ w = true
    · rw [if_pos h2, h2.2, decide_eq_true h2.1, Bool.and_self, if_pos rfl]
    · rw [if_neg h2, word_sub_readerInc hp h hr, if_neg]
      rw [Bool.and_eq_true, decide_eq_true_eq]
      exact fun hd => h2 ⟨hd.2, hd.1⟩

/-- **`clear_wrlock`** of a lock that a writer has. -/
theorem clearWrlock_word (hw : w = true) : clearWrlock cfg k (cfg.word k pay w r)
    = some (if r ≠ 0 then cfg.word k pay w r else cfg.word k pay false r) := by
  rw [clearWrlock, lwAssert_pos (masks cfg k), lwAssert_pos (word_writer_eq_mask hp h hw),
    word_and_not_writerMask hp h]
  simp only [ne_eq, word_readers_eq_zero hp h]
  split <;> rfl

end word

/-! ## The two builds -/

/-- **The fields are in the words**, and where the lists and the waiters matter they are the
same. -/
structure Sim (cfg : Config K ι) (pay : K → BitVec 32) (D : State C K ι)
    (s : RwBitlock.State C K ι) : Prop where
  outside : ∀ k, cfg.Outside k (pay k)
  le : ∀ k, s.r k ≤ cfg.maxReaders k
  lock : ∀ k, D.lock k = cfg.word k (pay k) (s.w k) (s.r k)
  list : D.list = s.list
  src : D.src = s.src
  signalled : D.signalled = s.signalled
  pc : D.pc = s.pc
  tag : ∀ c k, (D.pc c).lockOf = some k → D.tag c = s.tag c

/-- Elements know the list they are in. -/
def OnList (D : State C K ι) : Prop :=
  ∀ c i, D.on c = some i ↔ c ∈ D.list i

/-- **What the assertions look at** and the release build does not keep, client by client. -/
structure Client (cfg : Config K ι) (own : C → Bool) (pay : K → BitVec 32) (ft : C → Tag)
    (D : State C K ι) (c : C) : Prop where
  old : ∀ k, D.pc c = .writeUnlockSection k → (D.locals c).old = cfg.word k (pay k) true 1
  reader : ∀ k t, D.pc c = .readSection k t → own c = false
  writer : ∀ k, D.pc c = .writeSection k → own c = true
  free : own c = true → (D.pc c).waits = none → D.src c = none
  waits : (D.pc c).waits ≠ none → D.src c ≠ none
  haveLock : (D.pc c).reads ≠ none → (D.tag c).haveLock = true
  waited : (D.pc c).reads ≠ none ∨ ((D.locals c).doWakeup = true ∧ (D.pc c).releases ≠ none) →
    (D.tag c).needToWait = true → D.src c = none
  grants : ∀ d ∈ (D.pc c).grants, if (D.locals c).doWakeup then
      (D.tag d).rdlock = false ∧ (D.tag d).inList = false
    else (D.tag d).rdlock = (D.locals c).nextIsReader
  foreign : ∀ i, D.pc c = .foreign i → D.tag c = ft c

/-- **The invariant of the debug build**; `ft` are the tags with which waiters of others
came. -/
structure Inv (cfg : Config K ι) (own : C → Bool) (pay : K → BitVec 32) (ft : C → Tag)
    (D : State C K ι) : Prop where
  on : OnList D
  client : ∀ c, Client cfg own pay ft D c

/-- **What a step of a client leaves to the others**: of their tags, a lock that was handed
over, and that a waiter left its list. -/
structure Frame (c : C) (D D' : State C K ι) : Prop where
  pc : ∀ d, d ≠ c → D'.pc d = D.pc d
  src : ∀ d, d ≠ c → D'.src d = D.src d
  locals : ∀ d, d ≠ c → D'.locals d = D.locals d
  rdlock : ∀ d, d ≠ c → (D'.tag d).rdlock = (D.tag d).rdlock
  needToWait : ∀ d, d ≠ c → (D'.tag d).needToWait = (D.tag d).needToWait
  haveLock : ∀ d, d ≠ c → (D.tag d).haveLock = true → (D'.tag d).haveLock = true
  inList : ∀ d, d ≠ c → (D.tag d).inList = false → (D'.tag d).inList = false
  foreign : ∀ d i, d ≠ c → D.pc d = .foreign i → D'.tag d = D.tag d

variable {own : C → Bool} {pay : K → BitVec 32} {ft : C → Tag} {D D' D'' : State C K ι}
  {s s' : RwBitlock.State C K ι} {c d : C} {i : ι} {ds : List C}

theorem Frame.refl (c : C) (D : State C K ι) : Frame c D D :=
  ⟨fun _ _ => rfl, fun _ _ => rfl, fun _ _ => rfl, fun _ _ => rfl, fun _ _ => rfl,
    fun _ _ h => h, fun _ _ h => h, fun _ _ _ _ => rfl⟩

theorem Frame.trans (h : Frame c D D') (h' : Frame c D' D'') : Frame c D D'' where
  pc d hd := (h'.pc d hd).trans (h.pc d hd)
  src d hd := (h'.src d hd).trans (h.src d hd)
  locals d hd := (h'.locals d hd).trans (h.locals d hd)
  rdlock d hd := (h'.rdlock d hd).trans (h.rdlock d hd)
  needToWait d hd := (h'.needToWait d hd).trans (h.needToWait d hd)
  haveLock d hd ht := h'.haveLock d hd (h.haveLock d hd ht)
  inList d hd ht := h'.inList d hd (h.inList d hd ht)
  foreign d i hd hp := (h'.foreign d i hd ((h.pc d hd).trans hp)).trans (h.foreign d i hd hp)

/-- **The invariant after a step**: it is to be seen for the client that took it, as long as
it is not about to be woken up. -/
theorem Inv.step (h : Inv cfg own pay ft D) (hf : Frame c D D') (hon : OnList D')
    (hc : ∀ c', c ∉ (D.pc c').grants) (hclient : Client cfg own pay ft D' c) :
    Inv cfg own pay ft D' := by
  refine ⟨hon, fun e => ?_⟩
  by_cases he : e = c
  · exact he ▸ hclient
  obtain ⟨hold, hreader, hwriter, hfree, hwaits, hhave, hwaited, hgrants, hforeign⟩ := h.client e
  have hpc := hf.pc e he
  have hloc := hf.locals e he
  constructor
  · rw [hpc, hloc]
    exact hold
  · rw [hpc]
    exact hreader
  · rw [hpc]
    exact hwriter
  · rw [hpc, hf.src e he]
    exact hfree
  · rw [hpc, hf.src e he]
    exact hwaits
  · rw [hpc]
    exact fun hr => hf.haveLock e he (hhave hr)
  · rw [hpc, hloc, hf.needToWait e he, hf.src e he]
    exact hwaited
  · rw [hpc, hloc]
    intro d hd
    have hdc : d ≠ c := fun heq => hc e (heq ▸ hd)
    have hd' := hgrants d hd
    rw [hf.rdlock d hdc]
    split at hd'
    · rename_i hw
      rw [if_pos hw]
      exact ⟨hd'.1, hf.inList d hdc hd'.2⟩
    · rename_i hw
      rw [if_neg hw]
      exact hd'
  · rw [hpc]
    exact fun i hp => (hf.foreign e i he hp).trans (hforeign i hp)

/-! ## The helpers on states -/

theorem Frame.setLock [DecidableEq K] (h : Frame c D D') (v : BitVec 32) :
    Frame c D (D'.setLock k v) :=
  { h with }

/-- What the release build keeps for itself. -/
theorem Sim.granted (h : Sim cfg pay D s) (g : C → Bool) :
    Sim cfg pay D { s with granted := g } :=
  { h with }

/-- Storing the word that is there. -/
theorem setLock_self [DecidableEq K] (D : State C K ι) (k : K) : D.setLock k (D.lock k) = D := by
  rw [State.setLock, Function.update_eq_self]

theorem Sim.setLock [DecidableEq K] (h : Sim cfg pay D s) {w : Bool} {r : ℕ}
    (hr : r ≤ cfg.maxReaders k) :
    Sim cfg pay (D.setLock k (cfg.word k (pay k) w r)) (s.setBits k w r) :=
  { h with
    le := by
      intro j
      show Function.update s.r k r j ≤ cfg.maxReaders j
      by_cases hj : j = k
      · subst hj
        rwa [Function.update_self]
      · rw [Function.update_of_ne hj]
        exact h.le j
    lock := by
      intro j
      show Function.update D.lock k _ j
        = cfg.word j (pay j) (Function.update s.w k w j) (Function.update s.r k r j)
      by_cases hj : j = k
      · subst hj
        simp only [Function.update_self]
      · simp only [Function.update_of_ne hj]
        exact h.lock j }

section clients

variable [DecidableEq C]

theorem Frame.goto (h : Frame c D D') (p : Pc C K ι) : Frame c D (D'.goto c p) :=
  { h with pc := fun d hd => (Function.update_of_ne hd _ _).trans (h.pc d hd) }

theorem Frame.setLocals (h : Frame c D D') (l : Locals) : Frame c D (D'.setLocals c l) :=
  { h with locals := fun d hd => (Function.update_of_ne hd _ _).trans (h.locals d hd) }

theorem Frame.wakeup (h : Frame c D D') (hw : D'.wakeup d = some D'') : Frame c D D'' := by
  rw [State.wakeup, lwAssert] at hw
  split at hw
  · obtain rfl := Option.some.inj hw
    exact { h with }
  · cases hw

/-- The tag of a client after a store. -/
theorem setTag_tag (D : State C K ι) (d e : C) (t : Tag) :
    (D.setTag d t).tag e = if e = d then t else D.tag e := by
  by_cases he : e = d
  · subst he
    rw [if_pos rfl]
    exact Function.update_self _ _ _
  · rw [if_neg he]
    exact Function.update_of_ne he _ _

/-- A client stores its own tag. -/
theorem Frame.setTag (h : Frame c D D') (t : Tag) : Frame c D (D'.setTag c t) := by
  refine h.trans ⟨fun _ _ => rfl, fun _ _ => rfl, fun _ _ => rfl, ?_, ?_, ?_, ?_, ?_⟩
  rotate_right
  · intro e _ he _
    rw [setTag_tag, if_neg he]
  all_goals
    intro e he
    rw [setTag_tag, if_neg he]
  · exact id
  · exact id

/-- A tag of anybody is stored, with what others may find changed. -/
theorem Frame.mark (h : Frame c D D') {t : Tag} (hrd : t.rdlock = (D'.tag d).rdlock)
    (hneed : t.needToWait = (D'.tag d).needToWait)
    (hhave : (D'.tag d).haveLock = true → t.haveLock = true)
    (hin : (D'.tag d).inList = false → t.inList = false) (hout : ∀ i, D'.pc d ≠ .foreign i) :
    Frame c D (D'.setTag d t) := by
  refine h.trans ⟨fun _ _ => rfl, fun _ _ => rfl, fun _ _ => rfl, ?_, ?_, ?_, ?_, ?_⟩
  rotate_right
  · intro e i _ hp
    rw [setTag_tag, if_neg]
    rintro rfl
    exact hout i hp
  all_goals
    intro e _
    rw [setTag_tag]
    split
    · rename_i he
      subst he
      assumption
    · first | rfl | exact id

/-- The program point of a client after a move. -/
theorem goto_pc (D : State C K ι) (c e : C) (p : Pc C K ι) :
    (D.goto c p).pc e = if e = c then p else D.pc e := by
  by_cases he : e = c
  · subst he
    rw [if_pos rfl]
    exact Function.update_self _ _ _
  · rw [if_neg he]
    exact Function.update_of_ne he _ _

theorem Sim.setTag (h : Sim cfg pay D s) (t : Tag) : Sim cfg pay (D.setTag d t) (s.setTag d t) :=
  { h with
    tag := by
      intro e k he
      have hs : (s.setTag d t).tag e = if e = d then t else s.tag e := Function.update_apply _ _ _ _
      rw [setTag_tag, hs]
      split
      · rfl
      · exact h.tag e k he }

theorem Sim.goto (h : Sim cfg pay D s) {p : Pc C K ι}
    (ht : ∀ k, p.lockOf = some k → D.tag c = s.tag c) : Sim cfg pay (D.goto c p) (s.goto c p) :=
  { h with
    pc := by
      show Function.update D.pc c p = Function.update s.pc c p
      rw [h.pc]
    tag := by
      intro e k he
      rw [goto_pc] at he
      split at he
      · rename_i hec
        exact hec ▸ ht k he
      · exact h.tag e k he }

/-- A client goes where it is in no list. -/
theorem Sim.goto_out (h : Sim cfg pay D s) {p : Pc C K ι} (hp : p.lockOf = none) :
    Sim cfg pay (D.goto c p) (s.goto c p) :=
  h.goto fun k hk => by rw [hp] at hk; cases hk

theorem Sim.setLocals (h : Sim cfg pay D s) (l : Locals) : Sim cfg pay (D.setLocals c l) s :=
  { h with }

end clients

/-! ## The lists -/

/-- Two states that differ in their lists. -/
structure SameWaiters (D D' : State C K ι) : Prop where
  lock : D'.lock = D.lock
  src : D'.src = D.src
  tag : D'.tag = D.tag
  signalled : D'.signalled = D.signalled
  locals : D'.locals = D.locals
  pc : D'.pc = D.pc

theorem SameWaiters.frame (h : SameWaiters D D') (c : C) : Frame c D D' where
  pc d _ := congrFun h.pc d
  src d _ := congrFun h.src d
  locals d _ := congrFun h.locals d
  rdlock d _ := by rw [h.tag]
  needToWait d _ := by rw [h.tag]
  haveLock d _ ht := by rwa [h.tag]
  inList d _ ht := by rwa [h.tag]
  foreign d _ _ _ := congrFun h.tag d

/-- A client that is in no list knows of none. -/
theorem OnList.off (h : OnList D) (hc : ∀ i, c ∉ D.list i) : D.on c = none := by
  cases hon : D.on c with
  | none => rfl
  | some i => exact absurd ((h c i).mp hon) (hc i)

section lists

variable [DecidableEq C] [DecidableEq ι]

/-- Somebody in no list is appended to one. -/
theorem OnList.append (h : OnList D) (hc : ∀ i, c ∉ D.list i)
    (hon : D'.on = Function.update D.on c (some i))
    (hl : D'.list = Function.update D.list i (D.list i ++ [c])) : OnList D' := by
  intro e j
  rw [hon, hl, Function.update_apply, Function.update_apply]
  by_cases he : e = c
  · subst he
    rw [if_pos rfl]
    by_cases hj : j = i
    · subst hj
      simp
    · rw [if_neg hj]
      exact iff_of_false (fun heq => hj (Option.some.inj heq).symm) (hc j)
  · rw [if_neg he, h e j]
    by_cases hj : j = i
    · subst hj
      simp [he]
    · rw [if_neg hj]

/-- Some leave their list. -/
theorem OnList.remove (h : OnList D) (hds : ∀ d ∈ ds, d ∈ D.list i)
    (hon : D'.on = fun d => if d ∈ ds then none else D.on d)
    (hl : D'.list = Function.update D.list i ((D.list i).filter fun c => decide (c ∉ ds))) :
    OnList D' := by
  intro e j
  have hone : D'.on e = if e ∈ ds then none else D.on e := congrFun hon e
  rw [hone, hl, Function.update_apply]
  by_cases he : e ∈ ds
  · have hei : D.on e = some i := (h e i).mpr (hds e he)
    rw [if_pos he]
    refine iff_of_false nofun ?_
    by_cases hj : j = i
    · rw [if_pos hj, List.mem_filter, decide_eq_true_eq]
      exact fun hd => hd.2 he
    · rw [if_neg hj, ← h e j, hei]
      exact fun heq => hj (Option.some.inj heq).symm
  · rw [if_neg he, h e j]
    by_cases hj : j = i
    · subst hj
      rw [if_pos rfl, List.mem_filter, decide_eq_true_eq]
      exact ⟨fun hm => ⟨hm, he⟩, And.left⟩
    · rw [if_neg hj]

/-- **A waiter is appended**, by a client in no list. -/
theorem append_sim (h : Sim cfg pay D s) (hon : OnList D) (hc : ∀ i, c ∉ D.list i)
    (hsrc : D.src c = none) (hsig : D.signalled c = false) (t : Tag) :
    ∃ D', D.append cfg c k t = some D' ∧ Sim cfg pay D' (s.append cfg c k t) ∧ OnList D'
      ∧ D' = { D.setTag c t with
          src := Function.update D.src c (some k)
          on := Function.update D.on c (some (cfg.list k))
          list := Function.update D.list (cfg.list k) (D.list (cfg.list k) ++ [c]) } := by
  refine ⟨_, ?_, ?_, hon.append (i := cfg.list k) hc rfl rfl, rfl⟩
  · rw [State.append, lwAssert_pos hsrc, lwAssert_pos (hon.off hc)]
  · have htag := h.setTag (d := c) t
    refine { htag with list := ?_, src := ?_, signalled := ?_ }
    · show Function.update D.list _ _ = Function.update s.list _ _
      rw [h.list]
    · show Function.update D.src _ _ = Function.update s.src _ _
      rw [h.src]
    · show D.signalled = Function.update s.signalled c false
      rw [← h.signalled, ← hsig, Function.update_eq_self]

/-- **Waiters leave their list.** -/
theorem remove_sim (h : Sim cfg pay D s) (hon : OnList D) {l : List C}
    (hl : ∀ d ∈ l, d ∈ D.list i) :
    ∃ D', D.remove i l = some D' ∧ Sim cfg pay D' (s.remove i l) ∧ OnList D'
      ∧ SameWaiters D D' := by
  refine ⟨D.unlist i l, ?_, ?_, hon.remove hl rfl rfl, ⟨rfl, rfl, rfl, rfl, rfl, rfl⟩⟩
  · rw [State.remove, lwAssert_pos fun d hd => ⟨(hon d i).mpr (hl d hd), hl d hd⟩]
  · refine { h with list := ?_ }
    show Function.update D.list _ _ = Function.update s.list _ _
    rw [h.list]

end lists

/-! ## The client of a step -/

section client

variable {p : Pc C K ι}

/-- A client that is at no lock. -/
theorem Client.out (hpc : D.pc c = .idle) (hfree : own c = true → D.src c = none) :
    Client cfg own pay ft D c := by
  constructor <;> simp [hpc, Pc.waits, Pc.reads, Pc.releases, Pc.grants]
  exact hfree

/-- A client that has a lock for reading. -/
theorem Client.reading (hpc : D.pc c = .reading k ∨ D.pc c = .readUnlockSection k)
    (hfree : own c = true → D.src c = none) (hhave : (D.tag c).haveLock = true)
    (hwaited : (D.tag c).needToWait = true → D.src c = none) : Client cfg own pay ft D c := by
  rcases hpc with hpc | hpc <;> constructor <;>
    simp [hpc, Pc.waits, Pc.reads, Pc.releases, Pc.grants, hhave]
  all_goals assumption

/-- A client that has a lock for writing. -/
theorem Client.writing (hpc : D.pc c = .writing k) (hfree : own c = true → D.src c = none) :
    Client cfg own pay ft D c := by
  constructor <;> simp [hpc, Pc.waits, Pc.reads, Pc.releases, Pc.grants]
  exact hfree

/-- A client that waits. -/
theorem Client.waiting {b : Bool} (hpc : D.pc c = .waiting k b) (hsrc : D.src c ≠ none) :
    Client cfg own pay ft D c := by
  constructor <;> simp [hpc, Pc.waits, Pc.reads, Pc.releases, Pc.grants, hsrc]

/-- A client with waiters to wake up. -/
theorem Client.granting {l : List C} (hpc : D.pc c = .granting k l) (hfree : own c = true → D.src c = none)
    (hwaited : (D.locals c).doWakeup = true → (D.tag c).needToWait = true → D.src c = none)
    (hgrants : ∀ d ∈ l, if (D.locals c).doWakeup then
        (D.tag d).rdlock = false ∧ (D.tag d).inList = false
      else (D.tag d).rdlock = (D.locals c).nextIsReader) : Client cfg own pay ft D c := by
  constructor <;> simp [hpc, Pc.waits, Pc.reads, Pc.releases, Pc.grants]
  · exact hfree
  · exact hwaited
  · exact hgrants

end client

variable [DecidableEq C] [DecidableEq K] [DecidableEq ι]

/-- **An operation passes its assertions**, and does what the release build does. -/
def Passes (cfg : Config K ι) (own : C → Bool) (pay : K → BitVec 32) (ft : C → Tag)
    (o : Option (State C K ι)) (s : RwBitlock.State C K ι) : Prop :=
  ∃ D, o = some D ∧ Sim cfg pay D s ∧ Inv cfg own pay ft D

/-! ## Locking -/

omit [DecidableEq C] [DecidableEq ι] in
/-- The fields that `set_rdlock` leaves, in one expression. -/
theorem setRdlock_eq (s : RwBitlock.State C K ι) (k : K) (try' under : Bool) :
    RwBitlock.setRdlock cfg s k try' under
      = s.setBits k (s.w k) (if s.w k then if (!under || try') ∨ s.r k ≠ 0 then s.r k
          else s.r k + 1 else if s.r k = cfg.maxReaders k then s.r k else s.r k + 1) := by
  rw [RwBitlock.setRdlock]
  by_cases hw : s.w k = true
  · rw [if_pos hw, if_pos hw]
    by_cases hu : (!under || try') = true
    · rw [if_pos hu, if_pos (.inl hu), setBits_self rfl rfl]
    · rw [if_neg hu]
      by_cases hr : s.r k ≠ 0
      · rw [if_pos hr, if_pos (.inr hr), setBits_self rfl rfl]
      · rw [if_neg hr, if_neg (not_or.mpr ⟨hu, hr⟩), hw]
  · rw [if_neg hw, if_neg hw]
    by_cases hr : s.r k = cfg.maxReaders k
    · rw [if_pos hr, if_pos hr, setBits_self rfl rfl]
    · rw [if_neg hr, if_neg hr, Bool.eq_false_iff.mpr hw]

omit [DecidableEq C] [DecidableEq ι] in
/-- **`set_rdlock`.** -/
theorem setRdlock_sim (h : Sim cfg pay D s) (k : K) (try' under : Bool) :
    ∃ v, setRdlock cfg k (D.lock k) try' under = some v
      ∧ Sim cfg pay (D.setLock k v) (RwBitlock.setRdlock cfg s k try' under) := by
  have hle := h.le k
  have hmax := cfg.three_le_maxReaders k
  rw [h.lock k, setRdlock_word (h.outside k) hle]
  refine ⟨_, rfl, ?_⟩
  rw [setRdlock_eq]
  refine h.setLock ?_
  split_ifs <;> omega

omit [DecidableEq C] [DecidableEq ι] in
/-- The fields that `set_wrlock` leaves, in one expression. -/
theorem setWrlock_eq (s : RwBitlock.State C K ι) (k : K) (try' under : Bool) :
    RwBitlock.setWrlock s k try' under
      = if s.w k then s.setBits k (s.w k) (if (!under || try') ∨ s.r k ≠ 0 then s.r k else s.r k + 1)
        else if s.r k ≠ 0 ∧ (!under || try') then s.setBits k (s.w k) (s.r k)
        else s.setBits k true (s.r k) := by
  rw [RwBitlock.setWrlock]
  by_cases hw : s.w k = true
  · rw [if_pos hw, if_pos hw]
    by_cases hu : (!under || try') = true
    · rw [if_pos hu, if_pos (.inl hu), setBits_self rfl rfl]
    · rw [if_neg hu]
      by_cases hr : s.r k ≠ 0
      · rw [if_pos hr, if_pos (.inr hr), setBits_self rfl rfl]
      · rw [if_neg hr, if_neg (not_or.mpr ⟨hu, hr⟩), hw]
  · rw [if_neg hw, if_neg hw]
    by_cases hr : s.r k ≠ 0
    · rw [if_pos hr]
      by_cases hu : (!under || try') = true
      · rw [if_pos hu, if_pos ⟨hr, hu⟩, setBits_self rfl rfl]
      · rw [if_neg hu, if_neg (fun hd => hu hd.2)]
    · rw [if_neg hr, if_neg (fun hd => hr hd.1)]

omit [DecidableEq C] [DecidableEq ι] in
/-- **`set_wrlock`.** -/
theorem setWrlock_sim (h : Sim cfg pay D s) (k : K) (try' under : Bool)
    (hok : under = true → try' = false → s.w k = true → s.r k = 0 → pay k = 0#32) :
    ∃ v, setWrlock cfg k (D.lock k) try' under = some v
      ∧ Sim cfg pay (D.setLock k v) (RwBitlock.setWrlock s k try' under) := by
  have hle := h.le k
  have hmax := cfg.three_le_maxReaders k
  rw [h.lock k, setWrlock_word (h.outside k) hle hok]
  refine ⟨_, rfl, ?_⟩
  rw [setWrlock_eq]
  split
  · refine h.setLock ?_
    split_ifs <;> omega
  · split <;> exact h.setLock hle

omit [DecidableEq K] [DecidableEq ι] in
/-- A client goes to a lock with its own tag. -/
theorem Sim.retag (h : Sim cfg pay D s) (t : Tag) (p : Pc C K ι) :
    Sim cfg pay ((D.setTag c t).goto c p) ((s.setTag c t).goto c p) := by
  refine (h.setTag t).goto fun _ _ => ?_
  have hD : (D.setTag c t).tag c = t := Function.update_self _ _ _
  have hs : (s.setTag c t).tag c = t := Function.update_self _ _ _
  rw [hD, hs]

omit [DecidableEq K] in
/-- The tag of a waiter that was appended. -/
theorem append_tag (s : RwBitlock.State C K ι) (c : C) (k : K) (t : Tag) :
    (s.append cfg c k t).tag c = t :=
  Function.update_self _ _ _

omit [DecidableEq K] in
/-- **A reader puts its buffer into the list.** Nothing is left in it of its last use. -/
theorem readAppend (hs : Sim cfg pay D s) (hon : OnList D) (hno : ∀ i, c ∉ D.list i) (t : Tag) :
    ∃ D', (D.eventInit c).append cfg c k t = some D' ∧ Sim cfg pay D' (s.append cfg c k t)
      ∧ OnList D' ∧ Frame c D D' ∧ D'.src c = some k ∧ D'.tag c = t ∧ D'.pc = D.pc := by
  have hinit : Sim cfg pay (D.eventInit c)
      { s with
        src := Function.update s.src c none
        signalled := Function.update s.signalled c false } := by
    refine { hs with src := ?_, signalled := ?_ }
    · show Function.update D.src c none = Function.update s.src c none
      rw [hs.src]
    · show Function.update D.signalled c false = Function.update s.signalled c false
      rw [hs.signalled]
  have hsame : (D.eventInit c).on = D.on := by
    show Function.update D.on c none = D.on
    rw [← hon.off hno, Function.update_eq_self]
  have hon' : OnList (D.eventInit c) := by
    intro e i
    rw [hsame]
    exact hon e i
  obtain ⟨D', hD', hsim, hon'', rfl⟩ := append_sim (k := k) hinit hon' hno
    (Function.update_self _ _ _) (Function.update_self _ _ _) t
  have hidem : RwBitlock.State.append cfg { s with
        src := Function.update s.src c none
        signalled := Function.update s.signalled c false } c k t = s.append cfg c k t := by
    simp only [RwBitlock.State.append, RwBitlock.State.setTag, Function.update_idem]
  have hf : Frame c D (D.eventInit c) :=
    { Frame.refl c D with src := fun d hd => Function.update_of_ne hd _ _ }
  refine ⟨_, hD', hidem ▸ hsim, hon'', ?_, Function.update_self _ _ _, Function.update_self _ _ _,
    rfl⟩
  exact { hf.setTag t with src := fun d hd => (Function.update_of_ne hd _ _).trans (hf.src d hd) }

section locking

variable {try' : Bool} (hs : Sim cfg pay D s) (hi : Inv cfg own pay ft D)
  (hact : ∀ c', c ∉ (D.pc c').grants)
include hi hact

omit [DecidableEq K] [DecidableEq ι] in
/-- A reader has taken the lock. -/
theorem readTake_passes (hfree : own c = true → D.src c = none) (hs' : Sim cfg pay D' s')
    (hf : Frame c D D') (hon : OnList D') (hsrc : D'.src = D.src) :
    Passes cfg own pay ft (some ((D'.setTag c (ownTag cfg k true)).goto c (.reading k)))
      ((s'.setTag c (ownTag cfg k true)).goto c (.reading k)) := by
  have htag : ((D'.setTag c (ownTag cfg k true)).goto c (.reading k)).tag c = ownTag cfg k true :=
    Function.update_self _ _ _
  refine ⟨_, rfl, hs'.retag _ _, hi.step ((hf.setTag _).goto _) hon hact ?_⟩
  refine Client.reading (k := k) (.inl (Function.update_self _ _ _)) ?_ ?_ ?_
  · exact fun ho => (congrFun hsrc c).trans (hfree ho)
  · rw [htag]
    rfl
  · rw [htag]
    nofun

omit [DecidableEq K] [DecidableEq ι] in
/-- A writer has taken the lock. -/
theorem writeTake_passes (hfree : own c = true → D.src c = none) (hs' : Sim cfg pay D' s')
    (hf : Frame c D D') (hon : OnList D') (hsrc : D'.src = D.src) :
    Passes cfg own pay ft (some ((D'.setTag c (ownTag cfg k false)).goto c (.writing k)))
      ((s'.setTag c (ownTag cfg k false)).goto c (.writing k)) := by
  refine ⟨_, rfl, hs'.retag _ _, hi.step ((hf.setTag _).goto _) hon hact ?_⟩
  refine Client.writing (k := k) (Function.update_self _ _ _) ?_
  exact fun ho => (congrFun hsrc c).trans (hfree ho)

include hs

omit [DecidableEq ι] in
/-- **`readlock_async`** up to its section. -/
theorem readlock_passes (hpc : D.pc c = .idle) (hown : own c = false) (hrange : Range cfg k) :
    Passes cfg own pay ft (readlock cfg k D c try') (RwBitlock.readlock cfg s c k try') := by
  have hfree : own c = true → D.src c = none := fun ho => by rw [hown] at ho; cases ho
  obtain ⟨v, hv, hset⟩ := setRdlock_sim hs k try' false
  have hf : Frame c D (D.setLock k v) := (Frame.refl c D).setLock v
  rw [readlock, lwAssert_pos hrange, hv, Option.bind_some, RwBitlock.readlock]
  simp only [hs.lock k, ne_eq, word_writer_eq_zero (hs.outside k) (hs.le k),
    word_readers_eq_mask (hs.outside k) (hs.le k), Bool.not_eq_false]
  split
  · exact readTake_passes hi hact hfree hset hf hi.on rfl
  · split
    · exact ⟨_, rfl, hset, hi.step hf hi.on hact (Client.out hpc hfree)⟩
    · refine ⟨_, rfl, hset.goto_out rfl, hi.step (hf.goto _) hi.on hact ?_⟩
      have hgoto : ((D.setLock k v).goto c (.readSection k try')).pc c = .readSection k try' :=
        Function.update_self _ _ _
      constructor <;> simp [hgoto, Pc.waits, Pc.reads, Pc.releases, Pc.grants, hown]

/-- **The section of `readlock_async`.** -/
theorem readSection_passes (hpc : D.pc c = .readSection k try') (hno : ∀ i, c ∉ D.list i) :
    Passes cfg own pay ft (readSection cfg k D c try') (RwBitlock.readSection cfg s c k try') := by
  have hown := (hi.client c).reader k try' hpc
  have hfree : own c = true → D.src c = none := fun ho => by rw [hown] at ho; cases ho
  obtain ⟨v, hv, hset⟩ := setRdlock_sim hs k try' true
  have hf : Frame c D (D.setLock k v) := (Frame.refl c D).setLock v
  rw [readSection, hv, Option.bind_some, RwBitlock.readSection]
  simp only [hs.lock k, ne_eq, word_writer_eq_zero (hs.outside k) (hs.le k),
    word_readers_eq_mask (hs.outside k) (hs.le k), Bool.not_eq_false]
  split
  · exact readTake_passes hi hact hfree hset hf hi.on rfl
  split
  · refine ⟨_, rfl, hset.goto_out rfl, hi.step (hf.goto _) hi.on hact ?_⟩
    exact Client.out (Function.update_self _ _ _) hfree
  obtain ⟨D', hD', hsim, hon, hf', hsrc, htag, -⟩ := readAppend (k := k) hset hi.on hno
    (waitTag cfg k true (decide (s.w k = false)))
  have htag' : D'.tag c
      = ((RwBitlock.setRdlock cfg s k try' true).append cfg c k
        (waitTag cfg k true (decide (s.w k = false)))).tag c :=
    htag.trans (append_tag _ _ _ _).symm
  have hpass : ∀ p : Pc C K ι, Client cfg own pay ft (D'.goto c p) c →
      Passes cfg own pay ft (some (D'.goto c p)) (((RwBitlock.setRdlock cfg s k try' true).append cfg c
        k (waitTag cfg k true (decide (s.w k = false)))).goto c p) := fun p hcl =>
    ⟨_, rfl, hsim.goto fun _ _ => htag', hi.step ((hf.trans hf').goto p) hon hact hcl⟩
  rw [hD', Option.map_some]
  by_cases hw : s.w k = true
  · -- the reader waits
    rw [if_pos hw]
    rw [decide_eq_false (by rw [hw]; simp)] at hpass ⊢
    refine hpass (.waiting k true) (Client.waiting (k := k) (b := true) ?_ ?_)
    · exact Function.update_self _ _ _
    · exact fun h => by rw [show (D'.goto c (.waiting k true)).src = D'.src from rfl, hsrc] at h; cases h
  · -- the reader is counted in the list
    rw [if_neg hw]
    rw [decide_eq_true (Bool.eq_false_iff.mpr hw)] at hpass htag ⊢
    refine hpass (.reading k) (Client.reading (k := k) (.inl (Function.update_self _ _ _)) ?_ ?_ ?_)
    · exact fun ho => by rw [hown] at ho; cases ho
    · rw [show (D'.goto c (.reading k)).tag = D'.tag from rfl, htag]
      rfl
    · rw [show (D'.goto c (.reading k)).tag = D'.tag from rfl, htag]
      rintro ⟨⟩

omit [DecidableEq ι] in
/-- **`writelock_async`** up to its section. -/
theorem writelock_passes (hpc : D.pc c = .idle) (hown : own c = true) (hrange : Range cfg k) :
    Passes cfg own pay ft (writelock cfg k D c try') (RwBitlock.writelock cfg s c k try') := by
  have hfree : own c = true → D.src c = none := fun ho =>
    (hi.client c).free ho (by rw [hpc]; rfl)
  obtain ⟨v, hv, hset⟩ := setWrlock_sim hs k try' false nofun
  have hf : Frame c D (D.setLock k v) := (Frame.refl c D).setLock v
  rw [writelock, lwAssert_pos hrange, hv, Option.bind_some, RwBitlock.writelock]
  simp only [hs.lock k, word_writer_eq_zero (hs.outside k) (hs.le k),
    word_readers_eq_zero (hs.outside k) (hs.le k)]
  split
  · exact writeTake_passes hi hact hfree hset hf hi.on rfl
  · split
    · exact ⟨_, rfl, hset, hi.step hf hi.on hact (Client.out hpc hfree)⟩
    · refine ⟨_, rfl, hset.goto_out rfl, hi.step (hf.goto _) hi.on hact ?_⟩
      have hgoto : ((D.setLock k v).goto c (.writeSection k)).pc c = .writeSection k :=
        Function.update_self _ _ _
      have hsrc : ((D.setLock k v).goto c (.writeSection k)).src = D.src := rfl
      constructor <;> simp [hgoto, hsrc, Pc.waits, Pc.reads, Pc.releases, Pc.grants, hown, hfree]

/-- **The section of `writelock_async`**, beside a payload only when no writer has the lock
with nobody waiting. -/
theorem writeSection_passes (hpc : D.pc c = .writeSection k) (hno : ∀ i, c ∉ D.list i)
    (hsig : D.signalled c = false) (hok : s.w k = true → s.r k = 0 → pay k = 0#32) :
    Passes cfg own pay ft (writeSection cfg k D c) (RwBitlock.writeSection cfg s c k) := by
  have hown := (hi.client c).writer k hpc
  have hsrc : D.src c = none := (hi.client c).free hown (by rw [hpc]; rfl)
  obtain ⟨v, hv, hset⟩ := setWrlock_sim hs k false true fun _ _ => hok
  have hf : Frame c D (D.setLock k v) := (Frame.refl c D).setLock v
  rw [writeSection, hv, Option.bind_some, RwBitlock.writeSection]
  simp only [hs.lock k, word_writer_eq_zero (hs.outside k) (hs.le k),
    word_readers_eq_zero (hs.outside k) (hs.le k)]
  split
  · exact writeTake_passes hi hact (fun _ => hsrc) hset hf hi.on rfl
  · obtain ⟨D', hD', hsim, hon, rfl⟩ := append_sim (k := k) hset hi.on hno hsrc hsig
      (waitTag cfg k false false)
    rw [hD', Option.map_some]
    refine ⟨_, rfl, hsim.goto fun _ _ => ?_, hi.step (Frame.goto ?_ _) hon hact ?_⟩
    · rw [append_tag]
      exact Function.update_self _ _ _
    · have hft := hf.setTag (waitTag cfg k false false)
      exact { hft with src := fun d hd => (Function.update_of_ne hd _ _).trans (hft.src d hd) }
    · refine Client.waiting (k := k) (b := false) (Function.update_self _ _ _) ?_
      show Function.update D.src c (some k) c ≠ none
      rw [Function.update_self]
      simp

omit [DecidableEq K] [DecidableEq ι] in
/-- **`complete_wait`**, once the client was told. -/
theorem completeWait_passes {rd : Bool} (hpc : D.pc c = .waiting k rd)
    (ht : (s.tag c).haveLock = true ∧ (s.tag c).needToWait = true
      ∧ (s.tag c).waitedForLock = false) :
    Passes cfg own pay ft (completeWait k D c rd)
      ({ s.setTag c { s.tag c with waitedForLock := true } with
        src := Function.update s.src c none
        signalled := Function.update s.signalled c false
        granted := Function.update s.granted c false }.goto c
        (if rd then .reading k else .writing k)) := by
  have htag : D.tag c = s.tag c := hs.tag c k (by rw [hpc]; rfl)
  have hsrc : D.src c ≠ none := (hi.client c).waits (by rw [hpc]; nofun)
  rw [completeWait, lwAssert_pos (by rw [htag]; exact ⟨ht.2.2, ht.2.1⟩),
    lwAssert_pos (by rw [htag]; exact ht.1), lwAssert_pos hsrc]
  have hset := hs.setTag (d := c) { D.tag c with waitedForLock := true }
  have hft := (Frame.refl c D).setTag { D.tag c with waitedForLock := true }
  refine ⟨_, rfl, ?_, hi.step (Frame.goto ?_ _) hi.on hact ?_⟩
  · rw [← htag]
    refine Sim.goto ?_ fun _ _ => ?_
    · refine { hset with src := ?_, signalled := ?_ }
      · show Function.update D.src _ _ = Function.update s.src _ _
        rw [hs.src]
      · show Function.update D.signalled _ _ = Function.update s.signalled _ _
        rw [hs.signalled]
    · show Function.update D.tag c _ c = Function.update s.tag c _ c
      rw [Function.update_self, Function.update_self]
  · exact { hft with src := fun d hd => Function.update_of_ne hd _ _ }
  · have hnone : Function.update D.src c none c = none := Function.update_self _ _ _
    cases rd with
    | true =>
      refine Client.reading (k := k) (.inl (Function.update_self _ _ _)) (fun _ => hnone) ?_
        fun _ => hnone
      show (Function.update D.tag c _ c).haveLock = true
      rw [Function.update_self, htag]
      exact ht.1
    | false => exact Client.writing (k := k) (Function.update_self _ _ _) fun _ => hnone

end locking

end RwBitlock.Debug
