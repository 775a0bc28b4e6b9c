import Lwlock.BitlockSpec

/-!
# Words and wait lists, read lock by lock

The bits of a lock are three bits of its word, and its queue is what the shared
wait list holds for it, in the order of the list. Tags tell the locks of a word
apart, and the two ways to wait for one lock, because their bits are different;
so a swap or a list operation for one lock is the operation on that lock's bits
and queue, and leaves every other lock as it is.
-/

namespace Bitlock

open Monitor (Kind forLock signalFirst)

variable {T A K ι : Type} {cfg : Config A K ι} [DecidableEq T] [DecidableEq A] [DecidableEq K]
  [DecidableEq ι]

/-! ## Tags -/

omit [DecidableEq A] [DecidableEq K] [DecidableEq ι] in
/-- The bits of a mask of one lock. -/
theorem getLsbD_lockWait (k : K) (i : ℕ) :
    (cfg.lockMask k ||| cfg.waitMask k).getLsbD i
      = (decide (cfg.lockAt k = i) || decide (cfg.waitAt k = i)) := by
  rw [BitVec.getLsbD_or, Config.lockMask, Config.waitMask, Word.getLsbD_bit (cfg.lockAt_lt k),
    Word.getLsbD_bit (cfg.waitAt_lt k)]

omit [DecidableEq A] [DecidableEq K] [DecidableEq ι] in
/-- Every tag of a lock has its lock bit. -/
theorem getLsbD_tagOf_lockAt (k : K) (kind : Kind) :
    (cfg.tagOf k kind).getLsbD (cfg.lockAt k) = true := by
  have hlt := cfg.lockAt_lt k
  have h64 : cfg.lockAt k < 64 := Nat.lt_of_lt_of_le hlt (cfg.width_le _)
  cases kind with
  | lock =>
    rw [Config.tagOf, Config.waitTag, BitVec.getLsbD_setWidth, getLsbD_lockWait, decide_eq_true h64,
      decide_eq_true rfl]
    rfl
  | cv =>
    rw [Config.tagOf, Config.cvTag, BitVec.getLsbD_setWidth, BitVec.getLsbD_or, Config.lockMask,
      Word.getLsbD_bit hlt, decide_eq_true h64, decide_eq_true rfl]
    rfl

omit [DecidableEq A] [DecidableEq K] [DecidableEq ι] in
/-- A tag of a lock has no bits but those of the lock. -/
theorem mem_of_getLsbD_tagOf {k : K} {kind : Kind} {i : ℕ}
    (h : (cfg.tagOf k kind).getLsbD i = true) : i ∈ [cfg.lockAt k, cfg.waitAt k, cfg.cvAt k] := by
  cases kind with
  | lock =>
    rw [Config.tagOf, Config.waitTag, BitVec.getLsbD_setWidth, getLsbD_lockWait] at h
    grind -linarith
  | cv =>
    rw [Config.tagOf, Config.cvTag, BitVec.getLsbD_setWidth, BitVec.getLsbD_or, Config.lockMask,
      Config.cvMask, Word.getLsbD_bit (cfg.lockAt_lt k), Word.bit, BitVec.getLsbD_twoPow] at h
    grind -linarith

omit [DecidableEq A] [DecidableEq K] [DecidableEq ι] in
/-- Of the two tags of a lock, only one has the wait bit. -/
theorem getLsbD_tagOf_waitAt (k : K) (kind : Kind) :
    (cfg.tagOf k kind).getLsbD (cfg.waitAt k) = decide (kind = .lock) := by
  have h64 : cfg.waitAt k < 64 := Nat.lt_of_lt_of_le (cfg.waitAt_lt k) (cfg.width_le _)
  have h1 := cfg.lock_ne_wait k
  have h2 := cfg.wait_ne_cv k
  cases kind with
  | lock =>
    rw [Config.tagOf, Config.waitTag, BitVec.getLsbD_setWidth, getLsbD_lockWait, decide_eq_true h64,
      decide_eq_true (rfl : cfg.waitAt k = cfg.waitAt k), Bool.or_true]
    rfl
  | cv =>
    rw [Config.tagOf, Config.cvTag, BitVec.getLsbD_setWidth, BitVec.getLsbD_or, Config.lockMask,
      Config.cvMask, Word.getLsbD_bit (cfg.lockAt_lt k), Word.bit, BitVec.getLsbD_twoPow,
      decide_eq_false h1, decide_eq_false h2.symm]
    simp

omit [DecidableEq A] [DecidableEq K] [DecidableEq ι] in
/-- **Tags of one word tell the locks apart**, and what is waited for. -/
theorem tagOf_inj {k k' : K} {kind kind' : Kind} (ha : cfg.addr k = cfg.addr k')
    (h : cfg.tagOf k kind = cfg.tagOf k' kind') : k = k' ∧ kind = kind' := by
  have hk : k = k' := by
    by_contra hne
    have hbit : (cfg.tagOf k kind).getLsbD (cfg.lockAt k) = true := getLsbD_tagOf_lockAt k kind
    rw [h] at hbit
    exact cfg.apart k k' ha hne _ List.mem_cons_self (mem_of_getLsbD_tagOf hbit)
  subst hk
  refine ⟨rfl, ?_⟩
  have hw : (cfg.tagOf k kind).getLsbD (cfg.waitAt k) = decide (kind = .lock) :=
    getLsbD_tagOf_waitAt k kind
  rw [h, getLsbD_tagOf_waitAt] at hw
  cases kind <;> cases kind' <;> simp at hw <;> rfl

/-! ## The abstraction -/

omit [DecidableEq T] [DecidableEq K] [DecidableEq ι] in
/-- What `waitsFor` says. -/
theorem waitsFor_iff {s : State T cfg} {k : K} {kind : Kind} {u : T} :
    s.waitsFor k kind u = true ↔ s.src u = some (cfg.addr k) ∧ s.tag u = cfg.tagOf k kind := by
  rw [State.waitsFor, Bool.and_eq_true, decide_eq_true_eq, decide_eq_true_eq]

omit [DecidableEq T] [DecidableEq K] [DecidableEq ι] in
/-- A waiter waits for one lock in one way. -/
theorem waitsFor_inj {s : State T cfg} {k k' : K} {kind kind' : Kind} {u : T}
    (h : s.waitsFor k kind u = true) (h' : s.waitsFor k' kind' u = true) :
    k = k' ∧ kind = kind' := by
  obtain ⟨h1, h2⟩ := waitsFor_iff.mp h
  obtain ⟨h1', h2'⟩ := waitsFor_iff.mp h'
  exact tagOf_inj (Option.some.inj (h1.symm.trans h1')) (h2.symm.trans h2')

/-- What a waiter is in the queue of a lock. -/
def State.entry (s : State T cfg) (k : K) (u : T) : Option (T × Kind) :=
  if s.waitsFor k .lock u then some (u, .lock)
  else if s.waitsFor k .cv u then some (u, .cv) else none

/-- **The queue of a lock.** -/
def State.queueOf (s : State T cfg) (k : K) : List (T × Kind) :=
  (s.list (cfg.listOf k)).filterMap (s.entry k)

/-- **A state, lock by lock.** -/
def State.abs (s : State T cfg) : Abs T K where
  lock := fun k => (s.word (cfg.addr k)).getLsbD (cfg.lockAt k)
  wait := fun k => (s.word (cfg.addr k)).getLsbD (cfg.waitAt k)
  cv := fun k => (s.word (cfg.addr k)).getLsbD (cfg.cvAt k)
  queue := s.queueOf
  signalled := s.signalled
  pc := s.pc
  want := s.want
  granted := s.granted
  holds := s.holds

/-- **The lists are well formed**: everybody in a list has a pending wait and
stands in the list of its lock, once. -/
structure Rep (s : State T cfg) : Prop where
  listed : ∀ i u, u ∈ s.list i → ∃ k kind, s.want u = some k ∧ cfg.listOf k = i
    ∧ s.waitsFor k kind u = true
  nodup : ∀ i, (s.list i).Nodup

omit [DecidableEq T] [DecidableEq K] [DecidableEq ι] in
/-- An entry is a waiter of the lock. -/
theorem entry_eq_some {s : State T cfg} {k : K} {u v : T} {kind : Kind} :
    s.entry k u = some (v, kind) ↔ u = v ∧ s.waitsFor k kind u = true := by
  unfold State.entry
  cases hl : s.waitsFor k .lock u with
  | true =>
    simp only [if_true, Option.some.injEq, Prod.mk.injEq]
    constructor
    · rintro ⟨rfl, rfl⟩
      exact ⟨rfl, hl⟩
    · rintro ⟨rfl, hk⟩
      exact ⟨rfl, (waitsFor_inj hl hk).2⟩
  | false =>
    simp only [Bool.false_eq_true, if_false]
    cases hc : s.waitsFor k .cv u with
    | true =>
      simp only [if_true, Option.some.injEq, Prod.mk.injEq]
      constructor
      · rintro ⟨rfl, rfl⟩
        exact ⟨rfl, hc⟩
      · rintro ⟨rfl, hk⟩
        exact ⟨rfl, (waitsFor_inj hc hk).2⟩
    | false =>
      simp only [Bool.false_eq_true, if_false, reduceCtorEq, false_iff, not_and]
      rintro rfl
      cases kind with
      | lock => rw [hl]; exact Bool.false_ne_true
      | cv => rw [hc]; exact Bool.false_ne_true

omit [DecidableEq T] [DecidableEq K] [DecidableEq ι] in
/-- Who is in a queue. -/
theorem mem_queueOf {s : State T cfg} {k : K} {u : T} {kind : Kind} :
    (u, kind) ∈ s.queueOf k ↔ u ∈ s.list (cfg.listOf k) ∧ s.waitsFor k kind u = true := by
  rw [State.queueOf, List.mem_filterMap]
  constructor
  · rintro ⟨v, hv, he⟩
    obtain ⟨rfl, hw⟩ := entry_eq_some.mp he
    exact ⟨hv, hw⟩
  · rintro ⟨hu, hw⟩
    exact ⟨u, hu, entry_eq_some.mpr ⟨rfl, hw⟩⟩

omit [DecidableEq T] [DecidableEq K] [DecidableEq ι] in
/-- Looking for a lock waiter in the list is looking in the queue. -/
theorem hasLock_queueOf (s : State T cfg) (k : K) :
    hasLock (s.queueOf k) = (s.list (cfg.listOf k)).any (s.waitsFor k .lock) := by
  rw [Bool.eq_iff_iff, hasLock, List.any_eq_true, List.any_eq_true]
  constructor
  · rintro ⟨⟨u, kind⟩, hu, hk⟩
    obtain rfl : kind = .lock := of_decide_eq_true hk
    obtain ⟨h1, h2⟩ := mem_queueOf.mp hu
    exact ⟨u, h1, h2⟩
  · rintro ⟨u, h1, h2⟩
    exact ⟨(u, .lock), mem_queueOf.mpr ⟨h1, h2⟩, rfl⟩

omit [DecidableEq T] [DecidableEq K] [DecidableEq ι] in
/-- Looking for a condition waiter in the list is looking in the queue. -/
theorem hasCv_queueOf (s : State T cfg) (k : K) :
    hasCv (s.queueOf k) = (s.list (cfg.listOf k)).any (s.waitsFor k .cv) := by
  rw [Bool.eq_iff_iff, hasCv, List.any_eq_true, List.any_eq_true]
  constructor
  · rintro ⟨⟨u, kind⟩, hu, hk⟩
    obtain rfl : kind = .cv := by cases kind with
      | lock => cases hk
      | cv => rfl
    obtain ⟨h1, h2⟩ := mem_queueOf.mp hu
    exact ⟨u, h1, h2⟩
  · rintro ⟨u, h1, h2⟩
    exact ⟨(u, .cv), mem_queueOf.mpr ⟨h1, h2⟩, rfl⟩

/-! ## Words -/

omit [DecidableEq T] [DecidableEq K] [DecidableEq ι] in
/-- The bits of a word after one word was stored. -/
theorem getLsbD_setWord (s : State T cfg) {a : A} (v : BitVec (cfg.width a)) (b : A) (i : ℕ) :
    ((s.setWord a v).word b).getLsbD i
      = if b = a then v.getLsbD i else (s.word b).getLsbD i := by
  unfold State.setWord
  dsimp only
  by_cases h : b = a
  · subst h
    rw [if_pos rfl, Function.update_self]
  · rw [if_neg h, Function.update_of_ne h]

omit [DecidableEq T] [DecidableEq ι] in
/-- **Storing a word in which only bits of one lock change.** -/
theorem abs_setWord (s : State T cfg) {k : K} {v : BitVec (cfg.width (cfg.addr k))}
    (hv : ∀ i, i ∉ [cfg.lockAt k, cfg.waitAt k, cfg.cvAt k] →
      v.getLsbD i = (s.word (cfg.addr k)).getLsbD i) :
    (s.setWord (cfg.addr k) v).abs = { s.abs with
      lock := Function.update s.abs.lock k (v.getLsbD (cfg.lockAt k))
      wait := Function.update s.abs.wait k (v.getLsbD (cfg.waitAt k))
      cv := Function.update s.abs.cv k (v.getLsbD (cfg.cvAt k)) } := by
  -- the bits of another lock are retained, or in another word
  have hother : ∀ j, j ≠ k → ∀ i ∈ [cfg.lockAt j, cfg.waitAt j, cfg.cvAt j],
      ((s.setWord (cfg.addr k) v).word (cfg.addr j)).getLsbD i
        = (s.word (cfg.addr j)).getLsbD i := by
    intro j hj i hi
    rw [getLsbD_setWord]
    by_cases ha : cfg.addr j = cfg.addr k
    · rw [if_pos ha, hv i (cfg.apart j k ha hj i hi), ha]
    · rw [if_neg ha]
  have hbit : ∀ at' : K → ℕ, (∀ j, at' j ∈ [cfg.lockAt j, cfg.waitAt j, cfg.cvAt j]) →
      (fun j => ((s.setWord (cfg.addr k) v).word (cfg.addr j)).getLsbD (at' j))
        = Function.update (fun j => (s.word (cfg.addr j)).getLsbD (at' j)) k
          (v.getLsbD (at' k)) := by
    intro at' hat
    funext j
    by_cases hj : j = k
    · subst hj
      rw [Function.update_self, getLsbD_setWord, if_pos rfl]
    · rw [Function.update_of_ne hj]
      exact hother j hj _ (hat j)
  have hlock := hbit cfg.lockAt (by simp)
  have hwait := hbit cfg.waitAt (by simp)
  have hcv := hbit cfg.cvAt (by simp)
  simp only [State.abs]
  rw [← hlock, ← hwait, ← hcv]
  rfl

omit [DecidableEq T] [DecidableEq ι] in
/-- **A swap of the lock and the wait bit that finds what it expects.** -/
theorem abs_swapBits {s s' : State T cfg} {k : K} {old new : BitVec (cfg.width (cfg.addr k))}
    (h : s.swapBits k old new = some s') :
    s.abs.lock k = old.getLsbD (cfg.lockAt k) ∧ s.abs.wait k = old.getLsbD (cfg.waitAt k)
      ∧ (∃ v, s' = s.setWord (cfg.addr k) v)
      ∧ s'.abs = { s.abs with
        lock := Function.update s.abs.lock k (new.getLsbD (cfg.lockAt k))
        wait := Function.update s.abs.wait k (new.getLsbD (cfg.waitAt k)) } := by
  have hl : (cfg.lockMask k ||| cfg.waitMask k).getLsbD (cfg.lockAt k) = true := by
    rw [getLsbD_lockWait, decide_eq_true rfl, Bool.true_or]
  have hw : (cfg.lockMask k ||| cfg.waitMask k).getLsbD (cfg.waitAt k) = true := by
    rw [getLsbD_lockWait, decide_eq_true (rfl : cfg.waitAt k = _), Bool.or_true]
  have hc : (cfg.lockMask k ||| cfg.waitMask k).getLsbD (cfg.cvAt k) = false := by
    rw [getLsbD_lockWait, decide_eq_false (cfg.lock_ne_cv k), decide_eq_false (cfg.wait_ne_cv k)]
    rfl
  obtain ⟨v, hv, rfl⟩ := Option.map_eq_some_iff.mp h
  by_cases heq : ∀ i, (cfg.lockMask k ||| cfg.waitMask k).getLsbD i = true →
      (s.word (cfg.addr k)).getLsbD i = old.getLsbD i
  · rw [Config.payloadMask, Word.swapWithMask_pos heq, Option.some.injEq] at hv
    subst hv
    refine ⟨heq _ hl, heq _ hw, ⟨_, rfl⟩, ?_⟩
    rw [abs_setWord s]
    · rw [Word.getLsbD_replace, Word.getLsbD_replace, Word.getLsbD_replace, hl, hw, hc]
      simp only [if_true, Bool.false_eq_true, if_false]
      rw [show (s.word (cfg.addr k)).getLsbD (cfg.cvAt k) = s.abs.cv k from rfl,
        Function.update_eq_self]
    · intro i hi
      rw [Word.getLsbD_replace, getLsbD_lockWait]
      grind -linarith
  · push Not at heq
    obtain ⟨i, hi, hne⟩ := heq
    rw [Config.payloadMask, Word.swapWithMask_neg hi hne] at hv
    cases hv

omit [DecidableEq T] [DecidableEq K] [DecidableEq ι] in
/-- A swap of the lock and the wait bit that does not find what it expects. -/
theorem swapBits_none {s : State T cfg} {k : K} {old new : BitVec (cfg.width (cfg.addr k))}
    (h : s.swapBits k old new = none) :
    ¬ (s.abs.lock k = old.getLsbD (cfg.lockAt k) ∧ s.abs.wait k = old.getLsbD (cfg.waitAt k)) := by
  rintro ⟨hl, hw⟩
  have heq : ∀ i, (cfg.lockMask k ||| cfg.waitMask k).getLsbD i = true →
      (s.word (cfg.addr k)).getLsbD i = old.getLsbD i := by
    intro i hi
    rw [getLsbD_lockWait, Bool.or_eq_true, decide_eq_true_eq, decide_eq_true_eq] at hi
    rcases hi with rfl | rfl
    · exact hl
    · exact hw
  rw [State.swapBits, Config.payloadMask, Word.swapWithMask_pos heq] at h
  cases h

/-! ## Lists -/

omit [DecidableEq T] [DecidableEq K] [DecidableEq ι] in
/-- What a queue depends on. -/
theorem queueOf_congr {s s' : State T cfg} {k : K}
    (hl : s'.list (cfg.listOf k) = s.list (cfg.listOf k))
    (hw : ∀ u ∈ s.list (cfg.listOf k), ∀ kind, s'.waitsFor k kind u = s.waitsFor k kind u) :
    s'.queueOf k = s.queueOf k := by
  rw [State.queueOf, State.queueOf, hl]
  refine List.filterMap_congr fun u hu => ?_
  rw [State.entry, State.entry, hw u hu, hw u hu]

/-- **A waiter is appended**: it joins the queue of its lock. -/
theorem abs_append {s : State T cfg} {t : T} {k : K} (kind : Kind)
    (ht : ∀ i, t ∉ s.list i) : (s.append t k kind).abs = { s.abs with
      queue := Function.update s.abs.queue k (s.abs.queue k ++ [(t, kind)])
      want := Function.update s.abs.want t (some k) } := by
  have hold : ∀ j, ∀ u ∈ s.list (cfg.listOf j), ∀ kd,
      (s.append t k kind).waitsFor j kd u = s.waitsFor j kd u := by
    intro j u hu kd
    have hut : u ≠ t := fun h => ht _ (h ▸ hu)
    simp only [State.waitsFor, State.append, Function.update_of_ne hut]
  have hnew : (s.append t k kind).waitsFor k kind t = true := by
    rw [waitsFor_iff]
    simp only [State.append, Function.update_self, and_self]
  have hq : (s.append t k kind).queueOf = Function.update s.queueOf k (s.queueOf k ++ [(t, kind)]) := by
    funext j
    have hlist : (s.append t k kind).list (cfg.listOf j)
        = if cfg.listOf j = cfg.listOf k then s.list (cfg.listOf j) ++ [t]
          else s.list (cfg.listOf j) := by
      simp only [State.append, Function.update_apply]
      split
      · rename_i hjk
        rw [hjk]
      · rfl
    have hfm : (s.list (cfg.listOf j)).filterMap ((s.append t k kind).entry j) = s.queueOf j := by
      refine List.filterMap_congr fun u hu => ?_
      rw [State.entry, State.entry, hold j u hu, hold j u hu]
    rw [State.queueOf, hlist]
    by_cases hj : j = k
    · subst hj
      rw [if_pos rfl, Function.update_self, List.filterMap_append, hfm, List.filterMap_cons,
        entry_eq_some.mpr ⟨rfl, hnew⟩]
      rfl
    · rw [Function.update_of_ne hj]
      split
      · have hnone : (s.append t k kind).entry j t = none := by
          rw [Option.eq_none_iff_forall_ne_some]
          rintro ⟨v, kd⟩ hv
          exact hj (waitsFor_inj (entry_eq_some.mp hv).2 hnew).1
        rw [List.filterMap_append, hfm, List.filterMap_cons, hnone]
        exact List.append_nil _
      · exact hfm
  simp only [State.abs]
  rw [hq]
  rfl

omit [DecidableEq T] in
/-- **A waiter of a lock leaves the list**: it leaves the queue of its lock. -/
theorem queueOf_erase {s : State T cfg} {u : T} {k : K} {kind : Kind} {X Y : List T}
    {g : T → Bool} (hX : s.list (cfg.listOf k) = X ++ u :: Y) (hu : s.waitsFor k kind u = true) :
    s.queueOf k = X.filterMap (s.entry k) ++ (u, kind) :: Y.filterMap (s.entry k)
    ∧ { s with list := Function.update s.list (cfg.listOf k) (X ++ Y), granted := g }.queueOf
      = Function.update s.queueOf k (X.filterMap (s.entry k) ++ Y.filterMap (s.entry k)) := by
  constructor
  · rw [State.queueOf, hX, List.filterMap_append, List.filterMap_cons,
      entry_eq_some.mpr ⟨rfl, hu⟩]
  · funext j
    by_cases hj : j = k
    · subst hj
      rw [Function.update_self, ← List.filterMap_append]
      simp only [State.queueOf, Function.update_self]
      rfl
    · rw [Function.update_of_ne hj]
      simp only [State.queueOf, Function.update_apply]
      split
      · rename_i hjk
        have hnone : s.entry j u = none := by
          rw [Option.eq_none_iff_forall_ne_some]
          rintro ⟨v, kd⟩ hv
          exact hj (waitsFor_inj (entry_eq_some.mp hv).2 hu).1
        rw [hjk, hX, List.filterMap_append, List.filterMap_append, List.filterMap_cons, hnone]
        rfl
      · rfl

omit [DecidableEq ι] in
/-- **A waiter is turned** from the condition to the lock: it stays in place. -/
theorem queueOf_retag {s : State T cfg} {u : T} {k : K} {X Y : List T} (hr : Rep s)
    (hX : s.list (cfg.listOf k) = X ++ u :: Y) (hu : s.waitsFor k .cv u = true) :
    s.queueOf k = X.filterMap (s.entry k) ++ (u, .cv) :: Y.filterMap (s.entry k)
    ∧ { s with tag := Function.update s.tag u (cfg.waitTag k) }.queueOf
      = Function.update s.queueOf k
        (X.filterMap (s.entry k) ++ (u, .lock) :: Y.filterMap (s.entry k)) := by
  have hnd := hr.nodup (cfg.listOf k)
  rw [hX] at hnd
  have hold : ∀ j v, v ≠ u → ({ s with tag := Function.update s.tag u (cfg.waitTag k) } :
      State T cfg).entry j v = s.entry j v := by
    intro j v hv
    simp only [State.entry, State.waitsFor, Function.update_of_ne hv]
    rfl
  have hnew : ({ s with tag := Function.update s.tag u (cfg.waitTag k) } :
      State T cfg).waitsFor k .lock u = true := by
    rw [waitsFor_iff]
    exact ⟨(waitsFor_iff.mp hu).1, Function.update_self _ _ _⟩
  refine ⟨?_, ?_⟩
  · rw [State.queueOf, hX, List.filterMap_append, List.filterMap_cons,
      entry_eq_some.mpr ⟨rfl, hu⟩]
  · funext j
    by_cases hj : j = k
    · subst hj
      have hXe := List.filterMap_congr (l := X) fun v hv => hold j v (by grind -linarith)
      have hYe := List.filterMap_congr (l := Y) fun v hv => hold j v (by grind -linarith)
      rw [Function.update_self, State.queueOf]
      dsimp only
      rw [hX, List.filterMap_append, List.filterMap_cons_some (entry_eq_some.mpr ⟨rfl, hnew⟩),
        hXe, hYe]
    · rw [Function.update_of_ne hj, State.queueOf, State.queueOf]
      refine List.filterMap_congr fun v hv => ?_
      by_cases hvu : v = u
      · subst hvu
        have h1 : ∀ st : State T cfg, ∀ kind, st.waitsFor k kind v = true → st.entry j v = none := by
          intro st kind hk
          rw [Option.eq_none_iff_forall_ne_some]
          rintro ⟨w, kd⟩ hw
          exact hj (waitsFor_inj (entry_eq_some.mp hw).2 hk).1
        rw [h1 _ .lock hnew, h1 _ .cv hu]
      · exact hold j v hvu

omit [DecidableEq ι] in
/-- **Every condition waiter of a lock is turned.** -/
theorem queueOf_retagAll (s : State T cfg) (k : K) :
    { s with
      tag := fun u => if u ∈ s.list (cfg.listOf k) ∧ s.waitsFor k .cv u then cfg.waitTag k
        else s.tag u }.queueOf
      = Function.update s.queueOf k ((s.queueOf k).map fun e => (e.1, .lock)) := by
  have hw : ∀ j kind v, ({ s with
      tag := fun u => if u ∈ s.list (cfg.listOf k) ∧ s.waitsFor k .cv u then cfg.waitTag k
        else s.tag u } : State T cfg).waitsFor j kind v = true ↔
      if v ∈ s.list (cfg.listOf k) ∧ s.waitsFor k .cv v then j = k ∧ kind = .lock
      else s.waitsFor j kind v = true := by
    intro j kind v
    rw [waitsFor_iff]
    dsimp only
    split
    · rename_i hv
      have hsrc := (waitsFor_iff.mp hv.2).1
      constructor
      · rintro ⟨h1, h2⟩
        have ha : cfg.addr k = cfg.addr j := Option.some.inj (hsrc.symm.trans h1)
        obtain ⟨rfl, rfl⟩ : k = j ∧ Kind.lock = _ := tagOf_inj ha h2
        exact ⟨rfl, rfl⟩
      · rintro ⟨rfl, rfl⟩
        exact ⟨hsrc, rfl⟩
    · rw [waitsFor_iff]
  funext j
  by_cases hj : j = k
  · subst hj
    rw [Function.update_self, State.queueOf, State.queueOf, List.map_filterMap]
    refine List.filterMap_congr fun v hv => ?_
    cases he : s.entry j v with
    | none =>
      rw [Option.map_none, Option.eq_none_iff_forall_ne_some]
      rintro ⟨w, kd⟩ hs
      have h1 := (hw j kd v).mp (entry_eq_some.mp hs).2
      have hne : ∀ kd, ¬ s.waitsFor j kd v = true := by
        intro kd hk
        rw [entry_eq_some.mpr ⟨rfl, hk⟩] at he
        cases he
      rw [if_neg fun hc => hne .cv hc.2] at h1
      exact hne kd h1
    | some e =>
      obtain ⟨w, kd⟩ := e
      obtain ⟨rfl, hk⟩ := entry_eq_some.mp he
      rw [Option.map_some]
      refine entry_eq_some.mpr ⟨rfl, (hw j .lock v).mpr ?_⟩
      split
      · exact ⟨rfl, rfl⟩
      · rename_i hn
        cases kd with
        | lock => exact hk
        | cv => exact absurd ⟨hv, hk⟩ hn
  · rw [Function.update_of_ne hj, State.queueOf, State.queueOf]
    refine List.filterMap_congr fun v hv => ?_
    refine Option.ext fun e => ?_
    obtain ⟨w, kd⟩ := e
    rw [entry_eq_some, entry_eq_some, hw]
    split
    · rename_i hc
      constructor
      · rintro ⟨-, hjk, -⟩
        exact absurd hjk hj
      · rintro ⟨-, hk⟩
        exact absurd (waitsFor_inj hk hc.2).1 hj
    · rfl

/-! ## The functions of the code -/

omit [DecidableEq T] [DecidableEq A] [DecidableEq K] [DecidableEq ι] in
/-- The bits of `lock_mask`. -/
theorem getLsbD_lockMask (k : K) : (cfg.lockMask k).getLsbD (cfg.lockAt k) = true
    ∧ (cfg.lockMask k).getLsbD (cfg.waitAt k) = false := by
  rw [Config.lockMask, Word.getLsbD_bit (cfg.lockAt_lt k), Word.getLsbD_bit (cfg.lockAt_lt k)]
  exact ⟨decide_eq_true rfl, decide_eq_false (cfg.lock_ne_wait k)⟩

omit [DecidableEq T] [DecidableEq A] [DecidableEq K] [DecidableEq ι] in
/-- The bits of `lock_mask | wait_mask`. -/
theorem getLsbD_bothMask (k : K) :
    (cfg.lockMask k ||| cfg.waitMask k).getLsbD (cfg.lockAt k) = true
    ∧ (cfg.lockMask k ||| cfg.waitMask k).getLsbD (cfg.waitAt k) = true := by
  rw [getLsbD_lockWait, getLsbD_lockWait, decide_eq_true (rfl : cfg.lockAt k = _),
    decide_eq_true (rfl : cfg.waitAt k = _)]
  exact ⟨Bool.true_or _, Bool.or_true _⟩

omit [DecidableEq T] [DecidableEq ι] in
/-- **`set_lock_bit`** without `set_wait_bit` takes a lock that is free. -/
theorem setLockBit_some {s s' : State T cfg} {k : K} (h : s.setLockBit k = some s') :
    s.abs.lock k = false ∧ s.abs.wait k = false ∧ (∃ v, s' = s.setWord (cfg.addr k) v)
      ∧ s'.abs = { s.abs with lock := Function.update s.abs.lock k true } := by
  obtain ⟨hl, hw, hv, habs⟩ := abs_swapBits h
  have h0 : ∀ i, (0 : BitVec (cfg.width (cfg.addr k))).getLsbD i = false :=
    fun i => BitVec.getLsbD_zero
  rw [h0] at hl hw
  have hwait : Function.update s.abs.wait k false = s.abs.wait :=
    Function.update_eq_self_iff.mpr hw.symm
  rw [(getLsbD_lockMask k).1, (getLsbD_lockMask k).2, hwait] at habs
  exact ⟨hl, hw, hv, habs⟩

omit [DecidableEq T] [DecidableEq ι] in
/-- **`drop_lock_if_no_waiters`** clears the lock bit if the wait bit is clear. -/
theorem dropLock_some {s s' : State T cfg} {k : K} (h : s.dropLockIfNoWaiters k = some s') :
    s.abs.lock k = true ∧ s.abs.wait k = false ∧ (∃ v, s' = s.setWord (cfg.addr k) v)
      ∧ s'.abs = { s.abs with lock := Function.update s.abs.lock k false } := by
  obtain ⟨hl, hw, hv, habs⟩ := abs_swapBits h
  rw [(getLsbD_lockMask k).1] at hl
  rw [(getLsbD_lockMask k).2] at hw
  have h0 : ∀ i, (0 : BitVec (cfg.width (cfg.addr k))).getLsbD i = false :=
    fun i => BitVec.getLsbD_zero
  have hwait : Function.update s.abs.wait k false = s.abs.wait :=
    Function.update_eq_self_iff.mpr hw.symm
  rw [h0, h0, hwait] at habs
  exact ⟨hl, hw, hv, habs⟩

omit [DecidableEq T] [DecidableEq K] [DecidableEq ι] in
/-- It fails on a lock that is taken if the wait bit is set. -/
theorem dropLock_none {s : State T cfg} {k : K} (h : s.dropLockIfNoWaiters k = none)
    (hl : s.abs.lock k = true) : s.abs.wait k = true := by
  have hne := swapBits_none h
  rw [(getLsbD_lockMask k).1, (getLsbD_lockMask k).2] at hne
  cases hw : s.abs.wait k with
  | true => rfl
  | false => exact absurd ⟨hl, hw⟩ hne

omit [DecidableEq T] [DecidableEq K] [DecidableEq ι] in
/-- A swap from the current value succeeds. -/
theorem swapBits_self (s : State T cfg) (k : K) (new : BitVec (cfg.width (cfg.addr k))) :
    ∃ s', s.swapBits k (s.word (cfg.addr k)) new = some s' := by
  cases h : s.swapBits k (s.word (cfg.addr k)) new with
  | none => exact absurd ⟨rfl, rfl⟩ (swapBits_none h)
  | some s' => exact ⟨s', rfl⟩

omit [DecidableEq T] [DecidableEq ι] in
/-- **`set_lock_bit`** with `set_wait_bit` takes a lock that is free, and sets the
wait bit otherwise. -/
theorem setLockOrWaitBit_spec (s : State T cfg) (k : K) :
    ∃ v, (s.setLockOrWaitBit k).1 = s.setWord (cfg.addr k) v
      ∧ (s.setLockOrWaitBit k).2 = !s.abs.lock k
      ∧ (s.setLockOrWaitBit k).1.abs = if s.abs.lock k
        then { s.abs with wait := Function.update s.abs.wait k true }
        else { s.abs with
          lock := Function.update s.abs.lock k true
          wait := Function.update s.abs.wait k false } := by
  have hbit : s.word (cfg.addr k) &&& cfg.lockMask k = 0 ↔ s.abs.lock k = false :=
    Word.and_bit_eq_zero (cfg.lockAt_lt k)
  unfold State.setLockOrWaitBit
  dsimp only
  cases hl : s.abs.lock k with
  | true =>
    rw [if_pos (fun h0 => by rw [hbit.mp h0] at hl; cases hl)]
    obtain ⟨s', hs'⟩ := swapBits_self s k (cfg.lockMask k ||| cfg.waitMask k)
    obtain ⟨-, -, ⟨v, hv⟩, habs⟩ := abs_swapBits hs'
    have hlock : Function.update s.abs.lock k true = s.abs.lock :=
      Function.update_eq_self_iff.mpr hl.symm
    rw [(getLsbD_bothMask k).1, (getLsbD_bothMask k).2, hlock] at habs
    rw [hs', Option.getD_some]
    exact ⟨v, hv, rfl, habs⟩
  | false =>
    rw [if_neg (not_not_intro (hbit.mpr hl))]
    obtain ⟨s', hs'⟩ := swapBits_self s k (cfg.lockMask k)
    obtain ⟨-, -, ⟨v, hv⟩, habs⟩ := abs_swapBits hs'
    rw [(getLsbD_lockMask k).1, (getLsbD_lockMask k).2] at habs
    rw [hs', Option.getD_some]
    exact ⟨v, hv, rfl, habs⟩

omit [DecidableEq T] [DecidableEq K] [DecidableEq ι] in
/-- **A swap of one bit whose result is ignored** stores the new bit if it finds
the old one. -/
theorem swapIgnore_spec (s : State T cfg) (k : K) {i : ℕ} (hi : i < cfg.width (cfg.addr k))
    (old new : BitVec (cfg.width (cfg.addr k))) :
    ∃ v, s.swapIgnore k (Word.bit _ i) old new = s.setWord (cfg.addr k) v
      ∧ (∀ j, j ≠ i → v.getLsbD j = (s.word (cfg.addr k)).getLsbD j)
      ∧ v.getLsbD i = if (s.word (cfg.addr k)).getLsbD i = old.getLsbD i then new.getLsbD i
        else (s.word (cfg.addr k)).getLsbD i := by
  have hmask : ∀ j, (Word.bit (cfg.width (cfg.addr k)) i).getLsbD j = true ↔ i = j := by
    intro j
    rw [Word.getLsbD_bit hi, decide_eq_true_eq]
  unfold State.swapIgnore
  by_cases heq : (s.word (cfg.addr k)).getLsbD i = old.getLsbD i
  · rw [if_pos heq, Word.swapWithMask_pos fun j hj => by rw [← (hmask j).mp hj]; exact heq]
    refine ⟨_, rfl, fun j hj => ?_, ?_⟩
    · rw [Word.getLsbD_replace, if_neg fun h => hj ((hmask j).mp h).symm]
    · rw [Word.getLsbD_replace, if_pos ((hmask i).mpr rfl)]
  · rw [if_neg heq, Word.swapWithMask_neg ((hmask i).mpr rfl) heq]
    refine ⟨s.word (cfg.addr k), ?_, fun _ _ => rfl, rfl⟩
    rw [State.setWord, Function.update_eq_self]
    rfl

omit [DecidableEq T] [DecidableEq ι] in
/-- The condition bit is set. -/
theorem abs_setCv (s : State T cfg) {k : K} (hk : cfg.cvAt k < cfg.width (cfg.addr k)) :
    ∃ v, s.swapIgnore k (cfg.cvMask k) 0 (cfg.cvMask k) = s.setWord (cfg.addr k) v
      ∧ (s.setWord (cfg.addr k) v).abs
        = { s.abs with cv := Function.update s.abs.cv k true } := by
  obtain ⟨v, hv, hother, hself⟩ := swapIgnore_spec s k hk 0 (cfg.cvMask k)
  refine ⟨v, hv, ?_⟩
  have h1 : v.getLsbD (cfg.cvAt k) = true := by
    rw [hself, Config.cvMask, Word.getLsbD_bit hk, decide_eq_true rfl,
      show (0 : BitVec (cfg.width (cfg.addr k))).getLsbD (cfg.cvAt k) = false from
        BitVec.getLsbD_zero]
    grind -linarith
  rw [abs_setWord s fun i hi => hother i (by grind -linarith), h1, hother _ (cfg.lock_ne_cv k),
    hother _ (cfg.wait_ne_cv k)]
  rw [show (s.word (cfg.addr k)).getLsbD (cfg.lockAt k) = s.abs.lock k from rfl,
    show (s.word (cfg.addr k)).getLsbD (cfg.waitAt k) = s.abs.wait k from rfl,
    Function.update_eq_self, Function.update_eq_self]

omit [DecidableEq T] [DecidableEq ι] in
/-- The condition bit is cleared. -/
theorem abs_clearCv (s : State T cfg) (k : K) :
    ∃ v, s.swapIgnore k (cfg.cvMask k) (cfg.cvMask k) 0 = s.setWord (cfg.addr k) v
      ∧ (s.setWord (cfg.addr k) v).abs
        = { s.abs with cv := Function.update s.abs.cv k false } := by
  by_cases hk : cfg.cvAt k < cfg.width (cfg.addr k)
  · obtain ⟨v, hv, hother, hself⟩ := swapIgnore_spec s k hk (cfg.cvMask k) 0
    refine ⟨v, hv, ?_⟩
    have h1 : v.getLsbD (cfg.cvAt k) = false := by
      rw [hself, Config.cvMask, Word.getLsbD_bit hk, decide_eq_true rfl,
        show (0 : BitVec (cfg.width (cfg.addr k))).getLsbD (cfg.cvAt k) = false from
          BitVec.getLsbD_zero]
      grind -linarith
    rw [abs_setWord s fun i hi => hother i (by grind -linarith), h1, hother _ (cfg.lock_ne_cv k),
      hother _ (cfg.wait_ne_cv k)]
    rw [show (s.word (cfg.addr k)).getLsbD (cfg.lockAt k) = s.abs.lock k from rfl,
      show (s.word (cfg.addr k)).getLsbD (cfg.waitAt k) = s.abs.wait k from rfl,
      Function.update_eq_self, Function.update_eq_self]
  · -- a lock without a condition has no such bit
    have hbit : s.abs.cv k = false := BitVec.getLsbD_of_ge _ _ (Nat.le_of_not_lt hk)
    have hmask : ∀ i, (cfg.cvMask k).getLsbD i = false := by
      intro i
      rw [Config.cvMask, Word.bit, BitVec.getLsbD_twoPow, decide_eq_false hk, Bool.false_and]
    refine ⟨s.word (cfg.addr k), ?_, ?_⟩
    · have hsame : (s.word (cfg.addr k) &&& ~~~cfg.cvMask k) ||| (0 &&& cfg.cvMask k)
          = s.word (cfg.addr k) := by
        refine BitVec.eq_of_getLsbD_eq fun i _ => ?_
        rw [Word.getLsbD_replace, hmask, if_neg Bool.false_ne_true]
      have hall : ∀ i, (cfg.cvMask k).getLsbD i = true →
          (s.word (cfg.addr k)).getLsbD i = (cfg.cvMask k).getLsbD i := by
        intro i hi
        rw [hmask] at hi
        exact absurd hi Bool.false_ne_true
      rw [State.swapIgnore, Word.swapWithMask_pos hall, hsame, Option.map_some, Option.getD_some]
    · rw [State.setWord, Function.update_eq_self, Function.update_eq_self_iff.mpr hbit.symm]

omit [DecidableEq T] [DecidableEq ι] in
/-- The wait bit is set. -/
theorem abs_setWait (s : State T cfg) (k : K) :
    ∃ v, s.swapIgnore k (cfg.waitMask k) 0 (cfg.waitMask k) = s.setWord (cfg.addr k) v
      ∧ (s.setWord (cfg.addr k) v).abs
        = { s.abs with wait := Function.update s.abs.wait k true } := by
  obtain ⟨v, hv, hother, hself⟩ := swapIgnore_spec s k (cfg.waitAt_lt k) 0 (cfg.waitMask k)
  refine ⟨v, hv, ?_⟩
  have h1 : v.getLsbD (cfg.waitAt k) = true := by
    rw [hself, Config.waitMask, Word.getLsbD_bit (cfg.waitAt_lt k), decide_eq_true rfl,
      show (0 : BitVec (cfg.width (cfg.addr k))).getLsbD (cfg.waitAt k) = false from
        BitVec.getLsbD_zero]
    grind -linarith
  rw [abs_setWord s fun i hi => hother i (by grind -linarith), h1, hother _ (cfg.lock_ne_wait k),
    hother _ (cfg.wait_ne_cv k).symm]
  rw [show (s.word (cfg.addr k)).getLsbD (cfg.lockAt k) = s.abs.lock k from rfl,
    show (s.word (cfg.addr k)).getLsbD (cfg.cvAt k) = s.abs.cv k from rfl,
    Function.update_eq_self, Function.update_eq_self]

end Bitlock
