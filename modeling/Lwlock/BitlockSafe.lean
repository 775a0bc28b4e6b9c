import Lwlock.BitlockView

/-!
# Bits, wait lists and owners agree

Every step of the code is one of the transitions of the abstract reading, so the
invariant holds along every run. What it says of the words and the lists: a lock
has at most one holder, its wait bit and its condition bit tell whether somebody
is queued, and a lock with somebody in line changes hands only by being handed
to the first one.
-/

namespace Bitlock

open Monitor (Kind forLock signalFirst)

variable {T A K ι : Type} {cfg : Config A K ι} [DecidableEq T] [DecidableEq A] [DecidableEq K]
  [DecidableEq ι]

/-! ## The lists stay well formed -/

omit [DecidableEq T] [DecidableEq K] [DecidableEq ι] in
/-- What the lists depend on. -/
theorem Rep.congr {s s' : State T cfg} (h : Rep s) (hl : s'.list = s.list) (hs : s'.src = s.src)
    (ht : s'.tag = s.tag) (hw : ∀ i u, u ∈ s.list i → s'.want u = s.want u) : Rep s' := by
  have hf : ∀ k kind u, s'.waitsFor k kind u = s.waitsFor k kind u := by
    intro k kind u
    rw [State.waitsFor, State.waitsFor, hs, ht]
  refine ⟨fun i u hu => ?_, fun i => ?_⟩
  · rw [hl] at hu
    obtain ⟨k, kind, h1, h2, h3⟩ := h.listed i u hu
    exact ⟨k, kind, by rw [hw i u hu]; exact h1, h2, by rw [hf]; exact h3⟩
  · rw [hl]
    exact h.nodup i

omit [DecidableEq T] [DecidableEq K] [DecidableEq ι] in
/-- A thread without a pending wait is in no list. -/
theorem Rep.not_mem {s : State T cfg} (h : Rep s) {t : T} (ht : s.want t = none) (i : ι) :
    t ∉ s.list i := by
  intro hi
  obtain ⟨k, kind, h1, -⟩ := h.listed i t hi
  rw [ht] at h1
  cases h1

omit [DecidableEq K] in
/-- A waiter is appended. -/
theorem Rep.append {s : State T cfg} (h : Rep s) {t : T} {k : K} {kind : Kind}
    (ht : s.want t = none) : Rep (s.append t k kind) := by
  have hnot := h.not_mem ht
  have hold : ∀ j kd u, u ≠ t → (s.append t k kind).waitsFor j kd u = s.waitsFor j kd u := by
    intro j kd u hu
    simp only [State.waitsFor, State.append, Function.update_of_ne hu]
  constructor
  · intro i u hu
    by_cases hut : u = t
    · subst hut
      have hi : i = cfg.listOf k := by
        by_contra hne
        simp only [State.append, Function.update_of_ne hne] at hu
        exact hnot i hu
      refine ⟨k, kind, ?_, hi.symm, ?_⟩
      · simp only [State.append, Function.update_self]
      · rw [waitsFor_iff]
        simp only [State.append, Function.update_self, and_self]
    · have hu' : u ∈ s.list i := by
        simp only [State.append, Function.update_apply] at hu
        split at hu
        · rename_i hi
          subst hi
          rcases List.mem_append.mp hu with hu | hu
          · exact hu
          · exact absurd (List.mem_singleton.mp hu) hut
        · exact hu
      obtain ⟨j, kd, h1, h2, h3⟩ := h.listed i u hu'
      refine ⟨j, kd, ?_, h2, ?_⟩
      · simp only [State.append, Function.update_of_ne hut]
        exact h1
      · rw [hold j kd u hut]
        exact h3
  · intro i
    simp only [State.append, Function.update_apply]
    split
    · rw [List.nodup_append]
      refine ⟨h.nodup _, List.nodup_singleton t, ?_⟩
      rintro a ha b hb rfl
      rw [List.mem_singleton.mp hb] at ha
      exact hnot _ ha
    · exact h.nodup i

/-- **What `get_one_waiter` does** for a lock that is taken and has its wait bit
set with somebody in line. -/
theorem getOneWaiter_spec {s : State T cfg} (hr : Rep s) {k : K}
    (hq : hasLock (s.abs.queue k) = true) (hl : s.abs.lock k = true) (hw : s.abs.wait k = true) :
    ∃ s' u A B, s.getOneWaiter k = some (s', u)
      ∧ s.abs.queue k = A ++ (u, .lock) :: B ∧ hasLock A = false
      ∧ (s.list (cfg.listOf k)).find? (s.waitsFor k .lock) = some u
      ∧ s'.abs = { s.abs with
        wait := Function.update s.abs.wait k (hasLock (A ++ B))
        queue := Function.update s.abs.queue k (A ++ B)
        granted := Function.update s.abs.granted u true }
      ∧ Rep s' ∧ s'.want = s.want := by
  have hq' : hasLock (s.queueOf k) = true := hq
  rw [hasLock_queueOf] at hq'
  obtain ⟨u, hu⟩ := Option.isSome_iff_exists.mp (List.find?_isSome.mpr (List.any_eq_true.mp hq'))
  obtain ⟨hwf, X, Y, hX, hXn⟩ := List.find?_eq_some_iff_append.mp hu
  have hnd := hr.nodup (cfg.listOf k)
  rw [hX] at hnd
  have herase : (s.list (cfg.listOf k)).erase u = X ++ Y := by
    rw [hX, List.erase_append_right _ (by grind -linarith), List.erase_cons_head]
  obtain ⟨hqk, hqnew⟩ := queueOf_erase (g := Function.update s.granted u true) hX hwf
  have hA : hasLock (X.filterMap (s.entry k)) = false := by
    rw [← Bool.not_eq_true, hasLock, List.any_eq_true]
    rintro ⟨⟨v, kd⟩, hv, hk⟩
    obtain rfl : kd = .lock := of_decide_eq_true hk
    obtain ⟨w, hw, he⟩ := List.mem_filterMap.mp hv
    have := hXn w hw
    rw [(entry_eq_some.mp he).2] at this
    cases this
  have hany : (X ++ Y).any (s.waitsFor k .lock)
      = hasLock (X.filterMap (s.entry k) ++ Y.filterMap (s.entry k)) := by
    have := hasLock_queueOf ({ s with
      list := Function.update s.list (cfg.listOf k) (X ++ Y),
      granted := Function.update s.granted u true } : State T cfg) k
    rw [hqnew, Function.update_self] at this
    rw [this]
    simp only [Function.update_self]
    rfl
  have hrep : Rep ({ s with
      list := Function.update s.list (cfg.listOf k) (X ++ Y),
      granted := Function.update s.granted u true } : State T cfg) := by
    constructor
    · intro i v hv
      refine hr.listed i v ?_
      simp only [Function.update_apply] at hv
      split at hv
      · rename_i hi
        subst hi
        rw [hX]
        grind -linarith
      · exact hv
    · intro i
      simp only [Function.update_apply]
      split
      · grind -linarith
      · exact hr.nodup i
  unfold State.getOneWaiter
  rw [hu]
  dsimp only
  rw [herase, hany]
  split
  · rename_i hmore
    refine ⟨_, u, _, _, rfl, hqk, hA, rfl, ?_, hrep, rfl⟩
    have hwait : Function.update s.abs.wait k true = s.abs.wait :=
      Function.update_eq_self_iff.mpr hw.symm
    rw [hmore, hwait]
    simp only [State.abs]
    rw [hqnew]
  · rename_i hmore
    rw [Bool.not_eq_true] at hmore
    -- the last one: the wait bit goes, and the lock bit stays
    have hswap : ∃ s'', ({ s with
        list := Function.update s.list (cfg.listOf k) (X ++ Y),
        granted := Function.update s.granted u true } : State T cfg).swapBits k
        (cfg.lockMask k ||| cfg.waitMask k) (cfg.lockMask k) = some s'' := by
      cases h : ({ s with
        list := Function.update s.list (cfg.listOf k) (X ++ Y),
        granted := Function.update s.granted u true } : State T cfg).swapBits k
        (cfg.lockMask k ||| cfg.waitMask k) (cfg.lockMask k) with
      | none =>
        refine absurd ?_ (swapBits_none h)
        rw [(getLsbD_bothMask k).1, (getLsbD_bothMask k).2]
        exact ⟨hl, hw⟩
      | some s'' => exact ⟨s'', rfl⟩
    obtain ⟨s'', hs''⟩ := hswap
    obtain ⟨-, -, ⟨v, hv⟩, habs⟩ := abs_swapBits hs''
    refine ⟨s'', u, _, _, ?_, hqk, hA, rfl, ?_, ?_, ?_⟩
    · rw [State.clearWaitMask, hs'', Option.getD_some]
    · rw [habs, (getLsbD_lockMask k).1, (getLsbD_lockMask k).2, hmore]
      simp only [State.abs]
      rw [hqnew]
      have : Function.update s.abs.lock k true = s.abs.lock :=
        Function.update_eq_self_iff.mpr hl.symm
      rw [show (fun j => (s.word (cfg.addr j)).getLsbD (cfg.lockAt j)) = s.abs.lock from rfl, this]
    · rw [hv]
      exact hrep.congr rfl rfl rfl fun _ _ _ => rfl
    · rw [hv]
      rfl

/-! ## The payload functions -/

omit [DecidableEq T] [DecidableEq ι] in
/-- The lock bit is set by an `or`. -/
theorem abs_orLock (s : State T cfg) (k : K) :
    (s.setWord (cfg.addr k) (s.word (cfg.addr k) ||| cfg.lockMask k)).abs
      = { s.abs with lock := Function.update s.abs.lock k true } := by
  have hbit : ∀ i, (s.word (cfg.addr k) ||| cfg.lockMask k).getLsbD i
      = ((s.word (cfg.addr k)).getLsbD i || decide (cfg.lockAt k = i)) := by
    intro i
    rw [BitVec.getLsbD_or, Config.lockMask, Word.getLsbD_bit (cfg.lockAt_lt k)]
  rw [abs_setWord s fun i hi => by rw [hbit]; grind -linarith, hbit, hbit, hbit, decide_eq_true rfl,
    decide_eq_false (cfg.lock_ne_wait k), decide_eq_false (cfg.lock_ne_cv k), Bool.or_true,
    Bool.or_false, Bool.or_false]
  rw [show (s.word (cfg.addr k)).getLsbD (cfg.waitAt k) = s.abs.wait k from rfl,
    show (s.word (cfg.addr k)).getLsbD (cfg.cvAt k) = s.abs.cv k from rfl,
    Function.update_eq_self, Function.update_eq_self]

omit [DecidableEq T] [DecidableEq ι] in
/-- The wait bit is set by an `or`. -/
theorem abs_orWait (s : State T cfg) (k : K) :
    (s.setWord (cfg.addr k) (s.word (cfg.addr k) ||| cfg.waitMask k)).abs
      = { s.abs with wait := Function.update s.abs.wait k true } := by
  have hbit : ∀ i, (s.word (cfg.addr k) ||| cfg.waitMask k).getLsbD i
      = ((s.word (cfg.addr k)).getLsbD i || decide (cfg.waitAt k = i)) := by
    intro i
    rw [BitVec.getLsbD_or, Config.waitMask, Word.getLsbD_bit (cfg.waitAt_lt k)]
  rw [abs_setWord s fun i hi => by rw [hbit]; grind -linarith, hbit, hbit, hbit, decide_eq_true rfl,
    decide_eq_false (cfg.lock_ne_wait k).symm, decide_eq_false (cfg.wait_ne_cv k), Bool.or_true,
    Bool.or_false, Bool.or_false]
  rw [show (s.word (cfg.addr k)).getLsbD (cfg.lockAt k) = s.abs.lock k from rfl,
    show (s.word (cfg.addr k)).getLsbD (cfg.cvAt k) = s.abs.cv k from rfl,
    Function.update_eq_self, Function.update_eq_self]

omit [DecidableEq T] [DecidableEq K] [DecidableEq ι] in
/-- A word that is a payload has the bits of the lock clear. -/
theorem free_of_eq_payload {s : State T cfg} {k : K} {v : BitVec 64}
    (h : s.word (cfg.addr k) = cfg.payload k v) :
    s.abs.lock k = false ∧ s.abs.wait k = false := by
  have hbit : ∀ i, (cfg.lockMask k ||| cfg.waitMask k).getLsbD i = true →
      (s.word (cfg.addr k)).getLsbD i = false := by
    intro i hi
    rw [h, Config.payload, Config.payloadMask, BitVec.getLsbD_and, BitVec.getLsbD_not, hi,
      Bool.not_true, Bool.and_false, Bool.and_false]
  exact ⟨hbit _ (getLsbD_bothMask k).1, hbit _ (getLsbD_bothMask k).2⟩

/-! ## Every step -/

/-- A thread hands the lock to the first in line: it is about to do so, and `t` is
the first waiter of the lock in the wait list. -/
def Passes (s : State T cfg) (e : Event T K) (t : T) (k : K) : Prop :=
  ∃ u, e = .move u ∧ s.holds u k = true
    ∧ (s.pc u = .unlockSection k ∨ ∃ sync, s.pc u = .cvSection k sync)
    ∧ (s.list (cfg.listOf k)).find? (s.waitsFor k .lock) = some t

/-- **How owners change in a step**: a new owner found the lock free and its wait
bit clear, or was handed the lock as the first in line. -/
def InTurn (s : State T cfg) (e : Event T K) (owner owner' : K → Option T) : Prop :=
  ∀ t k, owner' k = some t → owner k ≠ some t →
    (s.abs.wait k = false ∧ owner k = none) ∨ Passes s e t k

/-- What a step has to keep. -/
def Keeps (s : State T cfg) (e : Event T K) (s' : State T cfg) (owner : K → Option T) : Prop :=
  Rep s' ∧ ∃ owner', Inv s'.abs owner' ∧ InTurn s e owner owner'

omit [DecidableEq T] [DecidableEq K] [DecidableEq ι] in
/-- No owner changes. -/
theorem Keeps.same {s s' : State T cfg} {e : Event T K} {owner : K → Option T} (hr : Rep s')
    (hi : Inv s'.abs owner) : Keeps s e s' owner :=
  ⟨hr, owner, hi, fun _ _ h hn => absurd h hn⟩

omit [DecidableEq T] [DecidableEq ι] in
/-- A lock has no owner any more. -/
theorem Keeps.drop {s s' : State T cfg} {e : Event T K} {owner : K → Option T} {k : K}
    (hr : Rep s') (hi : Inv s'.abs (Function.update owner k none)) : Keeps s e s' owner := by
  refine ⟨hr, _, hi, fun t j h hn => ?_⟩
  by_cases hj : j = k
  · subst hj
    rw [Function.update_self] at h
    cases h
  · rw [Function.update_of_ne hj] at h
    exact absurd h hn

omit [DecidableEq T] [DecidableEq ι] in
/-- A lock has a new owner. -/
theorem Keeps.take {s s' : State T cfg} {e : Event T K} {owner : K → Option T} {k : K} {t : T}
    (hr : Rep s') (hi : Inv s'.abs (Function.update owner k (some t)))
    (ht : (s.abs.wait k = false ∧ owner k = none) ∨ Passes s e t k) : Keeps s e s' owner := by
  refine ⟨hr, _, hi, fun u j h hn => ?_⟩
  by_cases hj : j = k
  · subst hj
    rw [Function.update_self, Option.some.injEq] at h
    subst h
    exact ht
  · rw [Function.update_of_ne hj] at h
    exact absurd h hn

omit [DecidableEq T] [DecidableEq K] in
/-- Locks that are free have no owner and their wait bit clear. -/
theorem Inv.free {a : Abs T K} {owner : K → Option T} {k : K} (h : Inv a owner)
    (hl : a.lock k = false) : a.wait k = false ∧ owner k = none := by
  have hn : owner k = none := by
    by_contra hne
    rw [(h.lock k).mpr hne] at hl
    cases hl
  refine ⟨?_, hn⟩
  cases hw : a.wait k with
  | false => rfl
  | true => exact absurd hn (h.line k (h.wait k hw)).1

omit [DecidableEq T] [DecidableEq K] in
theorem plain_idle : (Pc.idle : Pc T K).Plain := ⟨rfl, rfl, rfl, rfl, rfl, nofun, rfl⟩

omit [DecidableEq T] [DecidableEq K] in
theorem plain_waiting : (Pc.waiting : Pc T K).Plain := ⟨rfl, rfl, rfl, rfl, rfl, nofun, rfl⟩

omit [DecidableEq T] [DecidableEq K] in
theorem plain_lockSection (k : K) (sync : Bool) : (Pc.lockSection k sync : Pc T K).Plain :=
  ⟨rfl, rfl, rfl, rfl, rfl, nofun, rfl⟩

omit [DecidableEq T] [DecidableEq K] in
theorem plain_payloadSection (k : K) (v : BitVec 64) (sync : Bool) :
    (Pc.payloadSection k v sync : Pc T K).Plain :=
  ⟨rfl, rfl, rfl, rfl, rfl, nofun, rfl⟩

omit [DecidableEq T] [DecidableEq K] in
/-- Where a thread goes that waits by itself or not. -/
theorem plain_ite (sync : Bool) : (if sync then .waiting else .idle : Pc T K).Plain := by
  cases sync
  · exact plain_idle
  · exact plain_waiting

/-- A free lock is taken by a thread that stays outside. -/
theorem Inv.acquire_stay {a : Abs T K} {owner : K → Option T} {t : T} {k : K} (h : Inv a owner)
    (hpc : (a.pc t).Plain) (hl : a.lock k = false) :
    Inv ({ a with lock := Function.update a.lock k true }.setHolds t k true)
      (Function.update owner k (some t)) := by
  have hacq := h.acquire (c := a.pc t) hpc hpc hl
  simp only [Abs.goto, Abs.setHolds, Function.update_eq_self] at hacq
  exact hacq

omit [DecidableEq ι] in
/-- **A thread takes a lock that is free** in a call. -/
theorem setLockBit_keeps {s s₁ : State T cfg} {owner : K → Option T} {t : T} {k : K}
    {e : Event T K} (hr : Rep s) (hi : Inv s.abs owner) (hpc : s.pc t = .idle)
    (h : s.setLockBit k = some s₁) : Keeps s e (s₁.setHolds t k true) owner := by
  obtain ⟨hl, hw, ⟨v, rfl⟩, habs⟩ := setLockBit_some h
  have hp : (s.abs.pc t).Plain := by
    rw [show s.abs.pc t = .idle from hpc]
    exact plain_idle
  have hacq := hi.acquire_stay hp hl
  rw [← habs] at hacq
  exact Keeps.take (hr.congr rfl rfl rfl fun _ _ _ => rfl) hacq (Or.inl (hi.free hl))

omit [DecidableEq K] [DecidableEq ι] in
/-- A thread goes from outside to a program point at which it works on nothing. -/
theorem goto_keeps {s : State T cfg} {owner : K → Option T} {t : T} {c : Pc T K} {e : Event T K}
    (hr : Rep s) (hi : Inv s.abs owner) (hpc : (s.pc t).Plain) (hc : c.Plain) :
    Keeps s e (s.goto t c) owner :=
  Keeps.same (hr.congr rfl rfl rfl fun _ _ _ => rfl) (hi.plain hpc hc)

omit [DecidableEq T] [DecidableEq K] [DecidableEq ι] in
/-- The lock bit of a lock that somebody has is set. -/
theorem Inv.lock_of_holds {a : Abs T K} {owner : K → Option T} {t : T} {k : K} (h : Inv a owner)
    (ht : a.holds t k = true) : a.lock k = true := by
  rw [h.lock k, (h.holder t k).mpr (Or.inl ht)]
  exact Option.some_ne_none t

omit [DecidableEq ι] in
/-- **Every call keeps the invariant.** -/
theorem call_keeps {s s' : State T cfg} {owner : K → Option T} {t : T} {op : Op K} (hr : Rep s)
    (hi : Inv s.abs owner) (hc : call s t op = some s') : Keeps s (.call t op) s' owner := by
  have hsame : Keeps s (.call t op) s owner := Keeps.same hr hi
  unfold call at hc
  split at hc
  · -- lock
    rename_i k sync hpc
    have hp : (s.pc t).Plain := by rw [hpc]; exact plain_idle
    split at hc <;> cases hc
    · rename_i s₁ h₁
      exact setLockBit_keeps hr hi hpc h₁
    · exact goto_keeps hr hi hp (plain_lockSection k sync)
  · -- lock_if_payload
    rename_i k v sync hpc
    have hp : (s.pc t).Plain := by rw [hpc]; exact plain_idle
    dsimp only at hc
    split at hc
    · rename_i hv
      cases hc
      obtain ⟨hl, hw⟩ := free_of_eq_payload hv
      have hacq := hi.acquire_stay hp hl
      rw [← abs_orLock] at hacq
      rw [← hv]
      exact Keeps.take (hr.congr rfl rfl rfl fun _ _ _ => rfl) hacq (Or.inl (hi.free hl))
    · split at hc <;> cases hc
      · exact hsame
      · exact goto_keeps hr hi hp (plain_payloadSection k v sync)
  · -- trylock
    rename_i k hpc
    split at hc <;> cases hc
    · rename_i s₁ h₁
      exact setLockBit_keeps hr hi hpc h₁
    · exact hsame
  · -- complete_wait
    rename_i hpc
    split at hc <;> cases hc
    exact goto_keeps hr hi (by rw [hpc]; exact plain_idle) plain_waiting
  · -- unlock
    rename_i k hpc
    have hp : (s.pc t).Plain := by rw [hpc]; exact plain_idle
    split at hc
    · rename_i hh
      split at hc <;> cases hc
      · rename_i s₁ h₁
        obtain ⟨hl, hw, ⟨v, rfl⟩, habs⟩ := dropLock_some h₁
        have hdrop := hi.drop hp hh hw
        rw [← habs] at hdrop
        exact Keeps.drop (hr.congr rfl rfl rfl fun _ _ _ => rfl) hdrop
      · rename_i h₁
        have hw := dropLock_none h₁ (hi.lock_of_holds hh)
        exact Keeps.same (hr.congr rfl rfl rfl fun _ _ _ => rfl) (hi.enterUnlock hp hh hw)
    · cases hc
  · -- cv_wait
    rename_i k sync hpc
    have hp : (s.pc t).Plain := by rw [hpc]; exact plain_idle
    split at hc <;> cases hc
    rename_i hcond
    obtain ⟨hh, hw, hk⟩ := hcond
    obtain ⟨v, hv, habs⟩ := abs_setCv s hk
    have hcv := hi.enterCv sync hp hh hw
    rw [hv]
    rw [← habs] at hcv
    exact Keeps.same (hr.congr rfl rfl rfl fun _ _ _ => rfl) hcv
  · -- cv_signal
    rename_i k hpc
    have hp : (s.pc t).Plain := by rw [hpc]; exact plain_idle
    split at hc
    · rename_i hcond
      obtain ⟨hh, hk⟩ := hcond
      split at hc <;> cases hc
      · exact hsame
      · rename_i hcv
        have hcv' : s.abs.cv k = true := by
          rw [← Bool.not_eq_false]
          exact fun h0 => hcv ((Word.and_bit_eq_zero hk).mpr h0)
        exact Keeps.same (hr.congr rfl rfl rfl fun _ _ _ => rfl)
          (hi.enterSignal hp hh hcv' (Or.inl rfl))
    · cases hc
  · -- cv_broadcast
    rename_i k hpc
    have hp : (s.pc t).Plain := by rw [hpc]; exact plain_idle
    split at hc
    · rename_i hcond
      obtain ⟨hh, hk⟩ := hcond
      split at hc <;> cases hc
      · exact hsame
      · rename_i hcv
        have hcv' : s.abs.cv k = true := by
          rw [← Bool.not_eq_false]
          exact fun h0 => hcv ((Word.and_bit_eq_zero hk).mpr h0)
        exact Keeps.same (hr.congr rfl rfl rfl fun _ _ _ => rfl)
          (hi.enterSignal hp hh hcv' (Or.inr rfl))
    · cases hc
  · cases hc

/-- **A section that found the lock free, or queues the thread.** -/
theorem lockOrQueue_keeps {s s₁ s' : State T cfg} {owner : K → Option T} {t : T} {k : K}
    {sync : Bool} {e : Event T K} {v : BitVec (cfg.width (cfg.addr k))} (hr : Rep s)
    (hi : Inv s.abs owner) (hpc : (s.pc t).Plain) (hs₁ : s₁ = s.setWord (cfg.addr k) v)
    (habs : s₁.abs = if s.abs.lock k
      then { s.abs with wait := Function.update s.abs.wait k true }
      else { s.abs with lock := Function.update s.abs.lock k true })
    (hc : lockOrQueue s t k sync (s₁, !s.abs.lock k) = some s') : Keeps s e s' owner := by
  unfold lockOrQueue at hc
  subst hs₁
  cases hl : s.abs.lock k with
  | false =>
    rw [hl] at hc habs
    simp only [Bool.not_false, if_true, Option.some.injEq] at hc
    rw [if_neg Bool.false_ne_true] at habs
    subst hc
    have hacq := hi.acquire hpc plain_idle hl
    rw [← habs] at hacq
    exact Keeps.take (hr.congr rfl rfl rfl fun _ _ _ => rfl) hacq (Or.inl (hi.free hl))
  | true =>
    rw [hl] at hc habs
    simp only [Bool.not_true, Bool.false_eq_true, if_false] at hc
    rw [if_pos rfl] at habs
    split at hc <;> cases hc
    rename_i hw
    have hq := hi.enqueue hpc (plain_ite sync) hl hw
    have hr' : Rep (s.setWord (cfg.addr k) v) := hr.congr rfl rfl rfl fun _ _ _ => rfl
    have happ := abs_append (k := k) .lock (hr'.not_mem hw)
    rw [habs] at happ
    refine Keeps.same ((hr'.append hw).congr rfl rfl rfl fun _ _ _ => rfl) ?_
    change Inv (((s.setWord (cfg.addr k) v).append t k .lock).abs.goto t _) owner
    rw [happ]
    exact hq

omit [DecidableEq ι] in
/-- **The section of `cv_signal`.** -/
theorem signalSection_keeps {s : State T cfg} {owner : K → Option T} {t : T} {k : K}
    {e : Event T K} (hr : Rep s) (hi : Inv s.abs owner) (hpc : s.pc t = .signalSection k) :
    Keeps s e (signalSection s t k) owner := by
  have hsig : (s.abs.pc t).signalling = some k := by
    rw [show s.abs.pc t = .signalSection k from hpc]
    rfl
  have hcv : hasCv (s.queueOf k) = true := hi.signal t k hsig
  have hany := hcv
  rw [hasCv_queueOf] at hany
  obtain ⟨u, hu⟩ := Option.isSome_iff_exists.mp (List.find?_isSome.mpr (List.any_eq_true.mp hany))
  obtain ⟨hwf, X, Y, hX, -⟩ := List.find?_eq_some_iff_append.mp hu
  obtain ⟨hqk, hqnew⟩ := queueOf_retag hr hX hwf
  have habs : ({ s with tag := Function.update s.tag u (cfg.waitTag k) } : State T cfg).abs
      = { s.abs with
        queue := Function.update s.abs.queue k
          (X.filterMap (s.entry k) ++ (u, .lock) :: Y.filterMap (s.entry k)) } := by
    simp only [State.abs]
    rw [hqnew]
  have hfst : (X.filterMap (s.entry k) ++ (u, .lock) :: Y.filterMap (s.entry k)).map Prod.fst
      = (s.abs.queue k).map Prod.fst := by
    rw [show s.abs.queue k = s.queueOf k from rfl, hqk]
    simp only [List.map_append, List.map_cons]
  have hinv := hi.signals hsig hfst (by simp)
  rw [← habs] at hinv
  have hrep : Rep ({ s with tag := Function.update s.tag u (cfg.waitTag k) } : State T cfg) := by
    refine ⟨fun i v hv => ?_, hr.nodup⟩
    obtain ⟨j, kd, h1, h2, h3⟩ := hr.listed i v hv
    by_cases hvu : v = u
    · subst hvu
      obtain ⟨rfl, rfl⟩ := waitsFor_inj h3 hwf
      exact ⟨j, .lock, h1, h2, waitsFor_iff.mpr ⟨(waitsFor_iff.mp hwf).1, Function.update_self _ _ _⟩⟩
    · refine ⟨j, kd, h1, h2, ?_⟩
      rw [waitsFor_iff] at h3 ⊢
      exact ⟨h3.1, by rw [← h3.2]; exact Function.update_of_ne hvu _ _⟩
  have hmany : (s.list (cfg.listOf k)).any
      (({ s with tag := Function.update s.tag u (cfg.waitTag k) } : State T cfg).waitsFor k .cv)
      = hasCv (X.filterMap (s.entry k) ++ (u, .lock) :: Y.filterMap (s.entry k)) := by
    have := hasCv_queueOf
      ({ s with tag := Function.update s.tag u (cfg.waitTag k) } : State T cfg) k
    rw [hqnew, Function.update_self] at this
    exact this.symm
  unfold signalSection
  rw [hu]
  dsimp only
  rw [hmany]
  split
  · rename_i hmore
    rw [if_pos hmore] at hinv
    exact Keeps.same (hrep.congr rfl rfl rfl fun _ _ _ => rfl) hinv
  · rename_i hmore
    rw [if_neg hmore] at hinv
    exact Keeps.same (hrep.congr rfl rfl rfl fun _ _ _ => rfl) hinv

omit [DecidableEq ι] in
/-- **The section of `cv_broadcast`.** -/
theorem broadcastSection_keeps {s : State T cfg} {owner : K → Option T} {t : T} {k : K}
    {e : Event T K} (hr : Rep s) (hi : Inv s.abs owner) (hpc : s.pc t = .broadcastSection k) :
    Keeps s e (broadcastSection s t k) owner := by
  have hsig : (s.abs.pc t).signalling = some k := by
    rw [show s.abs.pc t = .broadcastSection k from hpc]
    rfl
  have hcv := hi.signal t k hsig
  have hfst : ((s.abs.queue k).map fun e => (e.1, Kind.lock)).map Prod.fst
      = (s.abs.queue k).map Prod.fst := by
    rw [List.map_map]
    rfl
  have hlock : hasLock ((s.abs.queue k).map fun e => (e.1, Kind.lock)) = true := by
    obtain ⟨A, u, B, hq, -⟩ := exists_first_cv hcv
    rw [hq]
    simp
  have hnone : hasCv ((s.abs.queue k).map fun e => (e.1, Kind.lock)) = false := by
    rw [hasCv, List.any_map]
    exact List.any_eq_false.mpr fun e _ h => by cases h
  have hinv := hi.signals hsig hfst hlock
  rw [hnone, if_neg Bool.false_ne_true] at hinv
  have habs : (broadcastSection s t k).abs = { s.abs with
      queue := Function.update s.abs.queue k
        ((s.abs.queue k).map fun e : T × Kind => (e.1, Kind.lock)) }.goto t (.clearCv k) := by
    unfold broadcastSection
    have := queueOf_retagAll s k
    simp only [State.abs, State.goto, Abs.goto]
    rw [← this]
    rfl
  rw [← habs] at hinv
  refine Keeps.same ⟨fun i v hv => ?_, hr.nodup⟩ hinv
  obtain ⟨j, kd, h1, h2, h3⟩ := hr.listed i v hv
  rw [waitsFor_iff] at h3
  by_cases hvc : v ∈ s.list (cfg.listOf k) ∧ s.waitsFor k .cv v
  · obtain ⟨rfl, -⟩ := waitsFor_inj (waitsFor_iff.mpr h3) hvc.2
    refine ⟨j, .lock, h1, h2, waitsFor_iff.mpr ⟨h3.1, ?_⟩⟩
    exact if_pos hvc
  · refine ⟨j, kd, h1, h2, waitsFor_iff.mpr ⟨h3.1, ?_⟩⟩
    rw [← h3.2]
    exact if_neg hvc

omit [DecidableEq T] [DecidableEq K] [DecidableEq ι] in
/-- A thread at work on a lock has it. -/
theorem Inv.at_work {s : State T cfg} {owner : K → Option T} {t : T} {k : K} {c : Pc T K}
    (hi : Inv s.abs owner) (hpc : s.pc t = c) (hc : c.working = some k) :
    s.holds t k = true :=
  hi.working t k (by rw [show s.abs.pc t = c from hpc]; exact hc)

/-- **The section of an unlock hands the lock to the first in line.** -/
theorem unlockSection_spec {s : State T cfg} {owner : K → Option T} {t : T} {k : K}
    (hr : Rep s) (hi : Inv s.abs owner) (hpc : s.pc t = .unlockSection k) :
    ∃ u, (s.list (cfg.listOf k)).find? (s.waitsFor k .lock) = some u
      ∧ Rep (unlockSection s t k)
      ∧ Inv (unlockSection s t k).abs (Function.update owner k (some u)) := by
  have hw : s.abs.wait k = true := hi.unlock t k hpc
  have hh := hi.at_work hpc rfl
  obtain ⟨s₁, u, A, B, hget, hq, -, hfind, habs, hrep, -⟩ :=
    getOneWaiter_spec hr (hi.wait k hw) (hi.lock_of_holds hh) hw
  refine ⟨u, hfind, ?_⟩
  unfold unlockSection
  rw [hget]
  refine ⟨hrep.congr rfl rfl rfl fun _ _ _ => rfl, ?_⟩
  have hinv := hi.handOver hpc hq
  rw [← habs] at hinv
  exact hinv

/-- **The section of `cv_wait`** gives the lock up, or hands it to the first in
line. -/
theorem cvSection_spec {s : State T cfg} {owner : K → Option T} {t : T} {k : K} {sync : Bool}
    (hr : Rep s) (hi : Inv s.abs owner) (hpc : s.pc t = .cvSection k sync) :
    Rep (cvSection s t k sync)
      ∧ ((s.abs.wait k = false ∧ Inv (cvSection s t k sync).abs (Function.update owner k none))
        ∨ ∃ u, (s.list (cfg.listOf k)).find? (s.waitsFor k .lock) = some u
          ∧ s.abs.wait k = true
          ∧ Inv (cvSection s t k sync).abs (Function.update owner k (some u))) := by
  have hh := hi.at_work hpc rfl
  have hwt : s.want t = none :=
    (hi.setting t k (by rw [show s.abs.pc t = .cvSection k sync from hpc]; rfl)).2
  unfold cvSection
  cases hd : s.dropLockIfNoWaiters k with
  | some s₁ =>
    obtain ⟨-, hw, ⟨v, rfl⟩, habs⟩ := dropLock_some hd
    have hr' : Rep ((s.setWord (cfg.addr k) v).setHolds t k false) :=
      hr.congr rfl rfl rfl fun _ _ _ => rfl
    have hinv := hi.cvDrop hpc (plain_ite sync) hw
    refine ⟨(hr'.append hwt).congr rfl rfl rfl fun _ _ _ => rfl, Or.inl ⟨hw, ?_⟩⟩
    have happ := abs_append (k := k) .cv (hr'.not_mem hwt)
    change Inv ((((s.setWord (cfg.addr k) v).setHolds t k false).append t k .cv).abs.goto t _) _
    rw [happ, show ((s.setWord (cfg.addr k) v).setHolds t k false).abs
      = (s.setWord (cfg.addr k) v).abs.setHolds t k false from rfl, habs]
    exact hinv
  | none =>
    have hw := dropLock_none hd (hi.lock_of_holds hh)
    obtain ⟨s₁, u, A, B, hget, hq, -, hfind, habs, hrep, hwant⟩ :=
      getOneWaiter_spec hr (hi.wait k hw) (hi.lock_of_holds hh) hw
    have hwt₁ : (s₁.setHolds t k false).want t = none := by
      rw [← hwt, ← hwant]
      rfl
    have hr' : Rep (s₁.setHolds t k false) := hrep.congr rfl rfl rfl fun _ _ _ => rfl
    have hinv := hi.cvHandOver hpc hq
    rw [hget]
    refine ⟨(hr'.append hwt₁).congr rfl rfl rfl fun _ _ _ => rfl, Or.inr ⟨u, hfind, hw, ?_⟩⟩
    have happ := abs_append (k := k) .cv (hr'.not_mem hwt₁)
    change Inv (((s₁.setHolds t k false).append t k .cv).abs.goto t _) _
    rw [happ, show (s₁.setHolds t k false).abs = s₁.abs.setHolds t k false from rfl, habs]
    simp only [Abs.setHolds, Function.update_self, Function.update_idem]
    exact hinv

omit [DecidableEq ι] in
/-- **A thread returns with the lock it was handed.** It left the list when it was
handed the lock. -/
theorem finishWait_keeps {s : State T cfg} {owner : K → Option T} {t : T} {k : K} {e : Event T K}
    (hr : Rep s) (hi : Inv s.abs owner) (hpc : s.pc t = .waiting) (hs : s.signalled t = true)
    (hk : s.want t = some k) : Keeps s e ((s.finishWait t k).goto t .idle) owner := by
  have hnot : ∀ i, t ∉ s.list i := by
    intro i hti
    obtain ⟨j, kd, h1, h2, h3⟩ := hr.listed i t hti
    subst h2
    have hgr := (hi.queue j t kd (mem_queueOf.mpr ⟨hti, h3⟩)).2
    rw [hi.signalled t hs] at hgr
    cases hgr
  have hwf : ∀ j kd u, u ≠ t → (s.finishWait t k).waitsFor j kd u = s.waitsFor j kd u := by
    intro j kd u hu
    simp only [State.waitsFor, State.finishWait, State.setHolds, Function.update_of_ne hu]
    rfl
  have hq : (s.finishWait t k).queueOf = s.queueOf := by
    funext j
    refine queueOf_congr rfl fun u hu kd => hwf j kd u ?_
    rintro rfl
    exact hnot _ hu
  refine Keeps.same ⟨fun i u hu => ?_, hr.nodup⟩ ?_
  · have hut : u ≠ t := by
      rintro rfl
      exact hnot i hu
    obtain ⟨j, kd, h1, h2, h3⟩ := hr.listed i u hu
    exact ⟨j, kd, (Function.update_of_ne hut _ _).trans h1, h2, (hwf j kd u hut).trans h3⟩
  · have hinv := hi.returns hpc hs hk
    change Inv ((s.finishWait t k).abs.goto t .idle) owner
    simp only [State.abs]
    rw [hq]
    exact hinv

/-- **Every further step keeps the invariant.** -/
theorem move_keeps {s s' : State T cfg} {owner : K → Option T} {t : T} (hr : Rep s)
    (hi : Inv s.abs owner) (hc : move s t = some s') : Keeps s (.move t) s' owner := by
  unfold move at hc
  split at hc
  case h_1 => cases hc
  case h_2 k sync hpc =>
    obtain ⟨v, hv, hgot, habs⟩ := setLockOrWaitBit_spec s k
    have habs' : (s.setLockOrWaitBit k).1.abs = if s.abs.lock k
        then { s.abs with wait := Function.update s.abs.wait k true }
        else { s.abs with lock := Function.update s.abs.lock k true } := by
      rw [habs]
      split
      · rfl
      · rename_i hl
        have hwait : Function.update s.abs.wait k false = s.abs.wait :=
          Function.update_eq_self_iff.mpr (hi.free (Bool.not_eq_true _ ▸ hl)).1.symm
        rw [hwait]
    rw [← Prod.mk.eta (p := s.setLockOrWaitBit k), hgot] at hc
    exact lockOrQueue_keeps hr hi (by rw [hpc]; exact plain_lockSection k sync) hv habs' hc
  case h_3 k v sync hpc =>
    have hp : (s.pc t).Plain := by
      rw [hpc]
      exact plain_payloadSection k v sync
    have hbit : s.word (cfg.addr k) &&& cfg.lockMask k = 0 ↔ s.abs.lock k = false :=
      Word.and_bit_eq_zero (cfg.lockAt_lt k)
    unfold payloadSection at hc
    dsimp only at hc
    split at hc
    · cases hc
      exact goto_keeps hr hi hp plain_idle
    · split at hc
      · rename_i h0
        have hl := hbit.mp h0
        refine lockOrQueue_keeps hr hi hp rfl ?_ (by rw [hl]; exact hc)
        rw [hl, if_neg Bool.false_ne_true]
        exact abs_orLock s k
      · rename_i h0
        have hl : s.abs.lock k = true := by
          rw [← Bool.not_eq_false]
          exact fun hf => h0 (hbit.mpr hf)
        refine lockOrQueue_keeps hr hi hp rfl ?_ (by rw [hl]; exact hc)
        rw [hl, if_pos rfl]
        exact abs_orWait s k
  case h_4 hpc =>
    split at hc
    · rename_i hs
      obtain ⟨k, hk, rfl⟩ := Option.map_eq_some_iff.mp hc
      exact finishWait_keeps hr hi hpc hs hk
    · cases hc
  case h_5 k hpc =>
    cases hc
    obtain ⟨u, hfind, hrep, hinv⟩ := unlockSection_spec hr hi hpc
    exact Keeps.take hrep hinv (Or.inr ⟨t, rfl, hi.at_work hpc rfl, Or.inl hpc, hfind⟩)
  case h_6 k sync hpc =>
    cases hc
    obtain ⟨hrep, ⟨-, hinv⟩ | ⟨u, hfind, -, hinv⟩⟩ := cvSection_spec hr hi hpc
    · exact Keeps.drop hrep hinv
    · exact Keeps.take hrep hinv (Or.inr ⟨t, rfl, hi.at_work hpc rfl, Or.inr ⟨sync, hpc⟩, hfind⟩)
  case h_7 k hpc =>
    cases hc
    exact signalSection_keeps hr hi hpc
  case h_8 k hpc =>
    cases hc
    exact broadcastSection_keeps hr hi hpc
  case h_9 k hpc =>
    cases hc
    obtain ⟨v, hv, habs⟩ := abs_clearCv s k
    have hinv := hi.clearsCv hpc
    rw [← habs] at hinv
    rw [hv]
    exact Keeps.same (hr.congr rfl rfl rfl fun _ _ _ => rfl) hinv
  case h_10 k hpc =>
    cases hc
    obtain ⟨v, hv, habs⟩ := abs_setWait s k
    have hinv := hi.setsWait hpc
    rw [← habs] at hinv
    rw [hv]
    exact Keeps.same (hr.congr rfl rfl rfl fun _ _ _ => rfl) hinv
  case h_11 u sync hpc =>
    cases hc
    have hwk : (s.abs.pc t).waking = some u := by
      rw [show s.abs.pc t = .wake u sync from hpc]
      rfl
    exact Keeps.same (hr.congr rfl rfl rfl fun _ _ _ => rfl) (hi.wakes hwk (plain_ite sync))
  case h_12 => cases hc

/-! ## Runs -/

omit [DecidableEq T] [DecidableEq K] [DecidableEq ι] in
/-- The bitlocks at the start. -/
theorem Start.good {s : State T cfg} (h : Start cfg s) :
    Rep s ∧ ∃ owner, Inv s.abs owner := by
  obtain ⟨h1, h2, h3, h4, h5, h6, h7, h8, h9⟩ := h
  have hq : ∀ k, s.queueOf k = [] := by
    intro k
    rw [State.queueOf, h4]
    rfl
  refine ⟨⟨fun i u hu => ?_, fun i => ?_⟩, fun _ => none, ?_⟩
  · rw [h4] at hu
    cases hu
  · rw [h4]
    exact List.nodup_nil
  · constructor
    all_goals simp only [State.abs]
    all_goals grind -linarith [Pc.working, Pc.between, Pc.settling, Pc.signalling, Pc.waking, Pc.setting,
      hasLock_nil, hasCv_nil]

/-- **Every reachable state is good**, and every step from it is in turn. -/
theorem good_of_reach {ok : State T cfg → Event T K → State T cfg → Prop} {s : State T cfg}
    (h : (machine T cfg).Reach ok s) : Rep s ∧ ∃ owner, Inv s.abs owner := by
  refine h.invariant (I := fun s => Rep s ∧ ∃ owner, Inv s.abs owner) (fun s hs => Start.good hs) ?_
  rintro s e s' ⟨hr, owner, hi⟩ he -
  have hk : Keeps s e s' owner := by
    cases e with
    | call t op => exact call_keeps hr hi he
    | move t => exact move_keeps hr hi he
  obtain ⟨hr', owner', hi', -⟩ := hk
  exact ⟨hr', owner', hi'⟩

/-- A thread has a lock, or was handed it and has not run yet. -/
def Holder (s : State T cfg) (t : T) (k : K) : Prop :=
  s.holds t k = true ∨ (s.granted t = true ∧ s.want t = some k)

/-- A waiter is queued for a lock, or for its condition. -/
def Queued (s : State T cfg) (k : K) (kind : Kind) (u : T) : Prop :=
  u ∈ s.list (cfg.listOf k) ∧ s.src u = some (cfg.addr k) ∧ s.tag u = cfg.tagOf k kind

/-- **The promises of a bitlock** in a state: one holder; a lock bit that says
whether there is one; a wait bit and a condition bit that say whether somebody is
queued, as soon as the holder has no swap outstanding; sections that find the
waiter they need and hand the lock to the first one; and no other way to a lock
whose wait bit is set. -/
structure Exact (s : State T cfg) : Prop where
  one : ∀ t u k, Holder s t k → Holder s u k → t = u
  lock : ∀ k, (s.word (cfg.addr k)).getLsbD (cfg.lockAt k) = true ↔ ∃ t, Holder s t k
  wait : ∀ k, (∀ t, Holder s t k → (s.pc t).between ≠ some k) →
    ((s.word (cfg.addr k)).getLsbD (cfg.waitAt k) = true ↔ ∃ u, Queued s k .lock u)
  cv : ∀ k, (∀ t, Holder s t k → (s.pc t).between ≠ some k ∧ (s.pc t).setting ≠ some k) →
    ((s.word (cfg.addr k)).getLsbD (cfg.cvAt k) = true ↔ ∃ u, Queued s k .cv u)
  alive : ∀ t, s.pc t ≠ .crashed
  hand : ∀ t k, (s.pc t = .unlockSection k ∨ ((∃ sync, s.pc t = .cvSection k sync)
      ∧ (s.word (cfg.addr k)).getLsbD (cfg.waitAt k) = true)) →
    ∃ u s', (s.list (cfg.listOf k)).find? (s.waitsFor k .lock) = some u
      ∧ move s t = some s' ∧ Holder s' u k
  turn : ∀ e s', (machine T cfg).step s e = some s' → ∀ t k, Holder s' t k → ¬ Holder s t k →
    ((s.word (cfg.addr k)).getLsbD (cfg.waitAt k) = false ∧ ∀ u, ¬ Holder s u k)
      ∨ Passes s e t k

/-- **Bitlocks keep their promises** in every state of every run. -/
theorem exact_of_reach (cfg : Config A K ι) {s : State T cfg}
    (h : (machine T cfg).Reach Machine.anyStep s) : Exact s := by
  obtain ⟨hr, owner, hi⟩ := good_of_reach h
  have hhold : ∀ t k, Holder s t k ↔ owner k = some t := fun t k => (hi.holder t k).symm
  have hql : ∀ k, hasLock (s.abs.queue k) = true ↔ ∃ u, Queued s k .lock u := by
    intro k
    rw [show s.abs.queue k = s.queueOf k from rfl, hasLock_queueOf, List.any_eq_true]
    simp only [waitsFor_iff, Queued]
  have hqc : ∀ k, hasCv (s.abs.queue k) = true ↔ ∃ u, Queued s k .cv u := by
    intro k
    rw [show s.abs.queue k = s.queueOf k from rfl, hasCv_queueOf, List.any_eq_true]
    simp only [waitsFor_iff, Queued]
  constructor
  case one =>
    intro t u k ht hu
    exact Option.some.inj (((hhold t k).mp ht).symm.trans ((hhold u k).mp hu))
  case lock =>
    intro k
    simp only [hhold]
    exact (hi.lock k).trans Option.ne_none_iff_exists'
  case wait =>
    intro k hb
    rw [← hql]
    refine ⟨hi.wait k, fun hq => ?_⟩
    obtain ⟨hne, hlag⟩ := hi.line k hq
    obtain ⟨t, ht⟩ := Option.ne_none_iff_exists'.mp hne
    rw [← Bool.not_eq_false]
    exact fun hw => hb t ((hhold t k).mpr ht) (hlag hw t ht)
  case cv =>
    intro k hb
    rw [← hqc]
    refine ⟨fun hcv => ?_, hi.cv k⟩
    rw [← Bool.not_eq_false]
    intro hq
    obtain ⟨hne, hset⟩ := hi.cvLine k hcv hq
    obtain ⟨t, ht⟩ := Option.ne_none_iff_exists'.mp hne
    obtain ⟨hb1, hb2⟩ := hb t ((hhold t k).mpr ht)
    have hs : (s.pc t).settling = some k := hset t ht
    revert hs hb1 hb2
    cases s.pc t <;> simp [Pc.settling, Pc.between, Pc.setting]
  case alive => exact hi.alive
  case hand =>
    rintro t k (hpc | ⟨⟨sync, hpc⟩, hw⟩)
    · obtain ⟨u, hfind, -, hinv⟩ := unlockSection_spec hr hi hpc
      refine ⟨u, unlockSection s t k, hfind, by simp only [move, hpc], ?_⟩
      exact (hinv.holder u k).mp (Function.update_self _ _ _)
    · obtain ⟨-, ⟨hw', -⟩ | ⟨u, hfind, -, hinv⟩⟩ := cvSection_spec hr hi hpc
      · exact absurd (hw.symm.trans hw') Bool.noConfusion
      · refine ⟨u, cvSection s t k sync, hfind, by simp only [move, hpc], ?_⟩
        exact (hinv.holder u k).mp (Function.update_self _ _ _)
  case turn =>
    intro e s' he t k ht hn
    have hk : Keeps s e s' owner := by
      cases e with
      | call t op => exact call_keeps hr hi he
      | move t => exact move_keeps hr hi he
    obtain ⟨-, owner', hi', hturn⟩ := hk
    rw [hhold] at hn
    rcases hturn t k ((hi'.holder t k).mpr ht) hn with ⟨hw, hfree⟩ | hp
    · refine Or.inl ⟨hw, fun u hu => ?_⟩
      rw [hhold, hfree] at hu
      cases hu
    · exact Or.inr hp

/-! ## Two locks of one word -/

/-- Two locks in one 32-bit word, with the one wait list there is. -/
def twoLocks : Config Unit Bool Unit where
  width := fun _ => 32
  width_le := by decide
  hash := id
  addr := fun _ => ()
  lockAt := fun k => if k then 3 else 0
  waitAt := fun k => if k then 4 else 1
  cvAt := fun k => if k then 5 else 2
  lockAt_lt := by decide
  waitAt_lt := by decide
  lock_ne_wait := by decide
  lock_ne_cv := by decide
  wait_ne_cv := by decide
  apart := by decide

/-- The two locks at the start, with some payload in the rest of the word. -/
def twoLocksInit : State (Fin 3) twoLocks where
  word := fun _ => (0x500 : BitVec 32)
  list := fun _ => []
  src := fun _ => none
  tag := fun _ => 0
  signalled := fun _ => false
  pc := fun _ => .idle
  want := fun _ => none
  granted := fun _ => false
  holds := fun _ _ => false

theorem twoLocksInit_start : Start twoLocks twoLocksInit := by
  constructor <;> decide

/-- Thread `0` waits for the condition of one lock while thread `1` is queued for
the other one, held by thread `2`; thread `2` takes the first lock too and signals
its condition, and both are handed over. -/
theorem exact_two_locks :
    ∃ s : State (Fin 3) twoLocks, s.list () = [] ∧ Holder s 0 false ∧ Holder s 1 true
      ∧ Exact s := by
  obtain ⟨s, hs, hp⟩ := Machine.Reach.exists_of_exec (machine (Fin 3) twoLocks)
    Machine.anyStep twoLocksInit_start
    (p := fun s => decide (s.list () = []
      ∧ (s.holds 0 false = true ∨ s.granted 0 = true ∧ s.want 0 = some false)
      ∧ (s.holds 1 true = true ∨ s.granted 1 = true ∧ s.want 1 = some true)))
    ([.call 0 (.lock false true), .call 0 (.cvWait false true), .move 0,
      .call 2 (.trylock true), .call 1 (.lock true true), .move 1,
      .call 2 (.lockIfPayload false 0x51c true), .call 2 (.cvSignal false), .move 2, .move 2,
      .move 2, .call 2 (.unlock false), .move 2, .move 2, .call 2 (.unlock true), .move 2,
      .move 2, .move 0]) (by decide +kernel)
  obtain ⟨h₁, h₂, h₃⟩ := of_decide_eq_true hp
  exact ⟨s, h₁, h₂, h₃, exact_of_reach twoLocks hs⟩

end Bitlock
