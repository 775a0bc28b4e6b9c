import Lwlock.Chain
import Lwlock.Monitor

/-!
# The invariant of the monitors

Every monitor has a *place*: it is a slot, free, in the chain of a slot, taken
out of it by a thread that absorbs it, or taken out by a thread that is about
to release it. Three things are kept apart. The *pool* says that the chains
hold exactly the monitors placed there, each pointer at most once. The *rights*
say why a thread holds the lock of a monitor: it was given the monitor, it has
taken a slot over and not returned yet, it has the copy it absorbs, or it was
handed the lock in its sleep. The *lines* say who waits on a monitor.

Two monitors for one pointer exist only while the slot is held by the thread
that took it over. Before its section on the chain the copy may still be found
there; after it the copy is out of the chain, so that nobody new can queue
behind that thread on the copy: whoever stands there came from
`lw_monitor_wait`, and learns its new monitor when it wakes up.
-/

namespace Monitor

variable {T P M : Type}

/-! ## What a program point says -/

/-- The pointer whose slot the thread has and has not returned yet. -/
def Pc.slot : Pc P M → Option P
  | .lockFast p | .lockSection p true => some p
  | .absorbWait p _ | .absorbMove p _ | .absorbRelease p _ => some p
  | _ => none

/-- The same before the section on the chain. -/
def Pc.stealing : Pc P M → Option P
  | .lockFast p | .lockSection p true => some p
  | _ => none

/-- The copy the thread took out of the chain to absorb. -/
def Pc.copy : Pc P M → Option M
  | .absorbWait _ m | .absorbMove _ m | .absorbRelease _ m => some m
  | _ => none

/-- The copy, once the thread has its lock. -/
def Pc.copyHeld : Pc P M → Option M
  | .absorbMove _ m | .absorbRelease _ m => some m
  | _ => none

/-- The copy, once nobody waits on it. -/
def Pc.emptied : Pc P M → Option M
  | .absorbRelease _ m => some m
  | _ => none

/-- The monitor the thread took out of the chain to release. -/
def Pc.releasing : Pc P M → Option M
  | .unlockRelease m => some m
  | _ => none

/-- The pointer the thread waits for. -/
def Pc.waits : Pc P M → Option P
  | .waitLock p _ | .absorbWait p _ | .cvWaiting p => some p
  | _ => none

/-- The monitor the thread takes for granted that it waits on. -/
def Pc.waitsOn : Pc P M → Option M
  | .waitLock _ m | .absorbWait _ m => some m
  | _ => none

/-- The thread is in `lw_monitor_wait`. -/
def Pc.IsCv : Pc P M → Prop
  | .cvWaiting _ => True
  | _ => False

/-! ## Places -/

/-- Where a monitor is. -/
inductive Place (T M : Type)
  | slot
  | free
  | chain (h : M)
  | absorb (t : T)
  | release (t : T)
  | lost
  deriving DecidableEq

/-- The places of a monitor that may have users. -/
def Place.Live : Place T M → Prop
  | .slot | .chain _ | .absorb _ => True
  | _ => False

/-- **The pool**: the chains and the free list hold what is placed there. -/
structure Pool (cfg : Config P M) (s : State T P M) (place : M → Place T M)
    (L : M → List M) : Prop where
  slot : ∀ m, place m = .slot ↔ cfg.fixed m = true
  slot_ptr : ∀ m p, place m = .slot → s.ptr m = some p → cfg.hash p = m
  free : ∀ m, m ∈ s.free ↔ place m = .free
  nodup : s.free.Nodup
  fresh : ∀ m, place m = .free → s.ptr m = none ∧ s.next m = none
  chain : ∀ h, cfg.fixed h = true → Chain s.next (some h) (h :: L h)
  mem : ∀ h, cfg.fixed h = true → ∀ m, m ∈ L h ↔ place m = .chain h
  chained : ∀ m h, place m = .chain h → s.ptr m ≠ none ∧ ∀ p, s.ptr m = some p → cfg.hash p = h
  unique : ∀ m m' h, place m = .chain h → place m' = .chain h → s.ptr m = s.ptr m' → m = m'
  absorb : ∀ m t, place m = .absorb t ↔ (s.pc t).copy = some m
  absorbed : ∀ m t, place m = .absorb t → s.next m = none ∧ s.ptr m = (s.pc t).slot
  release : ∀ m t, place m = .release t ↔ (s.pc t).releasing = some m

/-- Why a thread holds the lock of a monitor. -/
def Holds (cfg : Config P M) (s : State T P M) (t : T) (m : M) : Prop :=
  s.own t m ≠ none ∨ (s.pc t).slot.map cfg.hash = some m ∨ (s.pc t).copyHeld = some m
    ∨ (s.woken t = true ∧ s.src t = some m)

/-- **The rights**: who holds the lock of a monitor, and for which pointer. -/
structure Rights (cfg : Config P M) (s : State T P M) (place : M → Place T M) : Prop where
  holder : ∀ m t, (s.lock m).holder = some t ↔ Holds cfg s t m
  idle : ∀ m, ¬ (place m).Live → (s.lock m).holder = none
  slot_own : ∀ t p, (s.pc t).slot = some p → s.own t (cfg.hash p) = none
  copy_own : ∀ t m, (s.pc t).copyHeld = some m → s.own t m = none
  woken_own : ∀ t m, s.woken t = true → s.src t = some m → s.own t m = none
  own : ∀ t m p, s.own t m = some p → s.ptr m = some p ∧ (place m).Live
  slot : ∀ t p, (s.pc t).slot = some p → s.ptr (cfg.hash p) = some p
  steal : ∀ m h, place m = .chain h → s.ptr m = s.ptr h →
    (s.lock h).holder ≠ none ∧
      ∀ t, (s.lock h).holder = some t → (s.pc t).stealing.map cfg.hash = some h

/-- **The lines**: who waits on a monitor. -/
structure Lines (s : State T P M) (place : M → Place T M) : Prop where
  idle : ∀ m, ¬ (place m).Live → (s.lock m).queue = []
  src : ∀ t m, s.src t = some m → (s.pc t).waits = s.ptr m ∧ (place m).Live
  waits : ∀ t, (s.pc t).waits = none → s.src t = none ∧ s.woken t = false
  waitsOn : ∀ t m, (s.pc t).waitsOn = some m → s.src t = some m
  queued : ∀ t m, s.src t = some m → s.woken t = false → t ∈ (s.lock m).queue.map Prod.fst
  queue : ∀ m u k, (u, k) ∈ (s.lock m).queue →
    s.src u = some m ∧ s.woken u = false ∧ (k = .cv → (s.pc u).IsCv)
  nodup : ∀ m, ((s.lock m).queue.map Prod.fst).Nodup
  cvOnly : ∀ m, (s.lock m).holder = none → ∀ u k, (u, k) ∈ (s.lock m).queue → k = .cv
  behind : ∀ m t, place m = .absorb t →
    (s.lock m).queue.Pairwise fun a b => a.1 = t → (s.pc b.1).IsCv
  settled : ∀ m t, place m = .absorb t → ((s.pc t).waits = none ∨ s.woken t = true) →
    ∀ u k, (u, k) ∈ (s.lock m).queue → (s.pc u).IsCv
  emptied : ∀ t m, (s.pc t).emptied = some m → (s.lock m).queue = []

/-- **The invariant.** -/
structure Inv (cfg : Config P M) (s : State T P M) (place : M → Place T M)
    (L : M → List M) : Prop where
  pool : Pool cfg s place L
  rights : Rights cfg s place
  lines : Lines s place

/-- **Sound states.** -/
def Sound (cfg : Config P M) (s : State T P M) : Prop := ∃ place L, Inv cfg s place L

/-! ## What the invariant says -/

/-- A thread that steals a slot has it. -/
theorem Pc.slot_of_stealing {c : Pc P M} {p : P} (h : c.stealing = some p) : c.slot = some p := by
  unfold Pc.stealing at h
  split at h
  · exact h
  · exact h
  · cases h

/-- A thread that absorbs a copy is past its section. -/
theorem Pc.stealing_of_copy {c : Pc P M} {m : M} (h : c.copy = some m) : c.stealing = none := by
  unfold Pc.copy at h
  split at h
  · rfl
  · rfl
  · rfl
  · cases h

/-- Of two monitors that carry one pointer, one is the slot, held by a thread
that has not returned. -/
theorem two_carriers {cfg : Config P M} {s : State T P M} {place : M → Place T M}
    {L : M → List M} (hP : Pool cfg s place L) (hR : Rights cfg s place) {m m' : M} {p : P}
    (hm : s.ptr m = some p) (hm' : s.ptr m' = some p) (hl : (place m).Live)
    (hl' : (place m').Live) (hne : m ≠ m') :
    (m = cfg.hash p ∨ m' = cfg.hash p) ∧
      ∃ t, (s.lock (cfg.hash p)).holder = some t ∧ (s.pc t).slot = some p := by
  have hslot : ∀ t, (s.pc t).slot = some p → (s.lock (cfg.hash p)).holder = some t := by
    intro t ht
    exact (hR.holder _ t).mpr (Or.inr (Or.inl (by rw [ht]; rfl)))
  -- a slot and a chained copy: the slot is held by a thief
  have hthief : ∀ x y h, place x = .slot → s.ptr x = some p → place y = .chain h →
      s.ptr y = some p → ∃ t, (s.lock (cfg.hash p)).holder = some t ∧ (s.pc t).slot = some p := by
    intro x y h hx hpx hy hpy
    obtain rfl : cfg.hash p = h := (hP.chained y h hy).2 p hpy
    obtain rfl : cfg.hash p = x := hP.slot_ptr x p hx hpx
    obtain ⟨hn, ht⟩ := hR.steal y _ hy (hpy.trans hpx.symm)
    obtain ⟨t, htt⟩ := Option.ne_none_iff_exists'.mp hn
    obtain ⟨q, hq, hqh⟩ := Option.map_eq_some_iff.mp (ht t htt)
    have hqs := Pc.slot_of_stealing hq
    have hpq := hR.slot t q hqs
    rw [hqh, hpx] at hpq
    exact ⟨t, htt, hqs.trans hpq.symm⟩
  have habs : ∀ y t, place y = .absorb t → s.ptr y = some p → (s.pc t).slot = some p :=
    fun y t hy hpy => (hP.absorbed y t hy).2.symm.trans hpy
  cases hpm : place m with
  | slot =>
    have hmh : cfg.hash p = m := hP.slot_ptr m p hpm hm
    refine ⟨Or.inl hmh.symm, ?_⟩
    cases hpm' : place m' with
    | slot => exact absurd (hmh.symm.trans (hP.slot_ptr m' p hpm' hm')) hne
    | chain h => exact hthief m m' h hpm hm hpm' hm'
    | absorb t =>
      have ht := habs m' t hpm' hm'
      exact ⟨t, hslot t ht, ht⟩
    | free | release | lost =>
      rw [hpm'] at hl'
      exact hl'.elim
  | chain h =>
    obtain rfl : cfg.hash p = h := (hP.chained m h hpm).2 p hm
    cases hpm' : place m' with
    | slot =>
      have hmh : cfg.hash p = m' := hP.slot_ptr m' p hpm' hm'
      exact ⟨Or.inr hmh.symm, hthief m' m _ hpm' hm' hpm hm⟩
    | chain h' =>
      obtain rfl : cfg.hash p = h' := (hP.chained m' h' hpm').2 p hm'
      exact absurd (hP.unique m m' _ hpm hpm' (hm.trans hm'.symm)) hne
    | absorb t =>
      -- the thread that absorbs has the slot, and is no thief any more
      have ht := habs m' t hpm' hm'
      have hst := (hR.steal m _ hpm (hm.trans (hR.slot t p ht).symm)).2 t (hslot t ht)
      rw [Pc.stealing_of_copy ((hP.absorb m' t).mp hpm')] at hst
      cases hst
    | free | release | lost =>
      rw [hpm'] at hl'
      exact hl'.elim
  | absorb t =>
    have ht := habs m t hpm hm
    cases hpm' : place m' with
    | slot =>
      exact ⟨Or.inr (hP.slot_ptr m' p hpm' hm').symm, t, hslot t ht, ht⟩
    | chain h' =>
      obtain rfl : cfg.hash p = h' := (hP.chained m' h' hpm').2 p hm'
      have hst := (hR.steal m' _ hpm' (hm'.trans (hR.slot t p ht).symm)).2 t (hslot t ht)
      rw [Pc.stealing_of_copy ((hP.absorb m t).mp hpm)] at hst
      cases hst
    | absorb u =>
      have hu := habs m' u hpm' hm'
      obtain rfl : t = u := Option.some.inj ((hslot t ht).symm.trans (hslot u hu))
      have hmm := ((hP.absorb m t).mp hpm).symm.trans ((hP.absorb m' t).mp hpm')
      exact absurd (Option.some.inj hmm) hne
    | free | release | lost =>
      rw [hpm'] at hl'
      exact hl'.elim
  | free | release | lost =>
    rw [hpm] at hl
    exact hl.elim

/-- **Mutual exclusion per pointer**: two threads that were given monitors for
one pointer are one thread, with one monitor. -/
theorem own_unique {cfg : Config P M} {s : State T P M} (hs : Sound cfg s) {t u : T} {m m' : M}
    {p : P} (ht : s.own t m = some p) (hu : s.own u m' = some p) : t = u ∧ m = m' := by
  obtain ⟨place, L, hP, hR, -⟩ := hs
  have hold : ∀ v x, s.own v x = some p → (s.lock x).holder = some v := by
    intro v x hv
    exact (hR.holder x v).mpr (Or.inl (by rw [hv]; exact Option.some_ne_none p))
  have hm : m = m' := by
    by_contra hne
    obtain ⟨hx, v, hv, hvs⟩ := two_carriers hP hR (hR.own t m p ht).1 (hR.own u m' p hu).1
      (hR.own t m p ht).2 (hR.own u m' p hu).2 hne
    have hnone := hR.slot_own v p hvs
    rcases hx with rfl | rfl
    · obtain rfl : v = t := Option.some.inj (hv.symm.trans (hold t _ ht))
      rw [ht] at hnone
      cases hnone
    · obtain rfl : v = u := Option.some.inj (hv.symm.trans (hold u _ hu))
      rw [hu] at hnone
      cases hnone
  subst hm
  exact ⟨Option.some.inj ((hold t m ht).symm.trans (hold u m hu)), rfl⟩

/-! ## Steps that only move a thread -/

/-- Everything the invariant reads of a program point. -/
structure View (P M : Type) where
  slot : Option P
  stealing : Option P
  copy : Option M
  copyHeld : Option M
  emptied : Option M
  releasing : Option M
  waits : Option P
  waitsOn : Option M
  isCv : Prop

/-- The view of a program point. -/
def Pc.view (c : Pc P M) : View P M :=
  ⟨c.slot, c.stealing, c.copy, c.copyHeld, c.emptied, c.releasing, c.waits, c.waitsOn, c.IsCv⟩

variable [DecidableEq T]

/-- A thread moves to a program point of the same view. -/
theorem Sound.goto {cfg : Config P M} {s : State T P M} {t : T} {c : Pc P M} (hs : Sound cfg s)
    (hc : c.view = (s.pc t).view) : Sound cfg (s.goto t c) := by
  obtain ⟨place, L, hP, hR, hL⟩ := hs
  have hview : ∀ u, (Function.update s.pc t c u).view = (s.pc u).view := by
    grind -linarith [Function.update_apply]
  have hslot : ∀ u, (Function.update s.pc t c u).slot = (s.pc u).slot :=
    fun u => congrArg View.slot (hview u)
  have hstealing : ∀ u, (Function.update s.pc t c u).stealing = (s.pc u).stealing :=
    fun u => congrArg View.stealing (hview u)
  have hcopy : ∀ u, (Function.update s.pc t c u).copy = (s.pc u).copy :=
    fun u => congrArg View.copy (hview u)
  have hheld : ∀ u, (Function.update s.pc t c u).copyHeld = (s.pc u).copyHeld :=
    fun u => congrArg View.copyHeld (hview u)
  have hemp : ∀ u, (Function.update s.pc t c u).emptied = (s.pc u).emptied :=
    fun u => congrArg View.emptied (hview u)
  have hrel : ∀ u, (Function.update s.pc t c u).releasing = (s.pc u).releasing :=
    fun u => congrArg View.releasing (hview u)
  have hwaits : ∀ u, (Function.update s.pc t c u).waits = (s.pc u).waits :=
    fun u => congrArg View.waits (hview u)
  have hon : ∀ u, (Function.update s.pc t c u).waitsOn = (s.pc u).waitsOn :=
    fun u => congrArg View.waitsOn (hview u)
  have hcv : ∀ u, (Function.update s.pc t c u).IsCv = (s.pc u).IsCv :=
    fun u => congrArg View.isCv (hview u)
  refine ⟨place, L, ?_, ?_, ?_⟩
  · obtain ⟨h1, h2, h3, h4, h5, h6, h7, h8, h9, h10, h11, h12⟩ := hP
    constructor <;> first | assumption | (simp only [State.goto, hcopy, hslot, hrel]; assumption)
  · obtain ⟨h1, h2, h3, h4, h5, h6, h7, h8⟩ := hR
    unfold Holds at h1
    constructor <;> first
      | assumption
      | (simp only [Holds, State.goto, hslot, hheld, hstealing]; assumption)
  · obtain ⟨h1, h2, h3, h4, h5, h6, h7, h8, h9, h10, h11⟩ := hL
    constructor <;> first | assumption | (simp only [State.goto, hwaits, hon, hcv, hemp]; assumption)

variable [DecidableEq P] [DecidableEq M]

/-! ## The search in a chain -/

omit [DecidableEq T] [DecidableEq M] in
/-- **What the search finds** in a chain, given enough iterations: the first
monitor of the pointer and the one before it, or nothing and the last one. -/
theorem findMonitorForPtr_spec (s : State T P M) (p : P) {n : ℕ} (prev : M) {q : Option M}
    {D : List M} (h : Chain s.next q D) (hn : D.length < n) :
    (∃ A m B, D = A ++ m :: B ∧ s.ptr m = some p
      ∧ findMonitorForPtr s p n prev q = some (some m, A.getLastD prev))
    ∨ ((∀ x ∈ D, s.ptr x ≠ some p)
      ∧ findMonitorForPtr s p n prev q = some (none, D.getLastD prev)) := by
  induction D generalizing n prev q with
  | nil =>
    obtain ⟨n, rfl⟩ := Nat.exists_eq_succ_of_ne_zero (Nat.pos_iff_ne_zero.mp hn)
    obtain rfl : q = none := h
    exact Or.inr ⟨fun x hx => absurd hx List.not_mem_nil, rfl⟩
  | cons a D ih =>
    obtain ⟨n, rfl⟩ := Nat.exists_eq_succ_of_ne_zero (Nat.ne_zero_of_lt hn)
    obtain ⟨rfl, hD⟩ := h
    by_cases ha : s.ptr a = some p
    · refine Or.inl ⟨[], a, D, rfl, ha, ?_⟩
      simp only [findMonitorForPtr, ha, if_true, List.getLastD_nil]
    · have hlen : D.length < n := Nat.lt_of_succ_lt_succ hn
      simp only [findMonitorForPtr, if_neg ha, List.getLastD_cons]
      rcases ih a hD hlen with ⟨A, m, B, rfl, hm, hf⟩ | ⟨hnone, hf⟩
      · exact Or.inl ⟨a :: A, m, B, rfl, hm, by rw [hf, List.getLastD_cons]⟩
      · refine Or.inr ⟨fun x hx => ?_, hf⟩
        rcases List.mem_cons.mp hx with rfl | hx
        · exact ha
        · exact hnone x hx

omit [DecidableEq T] [DecidableEq P] [DecidableEq M] in
/-- A chain is no longer than there are monitors. -/
theorem Pool.length_lt [Fintype M] {cfg : Config P M} {s : State T P M} {place : M → Place T M}
    {L : M → List M} (hP : Pool cfg s place L) (p : P) :
    (cfg.hash p :: L (cfg.hash p)).length < Fintype.card M + 1 :=
  Nat.lt_succ_of_le (List.Nodup.length_le_card (hP.chain _ (cfg.hash_fixed p)).nodup)

omit [DecidableEq T] [DecidableEq M] in
/-- **The search that skips the head.** -/
theorem Pool.findInChain_spec [Fintype M] {cfg : Config P M} {s : State T P M}
    {place : M → Place T M} {L : M → List M} (hP : Pool cfg s place L) (p : P) :
    (∃ A m B, L (cfg.hash p) = A ++ m :: B ∧ s.ptr m = some p
      ∧ findInChain cfg s p = some (some m, A.getLastD (cfg.hash p)))
    ∨ ((∀ x ∈ L (cfg.hash p), s.ptr x ≠ some p)
      ∧ findInChain cfg s p = some (none, (L (cfg.hash p)).getLastD (cfg.hash p))) := by
  have hlen := hP.length_lt p
  rw [List.length_cons] at hlen
  exact findMonitorForPtr_spec s p _ (hP.chain _ (cfg.hash_fixed p)).2 (Nat.lt_of_succ_lt hlen)

omit [DecidableEq T] [DecidableEq P] [DecidableEq M] in
/-- The last one of a list and what precedes it, the head included. -/
theorem exists_cons_eq_concat (h : M) (A : List M) : ∃ X, h :: A = X ++ [A.getLastD h] := by
  induction A generalizing h with
  | nil => exact ⟨[], rfl⟩
  | cons a A ih =>
    obtain ⟨X, hX⟩ := ih a
    exact ⟨h :: X, by rw [List.getLastD_cons, hX, List.cons_append]⟩

omit [DecidableEq T] [DecidableEq P] in
/-- **A monitor is taken out of its chain**; the other chains are as before. -/
theorem Pool.cut {cfg : Config P M} {s : State T P M} {place : M → Place T M} {L : M → List M}
    (hP : Pool cfg s place L) {h m : M} {A B : List M} (hh : cfg.fixed h = true)
    (hL : L h = A ++ m :: B) :
    (∀ h', cfg.fixed h' = true → Chain (Function.update s.next (A.getLastD h) (s.next m))
      (some h') (h' :: Function.update L h (A ++ B) h'))
    ∧ ∀ h' x, cfg.fixed h' = true →
      (x ∈ Function.update L h (A ++ B) h' ↔ x ≠ m ∧ x ∈ L h') := by
  have hchain := hP.chain h hh
  have hnd := hchain.nodup
  obtain ⟨X, hX⟩ := exists_cons_eq_concat h A
  have hmem : A.getLastD h ∈ h :: L h := by
    rw [hL, ← List.cons_append, hX]
    simp
  have hpm : place m = .chain h := (hP.mem h hh m).mp (by rw [hL]; simp)
  constructor
  · intro h' hh'
    by_cases heq : h' = h
    · subst heq
      rw [Function.update_self]
      have hsplit : h' :: L h' = X ++ A.getLastD h' :: m :: B := by
        rw [hL, ← List.cons_append, hX, List.append_assoc]
        rfl
      rw [hsplit] at hchain
      have hcut := hchain.cut
      have hjoin : h' :: (A ++ B) = X ++ A.getLastD h' :: B := by
        rw [← List.cons_append, hX, List.append_assoc]
        rfl
      rw [hjoin]
      exact hcut
    · rw [Function.update_of_ne heq]
      refine (hP.chain h' hh').update (fun hc => ?_) _
      -- the monitor before is on the chain of `h`, so it is not on this one
      have h1 := (hP.slot h).mpr hh
      have h2 := (hP.slot h').mpr hh'
      have h3 := hP.mem h hh (A.getLastD h)
      have h4 := hP.mem h' hh' (A.getLastD h)
      grind -linarith
  · intro h' x hh'
    by_cases heq : h' = h
    · subst heq
      rw [Function.update_self, hL]
      rw [hL] at hnd
      have hndm := (List.nodup_cons.mp hnd).2
      grind -linarith
    · rw [Function.update_of_ne heq]
      have h4 := hP.mem h' hh' x
      grind -linarith

end Monitor
