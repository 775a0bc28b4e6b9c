import Lwlock.CondVar

/-!
# Signals of a condition variable are consumed once

Every waiter has a *place*: it is away, in the queue, on the list of a
broadcast, aimed at by the thread that took it out, or signalled. The queue and
the list of each broadcast are doubly linked lists of exactly the waiters
placed there, except that the `prev` of the first waiter of a broadcast may be
out of date: `lw_waiter_wake_all` clears the links of the waiter it has just
passed, and leaves the next one pointing back at it.

That one stale link is what a timed-out waiter can trip over. It reads its
`prev`, concludes that it is still queued, and takes itself out of a list whose
walker already holds its id: the walker then signals it after it returned
`ETIMEDOUT`, and everybody behind it is forgotten. As long as no timed-out
waiter runs its section at that moment, the places are kept by every step.
-/

namespace CondVar

variable {ι : Type}

/-- Where a waiter is. -/
inductive Place (ι : Type)
  | away
  | queued
  | batch (u : ι)
  | aimed (u : ι)
  | signalled
  deriving DecidableEq

/-- A waiter in one of these places is on no list. -/
def Place.Off : Place ι → Prop
  | .away | .aimed _ | .signalled => True
  | _ => False

/-- A waiter in one of these places has not been signalled. -/
def Place.Unsent : Place ι → Prop
  | .queued | .batch _ | .aimed _ => True
  | _ => False

/-- A waiter on a list has not been signalled. -/
theorem Place.unsent_of_not_off {p : Place ι} (h : ¬ p.Off) : p.Unsent := by
  cases p with
  | queued | batch | aimed => trivial
  | away | signalled => exact absurd trivial h

/-- The program points inside a wait. -/
def Pc.InWait : Pc ι → Prop
  | .waiting _ | .timedOut | .consume => True
  | _ => False

/-- **The invariant**, with the place of each waiter, the queue, the list of
each broadcast and what the first waiter of that list has in its `prev`. -/
structure Inv (s : State ι) (place : ι → Place ι) (Q : List ι) (B : ι → List ι)
    (back : ι → Option ι) : Prop where
  queue : Linked s.next s.prev none s.waitq Q none
  batch : ∀ u, Linked s.next s.prev (back u) (s.pc u).nextUp (B u) none
  mem_queue : ∀ t, t ∈ Q ↔ place t = .queued
  mem_batch : ∀ u t, t ∈ B u ↔ place t = .batch u
  aim : ∀ u t, place t = .aimed u ↔ (s.pc u).aim = some t
  off : ∀ t, (place t).Off → s.next t = none ∧ s.prev t = none
  away : ∀ t, place t = .away ↔ ¬ (s.pc t).InWait
  unsent : ∀ t, (place t).Unsent →
    s.sent t = 0 ∧ s.consumed t = 0 ∧ s.pending t = false ∧ s.result t = none
  sent : ∀ t, place t = .signalled →
    s.sent t = 1 ∧ s.consumed t = 0 ∧ s.pending t = true ∧ s.result t = none
  done : ∀ t, place t = .away → s.pending t = false ∧ s.sent t ≤ 1
    ∧ (s.result t = some true → s.sent t = 1 ∧ s.consumed t = 1)
    ∧ (s.result t = some false → s.sent t = 0)

/-- **Sound states.** -/
def Sound (s : State ι) : Prop := ∃ place Q B back, Inv s place Q B back

variable [DecidableEq ι]

/-- A thread moves on without a change to what it walks or aims at. -/
theorem Inv.goto {s : State ι} {place : ι → Place ι} {Q : List ι} {B : ι → List ι}
    {back : ι → Option ι} {t : ι} {p : Pc ι} (h : Inv s place Q B back)
    (hn : p.nextUp = (s.pc t).nextUp) (ha : p.aim = (s.pc t).aim)
    (hw : p.InWait ↔ (s.pc t).InWait) : Inv (s.goto t p) place Q B back := by
  have hnext : ∀ u, (Function.update s.pc t p u).nextUp = (s.pc u).nextUp := by
    grind -linarith [Function.update_apply]
  have haim : ∀ u, (Function.update s.pc t p u).aim = (s.pc u).aim := by
    grind -linarith [Function.update_apply]
  have hwait : ∀ u, (Function.update s.pc t p u).InWait ↔ (s.pc u).InWait := by
    grind -linarith [Function.update_apply]
  refine ⟨h.queue, ?_, h.mem_queue, h.mem_batch, ?_, h.off, ?_, h.unsent, h.sent, h.done⟩
  · intro u
    rw [State.goto, hnext]
    exact h.batch u
  · intro u w
    rw [State.goto, haim]
    exact h.aim u w
  · intro u
    rw [State.goto, hwait]
    exact h.away u

/-- A timeout only moves its thread. -/
theorem timeout_sound {s s' : State ι} {t : ι} (h : Sound s) (hc : timeout s t = some s') :
    Sound s' := by
  obtain ⟨place, Q, B, back, h⟩ := h
  unfold timeout at hc
  split at hc <;> cases hc
  rename_i hpc
  refine ⟨place, Q, B, back, h.goto ?_ ?_ ?_⟩ <;> rw [hpc.1] <;> rfl

/-- **A signal is delivered** to the waiter that was aimed at. -/
theorem wakeup_sound {s : State ι} {t w : ι} {p : Pc ι} (h : Sound s)
    (haim : (s.pc t).aim = some w) (hw : ¬ (s.pc t).InWait) (hp : p.aim = none)
    (hn : p.nextUp = (s.pc t).nextUp) (hpw : ¬ p.InWait) : Sound ((s.wakeup w).goto t p) := by
  obtain ⟨place, Q, B, back, hq, hb, hmq, hmb, ha, ho, haw, hu, hs, hd⟩ := h
  have hwp : place w = .aimed t := (ha t w).mpr haim
  refine ⟨Function.update place w .signalled, Q, B, back, ?_⟩
  simp only [State.goto, State.wakeup]
  constructor <;> grind -linarith [Place.Off, Place.Unsent, Function.update_apply]

/-- **A wait returns `0`**: the signal it was sent is consumed. -/
theorem woken_sound {s s' : State ι} {t : ι} (h : Sound s) (ht : (s.pc t).InWait)
    (hn : (s.pc t).nextUp = none) (ha : (s.pc t).aim = none) (hc : s.woken t = some s') :
    Sound s' := by
  obtain ⟨place, Q, B, back, hq, hb, hmq, hmb, haim, ho, haw, hu, hs, hd⟩ := h
  unfold State.woken at hc
  split at hc <;> cases hc
  rename_i hp
  have hpt : place t = .signalled := by
    cases hpl : place t <;> grind -linarith [Place.Unsent]
  refine ⟨Function.update place t .away, Q, B, back, ?_⟩
  simp only [State.goto]
  constructor <;>
    grind -linarith [Place.Off, Place.Unsent, Function.update_apply, Pc.nextUp, Pc.aim, Pc.InWait]

/-- **A broadcast detaches the queue.** -/
theorem broadcast_sound {s : State ι} {t : ι} (h : Sound s) (hpc : s.pc t = .broadcast) :
    Sound ({ s with waitq := none }.goto t (.wakeAll s.waitq)) := by
  obtain ⟨place, Q, B, back, hq, hb, hmq, hmb, haim, ho, haw, hu, hs, hd⟩ := h
  have hbt : B t = [] := by
    have := hb t
    rw [hpc] at this
    exact ((Chain.eq_nil_iff this.segment).mpr rfl)
  have hno : ∀ x, place x ≠ .batch t := by
    intro x hx
    have := (hmb t x).mpr hx
    rw [hbt] at this
    exact List.not_mem_nil this
  refine ⟨fun x => if place x = .queued then .batch t else place x, [],
    Function.update B t Q, Function.update back t none, ?_⟩
  simp only [State.goto]
  constructor
  · rfl
  all_goals grind -linarith [Place.Off, Place.Unsent, Function.update_apply, Pc.nextUp, Pc.aim, Pc.InWait]

/-- **An iteration of `lw_waiter_wake_all`** clears the links of a waiter and
goes on to the next one, whose `prev` still names it. -/
theorem wakeAll_sound {s : State ι} {t w : ι} (h : Sound s) (hpc : s.pc t = .wakeAll (some w)) :
    Sound ({ s with
      next := Function.update s.next w none
      prev := Function.update s.prev w none }.goto t (.wakeOne w (s.next w))) := by
  obtain ⟨place, Q, B, back, hq, hb, hmq, hmb, haim, ho, haw, hu, hs, hd⟩ := h
  have hbt := hb t
  rw [hpc] at hbt
  cases hBt : B t with
  | nil =>
    rw [hBt] at hbt
    cases hbt
  | cons a L =>
    rw [hBt] at hbt
    have hnd := hbt.nodup
    obtain ⟨rfl, hback, hL⟩ : w = a ∧ _ := ⟨Option.some.inj hbt.1, hbt.2⟩
    have hwB : place w = .batch t := (hmb t w).mp (hBt ▸ List.mem_cons_self)
    refine ⟨Function.update place w (.aimed t), Q, Function.update B t L,
      Function.update back t (some w), ?_⟩
    simp only [State.goto]
    constructor
    · exact hq.congr (by grind -linarith [Function.update_apply]) (by grind -linarith [Function.update_apply])
    · intro u
      by_cases hut : u = t
      · subst hut
        simp only [Function.update_self]
        exact hL.congr (by grind -linarith [Function.update_apply]) (by grind -linarith [Function.update_apply])
      · simp only [Function.update_of_ne hut]
        exact (hb u).congr (by grind -linarith [Function.update_apply]) (by grind -linarith [Function.update_apply])
    all_goals grind -linarith [Place.Off, Place.Unsent, Function.update_apply, Pc.nextUp, Pc.aim, Pc.InWait]

/-- The queue after its first waiter was taken out, and the other lists. -/
theorem Inv.unlink_head {s : State ι} {place : ι → Place ι} {Q : List ι} {B : ι → List ι}
    {back : ι → Option ι} {w : ι} (h : Inv s place Q B back) (hw : s.waitq = some w) :
    ∃ L, Q = w :: L
      ∧ Linked (unlinkNext s.next s.prev w) (unlinkPrev s.next s.prev w) none (s.next w) L none
      ∧ (∀ u, Linked (unlinkNext s.next s.prev w) (unlinkPrev s.next s.prev w) (back u)
          (s.pc u).nextUp (B u) none)
      ∧ (∀ x, s.prev w = some x → False) ∧ ∀ x, s.next w = some x → x ∈ L := by
  have hQ := h.queue
  cases hQ' : Q with
  | nil =>
    rw [hQ', hw] at hQ
    cases hQ
  | cons a L =>
    rw [hQ'] at hQ
    obtain rfl : w = a := Option.some.inj (hw.symm.trans hQ.1)
    have hprev : ∀ x, s.prev w = some x → False := by
      intro x hx
      exact Option.some_ne_none x (hx.symm.trans hQ.2.1)
    have hnext : ∀ x, s.next w = some x → x ∈ L := fun x hx => hQ.2.2.head_mem hx
    have hmem := h.mem_queue
    have hmemB := h.mem_batch
    refine ⟨L, rfl, hQ.unlink_head, fun u => (h.batch u).congr ?_ ?_, hprev, hnext⟩
    · grind -linarith [unlinkNext]
    · grind -linarith [unlinkPrev]

/-- **A signal takes the first waiter out of the queue.** -/
theorem signal_sound {s : State ι} {t w : ι} (h : Sound s) (hpc : s.pc t = .signal)
    (hw : s.waitq = some w) :
    Sound (({ s with waitq := s.next w }.removeFromIdList w).goto t (.signalOne w)) := by
  obtain ⟨place, Q, B, back, h⟩ := h
  obtain ⟨L, rfl, hL, hB, hprev, hnext⟩ := h.unlink_head hw
  have hnd := h.queue.nodup
  obtain ⟨hq, hb, hmq, hmb, haim, ho, haw, hu, hs, hd⟩ := h
  refine ⟨Function.update place w (.aimed t), L, B, back, ?_⟩
  simp only [State.goto, State.removeFromIdList]
  constructor
  · exact hL
  · intro u
    have hn : (Function.update s.pc t (.signalOne w) u).nextUp = (s.pc u).nextUp := by
      grind -linarith [Function.update_apply, Pc.nextUp]
    rw [hn]
    exact hB u
  all_goals grind -linarith [Place.Off, Place.Unsent, Function.update_apply, Pc.nextUp, Pc.aim, Pc.InWait,
    unlinkNext, unlinkPrev]

/-- A timed-out waiter took itself out of a list: what remains to be shown is
that the lists are linked without it. -/
theorem Inv.expired {s : State ι} {place : ι → Place ι} {Q Q' : List ι} {B B' : ι → List ι}
    {back : ι → Option ι} {t : ι} {q : Option ι} (h : Inv s place Q B back)
    (hpc : s.pc t = .timedOut) (hoff : ¬ (place t).Off)
    (hQ : Linked (unlinkNext s.next s.prev t) (unlinkPrev s.next s.prev t) none q Q' none)
    (hB : ∀ u, Linked (unlinkNext s.next s.prev t) (unlinkPrev s.next s.prev t) (back u)
      (s.pc u).nextUp (B' u) none)
    (hmQ : ∀ x, x ∈ Q' ↔ x ≠ t ∧ x ∈ Q) (hmB : ∀ u x, x ∈ B' u ↔ x ≠ t ∧ x ∈ B u)
    (hprev : ∀ x, s.prev t = some x → ¬ (place x).Off)
    (hnext : ∀ x, s.next t = some x → ¬ (place x).Off) :
    Inv ({ ({ s with waitq := q }).removeFromIdList t with
      result := Function.update s.result t (some false) }.goto t .idle)
      (Function.update place t .away) Q' B' back := by
  obtain ⟨hq, hb, hmq, hmb, haim, ho, haw, hu, hs, hd⟩ := h
  have hut := hu t (Place.unsent_of_not_off hoff)
  simp only [State.goto, State.removeFromIdList]
  constructor
  · exact hQ
  · intro u
    have hn : (Function.update s.pc t .idle u).nextUp = (s.pc u).nextUp := by
      grind -linarith [Function.update_apply, Pc.nextUp]
    rw [hn]
    exact hB u
  all_goals grind -linarith [Place.Off, Place.Unsent, Function.update_apply, Pc.nextUp, Pc.aim, Pc.InWait,
    unlinkNext, unlinkPrev]

omit [DecidableEq ι] in
/-- A node that is not the first of a list splits it. -/
theorem split_of_mem {b p : Option ι} {next prev : ι → Option ι} {X : List ι} {t : ι}
    (hX : Linked next prev b p X none) (ht : t ∈ X) (hp : p ≠ some t) :
    ∃ L a M, X = L ++ a :: t :: M ∧ prev t = some a ∧ ∀ x, next t = some x → x ∈ M := by
  obtain ⟨L, M, rfl⟩ := List.append_of_mem ht
  rcases List.eq_nil_or_concat L with rfl | ⟨L, a, rfl⟩
  · exact absurd hX.1 hp
  · simp only [List.concat_eq_append, List.append_assoc, List.singleton_append] at hX ⊢
    exact ⟨L, a, M, rfl, hX.prev_eq,
      fun x hx => (linked_append_cons.mp hX).2.2.2.head_mem hx⟩

/-- **The neighbours of a waiter that takes itself out** are on a list, unless it
is the next one of a broadcast and its `prev` is stale. -/
theorem Inv.neighbours {s : State ι} {place : ι → Place ι} {Q : List ι} {B : ι → List ι}
    {back : ι → Option ι} {t x : ι} (h : Inv s place Q B back) (hpc : s.pc t = .timedOut)
    (hok : ∀ u, (s.pc u).nextUp = some t → s.prev t = none)
    (hlisted : ¬ (s.prev t = none ∧ s.waitq ≠ some t))
    (hx : s.prev t = some x ∨ s.next t = some x) : ¬ (place x).Off := by
  have hmQ := h.mem_queue
  have hmB := h.mem_batch
  have hoff := h.off t
  have haway := h.away t
  by_cases hhead : s.waitq = some t
  · obtain ⟨L, rfl, -, -, hprev, hnext⟩ := h.unlink_head hhead
    grind -linarith [Place.Off]
  · cases hpl : place t with
    | queued =>
      obtain ⟨L, a, M, rfl, hpt, hnt⟩ := split_of_mem h.queue ((hmQ t).mpr hpl) hhead
      grind -linarith [Place.Off]
    | batch u =>
      have hne : (s.pc u).nextUp ≠ some t := by grind -linarith
      obtain ⟨L, a, M, hBu, hpt, hnt⟩ := split_of_mem (h.batch u) ((hmB u t).mpr hpl) hne
      have hmem : ∀ y, y ∈ L ++ a :: t :: M ↔ place y = .batch u := hBu ▸ hmB u
      grind -linarith [Place.Off]
    | away => grind -linarith [Pc.InWait]
    | aimed u => grind -linarith [Place.Off]
    | signalled => grind -linarith [Place.Off]

/-- **The section of a timed-out waiter.** -/
theorem afterTimeout_sound {s : State ι} {t : ι} (h : Sound s) (hpc : s.pc t = .timedOut)
    (hok : ∀ u, (s.pc u).nextUp = some t → s.prev t = none) : Sound (afterTimeout s t) := by
  obtain ⟨place, Q, B, back, h⟩ := h
  unfold afterTimeout
  split
  · exact ⟨place, Q, B, back, h.goto (by rw [hpc]; rfl) (by rw [hpc]; rfl) (by rw [hpc]; rfl)⟩
  · rename_i hlisted
    refine ⟨Function.update place t .away, ?_⟩
    have hnear : ∀ x, s.prev t = some x ∨ s.next t = some x → ¬ (place x).Off :=
      fun x => h.neighbours hpc hok hlisted
    have hmQ := h.mem_queue
    have hmB := h.mem_batch
    have hoff := h.off t
    have haway := h.away t
    by_cases hhead : s.waitq = some t
    · -- first in the queue
      obtain ⟨L, rfl, hL, hB, hprev, hnext⟩ := h.unlink_head hhead
      have hnd := h.queue.nodup
      rw [if_pos hhead]
      refine ⟨L, B, back, h.expired hpc ?_ hL hB ?_ ?_ ?_ ?_⟩ <;> grind -linarith [Place.Off]
    · rw [if_neg hhead]
      cases hpl : place t with
      | queued =>
        obtain ⟨L, a, M, rfl, hpt, hnt⟩ := split_of_mem h.queue ((hmQ t).mpr hpl) hhead
        have hnd := h.queue.nodup
        refine ⟨L ++ a :: M, B, back, h.expired hpc ?_ h.queue.unlink ?_ ?_ ?_ ?_ ?_⟩
        · grind -linarith [Place.Off]
        · exact fun u => (h.batch u).congr (by grind -linarith [unlinkNext]) (by grind -linarith [unlinkPrev])
        all_goals grind -linarith [Place.Off]
      | batch u =>
        -- the guard: not the next one of its broadcast, whose `prev` may be stale
        have hne : (s.pc u).nextUp ≠ some t := by grind -linarith
        obtain ⟨L, a, M, hBu, hpt, hnt⟩ := split_of_mem (h.batch u) ((hmB u t).mpr hpl) hne
        have hb := h.batch u
        rw [hBu] at hb
        have hnd := hb.nodup
        have hmem : ∀ x, x ∈ L ++ a :: t :: M ↔ place x = .batch u := hBu ▸ hmB u
        have hpa : place a = .batch u := (hmem a).mp (by simp)
        have hpn : ∀ x, s.next t = some x → place x = .batch u :=
          fun x hx => (hmem x).mp (by simp [hnt x hx])
        refine ⟨Q, Function.update B u (L ++ a :: M), back, h.expired hpc ?_ ?_ ?_ ?_ ?_ ?_ ?_⟩
        · grind -linarith [Place.Off]
        · exact h.queue.congr (by grind -linarith [unlinkNext]) (by grind -linarith [unlinkPrev])
        · intro v
          by_cases hvu : v = u
          · subst hvu
            rw [Function.update_self]
            exact hb.unlink
          · rw [Function.update_of_ne hvu]
            exact (h.batch v).congr (by grind -linarith [unlinkNext]) (by grind -linarith [unlinkPrev])
        all_goals grind -linarith [Place.Off, Function.update_apply]
      | away => grind -linarith [Pc.InWait]
      | aimed u => grind -linarith [Place.Off]
      | signalled => grind -linarith [Place.Off]

omit [DecidableEq ι] in
/-- The walk finds the last waiter, given enough iterations. -/
theorem lastWaiter_eq {next : ι → Option ι} {L : List ι} {a w : ι} {n : ℕ}
    (h : Chain next (some w) (L ++ [a])) (hn : (L ++ [a]).length ≤ n) :
    lastWaiter next n w = some a := by
  induction n generalizing L w with
  | zero => simp at hn
  | succ n ih =>
    cases L with
    | nil =>
      obtain ⟨hw, ha⟩ := h
      obtain rfl := Option.some.inj hw
      have ha : next w = none := ha
      simp only [lastWaiter, ha]
    | cons c L =>
      obtain ⟨hw, hL⟩ := h
      obtain rfl := Option.some.inj hw
      cases hc : next w with
      | none =>
        rw [hc] at hL
        exact absurd ((Chain.eq_nil_iff hL).mpr rfl) (by simp)
      | some x =>
        rw [hc] at hL
        simp only [lastWaiter, hc]
        refine ih hL ?_
        simp only [List.cons_append, List.length_cons] at hn
        omega

/-- **A wait begins**: the waiter is linked behind the last one of the queue. -/
theorem wait_sound [Fintype ι] {s s' : State ι} {t : ι} {timed : Bool} (h : Sound s)
    (hpc : s.pc t = .idle) (hc : call s t (.wait timed) = some s') : Sound s' := by
  obtain ⟨place, Q, B, back, h⟩ := h
  have hmQ := h.mem_queue
  have hmB := h.mem_batch
  have hat : place t = .away := (h.away t).mpr (by rw [hpc]; exact id)
  have hoff := h.off t (by rw [hat]; trivial)
  have htQ : t ∉ Q := by grind -linarith
  simp only [call, hpc] at hc
  obtain ⟨s₁, h₁, rfl⟩ := Option.map_eq_some_iff.mp hc
  unfold enqueue at h₁
  refine ⟨Function.update place t .queued, Q ++ [t], B, back, ?_⟩
  rcases List.eq_nil_or_concat Q with rfl | ⟨L, a, rfl⟩
  · have hw : s.waitq = none := h.queue
    simp only [hw] at h₁
    cases h₁
    obtain ⟨hq, hb, hmq, hmb, haim, ho, haw, hu, hs, hd⟩ := h
    simp only [State.goto]
    constructor
    · exact ⟨rfl, Function.update_self _ _ _, hoff.1⟩
    · intro u
      have hn : (Function.update s.pc t (.waiting timed) u).nextUp = (s.pc u).nextUp := by
        grind -linarith [Function.update_apply, Pc.nextUp]
      rw [hn]
      exact (hb u).congr (by grind -linarith) (by grind -linarith [Function.update_apply])
    all_goals grind -linarith [Place.Off, Place.Unsent, Function.update_apply, Pc.nextUp, Pc.aim, Pc.InWait]
  · rw [List.concat_eq_append] at *
    obtain ⟨hq, hb, hmq, hmb, haim, ho, haw, hu, hs, hd⟩ := h
    have haQ : place a = .queued := (hmq a).mp (by simp)
    cases hw : s.waitq with
    | none =>
      rw [hw] at hq
      exact absurd ((Chain.eq_nil_iff hq.segment).mpr rfl) (by simp)
    | some w =>
      have hlast : lastWaiter s.next (Fintype.card ι) w = some a := by
        refine lastWaiter_eq (L := L) ?_ (List.Nodup.length_le_card hq.nodup)
        rw [← hw]
        exact hq.segment
      simp only [hw, hlast, Option.map_some] at h₁
      cases h₁
      simp only [State.goto]
      constructor
      · rw [← hw]
        exact hq.concat htQ hoff.1
      · intro u
        have hn : (Function.update s.pc t (.waiting timed) u).nextUp = (s.pc u).nextUp := by
          grind -linarith [Function.update_apply, Pc.nextUp]
        rw [hn]
        exact (hb u).congr (by grind -linarith [Function.update_apply]) (by grind -linarith [Function.update_apply])
      all_goals grind -linarith [Place.Off, Place.Unsent, Function.update_apply, Pc.nextUp, Pc.aim, Pc.InWait]

/-- **A call is sound.** -/
theorem call_sound [Fintype ι] {s s' : State ι} {t : ι} {op : Op} (h : Sound s)
    (hc : call s t op = some s') : Sound s' := by
  cases hpc : s.pc t with
  | idle =>
    cases op with
    | wait timed => exact wait_sound h hpc hc
    | signal | broadcast =>
      simp only [call, hpc] at hc
      obtain ⟨place, Q, B, back, h⟩ := h
      split at hc <;> cases hc
      · exact ⟨place, Q, B, back, h⟩
      · exact ⟨place, Q, B, back, h.goto (by rw [hpc]; rfl) (by rw [hpc]; rfl) (by rw [hpc]; rfl)⟩
  | _ => simp only [call, hpc, reduceCtorEq] at hc

/-- **A step of a thread is sound**, when it is orderly. -/
theorem move_sound {s s' : State ι} {t : ι} (h : Sound s) (hc : move s t = some s')
    (hok : Orderly s (.move t) s') : Sound s' := by
  cases hpc : s.pc t with
  | idle => simp only [move, hpc, reduceCtorEq] at hc
  | waiting | consume =>
    simp only [move, hpc] at hc
    refine woken_sound h ?_ ?_ ?_ hc <;> rw [hpc] <;> trivial
  | timedOut =>
    simp only [move, hpc] at hc
    cases hc
    exact afterTimeout_sound h hpc (hok hpc)
  | signal =>
    simp only [move, hpc] at hc
    cases hw : s.waitq with
    | none =>
      simp only [hw] at hc
      cases hc
      obtain ⟨place, Q, B, back, h⟩ := h
      exact ⟨place, Q, B, back, h.goto (by rw [hpc]; rfl) (by rw [hpc]; rfl) (by rw [hpc]; rfl)⟩
    | some w =>
      simp only [hw] at hc
      cases hc
      exact signal_sound h hpc hw
  | signalOne w =>
    simp only [move, hpc] at hc
    cases hc
    exact wakeup_sound h (by rw [hpc]; rfl) (by rw [hpc]; exact not_false) rfl (by rw [hpc]; rfl)
      not_false
  | broadcast =>
    simp only [move, hpc] at hc
    cases hc
    exact broadcast_sound h hpc
  | wakeAll id =>
    cases id with
    | none =>
      simp only [move, hpc] at hc
      cases hc
      obtain ⟨place, Q, B, back, h⟩ := h
      exact ⟨place, Q, B, back, h.goto (by rw [hpc]; rfl) (by rw [hpc]; rfl) (by rw [hpc]; rfl)⟩
    | some w =>
      simp only [move, hpc] at hc
      cases hc
      exact wakeAll_sound h hpc
  | wakeOne w id =>
    simp only [move, hpc] at hc
    cases hc
    exact wakeup_sound h (by rw [hpc]; rfl) (by rw [hpc]; exact not_false) rfl (by rw [hpc]; rfl)
      not_false

omit [DecidableEq ι] in
/-- The nodes of a chain are reached from its head. -/
theorem reaches_of_mem {next : ι → Option ι} {L : List ι} {a x : ι}
    (h : Chain next (some a) L) (hx : x ∈ L) :
    Relation.ReflTransGen (fun x y => next x = some y) a x := by
  induction L generalizing a with
  | nil => exact absurd hx List.not_mem_nil
  | cons c L ih =>
    obtain ⟨hc, hL⟩ := h
    obtain rfl := Option.some.inj hc
    rcases List.mem_cons.mp hx with rfl | hx
    · exact .refl
    · cases hn : next a with
      | none =>
        rw [hn] at hL
        exact absurd hx ((Chain.eq_nil_iff hL).mpr rfl ▸ List.not_mem_nil)
      | some b =>
        rw [hn] at hL
        exact .head hn (ih hL hx)

omit [DecidableEq ι] in
/-- A waiter is on a list exactly when its place says so. -/
theorem Inv.listed_iff {s : State ι} {place : ι → Place ι} {Q : List ι} {B : ι → List ι}
    {back : ι → Option ι} (h : Inv s place Q B back) (t : ι) :
    s.Listed t ↔ place t = .queued ∨ ∃ u, place t = .batch u := by
  constructor
  · rintro ⟨a, hhead, hreach⟩
    induction hreach with
    | refl =>
      rcases hhead with hq | ⟨u, hu⟩
      · exact Or.inl ((h.mem_queue a).mp (h.queue.head_mem hq))
      · exact Or.inr ⟨u, (h.mem_batch u a).mp ((h.batch u).head_mem hu)⟩
    | tail _ hn ih =>
      rcases ih with hq | ⟨u, hu⟩
      · exact Or.inl ((h.mem_queue _).mp
          (Chain.next_mem h.queue.segment ((h.mem_queue _).mpr hq) hn))
      · exact Or.inr ⟨u, (h.mem_batch u _).mp
          (Chain.next_mem (h.batch u).segment ((h.mem_batch u _).mpr hu) hn)⟩
  · rintro (hq | ⟨u, hu⟩)
    · have hmem := (h.mem_queue t).mpr hq
      cases hw : s.waitq with
      | none => exact absurd hmem ((Chain.eq_nil_iff h.queue.segment).mpr hw ▸ List.not_mem_nil)
      | some a => exact ⟨a, Or.inl hw, reaches_of_mem (hw ▸ h.queue.segment) hmem⟩
    · have hmem := (h.mem_batch u t).mpr hu
      cases hw : (s.pc u).nextUp with
      | none => exact absurd hmem ((Chain.eq_nil_iff (h.batch u).segment).mpr hw ▸ List.not_mem_nil)
      | some a => exact ⟨a, Or.inr ⟨u, hw⟩, reaches_of_mem (hw ▸ (h.batch u).segment) hmem⟩

omit [DecidableEq ι] in
/-- A sound state has sent and consumed each signal once. -/
theorem Sound.exact {s : State ι} (h : Sound s) : s.Exact := by
  obtain ⟨place, Q, B, back, h⟩ := h
  have hplace : ∀ t r, s.result t = some r → place t = .away := by
    intro t r hr
    have hu := h.unsent t
    have hs := h.sent t
    cases hp : place t <;> grind -linarith [Place.Unsent]
  refine ⟨fun t hr => (h.done t (hplace t _ hr)).2.2.1 hr, ?_, ?_, ?_⟩
  · intro t hr
    have hat := hplace t _ hr
    obtain ⟨hp, -, -, hsent⟩ := h.done t hat
    obtain ⟨hn, hpv⟩ := h.off t (by rw [hat]; trivial)
    refine ⟨hsent hr, hp, ?_, hn, hpv, fun u hu => ?_⟩
    · rw [h.listed_iff, hat]
      rintro (hq | ⟨u, hu⟩)
      · cases hq
      · cases hu
    · have := (h.aim u t).mpr hu
      rw [hat] at this
      cases this
  · intro t
    have hu := h.unsent t
    have hs := h.sent t
    have hd := h.done t
    cases hp : place t <;> grind -linarith [Place.Unsent]
  · intro u t ha
    have hu := h.unsent t (by rw [(h.aim u t).mpr ha]; trivial)
    exact ⟨hu.1, hu.2.2.1⟩

/-- A timed-out waiter writes to waiters on a list only. -/
theorem Sound.unlink_listed {s s' : State ι} {t : ι} (h : Sound s) (hpc : s.pc t = .timedOut)
    (hc : move s t = some s') (hok : Orderly s (.move t) s') {x : ι} (hx : x ≠ t)
    (hne : s'.next x ≠ s.next x ∨ s'.prev x ≠ s.prev x) : s.Listed x ∧ s.sent x = 0 := by
  obtain ⟨place, Q, B, back, h⟩ := h
  simp only [move, hpc, Option.some.injEq] at hc
  subst hc
  unfold afterTimeout at hne
  split at hne
  · exact hne.elim (fun hn => absurd rfl hn) (fun hn => absurd rfl hn)
  · rename_i hlisted
    have hnear : s.prev t = some x ∨ s.next t = some x := by
      simp only [State.goto, State.removeFromIdList, unlinkNext, unlinkPrev, if_neg hx] at hne
      grind -linarith
    have hoff := h.neighbours hpc (hok hpc) hlisted hnear
    refine ⟨(h.listed_iff x).mpr ?_, (h.unsent x (Place.unsent_of_not_off hoff)).1⟩
    cases hp : place x <;> grind -linarith [Place.Off]

omit [DecidableEq ι] in
/-- A condition variable that was just initialised is sound. -/
theorem init_sound : Sound (init : State ι) := by
  refine ⟨fun _ => .away, [], fun _ => [], fun _ => none, ?_⟩
  constructor <;> simp [init, Pc.nextUp, Pc.aim, Pc.InWait, Place.Unsent]

/-- **Signals are consumed exactly once**, on every run in which no timed-out
waiter runs its section while it is the next one of a broadcast that has
already passed another waiter; and such a waiter writes only to waiters that
are still on a list and have not been signalled. -/
theorem exact_of_orderly [Fintype ι] (s : State ι) (h : (machine ι).Reach Orderly s) :
    s.Exact ∧ ∀ t s', s.pc t = .timedOut → move s t = some s' → Orderly s (.move t) s' →
      ∀ x, x ≠ t → s'.next x ≠ s.next x ∨ s'.prev x ≠ s.prev x → s.Listed x ∧ s.sent x = 0 := by
  have hsound : Sound s := by
    refine Machine.Reach.invariant (I := Sound) ?_ ?_ h
    · rintro s rfl
      exact init_sound
    · intro s e s' hs he hok
      cases e with
      | call t op => exact call_sound hs he
      | move t => exact move_sound hs he hok
      | timeout t => exact timeout_sound hs he
  exact ⟨hsound.exact, fun t s' hpc hc hok x hx hne => hsound.unlink_listed hpc hc hok hx hne⟩

/-! ## A run that signals a waiter after its timeout -/

/-- Threads `0`, `1` and `2` wait, the second with a timeout; thread `3` begins a
broadcast and wakes the first. -/
def halfBroadcast : List (Event (Fin 4)) :=
  [.call 0 (.wait false), .call 1 (.wait true), .call 2 (.wait false), .call 3 .broadcast,
    .move 3, .move 3, .move 3]

/-- Thread `1` now times out, takes itself out and returns; the broadcast goes
on with it. -/
def staleBroadcast : List (Event (Fin 4)) :=
  halfBroadcast ++ [.move 0, .timeout 1, .move 1, .move 3, .move 3, .move 3]

/-- **A wait that returned `ETIMEDOUT` can be signalled**: after
`staleBroadcast`, thread `1` has timed out and was signalled all the same, the
links of thread `0` were written after its wait was over, and thread `2` waits
although the broadcast has ended. -/
theorem exists_signal_after_timeout :
    ∃ s : State (Fin 4), (machine (Fin 4)).Reach Machine.anyStep s
      ∧ (s.result 1 = some false ∧ s.sent 1 = 1)
      ∧ (s.result 0 = some true ∧ s.next 0 = some 2)
      ∧ (s.pc 2 = .waiting false ∧ s.sent 2 = 0 ∧ s.waitq = none ∧ s.pc 3 = .idle)
      ∧ ¬ s.Exact := by
  obtain ⟨s, hs, hp⟩ := Machine.Reach.exists_of_exec (machine (Fin 4))
    Machine.anyStep rfl
    (p := fun s => decide ((s.result 1 = some false ∧ s.sent 1 = 1)
      ∧ (s.result 0 = some true ∧ s.next 0 = some 2)
      ∧ (s.pc 2 = .waiting false ∧ s.sent 2 = 0 ∧ s.waitq = none ∧ s.pc 3 = .idle)))
    staleBroadcast (by decide)
  obtain ⟨h₁, h₀, h₂⟩ := of_decide_eq_true hp
  refine ⟨s, hs, h₁, h₀, h₂, fun he => ?_⟩
  have hsent := (he.expired 1 h₁.1).1
  omega

/-- The same threads, with the timeout before the broadcast has passed anybody:
thread `1` takes itself out and is never signalled. -/
theorem exact_timeout_in_time :
    ∃ s : State (Fin 4), s.result 1 = some false ∧ s.sent 2 = 1 ∧ s.Exact := by
  obtain ⟨s, hs, hp⟩ := Machine.Reach.exists_of_exec (machine (Fin 4))
    Orderly rfl
    (p := fun s => decide (s.result 1 = some false ∧ s.sent 2 = 1))
    ([.call 0 (.wait false), .call 1 (.wait true), .call 2 (.wait false), .call 3 .broadcast,
      .move 3, .timeout 1, .move 1, .move 3, .move 3, .move 3, .move 3]) (by decide)
  obtain ⟨h₁, h₂⟩ := of_decide_eq_true hp
  exact ⟨s, h₁, h₂, (exact_of_orderly s hs).1⟩

end CondVar
