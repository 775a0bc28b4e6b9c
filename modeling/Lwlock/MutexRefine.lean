import Lwlock.MutexStep

/-!
# The mutex is handed over in order

A state of the mutexes stands for one of mutexes that are handed over in order: the
owner is in the word, and the queue is what the invariant says, oldest first. Along
this relation every step of a thread is silent or answered: the swaps of the lock
functions by an acquisition or by a place at the end of the queue, the swap of the
unlock by a release or by a handover to the first in the queue.
-/

namespace Mutex

variable {T M : Type}

/-- **What a state stands for.** -/
def handoff (s : State T M) (g : Ghost T M) (m : M) : Handoff T :=
  ⟨(s.word m).owner, (g.queue m).reverse⟩

/-- The relation of the simulation. -/
def Refines (s : State T M) (a : M → Handoff T) : Prop := ∃ g, Inv s g ∧ a = handoff s g

/-- Nobody is there. -/
def Ghost.empty : Ghost T M where
  queue := fun _ => []
  rest := fun _ => []
  giver := id

theorem inv_init : Inv (init : State T M) Ghost.empty := by
  refine ⟨?_, fun _ => rfl, fun _ => trivial, fun _ => trivial⟩
  constructor <;> simp [init, Ghost.empty, Pc.linking, Pc.locks, Pc.linked, Pc.awaits, Pc.unlocks,
    Pc.oldOwner, Pc.readOwner, Pc.hands]

/-! ## The steps -/

/-- A step that leaves the owners and the queues as they are. -/
theorem handoff_eq {s s' : State T M} {g g' : Ghost T M}
    (ho : ∀ m, (s'.word m).owner = (s.word m).owner) (hq : g'.queue = g.queue) :
    handoff s' g' = handoff s g := by
  funext m
  simp only [handoff, ho m, hq]

variable [DecidableEq T] [DecidableEq M]

omit [DecidableEq M] in
theorem startScan_word (s : State T M) (t : T) (m : M) (old : Word T) :
    (startScan s t m old).word = s.word := by
  unfold startScan
  cases old.waitq <;> rfl

/-- **The calls are silent.** -/
theorem Inv.call {s s' : State T M} {g : Ghost T M} {t : T} {op : Op M} (h : Inv s g)
    (he : call s t op = some s') : Inv s' g ∧ s'.word = s.word := by
  unfold Mutex.call at he
  split at he
  case isFalse => cases he
  rename_i hidle
  have hlin : (s.pc t).linking = false := by rw [hidle]; rfl
  have hhands : (s.pc t).hands = none := by rw [hidle]; rfl
  have hgo : ∀ p : Pc T M, (∀ m, p.locks = some m → s.waits t = none ∧ (s.word m).owner ≠ some t) →
      p.linked = none → (∀ m, p.awaits = some m → s.waits t = some m) →
      (∀ m, p.unlocks = some m → (s.word m).owner = some t ∧ s.waits t ≠ some m) →
      p.oldOwner = none → (∀ o, p.readOwner = some o → o ≠ some t) → p.hands = none →
      p ≠ .aborted → p.works = none → Inv (s.goto t p) g ∧ (s.goto t p).word = s.word := by
    intro p h1 h2 h3 h4 h5 h6 h7 h8 h9
    refine ⟨h.goto h1 ?_ h2 h3 h4 ?_ h6 (h7.trans hhands.symm) h8 (work_of_not_works h9), rfl⟩
    · intro hl
      rw [hlin] at hl
      cases hl
    · intro o ho
      rw [h5] at ho
      cases ho
  cases op with
  | lock m | lockAsync m =>
    obtain ⟨⟨hw, ho⟩, he⟩ := Option.ite_none_right_eq_some.mp he
    cases he
    refine hgo _ ?_ rfl nofun nofun rfl ?_ rfl nofun rfl
    · rintro j ⟨⟩
      exact ⟨hw, ho⟩
    · rintro o ⟨⟩
      exact ho
  | lockCompleteWait m =>
    obtain ⟨hw, he⟩ := Option.ite_none_right_eq_some.mp he
    cases he
    refine hgo _ nofun rfl ?_ nofun rfl nofun rfl nofun rfl
    rintro j ⟨⟩
    exact hw
  | trylock m =>
    dsimp only at he
    split at he
    · cases he
      exact hgo _ nofun rfl nofun nofun rfl nofun rfl nofun rfl
    · cases he
      exact ⟨h, rfl⟩
  | lockIfNotHeld m =>
    dsimp only at he
    split at he
    case isFalse => cases he
    rename_i hw
    split at he
    · cases he
      exact ⟨h, rfl⟩
    · rename_i ho
      cases he
      refine hgo _ ?_ rfl nofun nofun rfl nofun rfl nofun rfl
      rintro j ⟨⟩
      exact ⟨hw, ho⟩
  | unlock m =>
    obtain ⟨⟨hw, ho⟩, he⟩ := Option.ite_none_right_eq_some.mp he
    cases he
    unfold Mutex.unlockStart
    rw [if_pos ho]
    exact ⟨h.startScan hlin hhands ho hw, startScan_word ..⟩
  | unlockIfHeld m =>
    dsimp only at he
    split at he
    case isFalse => cases he
    rename_i hw
    split at he
    · rename_i ho
      cases he
      refine hgo _ nofun rfl nofun ?_ rfl nofun rfl nofun rfl
      rintro j ⟨⟩
      exact ⟨ho, hw⟩
    · cases he
      exact ⟨h, rfl⟩

/-! ## What a further step is answered by -/

omit [DecidableEq T] in
/-- The swap of a lock function that finds the mutex free. -/
theorem steps_acquire {s s' : State T M} {g : Ghost T M} {t : T} {m : M} {waitq : Option T}
    (ho : (s.word m).owner = none) (hq : g.queue m = [])
    (hw : s'.word = Function.update s.word m ⟨some t, waitq⟩) :
    Handoff.Steps (handoff s g) (m, .acquire t) (handoff s' g) := by
  refine ⟨?_, fun j hj => ?_⟩
  · simp only [handoff, ho, hq, hw, Function.update_self, List.reverse_nil]
    exact .acquire
  · simp only [handoff, hw, Function.update_of_ne hj]

/-- A step and its answer. -/
def Answered (s s' : State T M) (g : Ghost T M) (t : T) : Prop :=
  ∃ g', Inv s' g' ∧
    Machine.Answer Handoff.Steps (label s (.move t)) (handoff s g) (handoff s' g')

omit [DecidableEq M] in
/-- A silent step. -/
theorem Answered.silent {s s' : State T M} {g g' : Ghost T M} {t : T} (h : Inv s' g')
    (hl : label s (.move t) = none) (hw : ∀ m, (s'.word m).owner = (s.word m).owner)
    (hq : g'.queue = g.queue) : Answered s s' g t := by
  refine ⟨g', h, ?_⟩
  rw [hl]
  exact handoff_eq hw hq

omit [DecidableEq M] in
/-- A step with a label. -/
theorem Answered.visible {s s' : State T M} {g g' : Ghost T M} {t : T} {l : M × Handoff.Act T}
    (h : Inv s' g') (hl : label s (.move t) = some l)
    (ha : Handoff.Steps (handoff s g) l (handoff s' g')) : Answered s s' g t := by
  refine ⟨g', h, ?_⟩
  rw [hl]
  exact ha

/-- **The swap of `lw_mutex_lock_async`**: it takes the mutex, or a place at the end of
the queue. -/
theorem Inv.lockCas {s : State T M} {g : Ghost T M} {t : T} {m : M} {sync : Bool} {old : Word T}
    (h : Inv s g) (hpc : s.pc t = .lockCas m sync old) :
    Answered s (lockCas s t m sync old) g t := by
  obtain ⟨hw, ho⟩ := h.clients.locks t m (by rw [hpc]; rfl)
  unfold Mutex.lockCas
  by_cases hold : s.word m = old
  · rw [if_pos hold]
    have hl : label s (.move t) = some (m, if old.owner = none then .acquire t else .enqueue t) := by
      simp only [label, hpc, if_pos hold]
    cases hown : old.owner with
    | none =>
      rw [if_pos hown] at hl
      rw [if_pos rfl]
      have hfree : (s.word m).owner = none := hold ▸ hown
      refine .visible (h.acquire hfree (by rw [hold]) (.inl ?_)) hl
        (steps_acquire hfree (h.clients.free m hfree) rfl)
      rw [hpc]
      exact ⟨rfl, by simp only [Pc.linked, hown, if_true]⟩
    | some o =>
      rw [if_neg (by rw [hown]; simp)] at hl
      rw [if_neg (by simp), ← hown]
      refine .visible (h.enqueue hold hown hpc ?_) hl ⟨?_, fun j hj => ?_⟩
      · cases sync
        · exact .inr rfl
        · exact .inl rfl
      · have hto : t ≠ o := by
          rintro rfl
          exact ho (hold ▸ hown)
        have htq : t ∉ (g.queue m).reverse := by
          intro hx
          rw [(h.clients.queued m t (List.mem_reverse.mp hx)).1] at hw
          cases hw
        simp only [handoff, State.goto, State.setWord, Function.update_self, List.reverse_cons,
          hold, hown]
        exact .enqueue hto htq
      · simp only [handoff, State.goto, State.setWord, Function.update_of_ne hj]
  · rw [if_neg hold]
    refine .silent (h.goto ?_ (fun _ => rfl) rfl (fun _ hu => by cases hu)
      (fun _ hh => by cases hh) (fun _ hf => by cases hf) ?_ ?_ (by simp) trivial) ?_
      (fun _ => rfl) rfl
    · rintro j ⟨⟩
      exact ⟨hw, ho⟩
    · rintro o ⟨⟩
      exact ho
    · rw [hpc]
      rfl
    · simp only [label, hpc, if_neg hold]

/-- **The swap of `lw_mutex_trylock`.** -/
theorem Inv.tryCas {s : State T M} {g : Ghost T M} {t : T} {m : M} {waitq : Option T}
    (h : Inv s g) (hpc : s.pc t = .tryCas m waitq) : Answered s (tryCas s t m waitq) g t := by
  have hlin : (s.pc t).linking = false := by rw [hpc]; rfl
  have hhands : (s.pc t).hands = none := by rw [hpc]; rfl
  unfold Mutex.tryCas
  by_cases hold : s.word m = ⟨none, waitq⟩
  · have hfree : (s.word m).owner = none := by rw [hold]
    have hempty := h.clients.free m hfree
    have hq : (s.word m).waitq = none := by
      have hchain := h.chain m
      have hrest : g.rest m = [] := by
        refine List.eq_nil_iff_forall_not_mem.mpr fun x hx => ?_
        rw [(h.clients.rest m x hx).2.1] at hfree
        cases hfree
      rw [hempty, hrest] at hchain
      exact hchain
    rw [if_pos hold]
    refine .visible (h.acquire hfree hq.symm (.inr ⟨hlin, hhands⟩)) ?_
      (steps_acquire hfree hempty rfl)
    simp only [label, hpc, if_pos hold]
  · rw [if_neg hold]
    refine .silent (h.goto nofun ?_ rfl nofun nofun nofun nofun hhands.symm nofun trivial) ?_
      (fun _ => rfl) rfl
    · rw [hlin]
      nofun
    · simp only [label, hpc, if_neg hold]

/-- **The swap of `lw_mutex_unlock`**: it frees the mutex, or hands it to the first in the
queue. -/
theorem Inv.unlockCas {s : State T M} {g : Ghost T M} {t : T} {m : M} {old : Word T}
    {w : Option T} (h : Inv s g) (hpc : s.pc t = .unlockCas m old w) :
    Answered s (unlockCas s t m old w) g t := by
  obtain ⟨ho, hwt⟩ := h.clients.unlocks t m (by rw [hpc]; rfl)
  unfold Mutex.unlockCas
  by_cases hold : s.word m = old
  · rw [if_pos hold]
    cases w with
    | none =>
      obtain ⟨hq, hI⟩ := h.release hpc hold
      refine .visible hI (by simp only [label, hpc, if_pos hold]; rfl) ⟨?_, fun j hj => ?_⟩
      · simp only [handoff, State.goto, State.setWord, Function.update_self, hq, ho,
          List.reverse_nil]
        exact .release
      · simp only [handoff, State.goto, State.setWord, Function.update_of_ne hj]
    | some w =>
      obtain ⟨A, hq, hI⟩ := h.pass hpc hold
      refine .visible hI (by simp only [label, hpc, if_pos hold]; rfl) ⟨?_, fun j hj => ?_⟩
      · simp only [handoff, State.goto, State.setWord, Ghost.pass, Function.update_self, hq, ho,
          List.reverse_append, List.reverse_singleton, List.singleton_append]
        exact .pass
      · simp only [handoff, State.goto, State.setWord, Ghost.pass, Function.update_of_ne hj]
  · rw [if_neg hold]
    refine .silent (h.startScan (by rw [hpc]; rfl) (by rw [hpc]; rfl) ho hwt) ?_ ?_ rfl
    · simp only [label, hpc, if_neg hold]
    · intro j
      rw [startScan_word]

/-- **A further step is silent or answered.** -/
theorem Inv.move {s s' : State T M} {g : Ghost T M} {t : T} (h : Inv s g)
    (he : move s t = some s') : Answered s s' g t := by
  cases hpc : s.pc t with
  | idle | aborted => simp [Mutex.move, hpc] at he
  | lockStart m =>
    obtain ⟨hw, ho⟩ := h.clients.locks t m (by rw [hpc]; rfl)
    simp only [Mutex.move, hpc, Option.some.injEq] at he
    subst he
    refine .silent (h.goto ?_ (fun _ => rfl) rfl nofun nofun nofun ?_ ?_ nofun trivial) ?_
      (fun _ => rfl) rfl
    · rintro j ⟨⟩
      exact ⟨hw, ho⟩
    · rintro o ⟨⟩
      exact ho
    · rw [hpc]
      rfl
    · simp only [label, hpc]
  | lockTry m sync old =>
    simp only [Mutex.move, hpc, Option.some.injEq] at he
    have hread := h.clients.readOwner t old.owner (by rw [hpc]; rfl)
    have hlink := h.link hpc
    have hl : label s (.move t) = none := by simp only [label, hpc]
    subst he
    by_cases ho : old.owner = none
    · rw [if_pos ho] at hlink
      rw [lockTry, if_pos ho]
      exact .silent hlink hl (fun _ => rfl) rfl
    · rw [if_neg ho] at hlink
      rw [lockTry, if_neg ho, if_neg hread]
      exact .silent hlink hl (fun _ => rfl) rfl
  | lockCas m sync old =>
    simp only [Mutex.move, hpc, Option.some.injEq] at he
    exact he ▸ h.lockCas hpc
  | waiting m =>
    simp only [Mutex.move, hpc] at he
    obtain ⟨hsig, he⟩ := Option.ite_none_right_eq_some.mp he
    cases he
    obtain ⟨ho, hI⟩ := h.completeWait hpc hsig
    rw [Mutex.completeWait, if_pos ho]
    exact .silent hI (by simp only [label, hpc]) (fun _ => rfl) rfl
  | tryCas m waitq =>
    simp only [Mutex.move, hpc, Option.some.injEq] at he
    exact he ▸ h.tryCas hpc
  | unlockStart m =>
    obtain ⟨ho, hwt⟩ := h.clients.unlocks t m (by rw [hpc]; rfl)
    simp only [Mutex.move, hpc, Option.some.injEq] at he
    subst he
    rw [Mutex.unlockStart, if_pos ho]
    refine .silent (h.startScan (by rw [hpc]; rfl) (by rw [hpc]; rfl) ho hwt)
      (by simp only [label, hpc]) (fun j => ?_) rfl
    rw [startScan_word]
  | unlockScan m old w =>
    simp only [Mutex.move, hpc, Option.some.injEq] at he
    have hI := h.unlockScan hpc
    rw [he] at hI
    refine .silent hI (by simp only [label, hpc]) (fun j => ?_) rfl
    rw [← he, Mutex.unlockScan]
    cases s.next w <;> rfl
  | unlockCas m old w =>
    simp only [Mutex.move, hpc, Option.some.injEq] at he
    exact he ▸ h.unlockCas hpc
  | unlinkNext m w =>
    simp only [Mutex.move, hpc, Option.some.injEq] at he
    have hI := h.unlinkNext hpc
    rw [he] at hI
    refine .silent hI (by simp only [label, hpc]) (fun j => ?_) rfl
    rw [← he, Mutex.unlinkNext]
    cases s.next w <;> rfl
  | unlinkPrev m w prev =>
    simp only [Mutex.move, hpc, Option.some.injEq] at he
    obtain ⟨r, hI⟩ := h.unlinkPrev hpc
    rw [he] at hI
    refine .silent hI (by simp only [label, hpc]) (fun j => ?_) rfl
    rw [← he]
    cases prev <;> rfl
  | clearPrev m w =>
    simp only [Mutex.move, hpc, Option.some.injEq] at he
    exact he ▸ .silent (h.clearPrev hpc) (by simp only [label, hpc]) (fun _ => rfl) rfl
  | clearNext m w =>
    simp only [Mutex.move, hpc, Option.some.injEq] at he
    exact he ▸ .silent (h.clearNext hpc) (by simp only [label, hpc]) (fun _ => rfl) rfl
  | wakeup m w =>
    simp only [Mutex.move, hpc, Option.some.injEq] at he
    exact he ▸ .silent (h.wakeup hpc) (by simp only [label, hpc]) (fun _ => rfl) rfl

/-! ## The refinement -/

/-- **The mutex refines one that is handed over in order.** -/
theorem simulates : (machine T M).Simulates label Handoff.Steps Refines := by
  refine .of_answer fun {s s' e a} hR he => ?_
  obtain ⟨g, h, rfl⟩ := hR
  cases e with
  | call t op =>
    obtain ⟨hI, hw⟩ := h.call he
    exact ⟨_, handoff_eq (fun m => by rw [hw]) rfl, g, hI, rfl⟩
  | move t =>
    obtain ⟨g', hI, ha⟩ := h.move he
    exact ⟨_, ha, g', hI, rfl⟩

/-- **What is exact of a state** that stands for mutexes `a`. Who waits in a queue is
on the chain of its word, once, and was neither made owner nor signalled; whoever
waits and is in no queue was made owner once, and either was signalled once, with
`next` and `prev` cleared, or is about to be by the thread that made it owner. -/
structure Exact (s : State T M) (a : M → Handoff T) : Prop where
  owner : ∀ m, (s.word m).owner = (a m).owner
  chain : ∀ m, ∃ r, Chain s.next (s.word m).waitq ((a m).queue.reverse ++ r) ∧ (r = [] ∨
    ∃ t u, r = [t] ∧ (a m).owner = some t ∧ (s.pc u).hands = some (m, t))
  queued : ∀ m t, t ∈ (a m).queue →
    s.waits t = some m ∧ s.made t = 0 ∧ s.sent t = 0 ∧ s.signalled t = false
  handed : ∀ m t, s.waits t = some m → t ∉ (a m).queue → (a m).owner = some t ∧ s.made t = 1
    ∧ ((s.sent t = 0 ∧ s.signalled t = false ∧ ∃ u, (s.pc u).hands = some (m, t))
      ∨ (s.sent t = 1 ∧ s.signalled t = true ∧ s.next t = none ∧ s.prev t = none))
  signalled : ∀ t, s.signalled t = true → ∃ m, s.waits t = some m ∧ t ∉ (a m).queue
  alive : ∀ t, s.pc t ≠ .aborted

omit [DecidableEq T] [DecidableEq M] in
theorem Refines.exact {s : State T M} {a : M → Handoff T} (h : Refines s a) : Exact s a := by
  obtain ⟨g, h, rfl⟩ := h
  have hmem : ∀ m t, t ∈ (handoff s g m).queue ↔ t ∈ g.queue m := fun m t => List.mem_reverse
  refine ⟨fun _ => rfl, fun m => ⟨g.rest m, ?_, ?_⟩, fun m t ht => ?_, fun m t hw ht => ?_,
    fun t ht => ?_, h.clients.alive⟩
  · simp only [handoff, List.reverse_reverse]
    exact h.chain m
  · rcases hr : g.rest m with _ | ⟨t, r⟩
    · exact .inl rfl
    · obtain ⟨h1, ho, hw, hq, hsig⟩ := h.clients.rest m t (by rw [hr]; exact List.mem_cons_self)
      refine .inr ⟨t, g.giver t, by rw [← hr, h1], ho, ?_⟩
      obtain ⟨-, -, ⟨-, -, hgive⟩ | ⟨-, hs, -⟩⟩ := h.clients.handed m t hw hq
      · exact hgive
      · rw [hs] at hsig
        cases hsig
  · obtain ⟨h1, h2, h3, h4, -⟩ := h.clients.queued m t ((hmem m t).mp ht)
    exact ⟨h1, h2, h3, h4⟩
  · obtain ⟨h1, h2, h3⟩ := h.clients.handed m t hw fun hx => ht ((hmem m t).mpr hx)
    refine ⟨h1, h2, h3.imp_left ?_⟩
    rintro ⟨h4, h5, h6⟩
    exact ⟨h4, h5, _, h6⟩
  · cases hw : s.waits t with
    | none =>
      rw [(h.clients.quiet t hw).1] at ht
      cases ht
    | some m =>
      refine ⟨m, rfl, fun hx => ?_⟩
      rw [(h.clients.queued m t ((hmem m t).mp hx)).2.2.2.1] at ht
      cases ht

/-- One thread has the mutex, and hands it to the first of two who queued. -/
def passRun : List (Event (Fin 3) Unit) :=
  [.call 0 (.lock ()), .move 0, .move 0, .call 1 (.lock ()), .move 1, .move 1,
    .call 2 (.lockAsync ()), .move 2, .move 2, .call 0 (.unlock ())] ++ List.replicate 8 (.move 0)

end Mutex
