import Lwlock.DelegateCancelStep

/-!
# A cancel is all or nothing

What a cancel says, once it has a result, is true from then on: a job it reports as
cancelled is on no list, is not invoked and is not signalled; a job it reports as over has
returned `DONE` once and was signalled once. And a cancel takes its target from the lists
and touches nothing else on them.
-/

namespace Delegate

variable {T J P C : Type} [DecidableEq T] [DecidableEq J] [DecidableEq P]

/-- A delegate on its own, with the history of its cancels. -/
abbrev logged (T : Type) [DecidableEq T] (cl : Client J P C Empty) (p : P) :
    Machine (State T J P × Log J) (Event T J C Empty) :=
  (machine T ⟨cl, p, true⟩).remember Log.empty fun s e _ l => l.next cl s e

/-- **One cancel per job**, called to wait after the submission of the job has returned. -/
def OncePerJob (cl : Client J P C Empty) (q : State T J P × Log J) (e : Event T J C Empty)
    (q' : State T J P × Log J) : Prop :=
  Orderly cl q e q' ∧ match e with
    | .call _ (.cancel target wait _) =>
      wait = true ∧ Returned q.1 target ∧ ¬ q.2.Cancelling cl target
    | _ => True

/-- The step invokes the job. -/
def Invokes (s : State T J P) (e : Event T J C Empty) (j : J) : Prop :=
  ∃ t c old q, e = .move t c ∧ s.pc t = .runQueued old ∧ s.queued = j :: q

variable {cl : Client J P C Empty} {p : P}

/-- What is kept in every run: the places of the jobs, and of every cancel that was called
that its target had been submitted. -/
theorem kept_of_reach {q : State T J P × Log J} (h : (logged T cl p).Reach (OncePerJob cl) q) :
    Turn q.1 ∧ Kept cl q.1 q.2 (fun r => q.2.asked r = true) ∧
      ∀ r r' j, cl.func r = .cancelJob j → cl.func r' = .cancelJob j →
        q.2.asked r = true → q.2.asked r' = true → r = r' := by
  refine h.invariant (I := fun q => Turn q.1 ∧ Kept cl q.1 q.2 (fun r => q.2.asked r = true) ∧
    ∀ r r' j, cl.func r = .cancelJob j → cl.func r' = .cancelJob j →
      q.2.asked r = true → q.2.asked r' = true → r = r') ?_ ?_
  · rintro ⟨s, l⟩ ⟨hs, hl⟩
    obtain rfl := hs
    obtain rfl := hl
    exact ⟨turn_init p, ⟨_, _, _, places_init p, (cancels_init p).mono fun _ => nofun⟩,
      fun _ _ _ _ _ => nofun⟩
  · rintro ⟨s, l⟩ e ⟨s', l'⟩ ⟨ht, ⟨loc, S, W, hp, hc⟩, honce⟩ hstep hok
    obtain ⟨hs, hl⟩ := Machine.step_remember.mp hstep
    change l' = l.next cl s e at hl
    subst hl
    cases e with
    | call t op =>
      obtain ⟨hpc, hm⟩ := called_of_call hs
      refine ⟨ht.called (honest_of_empty cl) hpc hm, ?_⟩
      by_cases hop : ∃ j wait r, op = .cancel j wait r
      · obtain ⟨j, wait, r, rfl⟩ := hop
        obtain ⟨hok, -, hret, hnone⟩ := hok
        have hasked : ∀ r', Function.update l.asked r true r' = true → l.asked r' = true ∨ r' = r :=
          fun r' hr' => by
            by_cases hrr : r' = r
            · exact .inr hrr
            · exact .inl (by rwa [Function.update_of_ne hrr] at hr')
        refine ⟨kept_cancel hp hc hpc hok hm fun r' hr' => (hasked r' hr').imp_right
          fun hrr => ⟨hrr, hret⟩, fun r₁ r₂ x h₁ h₂ ha₁ ha₂ => ?_⟩
        have hr := hok.1
        obtain hb₁ | rfl := hasked r₁ ha₁ <;> obtain hb₂ | rfl := hasked r₂ ha₂
        · exact honce r₁ r₂ x h₁ h₂ hb₁ hb₂
        · rw [h₂] at hr
          cases hr
          exact absurd ⟨r₁, h₁, hb₁⟩ hnone
        · rw [h₁] at hr
          cases hr
          exact absurd ⟨r₂, h₂, hb₂⟩ hnone
        · rfl
      · have hlog : l.next cl s (.call t op) = l := by
          cases op <;> first | rfl | exact absurd ⟨_, _, _, rfl⟩ hop
        rw [hlog]
        exact ⟨kept_called (honest_of_empty cl) hp hc hpc hok.1 hm fun j wait r hj =>
          hop ⟨j, wait, r, hj⟩, honce⟩
    | move t c =>
      have hm := moved_of_move rfl (ht.whole t) hs
      exact ⟨ht.moved hm, kept_moved ht hp hc hm, honce⟩

/-- What changes a result, over all steps. -/
theorem result_step {q q' : State T J P × Log J} {e : Event T J C Empty}
    (h : (logged T cl p).Reach (OncePerJob cl) q) (hstep : (logged T cl p).step q e = some q') :
    q'.1.cancelled = q.1.cancelled ∨ ∃ r j b, cl.func r = .cancelJob j ∧ q.1.cancelled r = none ∧
      q'.1.cancelled = Function.update q.1.cancelled r (some b) ∧
      q'.1.queued = q.1.queued.filter (fun x => x ≠ j ∧ x ≠ r) ∧
      q'.1.blocked = q.1.blocked.filter fun x => x ≠ j ∧ x ≠ r := by
  obtain ⟨ht, ⟨loc, S, W, hp, hc⟩, -⟩ := kept_of_reach h
  obtain ⟨hs, -⟩ := Machine.step_remember.mp hstep
  cases e with
  | call t op =>
    obtain ⟨-, hm⟩ := called_of_call hs
    exact .inl (result_called hm)
  | move t c => exact result_moved hp hc (moved_of_move rfl (ht.whole t) hs)

/-- A result is final. -/
theorem result_of_run {q q' : State T J P × Log J} (h : (logged T cl p).Reach (OncePerJob cl) q)
    (hrun : (logged T cl p).Run (OncePerJob cl) q q') {r : J} {b : Bool}
    (hr : q.1.cancelled r = some b) :
    (logged T cl p).Reach (OncePerJob cl) q' ∧ q'.1.cancelled r = some b := by
  induction hrun with
  | refl => exact ⟨h, hr⟩
  | tail _ hstep hok ih =>
    obtain ⟨hreach, hres⟩ := ih
    refine ⟨hreach.tail hstep hok, ?_⟩
    obtain hsame | ⟨r', j, b', -, hnone, hupd, -⟩ := result_step hreach hstep
    · rw [hsame, hres]
    · have hrr : r ≠ r' := by
        rintro rfl
        rw [hres] at hnone
        cases hnone
      rw [hupd, Function.update_of_ne hrr, hres]

/-- **A cancel is all or nothing.** In every run with one cancel per job, called after the
submission of the job has returned: from the moment a cancel gives `0`, its target is on no
list and with no thread, no step invokes it, and it was not and is not signalled; from the
moment a cancel gives `EALREADY`, its target has returned `DONE` once and was signalled once;
and the step in which a cancel gets its result leaves the two lists as they were, in order,
but for its target and itself. -/
theorem cancel_all_or_nothing (cl : Client J P C Empty) (p : P) {q : State T J P × Log J}
    (h : (logged T cl p).Reach (OncePerJob cl) q) {r target : J}
    (hr : cl.func r = .cancelJob target) :
    (q.1.cancelled r = some true → ∀ q', (logged T cl p).Run (OncePerJob cl) q q' →
      q'.1.cancelled r = some true ∧ target ∉ q'.1.queued ∧ target ∉ q'.1.blocked ∧
      (∀ x, ¬ q'.1.books.At target x) ∧ q'.1.signals target = 0 ∧
      ∀ e : Event T J C Empty, ¬ Invokes q'.1 e target)
    ∧ (q.1.cancelled r = some false → ∀ q', (logged T cl p).Run (OncePerJob cl) q q' →
      q'.1.cancelled r = some false ∧ q'.2.dones target = 1 ∧ q'.1.signals target = 1)
    ∧ ∀ e q', (logged T cl p).step q e = some q' → OncePerJob cl q e q' →
      q.1.cancelled r = none → q'.1.cancelled r ≠ none →
      q'.1.queued = q.1.queued.filter (fun x => x ≠ target ∧ x ≠ r) ∧
      q'.1.blocked = q.1.blocked.filter fun x => x ≠ target ∧ x ≠ r := by
  obtain ⟨ht, ⟨loc, S, W, hp, hc⟩, honce⟩ := kept_of_reach h
  refine ⟨fun hres q' hrun => ?_, fun hres q' hrun => ?_, fun e q' hstep hok hnone hsome => ?_⟩
  · obtain ⟨hreach, hres'⟩ := result_of_run h hrun hres
    obtain ⟨ht, ⟨loc, S, W, hp, hc⟩, -⟩ := kept_of_reach hreach
    obtain ⟨hgone, howned⟩ := hc.gave r target hr hres'
    have huser := hc.kind r target hr (Bool.not_eq_false _ ▸ fun ha => by
      rw [hc.unasked r ha] at hres'
      cases hres')
    have hq : target ∉ q'.1.queued := fun hm => by simp [(hp.memQueued target).mp hm] at hgone
    refine ⟨hres', hq, fun hm => by simp [(hp.memBlocked target).mp hm] at hgone, hp.not_at hgone,
      ?_, ?_⟩
    · obtain ⟨ho, -⟩ | ⟨-, hs⟩ := hc.gone target huser hgone
      · rw [ho] at howned
        cases howned
      · exact hs
    · rintro e ⟨t, c, old, l, -, -, hl⟩
      exact hq (hl ▸ List.mem_cons_self)
  · obtain ⟨hreach, hres'⟩ := result_of_run h hrun hres
    obtain ⟨ht, ⟨loc, S, W, hp, hc⟩, honce⟩ := kept_of_reach hreach
    have hasked : ∀ x b, q'.1.cancelled x = some b → q'.2.asked x = true := fun x b hx =>
      Bool.not_eq_false _ ▸ fun ha => by
        rw [hc.unasked x ha] at hx
        cases hx
    have huser := hc.kind r target hr (hasked r _ hres')
    have hgone := hc.refused r target hr (hasked r _ hres') hres'
    obtain ⟨-, hs⟩ | ⟨ho, -⟩ := hc.gone target huser hgone
    · exact ⟨hres', (hc.dones target huser).trans hs, hs⟩
    · obtain ⟨r', hr', hgave⟩ := hc.taken target huser hgone ho
      obtain rfl := honce r' r target hr' hr (hasked r' _ hgave) (hasked r _ hres')
      rw [hres'] at hgave
      cases hgave
  · obtain hsame | ⟨r', j, b, hr', -, hupd, hlists⟩ := result_step h hstep
    · rw [hsame] at hsome
      exact absurd hnone hsome
    · obtain rfl : r = r' := by
        by_contra hrr
        rw [hupd, Function.update_of_ne hrr] at hsome
        exact hsome hnone
      rw [hr] at hr'
      cases hr'
      exact hlists

/-! ## A cancel that gets the lock -/

section Cancelled

variable [Fintype T] [Fintype J]

instance (q : State T J P × Log J) (e : Event T J C Empty) (q' : State T J P × Log J) :
    Decidable (Orderly cl q e q') :=
  match e with
  | .call _ (.submit j _) => inferInstanceAs (Decidable (cl.func j = .user))
  | .call _ (.cancel target _ r) => inferInstanceAs (Decidable (cl.func r = .cancelJob target ∧
      cl.func target = .user ∧ q.2.asked r = false ∧
      ¬ ((∃ t, q.1.pc t = .unblockNow target) ∨
        ∃ x, cl.func x = .unblockJob target ∧ q.1.submitted x = true ∧ q.1.signals x = 0)))
  | .call _ (.unblock target r) => inferInstanceAs (Decidable (cl.func r = .unblockJob target ∧
      cl.func target = .user ∧ ¬ ∃ x, cl.func x = .cancelJob target ∧ q.2.asked x = true))
  | .call _ (.run _) => inferInstanceAs (Decidable True)
  | .call _ (.direct _ _) => inferInstanceAs (Decidable True)
  | .move _ _ => inferInstanceAs (Decidable True)

instance (q : State T J P × Log J) (e : Event T J C Empty) (q' : State T J P × Log J) :
    Decidable (OncePerJob cl q e q') :=
  match e with
  | .call t (.cancel target wait r) => inferInstanceAs (Decidable (Orderly cl q
      (.call t (.cancel target wait r)) q' ∧ wait = true ∧
      (q.1.submitted target = true ∧ ∀ t, ¬ ((q.1.pc t).hand.coming = some target ∨
        (q.1.pc t).marking = some target)) ∧
      ¬ ∃ x, cl.func x = .cancelJob target ∧ q.2.asked x = true))
  | .call t (.submit j now) =>
    inferInstanceAs (Decidable (Orderly cl q (.call t (.submit j now)) q' ∧ True))
  | .call t (.unblock j r) =>
    inferInstanceAs (Decidable (Orderly cl q (.call t (.unblock j r)) q' ∧ True))
  | .call t (.run noWait) =>
    inferInstanceAs (Decidable (Orderly cl q (.call t (.run noWait)) q' ∧ True))
  | .call t (.direct d waits) =>
    inferInstanceAs (Decidable (Orderly cl q (.call t (.direct d waits)) q' ∧ True))
  | .move t c => inferInstanceAs (Decidable (Orderly cl q (.move t c) q' ∧ True))

end Cancelled

/-- A job, and a request to cancel it. -/
def jobAndCancel : Client Bool Unit Status Empty where
  func := fun j => if j then .cancelJob false else .user
  invoke := fun _ st o => (o, false, st)
  direct := fun d => d.elim

/-- A thread submits the job, and then cancels it: it takes the lock, and drains the stack. -/
def cancelRun : List (Event Bool Bool Status Empty) :=
  [.call false (.submit false false), .move false .done, .move false .done,
    .call false (.cancel false true true)] ++ List.replicate 7 (.move false .done)

theorem cancel_all_or_nothing_cancelRun : ∃ q : State Bool Bool Unit × Log Bool,
    q.1.cancelled true = some true ∧ q.1.signals false = 0 := by
  obtain ⟨q, hq, hp⟩ := Machine.Reach.exists_of_exec (logged Bool jobAndCancel ())
    (OncePerJob jobAndCancel) (s := (init (), Log.empty)) ⟨rfl, rfl⟩
    (p := fun q => decide (q.1.cancelled true = some true)) cancelRun (by decide +kernel)
  have hres := of_decide_eq_true hp
  exact ⟨q, hres, ((cancel_all_or_nothing jobAndCancel () hq (r := true) rfl).1 hres q
    (.refl q)).2.2.2.2.1⟩

end Delegate
