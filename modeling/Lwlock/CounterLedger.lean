import Lwlock.Counter
import Lwlock.DelegateCancelStep

/-!
# The ledger of a counter

A counter with its history: the grants it made, in order, how many units were given back,
which requests were made, and the cancels that were called. A grant is made by the
compare-and-swap of a thread that finds nobody in its way, or by the job of a request that
waited.

The cancels of the delegate's own account are kept here too, over all runs in which every
cancel has a request of its own: a counter unblocks nothing, so nothing else is asked.
-/

namespace Counter

open Delegate

variable {T J : Type}

/-- **A grant**: at once to a caller of `counter_try_alloc`, at once to a request, or to a
request that waited. -/
inductive Grant (J : Type)
  | tryAlloc (need : ℕ)
  | direct (j : J)
  | queued (j : J)
  deriving DecidableEq, Repr

/-- The units of a grant. -/
def Grant.units (need : J → ℕ) : Grant J → ℕ
  | .tryAlloc n => n
  | .direct j => need j
  | .queued j => need j

/-- The request a grant is for. -/
def Grant.request : Grant J → Option J
  | .tryAlloc _ => none
  | .direct j => some j
  | .queued j => some j

/-- The grant made in a step, if one is. -/
def granted (cfg : Config J) (s : State T J ℕ) : Event T J → Option (Grant J)
  | .call _ (.tryAlloc n) =>
    if (counterReserveWork n true s.word).isSome then some (.tryAlloc n) else none
  | .call _ (.alloc j) | .call _ (.allocAsync j) =>
    if (counterReserveWork (cfg.need j) true s.word).isSome then some (.direct j) else none
  | .call _ _ => none
  | .move t =>
    match s.pc t, s.queued with
    | .runQueued _, j :: _ => match cfg.func j with
      | .user => if cfg.need j ≤ s.word.other then some (.queued j) else none
      | _ => none
    | _, _ => none

/-- **The history of a counter.** -/
structure Ledger (J : Type) where
  log : Log J
  /-- The grants, in order. -/
  grants : List (Grant J)
  /-- The units given back. -/
  freed : ℕ
  /-- The requests made. -/
  requested : J → Bool

/-- The units that were granted. -/
def Ledger.issued (l : Ledger J) (need : J → ℕ) : ℕ := (l.grants.map (Grant.units need)).sum

/-- An event of the counter as one of its delegate. -/
def Event.toDelegate : Event T J → Delegate.Event T J Unit (Direct J)
  | .call t op => .call t op.toDelegate
  | .move t => .move t ()

/-- The request a step makes. -/
def requests : Event T J → Option J
  | .call _ (.alloc j) | .call _ (.allocAsync j) => some j
  | _ => none

/-- The units a step gives back. -/
def gives : Event T J → ℕ
  | .call _ (.free n) => n
  | _ => 0

variable [DecidableEq T] [DecidableEq J]

/-- The history after a step. -/
def Ledger.next (cfg : Config J) (s : State T J ℕ) (e : Event T J) (l : Ledger J) : Ledger J where
  log := l.log.next (client cfg) s e.toDelegate
  grants := l.grants ++ (granted cfg s e).toList
  freed := l.freed + gives e
  requested := match requests e with
    | some j => Function.update l.requested j true
    | none => l.requested

/-- **A counter that keeps its ledger.** -/
abbrev ledgered (T : Type) [DecidableEq T] (cfg : Config J) :
    Machine (State T J ℕ × Ledger J) (Event T J) :=
  (machine T cfg).remember ⟨Log.empty, [], 0, fun _ => false⟩ fun s e _ l => l.next cfg s e

/-- **Every cancel has a request of its own.** -/
def Named (cfg : Config J) (q : State T J ℕ × Ledger J) (e : Event T J)
    (_ : State T J ℕ × Ledger J) : Prop :=
  match e with
  | .call _ (.cancel target r) =>
    cfg.func r = .cancelJob target ∧ cfg.func target = .user ∧ q.2.log.asked r = false
  | _ => True

omit [DecidableEq T] [DecidableEq J] in
theorem counterReserveWork_eq {need : ℕ} {fair : Bool} {w w' : Word ℕ}
    (h : counterReserveWork need fair w = some w') :
    need ≤ w.other ∧ w' = { w with other := w.other - need } ∧
      (fair = true → w.lock = false ∧ w.incoming = false ∧ w.pending = false) := by
  unfold counterReserveWork at h
  split at h
  · cases h
  · rename_i hn
    cases h
    refine ⟨?_, rfl, ?_⟩ <;> simp_all

omit [DecidableEq T] [DecidableEq J] in
/-- **A counter is an honest user of its delegate.** -/
theorem honest (cfg : Config J) : (client cfg).Honest := by
  have hfree : ∀ {n w w' a}, counterFree cfg n w = some (w', a) → w' = freed n w ∧
      a = if !w.lock && (freed n w).lock then .runInternal else .done := by
    intro n w w' a h
    unfold counterFree at h
    split at h <;> cases h
    exact ⟨rfl, rfl⟩
  have htake : ∀ {n : ℕ} {w : Word ℕ} {x : Word ℕ}, counterReserveWork n true w = some x →
      x.incoming = w.incoming ∧ x.pending = w.pending ∧ x.waiting = w.waiting ∧ x.lock = w.lock := by
    intro n w x h
    obtain ⟨-, rfl, -⟩ := counterReserveWork_eq h
    exact ⟨rfl, rfl, rfl, rfl⟩
  constructor
  case bits =>
    intro d w w' a h
    cases d with
    | tryAlloc n =>
      cases hr : counterReserveWork n true w with
      | none => simp_all [client]
      | some x =>
        have := htake hr
        simp_all [client]
    | allocAsync j =>
      cases hr : counterReserveWork (cfg.need j) true w with
      | none => simp_all [client]
      | some x =>
        have := htake hr
        simp_all [client]
    | free n =>
      obtain ⟨rfl, -⟩ := hfree h
      exact ⟨rfl, rfl, rfl⟩
  case run =>
    intro d w w' h
    cases d with
    | tryAlloc n => simp [client] at h
    | allocAsync j =>
      cases hr : counterReserveWork (cfg.need j) true w <;> simp [client, hr] at h
    | free n =>
      obtain ⟨rfl, ha⟩ := hfree h
      split at ha
      · simp_all
      · cases ha
  case lock =>
    intro d w w' a h ha
    cases d with
    | tryAlloc n =>
      cases hr : counterReserveWork n true w with
      | none => simp_all [client]
      | some x =>
        have := htake hr
        simp_all [client]
    | allocAsync j =>
      cases hr : counterReserveWork (cfg.need j) true w with
      | none => simp_all [client]
      | some x =>
        have := htake hr
        simp_all [client]
    | free n =>
      obtain ⟨rfl, hif⟩ := hfree h
      split at hif
      · exact absurd hif ha
      · cases hl : w.lock <;> simp_all [freed]

/-! ## The account of the delegate -/

/-- **The account is in order**: the invariants of the delegate hold, and nothing is unblocked.
`proper` are the requests to cancel whose target had been submitted when they were called. -/
structure InOrder (cfg : Config J) (q : State T J ℕ × Ledger J) (proper : J → Prop) : Prop where
  turn : Turn q.1
  kept : Kept (client cfg) q.1 q.2.log proper
  noUnblock : ∀ r j, cfg.func r = .unblockJob j → q.1.submitted r = false
  noUnblockNow : ∀ t j, q.1.pc t ≠ .unblockNow j

omit [DecidableEq T] [DecidableEq J] in
theorem inOrder_init (cfg : Config J) : InOrder cfg ((init cfg.max : State T J ℕ),
    ⟨Log.empty, [], 0, fun _ => false⟩) fun _ => False where
  turn := turn_init _
  kept := ⟨_, _, _, places_init _, cancels_init _⟩
  noUnblock _ _ _ := rfl
  noUnblockNow _ _ := nofun

variable {cfg : Config J}

/-- A call of a counter unblocks nothing. -/
theorem called_quiet {s s' : State T J ℕ} {t : T} {op : Op J}
    (hm : Called (client cfg) s t op.toDelegate s')
    (hun : ∀ r j, cfg.func r = .unblockJob j → s.submitted r = false)
    (hunw : ∀ t j, s.pc t ≠ .unblockNow j) :
    (∀ r j, cfg.func r = .unblockJob j → s'.submitted r = false) ∧
      ∀ t j, s'.pc t ≠ .unblockNow j := by
  have hpc : ∀ (p : Pc T J ℕ), (∀ j, p ≠ .unblockNow j) → ∀ u j,
      Function.update s.pc t p u ≠ .unblockNow j := fun p hp u j => by
    rw [Function.update_apply]
    split
    · exact hp j
    · exact hunw u j
  have hsub : ∀ x, (∀ j, cfg.func x ≠ .unblockJob j) → ∀ r j, cfg.func r = .unblockJob j →
      Function.update s.submitted x true r = false := fun x hx r j hr => by
    have hrx : r ≠ x := by
      rintro rfl
      exact hx j hr
    exact (Function.update_of_ne hrx _ _).trans (hun r j hr)
  generalize hd : op.toDelegate = d at hm
  cases hm
  case submit | runReturn | runWait | runLock | unblockSubmit | unblockLock => cases op <;> cases hd
  case cancelReturn | directReturn => exact ⟨hun, hunw⟩
  case cancelLock | directRun => exact ⟨hun, hpc _ nofun⟩
  case cancelSubmit hr _ | directSubmit hr _ =>
    refine ⟨hsub _ fun j hj => ?_, hpc _ nofun⟩
    cases (show _ = cfg.func _ from hr.symm).trans hj

variable {q q' : State T J ℕ × Ledger J} {proper proper' : J → Prop}

/-- **Every step keeps the account in order**, and a cancel may add its request to those whose
target had been submitted. -/
theorem InOrder.step (h : InOrder cfg q proper) {e : Event T J}
    (hstep : (ledgered T cfg).step q e = some q') (hok : Named cfg q e q')
    (hprop : ∀ r, proper' r → proper r ∨ ∃ t j, e = .call t (.cancel j r) ∧ Returned q.1 j) :
    InOrder cfg q' proper' := by
  obtain ⟨ht, ⟨loc, S, W, hp, hc⟩, hun, hunw⟩ := h
  obtain ⟨hs, hl⟩ := Machine.step_remember.mp hstep
  obtain ⟨s, l⟩ := q
  obtain ⟨s', l'⟩ := q'
  change l' = l.next cfg s e at hl
  subst hl
  cases e with
  | move t =>
    have hm := moved_of_move rfl (ht.whole t) hs
    obtain ⟨p, hpc, -, hpu, -⟩ := hm.line
    refine ⟨ht.moved hm, kept_moved ht hp (hc.mono fun r hr => ?_) hm, fun r j hr => ?_, fun u j => ?_⟩
    · obtain hr | ⟨_, _, he, -⟩ := hprop r hr
      · exact hr
      · cases he
    · exact (congrFun hm.submitted r).trans (hun r j hr)
    · change s'.pc u ≠ _
      rw [hpc, Function.update_apply]
      split
      · exact hpu j
      · exact hunw u j
  | call t op =>
    obtain ⟨hpc, hm⟩ := called_of_call hs
    have hcov := ht.called (honest cfg) hpc hm
    have hquiet := called_quiet hm hun hunw
    by_cases hop : ∃ j r, op = .cancel j r
    · obtain ⟨j, r, rfl⟩ := hop
      obtain ⟨hr, huser, ha⟩ := hok
      have hno : ¬ Unblocking (client cfg) s j := by
        rintro (⟨u, hu⟩ | ⟨r', hr', hsub, -⟩)
        · exact hunw u j hu
        · rw [hun r' j hr'] at hsub
          cases hsub
      have hkept : Kept (client cfg) s' _ proper' :=
        kept_cancel (x := (s, l.log)) hp hc hpc ⟨hr, huser, ha, hno⟩ hm fun r' hr' =>
          (hprop r' hr').imp_right fun ⟨u, x, he, hret⟩ => by
            cases he
            exact ⟨rfl, hret⟩
      exact ⟨hcov, hkept, hquiet.1, hquiet.2⟩
    · obtain ⟨d, waits, hd⟩ : ∃ d waits, op.toDelegate = .direct d waits := by
        cases op <;> first | exact ⟨_, _, rfl⟩ | exact absurd ⟨_, _, rfl⟩ hop
      have hlog : (l.next cfg s (.call t op)).log = l.log := by
        cases op <;> first | rfl | exact absurd ⟨_, _, rfl⟩ hop
      have hold : ∀ r, proper' r → proper r := fun r hr =>
        (hprop r hr).resolve_right fun ⟨u, j, he, _⟩ => by
          cases he
          exact hop ⟨j, r, rfl⟩
      refine ⟨hcov, ?_, hquiet.1, hquiet.2⟩
      change Kept _ s' (l.next cfg s (.call t op)).log _
      rw [hlog]
      rw [hd] at hm
      refine kept_called (x := (s, l.log)) (honest cfg) hp (hc.mono hold) hpc ?_ hm nofun
      trivial

/-- **The account along a run.** -/
theorem InOrder.run (h : InOrder cfg q proper) (hrun : (ledgered T cfg).Run (Named cfg) q q') :
    InOrder cfg q' proper := by
  induction hrun with
  | refl => exact h
  | tail _ hstep hok ih => exact ih.step hstep hok fun _ => .inl

theorem inOrder_of_reach (h : (ledgered T cfg).Reach (Named cfg) q) :
    InOrder cfg q fun _ => False := by
  obtain ⟨⟨s, l⟩, ⟨hs, hl⟩, hrun⟩ := h
  obtain rfl := hs
  obtain rfl := hl
  exact (inOrder_init cfg).run hrun

/-- **What is over is over**: a submitted job stays submitted, and a result is final. -/
theorem InOrder.final_step (h : InOrder cfg q proper) {e : Event T J}
    (hstep : (ledgered T cfg).step q e = some q') :
    (∀ j, q.1.submitted j = true → q'.1.submitted j = true) ∧
      ∀ r b, q.1.cancelled r = some b → q'.1.cancelled r = some b := by
  obtain ⟨hs, -⟩ := Machine.step_remember.mp hstep
  obtain ⟨loc, S, W, hp, hc⟩ := h.kept
  cases e with
  | move t =>
    have hm := moved_of_move rfl (h.turn.whole t) hs
    refine ⟨fun j hj => (congrFun hm.submitted j).trans hj, fun r b hr => ?_⟩
    obtain hsame | ⟨r', j, b', -, hnone, hupd, -⟩ := result_moved hp hc hm
    · exact (congrFun hsame r).trans hr
    · have hrr : r ≠ r' := by
        rintro rfl
        rw [hr] at hnone
        cases hnone
      rw [hupd, Function.update_of_ne hrr, hr]
  | call t op =>
    obtain ⟨-, hm⟩ := called_of_call hs
    refine ⟨fun j hj => ?_, fun r b hr => (congrFun (result_called hm) r).trans hr⟩
    generalize q'.1 = s', op.toDelegate = d at hm
    cases hm <;> first | exact hj | simp [State.goto, State.enter, Function.update_apply, hj]

theorem InOrder.final (h : InOrder cfg q proper) (hrun : (ledgered T cfg).Run (Named cfg) q q') :
    (∀ j, q.1.submitted j = true → q'.1.submitted j = true) ∧
      ∀ r b, q.1.cancelled r = some b → q'.1.cancelled r = some b := by
  induction hrun with
  | refl => exact ⟨fun _ => id, fun _ _ => id⟩
  | tail hrun hstep _ ih =>
    obtain ⟨hsub, hres⟩ := (h.run hrun).final_step hstep
    exact ⟨fun j hj => hsub j (ih.1 j hj), fun r b hr => hres r b (ih.2 r b hr)⟩

end Counter
