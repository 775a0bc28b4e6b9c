import Lwlock.CounterLedger

/-!
# The units of a counter

Units are granted on three paths and given back on one, and each of the four changes the
number of available units by what it grants or gives back. The other steps of the delegate
rewrite the same word and leave that number alone: the swap at the end of a run installs the
word it was compared with, but for two bits.

A request is granted at most once, and a request that was submitted is granted exactly when
its job returns `DONE`; what a cancel of it says follows from the account of the delegate.
-/

namespace Counter

open Delegate

variable {T J : Type} [DecidableEq T] [DecidableEq J]

/-- **Lawful use**: every cancel has a request of its own, a request is made once, and only
units that were granted are given back. -/
def Lawful (cfg : Config J) (q : State T J ℕ × Ledger J) (e : Event T J)
    (q' : State T J ℕ × Ledger J) : Prop :=
  Named cfg q e q' ∧ match e with
    | .call _ (.alloc j) | .call _ (.allocAsync j) => cfg.func j = .user ∧ q.2.requested j = false
    | .call _ (.free n) => q.2.freed + n ≤ q.2.issued cfg.need
    | _ => True

/-- The requests that were granted. -/
def Ledger.granted (l : Ledger J) : List J := l.grants.filterMap Grant.request

/-- **The jobs of a counter**: none is blocked alone, and a grant to a request that waited is a
`DONE` of its job. -/
structure Jobs (cfg : Config J) (q : State T J ℕ × Ledger J) : Prop where
  blocked : q.1.blocked = []
  queued : ∀ j, q.2.grants.count (.queued j) = q.2.log.dones j
  user : ∀ j, .queued j ∈ q.2.grants → cfg.func j = .user

/-- **The invariant of the units.** -/
structure Units (cfg : Config J) (q : State T J ℕ × Ledger J) : Prop where
  balance : q.1.word.other + q.2.issued cfg.need = cfg.max + q.2.freed
  covered : q.2.freed ≤ q.2.issued cfg.need
  direct : ∀ j, q.2.grants.count (.direct j) ≤ 1
  known : ∀ j, .direct j ∈ q.2.grants →
    cfg.func j = .user ∧ q.2.requested j = true ∧ q.1.submitted j = false
  requested : ∀ j, cfg.func j = .user → q.1.submitted j = true → q.2.requested j = true

omit [DecidableEq T] in
theorem jobs_init (cfg : Config J) :
    Jobs cfg ((init cfg.max : State T J ℕ), ⟨Log.empty, [], 0, fun _ => false⟩) := by
  constructor <;> simp [init, Log.empty]

omit [DecidableEq T] in
theorem units_init (cfg : Config J) :
    Units cfg ((init cfg.max : State T J ℕ), ⟨Log.empty, [], 0, fun _ => false⟩) := by
  constructor <;> simp [init, Ledger.issued]

variable {cfg : Config J} {s s' : State T J ℕ} {t : T}

omit [DecidableEq T] [DecidableEq J] in
theorem issued_append (cfg : Config J) (l : Ledger J) (g : Option (Grant J)) :
    ((l.grants ++ g.toList).map (Grant.units cfg.need)).sum
      = l.issued cfg.need + (g.map (Grant.units cfg.need)).getD 0 := by
  cases g <;> simp [Ledger.issued]

/-- **A further step** grants a request that waited, or leaves the units alone. -/
theorem moved_units (hm : Moved (client cfg) s t () s') :
    (granted cfg s (.move t) = none ∧ finishes (client cfg) s (.move t ()) = none ∧
      s'.word.other = s.word.other) ∨
    ∃ j, granted cfg s (.move t) = some (.queued j) ∧
      finishes (client cfg) s (.move t ()) = some j ∧ cfg.func j = .user ∧
      cfg.need j ≤ s.word.other ∧ s'.word.other = s.word.other - cfg.need j := by
  cases hm
  case job old copy j q o b st hpc hq hf hinv hcopy =>
    change cfg.func j = .user at hf
    have hi : counterAllocJob (cfg.need j) s.word.other = (o, b, st) := hinv
    unfold counterAllocJob at hi
    split at hi <;> cases hi
    · refine .inl ⟨?_, ?_, rfl⟩
      · simp only [granted, hpc, hq, hf]
        rw [if_neg (by omega)]
      · simp [finishes, client, counterAllocJob, *]
    · refine .inr ⟨j, ?_, ?_, hf, by omega, rfl⟩
      · simp only [granted, hpc, hq, hf]
        rw [if_pos (by omega)]
      · simp [finishes, client, counterAllocJob, *]
  case queuedCancel hpc hq hf =>
    change cfg.func _ = _ at hf
    refine .inl ⟨by simp [granted, hpc, hq, hf], by simp [finishes, client, hpc, hq, hf], ?_⟩
    simp [State.goto, State.finish, State.signal]
  case queuedUnblock hpc hq hf h₁ =>
    change cfg.func _ = _ at hf
    obtain ⟨-, rfl⟩ := jobToUnblockAnotherJob_eq h₁
    exact .inl ⟨by simp [granted, hpc, hq, hf], by simp [finishes, client, hpc, hq, hf], rfl⟩
  case queueEnd hpc hq => exact .inl ⟨by simp [granted, hpc, hq], by simp [finishes, hpc, hq], rfl⟩
  case immediateUnblock hpc _ h₁ | unblockNow hpc h₁ =>
    obtain ⟨-, rfl⟩ := jobToUnblockAnotherJob_eq h₁
    exact .inl ⟨by simp [granted, hpc], by simp [finishes, hpc], rfl⟩
  case immediateCancel hpc _ | cancelRemove hpc =>
    exact .inl ⟨by simp [granted, hpc], by simp [finishes, hpc], by simp [State.goto, State.signal]⟩
  case releaseWait hpc hw _ | release hpc hw _ _ =>
    exact .inl ⟨by simp [granted, hpc], by simp [finishes, hpc], by rw [hw]; rfl⟩
  case push hpc | fastEnqueue hpc | runStart hpc | drainClear hpc | drainTake hpc | walkEnd hpc |
      immediateEnd hpc | submitSlow hpc _ | setBitsRun hpc _ | drainSkip hpc _ | drainEnter hpc _ |
      walkAside hpc _ | walkQueue hpc _ | releaseRetry hpc _ | wakeup hpc _ | woken hpc _ |
      waitEvent hpc _ | unlock hpc _ _ | handOver hpc _ _ | setBits hpc _ _ | submitFast hpc _ _ _ =>
    exact .inl ⟨by simp [granted, hpc], by simp [finishes, hpc], rfl⟩

/-- **A call** grants at once, gives back, or leaves the units alone. -/
theorem called_units {op : Op J} (hm : Called (client cfg) s t op.toDelegate s') :
    (∃ g, granted cfg s (.call t op) = some g ∧ gives (.call t op : Event T J) = 0 ∧
      g.request = requests (.call t op : Event T J) ∧ s'.submitted = s.submitted ∧
      (∀ j, g ≠ .queued j) ∧ g.units cfg.need ≤ s.word.other ∧
      s'.word.other = s.word.other - g.units cfg.need) ∨
    granted cfg s (.call t op) = none ∧
      ((∃ n, op = .free n ∧ s'.submitted = s.submitted ∧
        s'.word.other = (s.word.other + n) % 2 ^ 32) ∨
      gives (.call t op : Event T J) = 0 ∧ s'.word.other = s.word.other ∧
        (s'.submitted = s.submitted ∨ ∃ j, s'.submitted = Function.update s.submitted j true ∧
          (cfg.func j = .user → requests (.call t op : Event T J) = some j))) := by
  have hfree : ∀ {n : ℕ} {w : Word ℕ} {a : After J}, counterFree cfg n s.word = some (w, a) →
      w.other = (s.word.other + n) % 2 ^ 32 ∧ ∀ j, a ≠ .submit j := by
    intro n w a h
    unfold counterFree at h
    split at h <;> cases h
    refine ⟨rfl, fun j => ?_⟩
    split <;> simp
  have htake : ∀ {n : ℕ} {w : Word ℕ}, counterReserveWork n true s.word = some w →
      n ≤ s.word.other ∧ w.other = s.word.other - n := by
    intro n w h
    obtain ⟨hn, rfl, -⟩ := counterReserveWork_eq h
    exact ⟨hn, rfl⟩
  cases op with
  | tryAlloc n =>
    cases hr : counterReserveWork n true s.word with
    | none =>
      refine .inr ⟨by simp [granted, hr], .inr ⟨rfl, ?_, .inl ?_⟩⟩ <;>
        cases hm <;> simp_all [client]
    | some x =>
      obtain ⟨hn, hx⟩ := htake hr
      refine .inl ⟨.tryAlloc n, by simp [granted, hr], rfl, rfl, ?_, (by simp), hn, ?_⟩ <;>
        cases hm <;> simp_all [client, Grant.units]
  | alloc j | allocAsync j =>
    cases hr : counterReserveWork (cfg.need j) true s.word with
    | none =>
      refine .inr ⟨by simp [granted, hr], .inr ⟨rfl, ?_⟩⟩
      have hd : (client cfg).direct (.allocAsync j) s.word = some (s.word, .submit j) := by
        simp [client, hr]
      cases hm
      case directReturn h | directRun h =>
        rw [hd] at h
        cases h
      case directSubmit _ _ h =>
        rw [hd] at h
        cases h
        exact ⟨rfl, .inr ⟨j, rfl, fun _ => rfl⟩⟩
    | some x =>
      obtain ⟨hn, hx⟩ := htake hr
      refine .inl ⟨.direct j, by simp [granted, hr], rfl, rfl, ?_, (by simp), hn, ?_⟩ <;>
        cases hm <;> simp_all [client, Grant.units]
  | cancel j r =>
    refine .inr ⟨rfl, .inr ⟨rfl, ?_⟩⟩
    cases hm
    case cancelLock => exact ⟨rfl, .inl rfl⟩
    case cancelSubmit _ hr =>
      refine ⟨rfl, .inr ⟨r, rfl, fun hu => ?_⟩⟩
      cases (show cfg.func r = .user from hu).symm.trans hr
  | free n =>
    refine .inr ⟨rfl, .inl ⟨n, rfl, ?_⟩⟩
    cases hm
    case directReturn hd | directRun hd => exact ⟨rfl, (hfree hd).1⟩
    case directSubmit _ _ hd => exact absurd rfl ((hfree hd).2 _)

variable {q q' : State T J ℕ × Ledger J} {e : Event T J} {proper : J → Prop}

/-- A job of a counter is never blocked alone. -/
theorem moved_blocked (hm : Moved (client cfg) s t () s') (h : s.blocked = []) : s'.blocked = [] := by
  have hc : ∀ c j, (s.delegateCancelJob c j).blocked = [] := fun c j => by
    rw [blocked_delegateCancelJob, h]
    split <;> rfl
  cases hm
  case immediateCancel c j _ _ _ => exact hc c j
  case cancelRemove j c _ => exact hc c j
  case queuedCancel c j _ _ _ _ => exact hc c j
  case immediateUnblock h₁ | queuedUnblock h₁ | unblockNow h₁ =>
    obtain ⟨-, rfl⟩ := jobToUnblockAnotherJob_eq h₁
    change s.blocked.erase _ = []
    rw [h]
    rfl
  case job hinv _ =>
    have hi : counterAllocJob _ s.word.other = _ := hinv
    unfold counterAllocJob at hi
    split at hi <;> cases hi <;> exact h
  all_goals exact h

/-- **Every step keeps the jobs in order.** -/
theorem Jobs.step (h : Jobs cfg q) (ht : Turn q.1) (hstep : (ledgered T cfg).step q e = some q') :
    Jobs cfg q' := by
  obtain ⟨hs, hl⟩ := Machine.step_remember.mp hstep
  obtain ⟨s, l⟩ := q
  obtain ⟨s', l'⟩ := q'
  obtain ⟨hb, hq, hu⟩ := h
  change (machine T cfg).step s e = some s' at hs
  change l' = l.next cfg s e at hl
  simp only at hb hq hu
  have hgrants : l'.grants = l.grants ++ (granted cfg s e).toList := by rw [hl]; rfl
  cases e with
  | move t =>
    have hm : Moved (client cfg) s t () s' := moved_of_move rfl (ht.whole t) hs
    have hdones : l'.log = l.log.next (client cfg) s (.move t ()) := by
      rw [hl]
      rfl
    obtain ⟨hg, hf, -⟩ | ⟨j, hg, hf, huser, -⟩ := moved_units hm
    · rw [hg, Option.toList_none, List.append_nil] at hgrants
      rw [Log.next_move hf] at hdones
      exact ⟨moved_blocked hm hb, by rwa [hgrants, hdones], by rwa [hgrants]⟩
    · rw [hg, Option.toList_some] at hgrants
      refine ⟨moved_blocked hm hb, fun x => ?_, fun x hx => ?_⟩
      · rw [hgrants, List.count_append, hq, hdones]
        by_cases hx : x = j
        · subst hx
          simp [Log.next, hf]
        · simp [Log.next, hf, hx, Ne.symm hx]
      · rw [hgrants, List.mem_append, List.mem_singleton, Grant.queued.injEq] at hx
        obtain hx | rfl := hx
        · exact hu x hx
        · exact huser
  | call t op =>
    obtain ⟨hpc, hm⟩ : s.pc t = .idle ∧ Called (client cfg) s t op.toDelegate s' := called_of_call hs
    have hdones : l'.log.dones = l.log.dones := by
      rw [hl]
      rfl
    have hblocked : s'.blocked = [] := by
      generalize op.toDelegate = d at hm
      cases hm <;> exact hb
    obtain ⟨g, hg, -, -, -, hnq, -⟩ | ⟨hg, -⟩ := called_units hm
    · rw [hg, Option.toList_some] at hgrants
      refine ⟨hblocked, fun x => ?_, fun x hx => ?_⟩
      · rw [hgrants, List.count_append, hq, hdones,
          List.count_eq_zero_of_not_mem (l := [g]) (by simpa using (hnq x).symm)]
        rfl
      · rw [hgrants, List.mem_append, List.mem_singleton] at hx
        exact hx.elim (hu x) fun he => absurd he.symm (hnq x)
    · rw [hg, Option.toList_none, List.append_nil] at hgrants
      exact ⟨hblocked, by rwa [hgrants, hdones], by rwa [hgrants]⟩

omit [DecidableEq T] [DecidableEq J] in
/-- A request that is made is a new one, of the user. -/
theorem Lawful.requests {j : J} (h : Lawful cfg q e q') (hj : requests e = some j) :
    cfg.func j = .user ∧ q.2.requested j = false := by
  obtain ⟨-, h⟩ := h
  cases e with
  | move t => cases hj
  | call t op => cases op <;> cases hj <;> exact h

/-- **Every lawful step conserves the units.** -/
theorem Units.step (h : Units cfg q) (ht : Turn q.1) (hstep : (ledgered T cfg).step q e = some q')
    (hok : Lawful cfg q e q') : Units cfg q' := by
  have hnew : ∀ j, requests e = some j → cfg.func j = .user ∧ q.2.requested j = false :=
    fun j hj => hok.requests hj
  obtain ⟨hs, hl⟩ := Machine.step_remember.mp hstep
  obtain ⟨s, l⟩ := q
  obtain ⟨s', l'⟩ := q'
  obtain ⟨hbal, hcov, hd, hk, hr⟩ := h
  change (machine T cfg).step s e = some s' at hs
  change l' = l.next cfg s e at hl
  simp only at hbal hcov hd hk hr hnew
  have hissued := issued_append cfg l (granted cfg s e)
  have hgrants : l'.grants = l.grants ++ (granted cfg s e).toList := by rw [hl]; rfl
  have hfreed : l'.freed = l.freed + gives e := by rw [hl]; rfl
  have hreq : l'.requested = (l.next cfg s e).requested := by rw [hl]
  simp only [Ledger.next] at hreq
  rw [← hgrants] at hissued
  change l'.issued cfg.need = _ at hissued
  cases e with
  | move t =>
    have hm : Moved (client cfg) s t () s' := moved_of_move rfl (ht.whole t) hs
    have hsub : s'.submitted = s.submitted := hm.submitted
    simp only [gives, requests, Nat.add_zero] at hfreed hreq
    obtain ⟨hg, -, hw⟩ | ⟨j, hg, -, -, hn, hw⟩ := moved_units hm
    · simp only [hg, Option.toList_none, List.append_nil, Option.map_none, Option.getD_none,
        Nat.add_zero] at hgrants hissued
      constructor <;> simp_all
    · simp only [hg, Option.toList_some, Option.map_some, Option.getD_some, Grant.units]
        at hgrants hissued
      constructor
      case balance | covered => simp only [hissued, hfreed]; omega
      case direct => simpa [hgrants] using hd
      case known => simpa [hgrants, hreq, hsub] using hk
      case requested => simpa [hreq, hsub] using hr
  | call t op =>
    obtain ⟨hpc, hm⟩ : s.pc t = .idle ∧ Called (client cfg) s t op.toDelegate s' := called_of_call hs
    have hmono : ∀ j, l.requested j = true → l'.requested j = true := by
      intro j hj
      rw [hreq]
      cases requests (Event.call t op) with
      | none => exact hj
      | some i =>
        by_cases hi : j = i
        · rw [hi]
          exact Function.update_self _ _ _
        · exact (Function.update_of_ne hi _ _).trans hj
    obtain ⟨g, hg, hgv, hgr, hsub, hnq, hn, hw⟩ | ⟨hg, hrest⟩ := called_units hm
    · simp only [hg, Option.toList_some, Option.map_some, Option.getD_some] at hgrants hissued
      have hfresh : ∀ j, g = .direct j → .direct j ∉ l.grants ∧ cfg.func j = .user ∧
          l'.requested j = true ∧ s.submitted j = false := by
        rintro j rfl
        obtain ⟨huser, hj⟩ := hnew j hgr.symm
        refine ⟨fun hm => ?_, huser, ?_, Bool.eq_false_iff.mpr fun hm => ?_⟩
        · rw [(hk j hm).2.1] at hj
          cases hj
        · rw [hreq, ← hgr]
          exact Function.update_self _ _ _
        · rw [hr j huser hm] at hj
          cases hj
      constructor
      case balance | covered => simp only [hissued, hfreed]; omega
      case direct =>
        intro x
        rw [hgrants, List.count_append]
        by_cases hx : g = .direct x
        · refine Nat.le_of_eq ?_
          rw [List.count_eq_zero_of_not_mem (hfresh x hx).1, hx, List.count_singleton_self]
        · rw [List.count_eq_zero_of_not_mem (l := [g]) (by simpa using Ne.symm hx)]
          exact hd x
      case known =>
        intro x hx
        rw [hgrants, List.mem_append, List.mem_singleton] at hx
        obtain hx | hx := hx
        · obtain ⟨hu, hr, hs⟩ := hk x hx
          exact ⟨hu, hmono x hr, (congrFun hsub x).trans hs⟩
        · obtain ⟨-, hu, hr, hs⟩ := hfresh x hx.symm
          exact ⟨hu, hr, (congrFun hsub x).trans hs⟩
      case requested =>
        intro x hx hxs
        exact hmono x (hr x hx ((congrFun hsub x).symm.trans hxs))
    · simp only [hg, Option.toList_none, List.append_nil, Option.map_none, Option.getD_none,
        Nat.add_zero] at hgrants hissued
      have hdirect : ∀ j, l'.grants.count (.direct j) ≤ 1 := by rwa [hgrants]
      obtain ⟨n, rfl, hsub, hw⟩ | ⟨hgv, hw, hsub⟩ := hrest
      · have hn : l.freed + n ≤ l.issued cfg.need := hok.2
        have hmax := cfg.max_lt
        have hgv : gives (.call t (.free n) : Event T J) = n := rfl
        rw [Nat.mod_eq_of_lt (by omega)] at hw
        exact ⟨by simp only [hissued, hfreed]; omega, by simp only [hissued, hfreed]; omega, hdirect,
          fun j hj => by simpa [hreq, hsub, requests] using hk j (hgrants ▸ hj),
          fun j hj hjs => by simpa [hreq, requests] using hr j hj (hsub ▸ hjs)⟩
      · refine ⟨by simp only [hissued, hfreed]; omega, by simp only [hissued, hfreed]; omega, hdirect,
          fun j hj => ?_, fun j hj hjs => ?_⟩
        · obtain ⟨hku, hkr, hks⟩ := hk j (hgrants ▸ hj)
          refine ⟨hku, hmono j hkr, ?_⟩
          obtain hsub | ⟨x, hsub, hx⟩ := hsub
          · exact (congrFun hsub j).trans hks
          · have hjx : j ≠ x := by
              rintro rfl
              rw [(hnew j (hx hku)).2] at hkr
              cases hkr
            change s'.submitted j = false
            rw [hsub, Function.update_of_ne hjx, hks]
        · obtain hsub | ⟨x, hsub, hx⟩ := hsub
          · exact hmono j (hr j hj (hsub ▸ hjs))
          · by_cases hjx : j = x
            · subst hjx
              change l'.requested j = true
              rw [hreq, hx hj]
              exact Function.update_self _ _ _
            · exact hmono j (hr j hj (by
                change s'.submitted j = true at hjs
                rwa [hsub, Function.update_of_ne hjx] at hjs))

/-! ## What a run keeps -/

/-- **What a lawful run keeps**: the account of the delegate, the jobs and the units. -/
structure Conserved (cfg : Config J) (q : State T J ℕ × Ledger J) (proper : J → Prop) : Prop where
  order : InOrder cfg q proper
  jobs : Jobs cfg q
  units : Units cfg q

theorem Conserved.run (h : Conserved cfg q proper) (hrun : (ledgered T cfg).Run (Lawful cfg) q q') :
    Conserved cfg q' proper := by
  induction hrun with
  | refl => exact h
  | tail _ hstep hok ih => exact ⟨ih.order.step hstep hok.1 fun _ => .inl,
      ih.jobs.step ih.order.turn hstep, ih.units.step ih.order.turn hstep hok⟩

/-- The jobs along a run. -/
theorem Jobs.run (hj : Jobs cfg q) (ho : InOrder cfg q proper)
    (h : (ledgered T cfg).Run (Named cfg) q q') : Jobs cfg q' := by
  induction h with
  | refl => exact hj
  | tail hrun hstep _ ih => exact ih.step (ho.run hrun).turn hstep

theorem jobs_of_reach (h : (ledgered T cfg).Reach (Named cfg) q) : Jobs cfg q := by
  obtain ⟨⟨s, l⟩, ⟨hs, hl⟩, hrun⟩ := h
  obtain rfl := hs
  obtain rfl := hl
  exact (jobs_init cfg).run (inOrder_init cfg) hrun

theorem conserved_of_reach (h : (ledgered T cfg).Reach (Lawful cfg) q) :
    Conserved cfg q fun _ => False := by
  obtain ⟨⟨s, l⟩, ⟨hs, hl⟩, hrun⟩ := h
  obtain rfl := hs
  obtain rfl := hl
  exact Conserved.run ⟨inOrder_init cfg, jobs_init cfg, units_init cfg⟩ hrun

omit [DecidableEq J] in
theorem mem_granted {l : Ledger J} {j : J} :
    j ∈ l.granted ↔ .direct j ∈ l.grants ∨ .queued j ∈ l.grants := by
  unfold Ledger.granted
  rw [List.mem_filterMap]
  constructor
  · rintro ⟨g, hg, hj⟩
    cases g <;> cases hj
    · exact .inl hg
    · exact .inr hg
  · rintro (h | h)
    · exact ⟨_, h, rfl⟩
    · exact ⟨_, h, rfl⟩

omit [DecidableEq T] in
theorem count_granted (l : Ledger J) (j : J) :
    l.granted.count j = l.grants.count (.direct j) + l.grants.count (.queued j) := by
  unfold Ledger.granted
  induction l.grants with
  | nil => rfl
  | cons g l ih =>
    cases g with
    | tryAlloc n => simpa [List.filterMap_cons, Grant.request] using ih
    | direct x => simp [Grant.request, List.count_cons, ih, Nat.add_right_comm]
    | queued x => simp [Grant.request, List.count_cons, ih, Nat.add_assoc]

omit [DecidableEq T] in
/-- **A request is granted at most once.** -/
theorem Conserved.granted_once (h : Conserved cfg q proper) (j : J) : q.2.granted.count j ≤ 1 := by
  obtain ⟨⟨-, ⟨loc, S, W, hp, hc⟩, -, -⟩, hj, hu⟩ := h
  rw [count_granted]
  by_cases hq : .queued j ∈ q.2.grants
  · have huser := hj.user j hq
    have hsig : q.1.signals j ≠ 0 := by
      rw [← hc.dones j huser, ← hj.queued j]
      exact fun h0 => List.count_eq_zero.mp h0 hq
    have hgone : loc j = .gone := by
      by_contra hne
      exact hsig (hc.signals j hne)
    have hd : .direct j ∉ q.2.grants := fun hm => by
      rw [(hp.fresh j).mp (hu.known j hm).2.2] at hgone
      cases hgone
    rw [List.count_eq_zero_of_not_mem hd, hj.queued j, hc.dones j huser]
    obtain ⟨-, hs⟩ | ⟨-, hs⟩ := hc.gone j huser hgone <;> omega
  · rw [List.count_eq_zero_of_not_mem hq]
    exact hu.direct j

omit [DecidableEq T] in
/-- **A submitted request was granted** if it was signalled. -/
theorem Conserved.granted_iff (h : Conserved cfg q proper) {j : J} (huser : cfg.func j = .user)
    (hs : q.1.submitted j = true) : j ∈ q.2.granted ↔ q.1.signals j ≠ 0 := by
  obtain ⟨⟨-, ⟨loc, S, W, hp, hc⟩, -, -⟩, hj, hu⟩ := h
  have hd : .direct j ∉ q.2.grants := fun hm => by
    rw [(hu.known j hm).2.2] at hs
    cases hs
  rw [mem_granted, ← hc.dones j huser, ← hj.queued j, ne_eq, List.count_eq_zero, not_not]
  exact or_iff_right hd

/-- **A request that was taken back is never granted.** -/
theorem Conserved.not_granted {r target : J} (h : Conserved cfg q proper)
    (hr : cfg.func r = .cancelJob target) (huser : cfg.func target = .user)
    (hsub : q.1.submitted target = true) (hres : q.1.cancelled r = some true)
    (hrun : (ledgered T cfg).Run (Lawful cfg) q q') : target ∉ q'.2.granted := by
  obtain ⟨hsub', hres'⟩ := h.order.final (hrun.mono fun _ _ _ hok => hok.1)
  have h' := h.run hrun
  rw [h'.granted_iff huser (hsub' target hsub), not_not]
  obtain ⟨loc, S, W, hp, hc⟩ := h'.order.kept
  obtain ⟨hgone, howned⟩ := hc.gave r target hr (hres' r _ hres)
  obtain ⟨ho, -⟩ | ⟨-, hs⟩ := hc.gone target huser hgone
  · rw [ho] at howned
    cases howned
  · exact hs

omit [DecidableEq T] in
/-- **A request whose cancel was refused** was granted, or taken back by another cancel. -/
theorem Conserved.granted_of_refused {r target : J} (h : Conserved cfg q proper)
    (hr : cfg.func r = .cancelJob target) (huser : cfg.func target = .user)
    (hsub : q.1.submitted target = true) (hprop : proper r) (hres : q.1.cancelled r = some false) :
    target ∈ q.2.granted ∨
      ∃ r', r' ≠ r ∧ cfg.func r' = .cancelJob target ∧ q.1.cancelled r' = some true := by
  rw [h.granted_iff huser hsub]
  obtain ⟨loc, S, W, hp, hc⟩ := h.order.kept
  have hgone := hc.refused r target hr hprop hres
  obtain ⟨-, hs⟩ | ⟨howned, -⟩ := hc.gone target huser hgone
  · exact .inl (by rw [hs]; exact Nat.one_ne_zero)
  · obtain ⟨r', hr', hgave⟩ := hc.taken target huser hgone howned
    refine .inr ⟨r', ?_, hr', hgave⟩
    rintro rfl
    rw [hres] at hgave
    cases hgave

instance (cfg : Config J) (q : State T J ℕ × Ledger J) (e : Event T J) (q' : State T J ℕ × Ledger J) :
    Decidable (Lawful cfg q e q') :=
  match e with
  | .call _ (.alloc j) => inferInstanceAs (Decidable (True ∧ cfg.func j = .user ∧ q.2.requested j = false))
  | .call _ (.allocAsync j) =>
    inferInstanceAs (Decidable (True ∧ cfg.func j = .user ∧ q.2.requested j = false))
  | .call _ (.free n) => inferInstanceAs (Decidable (True ∧ q.2.freed + n ≤ q.2.issued cfg.need))
  | .call _ (.cancel target r) => inferInstanceAs (Decidable ((cfg.func r = .cancelJob target ∧
      cfg.func target = .user ∧ q.2.log.asked r = false) ∧ True))
  | .call _ (.tryAlloc _) => inferInstanceAs (Decidable (True ∧ True))
  | .move _ => inferInstanceAs (Decidable (True ∧ True))

/-- A counter of one unit: a request for it, and two requests to cancel that one. -/
def single : Config (Fin 3) where
  max := 1
  max_lt := by decide
  hardMax := true
  need := fun _ => 1
  func := fun j => if j = 0 then .user else .cancelJob 0

/-- A thread takes the unit, and asks for one more, which blocks. -/
def asked : List (Event Unit (Fin 3)) :=
  [.call () (.tryAlloc 1), .call () (.allocAsync 0)] ++ List.replicate 6 (.move ())

/-- It takes the request back. -/
def takenBack : List (Event Unit (Fin 3)) :=
  asked ++ [.call () (.cancel 0 1)] ++ List.replicate 6 (.move ())

end Counter
