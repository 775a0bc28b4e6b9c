import Lwlock.CounterUnits
import Lwlock.DelegateLine

/-!
# The counter is strictly fair

A request that waits stands in the line of the delegate, and from the moment its submission
has returned one of three bits says so: the lock, the incoming bit or the pending bit. The
direct path looks at the three and gives way, and so does the fast path of a submission. What
is submitted afterwards gets in line behind, and a grant to a request in line takes the one
at its head.
-/

namespace Counter

open Delegate

variable {T J : Type} [DecidableEq T] [DecidableEq J] {cfg : Config J} {s s' : State T J ℕ}
  {loc loc' : J → Loc T} {S S' : List J} {W W' : T → List J} {t : T} {r : J} {late : J → Prop}

omit [DecidableEq T] in
/-- A cancel of another request takes that one out of the line. -/
theorem ahead_cancel (ha : Ahead s S W r late) (hW : ∀ u, W u = []) (t : T) (c : J) {target : J}
    (hne : s.stillWith target = true → target ≠ r) :
    Ahead (s.delegateCancelJob c target) S W r late := by
  have hq := queued_delegateCancelJob s c target
  by_cases hin : (s.stillWith target = true ∧ s.isBlocked target = false) ∧ target ∈ s.queued
  · obtain ⟨hw, hin⟩ := hin
    obtain ⟨X, Y, -, hX, hY⟩ := List.exists_erase_eq hin
    rw [if_pos hw, hY] at hq
    exact ha.leave hW t hX hq (hne hw.1)
  · have hsame : (s.delegateCancelJob c target).queued = s.queued := by
      rw [hq]
      split
      · exact List.erase_of_not_mem fun hm => hin ⟨by assumption, hm⟩
      · rfl
    obtain ⟨u, hu, hfirst⟩ := ha
    exact ⟨u, hu, by rwa [line_of_nil (hW u), hsame, ← line_of_nil (s := s) (hW u)]⟩

/-- **Every further step keeps the place of a request in the line**, unless it grants the request
or takes it back. -/
theorem ahead_moved (ht : Turn s) (hp : Places s loc S W) (hp' : Places s' loc' S' W')
    (ha : Ahead s S W r late) (hm : Moved (client cfg) s t () s') (hr : cfg.func r = .user)
    (hun : ∀ x j, cfg.func x = .unblockJob j → loc x = .fresh) (hunw : ∀ j, s.pc t ≠ .unblockNow j)
    (hown : ∀ c j, (s.pc t).own = some (j, c) → cfg.func c = .cancelJob j)
    (hself : ∀ c ∈ s.queued, cfg.func c ≠ .cancelJob c)
    (hfast : ∀ x, s.pc t = .fastEnqueue x → ¬ late x)
    (hgrant : granted cfg s (.move t) ≠ some (.queued r))
    (hcan : ∀ c, cfg.func c = .cancelJob r → s'.cancelled c ≠ some true) :
    Ahead s' S' W' r late := by
  cases hm
  case submitSlow hpc _ | submitFast hpc _ _ _ | setBitsRun hpc _ | runStart hpc | drainEnter hpc _ |
      drainClear hpc | queueEnd hpc _ | releaseWait hpc _ _ | releaseRetry hpc _ | handOver hpc _ _ |
      woken hpc _ | waitEvent hpc _ =>
    obtain ⟨rfl, rfl⟩ := hp.same hp' rfl rfl rfl (by simp [hpc])
    exact ha.goto rfl rfl (.inl (by simp [hpc]))
  case setBits hpc _ hout | release hpc _ _ hout | unlock hpc _ hout | wakeup hpc hout =>
    obtain rfl | ⟨_, rfl⟩ := hout <;>
    · obtain ⟨rfl, rfl⟩ := hp.same hp' rfl rfl rfl (by simp [hpc])
      exact ha.goto rfl rfl (.inl (by simp [hpc]))
  case drainSkip k hpc _ | immediateEnd k hpc =>
    cases k <;>
    · obtain ⟨rfl, rfl⟩ := hp.same hp' rfl rfl rfl (by simp [hpc, Caller.next])
      exact ha.goto rfl rfl (.inl (by simp [hpc, Caller.next]))
  case walkEnd hpc =>
    obtain ⟨rfl, rfl⟩ := hp.same hp' rfl rfl rfl (by simp [hpc])
    exact ha.goto rfl rfl (.inr (hp.walks_nil (by simp [hpc])))
  case push j lock hpc =>
    obtain ⟨rfl, rfl⟩ := hp'.unique (hp.push hpc ⟨rfl, rfl, rfl, rfl, rfl, rfl, rfl⟩ rfl rfl)
    exact ha.push rfl rfl (by simp [hpc])
  case fastEnqueue j hpc =>
    obtain ⟨rfl, rfl⟩ := hp.same hp' rfl rfl rfl (by simp [hpc])
    exact ha.enqueue (ht.walks_none hp (by rw [hpc]; rfl) (by simp [hpc])) t rfl (hfast j hpc)
  case drainTake k hpc =>
    obtain ⟨rfl, rfl⟩ := hp'.unique (hp.take hpc ⟨rfl, rfl, rfl, rfl, rfl, rfl, rfl⟩ rfl)
    exact ha.take (ht.walks_none hp (by rw [hpc]; rfl) (by simp [hpc])) rfl rfl rfl
  case walkAside k j last imm hpc hf =>
    obtain ⟨rfl, rfl⟩ := hp'.unique (hp.walkAside hpc ⟨rfl, rfl, rfl, rfl, rfl, rfl, rfl⟩ rfl rfl)
    obtain ⟨R, hR⟩ := hp.rest_eq hpc
    rw [hR]
    refine ha.walkAside (ht.walks_alone hp (by rw [hpc]; rfl)) hR rfl rfl (by simp [hpc]) ?_
    rintro rfl
    exact hf hr
  case walkQueue k j last imm hpc hf =>
    obtain ⟨rfl, rfl⟩ := hp'.unique (hp.walkQueue hpc ⟨rfl, rfl, rfl, rfl, rfl, rfl, rfl⟩ rfl rfl)
    obtain ⟨R, hR⟩ := hp.rest_eq hpc
    have hjq : j ∉ s.queued := fun hm => by
      have hrest := (hp.memWalk t j).mp (hR ▸ List.mem_cons_self)
      rw [(hp.memQueued j).mp hm] at hrest
      cases hrest
    rw [hR]
    exact ha.walkQueue (ht.walks_alone hp (by rw [hpc]; rfl)) hR rfl (by simp [hpc] : _ = last)
      (fun l hl => hp.last t l (by simp [hpc, hl])) hjq rfl rfl
  case immediateCancel k c target imm hpc hc =>
    obtain ⟨rfl, rfl⟩ := hp.same hp' (by simp [State.goto, State.signal])
      (by simp [State.goto, State.signal]) (t := t) (p := .drainImmediate k imm)
      (by simp [State.goto, State.signal]) (by simp [hpc])
    have hnone := ht.walks_none hp (t := t) (by rw [hpc]; rfl) (by simp [hpc])
    refine (ahead_cancel ha hnone t c fun hw he => ?_).goto (t := t) (p := .drainImmediate k imm) rfl rfl
      (.inl (by simp [hpc]))
    refine hcan c (he ▸ hc) ?_
    simp [State.goto, State.signal, cancelled_delegateCancelJob, hw]
  case cancelRemove target c hpc =>
    obtain ⟨rfl, rfl⟩ := hp.same hp' (by simp [State.goto]) (by simp [State.goto]) (t := t)
      (p := .runStart) (by simp [State.goto]) (by simp [hpc])
    have hnone := ht.walks_none hp (t := t) (by rw [hpc]; rfl) (by simp [hpc])
    refine (ahead_cancel ha hnone t c fun hw he => ?_).goto (t := t) (p := .runStart) rfl rfl
      (.inl (by simp [hpc]))
    refine hcan c (he ▸ hown c target (by rw [hpc]; rfl)) ?_
    simp [State.goto, cancelled_delegateCancelJob, hw]
  case queuedCancel old c target q hpc hq hc =>
    obtain ⟨rfl, rfl⟩ := hp.same hp' (by simp [State.goto, State.finish, State.signal])
      (by simp [State.goto, State.finish, State.signal]) (t := t) (p := .runQueued old)
      (by simp [State.goto, State.finish, State.signal]) (by simp [hpc])
    have hnone := ht.walks_none hp (t := t) (by rw [hpc]; rfl) (by simp [hpc])
    have hcr : c ≠ r := by
      rintro rfl
      cases (show cfg.func c = _ from hc).symm.trans hr
    have hct : c ≠ target := by
      rintro rfl
      exact hself c (hq ▸ List.mem_cons_self) hc
    obtain ⟨q', hq'⟩ : ∃ q', (s.delegateCancelJob c target).queued = c :: q' := by
      rw [queued_delegateCancelJob, hq, List.erase_cons_tail (by simpa using hct)]
      split <;> exact ⟨_, rfl⟩
    have ha₁ : Ahead (s.delegateCancelJob c target) _ _ r late :=
      ahead_cancel ha hnone t c fun hw he => ?_
    · have hfin : Ahead ((s.delegateCancelJob c target).finish c) _ _ r late :=
        ha₁.leave hnone t (X := []) hq' (congrArg List.tail hq') hcr
      exact hfin.goto (t := t) (p := .runQueued old) rfl rfl
        (.inl (by simp [State.finish, State.signal, hpc]))
    · refine hcan c (he ▸ hc) ?_
      simp [State.goto, State.finish, State.signal, cancelled_delegateCancelJob, hw]
  case job old copy j q o b st hpc hq hf hinv hcopy =>
    have hnone := ht.walks_none hp (t := t) (by rw [hpc]; rfl) (by simp [hpc])
    have hi : counterAllocJob (cfg.need j) s.word.other = (o, b, st) := hinv
    unfold counterAllocJob at hi
    split at hi <;> cases hi
    · obtain ⟨rfl, rfl⟩ := hp.same hp' rfl rfl rfl (by simp [hpc])
      exact ha.goto rfl rfl (.inl (by simp [hpc]))
    · obtain ⟨rfl, rfl⟩ := hp.same hp' rfl rfl rfl (by simp [hpc])
      have hjr : j ≠ r := by
        rintro rfl
        refine hgrant ?_
        simp only [granted, hpc, hq, show cfg.func j = .user from hf]
        rw [if_pos (by omega)]
      have hfin : Ahead (s.finish j) _ _ r late :=
        ha.leave hnone t (X := []) hq (congrArg List.tail hq) hjr
      exact hfin.goto (t := t) (p := .runQueued _) rfl rfl (.inl (by simp [State.finish, State.signal, hpc]))
  case immediateUnblock k x j imm s₁ hpc hx h₁ =>
    have hloc := (hp.memAside t x).mp (by rw [hpc]; exact List.mem_cons_self)
    rw [hun x j hx] at hloc
    cases hloc
  case queuedUnblock old x j q s₁ hpc hq hx h₁ =>
    have hloc := (hp.memQueued x).mp (hq ▸ List.mem_cons_self)
    rw [hun x j hx] at hloc
    cases hloc
  case unblockNow hpc _ => exact absurd hpc (hunw _)

/-! ## The order of the grants -/

variable {q q' : State T J ℕ × Ledger J} {e : Event T J} {proper : J → Prop}

/-- **The invariant of a request that waits**, from the moment its submission has returned. -/
structure Fair (q : State T J ℕ × Ledger J) (r : J) (late : J → Prop) : Prop where
  returned : Returned q.1 r
  ahead : ∃ loc S W, Places q.1 loc S W ∧ Ahead q.1 S W r late
  noFast : ∀ t x, q.1.pc t = .fastEnqueue x → ¬ late x

omit [DecidableEq T] in
/-- A request that waits is announced. -/
theorem Fair.announced (h : Fair q r late) (ht : Turn q.1) :
    q.1.word.lock = true ∨ q.1.word.incoming = true ∨ q.1.word.pending = true := by
  obtain ⟨loc, S, W, hp, ha⟩ := h.ahead
  exact ht.announced hp h.returned ha.mem

/-- The request is still waited for. -/
def Waited (cfg : Config J) (q : State T J ℕ × Ledger J) (r : J) : Prop :=
  .queued r ∉ q.2.grants ∧ ∀ c, cfg.func c = .cancelJob r → q.1.cancelled c ≠ some true

/-- The thread of an event. -/
def Event.thread : Event T J → T
  | .call t _ => t
  | .move t => t

omit [DecidableEq T] [DecidableEq J] in
/-- Who is granted at once found none of the three bits set. -/
theorem bits_of_granted {op : Op J} {g : Grant J} (h : granted cfg s (.call t op) = some g) :
    s.word.lock = false ∧ s.word.incoming = false ∧ s.word.pending = false := by
  have htake : ∀ n, (counterReserveWork n true s.word).isSome = true →
      s.word.lock = false ∧ s.word.incoming = false ∧ s.word.pending = false := fun n hn => by
    obtain ⟨w, hw⟩ := Option.isSome_iff_exists.mp hn
    exact (counterReserveWork_eq hw).2.2 rfl
  cases op with
  | tryAlloc n =>
    simp only [granted] at h
    split at h
    · exact htake n (by assumption)
    · cases h
  | alloc j | allocAsync j =>
    simp only [granted] at h
    split at h
    · exact htake (cfg.need j) (by assumption)
    · cases h
  | cancel j c => cases h
  | free n => cases h

omit [DecidableEq T] [DecidableEq J] in
/-- Who is granted after a wait is at the head of the queue. -/
theorem queued_of_granted {j : J} (h : granted cfg s (.move t) = some (.queued j)) :
    ∃ old q, s.pc t = .runQueued old ∧ s.queued = j :: q := by
  simp only [granted] at h
  split at h
  · rename_i old x q hpc hq
    split at h
    · split at h <;> cases h
      exact ⟨old, q, hpc, hq⟩
    · cases h
  · cases h

/-- **A step past a request that waits** grants nothing, or a request that stands before it. -/
theorem Fair.step (h : Fair q r late) (ho : InOrder cfg q proper) (hr : cfg.func r = .user)
    (hstep : (ledgered T cfg).step q e = some q') (hok : Named cfg q e q') (hw : Waited cfg q' r) :
    Fair q' r late ∧ ∀ g, granted cfg q.1 e = some g → ∃ x, g = .queued x ∧ ¬ late x := by
  have hann := h.announced ho.turn
  have ho' : InOrder cfg q' proper := ho.step hstep hok fun _ => .inl
  obtain ⟨hret, ⟨loc₀, S₀, W₀, hp₀, ha⟩, hfast⟩ := h
  obtain ⟨hs, hl⟩ := Machine.step_remember.mp hstep
  obtain ⟨hsub, -⟩ := ho.final_step hstep
  obtain ⟨ht, ⟨loc, S, W, hp, hc⟩, hun, hunw⟩ := ho
  obtain ⟨-, ⟨loc', S', W', hp', -⟩, -, -⟩ := ho'
  obtain ⟨rfl, rfl⟩ := hp.unique hp₀
  obtain ⟨s, l⟩ := q
  obtain ⟨s', l'⟩ := q'
  change l' = l.next cfg s e at hl
  change (machine T cfg).step s e = some s' at hs
  dsimp only at hret ha hfast hsub hun hunw hc hp hp' hann ⊢
  have hfast' : ∀ p, s'.pc = Function.update s.pc (e.thread) p → (∀ x, p = .fastEnqueue x →
      s.word.lock = false ∧ s.word.incoming = false ∧ s.word.pending = false) →
      ∀ u x, s'.pc u = .fastEnqueue x → ¬ late x := by
    intro p hs' hp u x hu
    rw [hs', Function.update_apply] at hu
    split at hu
    · obtain ⟨hl, hi, hpend⟩ := hp x hu
      simp [hl, hi, hpend] at hann
    · exact hfast u x hu
  cases e with
  | call t op =>
    obtain ⟨hpc, hm⟩ : s.pc t = .idle ∧ Called (client cfg) s t op.toDelegate s' := called_of_call hs
    obtain ⟨p, hs', hb, hnf⟩ := hm.brings hpc
    refine ⟨⟨hret.update hs' (fun hbr => .inr (hb r hbr)) (hsub r hret.1),
      ⟨loc', S', W', hp', ha.called hp hp' hpc hm⟩, hfast' p hs' fun x hx => absurd hx (hnf x)⟩, ?_⟩
    intro g hg
    obtain ⟨hl, hi, hpend⟩ := bits_of_granted hg
    simp [hl, hi, hpend] at hann
  | move t =>
    have hm : Moved (client cfg) s t () s' := moved_of_move rfl (ht.whole t) hs
    have hgrant : granted cfg s (.move t) ≠ some (.queued r) := fun hg => hw.1 (by
      rw [hl]
      change _ ∈ l.grants ++ (granted cfg s (.move t)).toList
      rw [hg]
      exact List.mem_append_right _ List.mem_cons_self)
    have hown : ∀ c j, (s.pc t).own = some (j, c) → cfg.func c = .cancelJob j :=
      fun c j hcj => (hc.own t c j hcj).1
    have hself : ∀ c ∈ s.queued, cfg.func c ≠ .cancelJob c := fun c hcq hcc => by
      have hloc := (hp.memQueued c).mp hcq
      have huser := hc.kind c c hcc (hc.asked c c hcc (by simp [hloc]))
      cases (show cfg.func c = .user from huser).symm.trans hcc
    refine ⟨⟨?_, ⟨loc', S', W', hp', ahead_moved ht hp hp' ha hm hr
      (fun x j hx => (hp.fresh x).mp (hun x j hx)) (hunw t) hown hself (hfast t) hgrant hw.2⟩, ?_⟩, ?_⟩
    · obtain ⟨p, hs', hb, -⟩ := hm.brings
      exact hret.update hs' (fun hbr => .inl (hb r hbr)) (hsub r hret.1)
    · obtain ⟨p, hs', -, hnf⟩ := hm.brings
      exact hfast' p hs' hnf
    · intro g hg
      obtain ⟨hnone, -⟩ | ⟨j, hsome, -⟩ := moved_units hm
      · rw [hg] at hnone
        cases hnone
      · rw [hg] at hsome
        cases hsome
        obtain ⟨old, l, hpc, hq⟩ := queued_of_granted hg
        refine ⟨j, rfl, ha.not_late (ht.walks_none hp (t := t) (by rw [hpc]; rfl) (by simp [hpc])) hq ?_⟩
        rintro rfl
        exact hgrant hg

/-- A request that is still waited for was waited for before. -/
theorem Waited.before (hw : Waited cfg q' r) (ho : InOrder cfg q proper)
    (hrun : (ledgered T cfg).Run (Named cfg) q q') : Waited cfg q r := by
  induction hrun with
  | refl => exact hw
  | tail hrun hstep _ ih =>
    obtain ⟨-, hl⟩ := Machine.step_remember.mp hstep
    obtain ⟨-, hres⟩ := (ho.run hrun).final_step hstep
    refine ih ⟨fun hg => hw.1 ?_, fun c hc hcr => hw.2 c hc (hres c _ hcr)⟩
    rw [hl]
    exact List.mem_append_left _ hg

/-- **A request whose submission has returned** is in the line, behind none that is submitted
later. -/
theorem fair_of_returned [Nonempty T] (ho : InOrder cfg q proper) (hj : Jobs cfg q)
    (hr : cfg.func r = .user) (hret : Returned q.1 r) (hw : Waited cfg q r) :
    Fair q r fun x => q.1.submitted x = false := by
  obtain ⟨ht, ⟨loc, S, W, hp, hc⟩, -, -⟩ := ho
  obtain ⟨t, ht'⟩ : ∃ t, ∀ u, u ≠ t → W u = [] := by
    by_cases hh : ∃ t, (q.1.pc t).holds = true
    · obtain ⟨t, hh⟩ := hh
      exact ⟨t, ht.walks_alone hp hh⟩
    · refine ⟨Classical.arbitrary T, fun u _ => hp.walks_nil (Pc.hand_of_not_holds ?_).1⟩
      rw [← Bool.not_eq_true]
      exact fun hu => hh ⟨u, hu⟩
  refine ⟨hret, ⟨loc, S, W, hp, t, ht', ?_⟩, fun t x hx hf => ?_⟩
  · have hline : ∀ x, x ∈ line q.1 S W t ↔ loc x = .queued ∨ loc x = .rest t ∨ loc x = .stack := fun x => by
      rw [mem_line, hp.memQueued, hp.memWalk, hp.memStack]
    have hin : r ∈ line q.1 S W t := by
      rw [hline]
      cases hloc : loc r with
      | fresh =>
        rw [← hp.fresh, hret.1] at hloc
        cases hloc
      | coming u => exact absurd (.inl ((hp.coming u r).mpr hloc)) (hret.2 u)
      | stack => exact .inr (.inr rfl)
      | rest u =>
        by_cases hut : u = t
        · exact .inr (.inl (by rw [hut]))
        · rw [← hp.memWalk, ht' u hut] at hloc
          cases hloc
      | aside u => exact absurd hr (hc.aside u r hloc)
      | queued => exact .inl rfl
      | blocked =>
        rw [← hp.memBlocked, hj.blocked] at hloc
        cases hloc
      | gone =>
        exfalso
        obtain ⟨-, hs⟩ | ⟨howned, -⟩ := hc.gone r hr hloc
        · rw [← hc.dones r hr, ← hj.queued r] at hs
          exact hw.1 (List.count_pos_iff.mp (by omega))
        · obtain ⟨c, hcr, hgave⟩ := hc.taken r hr hloc howned
          exact hw.2 c hcr hgave
    obtain ⟨A, B, hAB⟩ := List.append_of_mem hin
    refine ⟨A, B, hAB, fun x hx hf => ?_⟩
    have hxl := (hline x).mp (hAB ▸ List.mem_append_left _ hx)
    rw [(hp.fresh x).mp hf] at hxl
    simp at hxl
  · have hcoming := (hp.coming t x).mp (by rw [hx]; rfl)
    rw [(hp.fresh x).mp hf] at hcoming
    cases hcoming

/-- **The run lemma**: while a request waits, only requests that stand before it are granted. -/
theorem Fair.run (h : Fair q r late) (ho : InOrder cfg q proper) (hr : cfg.func r = .user)
    (hrun : (ledgered T cfg).Run (Named cfg) q q') (hw : Waited cfg q' r) :
    Fair q' r late ∧ ∃ N, q'.2.grants = q.2.grants ++ N ∧ ∀ g ∈ N, ∃ x, g = .queued x ∧ ¬ late x := by
  induction hrun with
  | refl => exact ⟨h, [], (List.append_nil _).symm, nofun⟩
  | @tail q₁ q₂ e hrun hstep hok ih =>
    have ho₁ := ho.run hrun
    obtain ⟨hfair, N, hN, hall⟩ := ih (hw.before ho₁ ((Machine.Run.refl q₁).tail hstep hok))
    obtain ⟨hfair', hnew⟩ := hfair.step ho₁ hr hstep hok hw
    obtain ⟨-, hl⟩ := Machine.step_remember.mp hstep
    refine ⟨hfair', N ++ (granted cfg q₁.1 e).toList, ?_, fun g hg => ?_⟩
    · rw [hl]
      change q₁.2.grants ++ (granted cfg q₁.1 e).toList = _
      rw [hN, List.append_assoc]
    · rw [List.mem_append, Option.mem_toList] at hg
      exact hg.elim (hall g) (hnew g)

/-- **The counter is strictly fair.** From the moment the submission of a request has returned,
and as long as it is neither granted nor taken back, every grant is to a request that was
submitted before that moment and had to wait: none to a `counter_try_alloc`, none at once, and
none to a request submitted later, whatever their needs and whatever is given back. -/
theorem strictly_fair (cfg : Config J) {q₁ q₂ : State T J ℕ × Ledger J}
    (h : (ledgered T cfg).Reach (Named cfg) q₁) {r : J} (hr : cfg.func r = .user)
    (hret : Returned q₁.1 r) (hrun : (ledgered T cfg).Run (Named cfg) q₁ q₂)
    (hw : Waited cfg q₂ r) :
    ∃ N, q₂.2.grants = q₁.2.grants ++ N ∧
      ∀ g ∈ N, ∃ x, g = .queued x ∧ q₁.1.submitted x = true := by
  have ho := inOrder_of_reach h
  cases hrun with
  | refl => exact ⟨[], (List.append_nil _).symm, nofun⟩
  | @tail q _ e hrun hstep hok =>
    have : Nonempty T := ⟨e.thread⟩
    have hrun' := hrun.tail hstep hok
    obtain ⟨-, N, hN, hall⟩ := (fair_of_returned ho (jobs_of_reach h) hr hret
      (hw.before ho hrun')).run ho hr hrun' hw
    refine ⟨N, hN, fun g hg => ?_⟩
    obtain ⟨x, rfl, hx⟩ := hall g hg
    exact ⟨x, rfl, by rwa [Bool.not_eq_false] at hx⟩

/-! ## A request for more than there is -/

instance (cfg : Config J) (q : State T J ℕ × Ledger J) (e : Event T J) (q' : State T J ℕ × Ledger J) :
    Decidable (Named cfg q e q') :=
  match e with
  | .call _ (.cancel target r) => inferInstanceAs (Decidable (cfg.func r = .cancelJob target ∧
      cfg.func target = .user ∧ q.2.log.asked r = false))
  | .call _ (.tryAlloc _) => inferInstanceAs (Decidable True)
  | .call _ (.alloc _) => inferInstanceAs (Decidable True)
  | .call _ (.allocAsync _) => inferInstanceAs (Decidable True)
  | .call _ (.free _) => inferInstanceAs (Decidable True)
  | .move _ => inferInstanceAs (Decidable True)

/-- A counter of two units, and a request for both. -/
def both : Config Unit where
  max := 2
  max_lt := Config.two_lt
  hardMax := true
  need := fun _ => 2
  func := fun _ => .user

/-- A thread takes one unit, and asks for both. -/
def bothAsked : List (Event Unit Unit) :=
  [.call () (.tryAlloc 1), .call () (.allocAsync ())] ++ List.replicate 6 (.move ())

theorem strictly_fair_bothAsked : ∃ q₁ q q₂ : State Unit Unit ℕ × Ledger Unit,
    q₁.1.word.other = 1 ∧ (ledgered Unit both).step q₁ (.call () (.tryAlloc 1)) = some q ∧
    (ledgered Unit both).Run (Named both) q q₂ ∧ ∃ N, q₂.2.grants = q₁.2.grants ++ N ∧
      ∀ g ∈ N, ∃ x, g = .queued x ∧ q₁.1.submitted x = true := by
  obtain ⟨q, q₁, q₂, hq, hstep, hok, hrun, hp⟩ := Machine.Reach.exists_step_of_exec
    (ledgered Unit both) (Named both) (s := (init 2, ⟨Log.empty, [], 0, fun _ => false⟩)) ⟨rfl, rfl⟩
    (p := fun q q₂ => decide (q.1.word.other = 1 ∧ q.1.submitted () = true ∧
      (q.1.pc ()).hand.coming ≠ some () ∧ (q.1.pc ()).marking ≠ some () ∧ .queued () ∉ q₂.2.grants))
    bothAsked (.call () (.tryAlloc 1)) [] (by decide +kernel)
  obtain ⟨hone, hsub, hc, hm, hg⟩ := of_decide_eq_true hp
  exact ⟨q, q₁, q₂, hone, hstep, hrun, strictly_fair both hq (r := ()) rfl
    ⟨hsub, fun _ hb => hb.elim hc hm⟩ (((Machine.Run.refl q).tail hstep hok).trans hrun) ⟨hg, nofun⟩⟩

end Counter
