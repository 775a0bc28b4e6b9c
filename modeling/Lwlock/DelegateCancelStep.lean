import Lwlock.DelegateCancel

/-!
# The steps of a delegate keep its cancels in order

Every step of a thread, and every call, keeps the places of the jobs and the invariant of
the cancels. A call may add its request to those whose target had been submitted.
-/

namespace Delegate

variable {T J P C D : Type} {cl : Client J P C D} {s s' : State T J P} {loc : J → Loc T}
  {l : Log J} {proper : J → Prop} {S : List J} {W : T → List J}

variable [DecidableEq T] [DecidableEq J] {t : T} {p : Pc T J P}

/-- The history after a step. -/
def Log.next (cl : Client J P C D) (s : State T J P) (e : Event T J C D) (l : Log J) : Log J where
  asked := match asks e with
    | some r => Function.update l.asked r true
    | none => l.asked
  dones := match finishes cl s e with
    | some j => Function.update l.dones j (l.dones j + 1)
    | none => l.dones

omit [DecidableEq T] in
theorem Log.next_move {c : C} (h : finishes cl s (.move t c) = none) :
    l.next cl s (.move t c) = l := by
  simp [Log.next, asks, h]

/-- The invariants of the jobs and of their cancels. -/
def Kept (cl : Client J P C D) (s : State T J P) (l : Log J) (proper : J → Prop) : Prop :=
  ∃ loc S W, Places s loc S W ∧ Cancels cl s loc l proper

omit [DecidableEq J] in
/-- **A thread moves on** with the same in hand. -/
theorem kept_goto (hp : Places s loc S W) (hc : Cancels cl s loc l proper) (hj : SameJobs s s')
    (hs : s'.pc = Function.update s.pc t p)
    (hh : p.hand = (s.pc t).hand ∨ p.hand = { (s.pc t).hand with last := none }) (hm : p.marking = none)
    (ha : Announces s s' t p) (h1 : s'.signals = s.signals) (h2 : s'.cancelled = s.cancelled)
    (hown : p.own = none ∨ p.own = (s.pc t).own)
    (hun : ∀ j, p = .unblockNow j →
      cl.func j = .user ∧ ∀ r, cl.func r = .cancelJob j → l.asked r = false)
    (hpast : ∀ r, p.past = some r → (s.pc t).past = some r ∨
      ∀ j, cl.func r = .cancelJob j → proper r → loc j ≠ .stack) : Kept cl s' l proper :=
  ⟨loc, S, W, hp.goto hj hs hh hm ha, hc.shift hs h1 h2 hj.owned (fun _ => .rfl) (fun _ => .rfl)
    (fun _ _ => id) (fun _ => .inl) (fun _ _ => .inl)
    (fun j r hj => .inl (hown.elim (fun hn => by rw [hn] at hj; cases hj) fun ho => ho ▸ hj)) hun
    (fun j hj => by rw [hm] at hj; cases hj)
    hpast (fun _ => .inl)⟩

omit [DecidableEq T] [DecidableEq J] in
/-- A step that leaves the incoming bit. -/
theorem Announces.of_incoming (hi : s'.word.incoming = s.word.incoming)
    (hm : (s.pc t).marking = none) (ht : ∀ k, s.pc t ≠ .drainTake k) : Announces s s' t p :=
  fun hf => .inr ⟨hi ▸ hf, hm, ht⟩

omit [DecidableEq T] [DecidableEq J] in
/-- **With no incoming job**, a job whose submission has returned is not on the stack. -/
theorem Places.not_stack {j : J} (hp : Places s loc S W) (hi : s.word.incoming = false)
    (hm : ∀ u, (s.pc u).marking ≠ some j) (ht : ∀ u k, s.pc u ≠ .drainTake k) : loc j ≠ .stack := by
  intro hj
  obtain ⟨u, k, hu⟩ := hp.announced hi j hj hm
  exact ht u k hu

omit [DecidableEq T] in
/-- **`job_to_unblock_another_job`** keeps the invariants, if nobody cancels its target. -/
theorem Cancels.unblocked {s₁ : State T J P} {j : J} (hc : Cancels cl s loc l proper)
    (hp : Places s loc S W) (hset : Settled s) (hju : cl.func j = .user)
    (hja : ∀ r, cl.func r = .cancelJob j → l.asked r = false)
    (h₁ : s.jobToUnblockAnotherJob j = some s₁) :
    Places s₁ (Function.update loc j .queued) S W ∧
      Cancels cl s₁ (Function.update loc j .queued) l proper ∧ s₁.pc = s.pc ∧
      s₁.word = s.word ∧ s₁.queued = s.queued ++ [j] := by
  obtain ⟨⟨ho, hb⟩, hs₁⟩ := jobToUnblockAnotherJob_eq h₁
  have hjb := hc.blocked hp hju hja ho hb
  have hun := hp.unblock hset hjb h₁
  subst hs₁
  exact ⟨hun, hc.requeue hjb hja hju ⟨fun _ _ => id, fun _ _ => id, fun _ _ => id, fun _ _ => id⟩
    rfl rfl rfl, rfl, rfl, rfl⟩

/-- **A job is pushed** on the stack. -/
theorem kept_push {j : J} {lock : Bool} (hp : Places s loc S W) (hc : Cancels cl s loc l proper)
    (hpc : s.pc t = .pushRead j lock) :
    Kept cl ({ s with
      link := Function.update s.link j (Ptr.ofTop s.stack)
      stack := some j
      installs := Function.update s.installs j (s.installs j + 1) }.goto t (.setBits j lock)) l
      proper := by
  have hj : loc j = .coming t := (hp.coming t j).mp (by rw [hpc]; rfl)
  refine ⟨_, _, _, hp.push hpc ⟨rfl, rfl, rfl, rfl, rfl, rfl, rfl⟩ rfl rfl,
    hc.shift rfl rfl rfl rfl ?_ ?_ ?_ ?_ ?_ (by simp) (by simp) ?_ (by simp) ?_⟩ <;>
    grind -linarith [Function.update_apply]

/-- **A job is queued** without the stack. -/
theorem kept_fastEnqueue {j : J} (hp : Places s loc S W) (hc : Cancels cl s loc l proper)
    (hpc : s.pc t = .fastEnqueue j) :
    Kept cl ({ s with queued := s.queued ++ [j] }.goto t .runStart) l proper := by
  have hj : loc j = .coming t := (hp.coming t j).mp (by rw [hpc]; rfl)
  have hpast := hc.past t j
  rw [hpc] at hpast
  refine ⟨_, _, _, hp.fastEnqueue hpc ⟨rfl, rfl, rfl, rfl, rfl, rfl, rfl⟩ rfl rfl,
    hc.shift rfl rfl rfl rfl ?_ ?_ ?_ ?_ ?_ (by simp) (by simp) (by simp)
          (by simp) ?_⟩ <;>
    grind -linarith [Function.update_apply]

/-- **The stack is taken.** -/
theorem kept_drainTake {k : Caller J P} (hp : Places s loc S W) (hc : Cancels cl s loc l proper)
    (hpc : s.pc t = .drainTake k) :
    Kept cl ({ s with stack := none }.goto t (.drainLoop k (Ptr.ofTop s.stack) none [])) l
      proper := by
  refine ⟨_, _, _, hp.take hpc ⟨rfl, rfl, rfl, rfl, rfl, rfl, rfl⟩ rfl,
    hc.shift rfl rfl rfl rfl ?_ ?_ ?_ ?_ ?_ (fun _ _ hx => .inl (by rw [hpc]; exact hx)) (by simp)
      (by simp) ?_ ?_⟩ <;> grind -linarith

/-- **A job is put aside**, to be run at once. -/
theorem kept_walkAside {k : Caller J P} {j : J} {last : Option J} {imm : List J}
    (hp : Places s loc S W) (hc : Cancels cl s loc l proper)
    (hpc : s.pc t = .drainLoop k (.job j) last imm) (hf : cl.func j ≠ .user) :
    Kept cl ({ s with link := Function.update s.link j .bad }.goto t
      (.drainLoop k (s.link j) last (imm ++ [j]))) l proper := by
  have hj := (hp.walk_relink hpc).1
  refine ⟨_, _, _, hp.walkAside hpc ⟨rfl, rfl, rfl, rfl, rfl, rfl, rfl⟩ rfl rfl,
    hc.shift rfl rfl rfl rfl ?_ ?_ ?_ ?_ ?_ (fun _ _ hx => .inl (by rw [hpc]; exact hx)) (by simp)
      (by simp) (fun r hr => .inl (by rw [hpc]; exact hr)) ?_⟩ <;>
    grind -linarith [Function.update_apply]

/-- **A drained job is queued.** -/
theorem kept_walkQueue {k : Caller J P} {j : J} {last : Option J} {imm : List J}
    (hp : Places s loc S W) (hc : Cancels cl s loc l proper)
    (hpc : s.pc t = .drainLoop k (.job j) last imm) :
    Kept cl ({ s with
      link := Function.update s.link j .bad
      queued := s.queueDrained last j
      moves := Function.update s.moves j (s.moves j + 1) }.goto t
        (.drainLoop k (s.link j) (some j) imm)) l proper := by
  have hj := (hp.walk_relink hpc).1
  refine ⟨_, _, _, hp.walkQueue hpc ⟨rfl, rfl, rfl, rfl, rfl, rfl, rfl⟩ rfl rfl,
    hc.shift rfl rfl rfl rfl ?_ ?_ ?_ ?_ ?_ (fun _ _ hx => .inl (by rw [hpc]; exact hx)) (by simp)
      (by simp) (fun r hr => .inl (by rw [hpc]; exact hr)) ?_⟩ <;>
    grind -linarith [Function.update_apply]

/-- **A cancel that a drain found** is carried out. -/
theorem kept_immediateCancel {k : Caller J P} {r j : J} {imm : List J} (ht : Turn s)
    (hp : Places s loc S W) (hc : Cancels cl s loc l proper)
    (hpc : s.pc t = .drainImmediate k (r :: imm)) (hr : cl.func r = .cancelJob j) :
    Kept cl (({ s.delegateCancelJob r j with
      moves := Function.update (s.delegateCancelJob r j).moves r
        ((s.delegateCancelJob r j).moves r + 1) }.signal r).goto t (.drainImmediate k imm)) l
      proper := by
  have hhold : (s.pc t).holds = true := by rw [hpc]; rfl
  have hloc : loc r = .aside t := (hp.memAside t r).mp (by rw [hpc]; exact List.mem_cons_self)
  have hasked := hc.asked r j hr (by simp [hloc])
  have hset := ht.settled hhold (by rw [hpc]; rfl)
  have hcan := hp.cancel hset r j
  have hstay : Stays s (({ s.delegateCancelJob r j with
      moves := Function.update (s.delegateCancelJob r j).moves r
        ((s.delegateCancelJob r j).moves r + 1) }.signal r).goto t (.drainImmediate k imm)) :=
    .of_update (t := t) (p := .drainImmediate k imm) (by simp [State.goto, State.signal])
      (.inr (by rw [hpc]; rfl)) (.inr (by rw [hpc]; rfl)) rfl (by simp)
  refine ⟨_, S, W, hcan.asideDone (by simpa using hpc) ⟨rfl, rfl, rfl, rfl, rfl, rfl, rfl⟩ rfl rfl,
    hc.cancel hp hr hasked (hc.pending r j hr (by simp [hloc]) (by simp [hloc])) ?_ hstay ?_ ?_ ?_
      ?_ ?_ (.inl (Function.update_self _ _ _))⟩
  · exact fun hprop => hc.found hp ht hhold (by rw [hpc]; rfl) hr hasked hprop
      (hc.behind r j hr hprop (.inr (.inl ⟨t, hloc⟩)))
  · intro u x hu
    rw [(hc.own u r x (hstay.own u _ hu)).2.2.2] at hloc
    cases hloc
  · simp [State.goto, State.signal, cancelled_delegateCancelJob]
  · intro x hx
    simp [State.goto, State.signal, hx]
  · intro x hx
    simp [State.goto, State.signal]
  · intro x hx
    rw [Function.update_of_ne hx]
    grind -linarith [Function.update_apply]

/-- **A cancel at the head of the queue** is carried out. -/
theorem kept_queuedCancel {old : Word P} {r j : J} {q : List J} (ht : Turn s)
    (hp : Places s loc S W) (hc : Cancels cl s loc l proper) (hpc : s.pc t = .runQueued old)
    (hq : s.queued = r :: q) (hr : cl.func r = .cancelJob j) :
    Kept cl (((s.delegateCancelJob r j).finish r).goto t (.runQueued old)) l proper := by
  have hhold : (s.pc t).holds = true := by rw [hpc]; rfl
  have hloc : loc r = .queued := (hp.memQueued r).mp (by rw [hq]; exact List.mem_cons_self)
  have hasked := hc.asked r j hr (by simp [hloc])
  have hset := ht.settled hhold (by rw [hpc]; rfl)
  have hjr : r ≠ j := by
    rintro rfl
    rw [hc.kind r r hr hasked] at hr
    cases hr
  have hcan := hp.cancel hset r j
  obtain ⟨q', hq'⟩ : ∃ q', (s.delegateCancelJob r j).queued = r :: q' := by
    rw [queued_delegateCancelJob, hq, List.erase_cons_tail (by simpa using hjr)]
    split <;> exact ⟨_, rfl⟩
  have hstay : Stays s (((s.delegateCancelJob r j).finish r).goto t (.runQueued old)) :=
    .of_update (t := t) (p := .runQueued old) (by simp [State.goto, State.finish, State.signal])
      (.inl rfl) (.inl rfl) rfl (by simp)
  have hfin := hcan.finish (by simpa [Settled] using hset) hq'
  refine ⟨_, S, W, hfin.goto (t := t) (p := .runQueued old) ⟨rfl, rfl, rfl, rfl, rfl, rfl, rfl⟩ rfl
      (.inl (by simp [State.finish, State.signal, hpc])) rfl
      (.of_incoming rfl (by simp [State.finish, State.signal, hpc])
        (by simp [State.finish, State.signal, hpc])),
    hc.cancel hp hr hasked (hc.pending r j hr (by simp [hloc]) (by simp [hloc])) ?_ hstay ?_ ?_ ?_
      ?_ ?_ (.inl (Function.update_self _ _ _))⟩
  · exact fun hprop => hc.found hp ht hhold (by rw [hpc]; rfl) hr hasked hprop
      (hc.behind r j hr hprop (.inr (.inr hloc)))
  · intro u x hu
    rw [(hc.own u r x (hstay.own u _ hu)).2.2.2] at hloc
    cases hloc
  · simp [State.goto, State.finish, State.signal, cancelled_delegateCancelJob]
  · intro x hx
    simp [State.goto, State.finish, State.signal, hx]
  · intro x hx
    simp [State.goto, State.finish, State.signal, hx]
  · intro x hx
    rw [Function.update_of_ne hx]
    grind -linarith [Function.update_apply]

/-- **A cancel is carried out by who asked for it.** -/
theorem kept_cancelRemove {j r : J} (ht : Turn s) (hp : Places s loc S W)
    (hc : Cancels cl s loc l proper) (hpc : s.pc t = .cancelRemove j r) :
    Kept cl ((s.delegateCancelJob r j).goto t .runStart) l proper := by
  have hhold : (s.pc t).holds = true := by rw [hpc]; rfl
  obtain ⟨hr, hasked, hnone, hloc⟩ := hc.own t r j (by rw [hpc]; rfl)
  have hset := ht.settled hhold (by rw [hpc]; rfl)
  have hcan := hp.cancel hset r j
  have hstay : Stays s ((s.delegateCancelJob r j).goto t .runStart) :=
    .of_update (t := t) (p := .runStart) (by simp [State.goto]) (.inl rfl) (.inl rfl) rfl (by simp)
  have hjr : j ≠ r := by
    rintro rfl
    rw [hc.kind j j hr hasked] at hr
    cases hr
  refine ⟨_, S, W, hcan.goto (t := t) (p := .runStart) ⟨rfl, rfl, rfl, rfl, rfl, rfl, rfl⟩ rfl
      (.inl (by simp [hpc])) rfl (.of_incoming rfl (by simp [hpc]) (by simp [hpc])),
    hc.cancel hp hr hasked hnone ?_ hstay ?_ ?_ ?_ ?_ ?_ (.inr ⟨?_, hloc, ?_⟩)⟩
  · exact fun hprop => hc.found hp ht hhold (by rw [hpc]; rfl) hr hasked hprop
      (hc.past t r j hr hprop (by rw [hpc]; rfl))
  · intro u x hu
    have hut : u ≠ t := by
      rintro rfl
      simp [State.goto] at hu
    exact hut (ht.one u t (Pc.holds_of_own (hstay.own u _ hu)) hhold)
  · simp [State.goto, cancelled_delegateCancelJob]
  · intro x hx
    simp [State.goto]
  · intro x hx
    simp [State.goto]
  · grind -linarith [Function.update_apply]
  · grind -linarith [Function.update_apply]
  · simp [State.goto]

/-- **Every further step keeps the invariants.** -/
theorem kept_moved {c : C} (ht : Turn s) (hp : Places s loc S W) (hc : Cancels cl s loc l proper)
    (hm : Moved cl s t c s') : Kept cl s' (l.next cl s (.move t c)) proper := by
  cases hm
  case submitSlow hpc _ | runStart hpc | drainEnter hpc _ | releaseRetry hpc _ | waitEvent hpc _ |
      handOver hpc _ _ | woken hpc _ | walkEnd hpc =>
    rw [Log.next_move (by simp [finishes, hpc])]
    exact kept_goto hp hc ⟨rfl, rfl, rfl, rfl, rfl, rfl, rfl⟩ rfl (by simp [hpc]) rfl
      (.of_incoming rfl (by simp [hpc]) (by simp [hpc])) rfl rfl (by simp [hpc]) (by simp)
      fun r hr => .inl (by rw [hpc]; exact hr)
  case queueEnd hpc hq =>
    rw [Log.next_move (by simp [finishes, hpc, hq])]
    exact kept_goto hp hc ⟨rfl, rfl, rfl, rfl, rfl, rfl, rfl⟩ rfl (by simp [hpc]) rfl
      (.of_incoming rfl (by simp [hpc]) (by simp [hpc])) rfl rfl (by simp) (by simp) (by simp)
  case releaseWait hpc hw _ =>
    rw [Log.next_move (by simp [finishes, hpc])]
    exact kept_goto hp hc ⟨rfl, rfl, rfl, rfl, rfl, rfl, rfl⟩ rfl (by simp [hpc]) rfl
      (.of_incoming (by rw [hw]; rfl) (by simp [hpc]) (by simp [hpc])) rfl rfl (by simp) (by simp)
      (by simp)
  case release hpc hw _ hout =>
    rw [Log.next_move (by simp [finishes, hpc])]
    obtain rfl | ⟨_, rfl⟩ := hout <;>
      exact kept_goto hp hc ⟨rfl, rfl, rfl, rfl, rfl, rfl, rfl⟩ rfl (by simp [hpc]) rfl
        (.of_incoming (by rw [hw]; rfl) (by simp [hpc]) (by simp [hpc])) rfl rfl (by simp) (by simp)
        (by simp)
  case unlock hpc _ hout | wakeup hpc hout =>
    rw [Log.next_move (by simp [finishes, hpc])]
    obtain rfl | ⟨_, rfl⟩ := hout <;>
      exact kept_goto hp hc ⟨rfl, rfl, rfl, rfl, rfl, rfl, rfl⟩ rfl (by simp [hpc]) rfl
        (.of_incoming rfl (by simp [hpc]) (by simp [hpc])) rfl rfl (by simp) (by simp) (by simp)
  case setBitsRun hpc _ =>
    rw [Log.next_move (by simp [finishes, hpc])]
    exact kept_goto hp hc ⟨rfl, rfl, rfl, rfl, rfl, rfl, rfl⟩ rfl (by simp [hpc]) rfl
      (fun h => by cases h) rfl rfl
      (by simp) (by simp) (by simp)
  case setBits hpc _ hout =>
    rw [Log.next_move (by simp [finishes, hpc])]
    obtain rfl | ⟨_, rfl⟩ := hout <;>
      exact kept_goto hp hc ⟨rfl, rfl, rfl, rfl, rfl, rfl, rfl⟩ rfl (by simp [hpc]) rfl
        (fun h => by cases h) rfl rfl
        (by simp) (by simp) (by simp)
  case submitFast j hpc hi _ hl =>
    rw [Log.next_move (by simp [finishes, hpc])]
    refine kept_goto hp hc ⟨rfl, rfl, rfl, rfl, rfl, rfl, rfl⟩ rfl (by simp [hpc]) rfl
      (.of_incoming rfl (by simp [hpc]) (by simp [hpc])) rfl rfl (by simp) (by simp) ?_
    intro r _
    refine .inr fun x hx hprop => hp.not_stack hi (hc.ready r x hx hprop).2.2 fun u k hu => ?_
    have hlu := ht.locked u (by rw [hu]; rfl)
    rw [hl] at hlu
    cases hlu
  case drainSkip k hpc hi =>
    rw [Log.next_move (by simp [finishes, hpc])]
    cases k with
    | run old =>
      exact kept_goto hp hc ⟨rfl, rfl, rfl, rfl, rfl, rfl, rfl⟩ rfl (by simp [hpc, Caller.next]) rfl
        (.of_incoming rfl (by simp [hpc]) (by simp [hpc])) rfl rfl (.inl rfl) (by simp [Caller.next])
        (by simp [Caller.next])
    | cancel target r =>
      refine kept_goto hp hc ⟨rfl, rfl, rfl, rfl, rfl, rfl, rfl⟩ rfl (by simp [hpc, Caller.next]) rfl
        (.of_incoming rfl (by simp [hpc]) (by simp [hpc])) rfl rfl (.inr (by rw [hpc]; rfl))
        (by simp [Caller.next]) ?_
      intro r _
      refine .inr fun x hx hprop => hp.not_stack hi (hc.ready r x hx hprop).2.2 fun u k hu => ?_
      obtain rfl := ht.one u t (by rw [hu]; rfl) (by rw [hpc]; rfl)
      rw [hpc] at hu
      cases hu
  case drainClear k hpc =>
    rw [Log.next_move (by simp [finishes, hpc])]
    exact kept_goto hp hc ⟨rfl, rfl, rfl, rfl, rfl, rfl, rfl⟩ rfl (by simp [hpc]) rfl
      (fun _ => .inl ⟨k, rfl⟩) rfl rfl (by simp [hpc]) (by simp) (by simp)
  case immediateEnd k hpc =>
    rw [Log.next_move (by simp [finishes, hpc])]
    cases k <;>
      exact kept_goto hp hc ⟨rfl, rfl, rfl, rfl, rfl, rfl, rfl⟩ rfl (by simp [hpc, Caller.next]) rfl
        (.of_incoming rfl (by simp [hpc]) (by simp [hpc])) rfl rfl (by simp [hpc, Caller.next])
        (by simp [Caller.next]) (by simp [hpc, Caller.next])
  case push j lock hpc =>
    rw [Log.next_move (by simp [finishes, hpc])]
    exact kept_push hp hc hpc
  case fastEnqueue j hpc =>
    rw [Log.next_move (by simp [finishes, hpc])]
    exact kept_fastEnqueue hp hc hpc
  case drainTake k hpc =>
    rw [Log.next_move (by simp [finishes, hpc])]
    exact kept_drainTake hp hc hpc
  case walkAside k j last imm hpc hf =>
    rw [Log.next_move (by simp [finishes, hpc])]
    exact kept_walkAside hp hc hpc hf
  case walkQueue k j last imm hpc _ =>
    rw [Log.next_move (by simp [finishes, hpc])]
    exact kept_walkQueue hp hc hpc
  case immediateCancel k r j imm hpc hr =>
    rw [Log.next_move (by simp [finishes, hpc])]
    exact kept_immediateCancel ht hp hc hpc hr
  case queuedCancel old r j q hpc hq hr =>
    rw [Log.next_move (by simp [finishes, hpc, hq, hr])]
    exact kept_queuedCancel ht hp hc hpc hq hr
  case cancelRemove j r hpc =>
    rw [Log.next_move (by simp [finishes, hpc])]
    exact kept_cancelRemove ht hp hc hpc
  case immediateUnblock k r j imm s₁ hpc hr h₁ =>
    rw [Log.next_move (by simp [finishes, hpc])]
    have hloc : loc r = .aside t := (hp.memAside t r).mp (by rw [hpc]; exact List.mem_cons_self)
    obtain ⟨hju, hja⟩ := hc.unblock r j hr (by simp [hloc]) (by simp [hloc])
    have hset := ht.settled (t := t) (by rw [hpc]; rfl) (by rw [hpc]; rfl)
    obtain ⟨hp₁, hc₁, hpc₁, -⟩ := hc.unblocked hp hset hju hja h₁
    rw [← hpc₁] at hpc
    refine ⟨_, S, W, hp₁.asideDone hpc ⟨rfl, rfl, rfl, rfl, rfl, rfl, rfl⟩ rfl rfl,
      hc₁.leave hr (.of_update (t := t) (p := .drainImmediate k imm) rfl (.inr (by rw [hpc]; rfl))
        (.inr (by rw [hpc]; rfl)) rfl (by simp)) rfl ?_ fun _ _ => rfl⟩
    intro x hx
    simp [State.goto, State.signal, hx]
  case queuedUnblock old r j q s₁ hpc hq hr h₁ =>
    rw [Log.next_move (by simp [finishes, hpc, hq, hr])]
    have hloc : loc r = .queued := (hp.memQueued r).mp (by rw [hq]; exact List.mem_cons_self)
    obtain ⟨hju, hja⟩ := hc.unblock r j hr (by simp [hloc]) (by simp [hloc])
    have hset := ht.settled (t := t) (by rw [hpc]; rfl) (by rw [hpc]; rfl)
    obtain ⟨hp₁, hc₁, hpc₁, -, hq₁⟩ := hc.unblocked hp hset hju hja h₁
    have hfin := hp₁.finish (j := r) (q := q ++ [j]) (by simpa [Settled, hpc₁] using hset)
      (by rw [hq₁, hq]; rfl)
    rw [← hpc₁] at hpc
    have hpcf : (s₁.finish r).pc t = .runQueued old := hpc
    refine ⟨_, S, W, hfin.goto (t := t) (p := .runQueued old) ⟨rfl, rfl, rfl, rfl, rfl, rfl, rfl⟩ rfl
        (.inl (by rw [hpcf])) rfl (.of_incoming rfl (by rw [hpcf]; rfl) (by simp [hpcf])),
      hc₁.leave hr (.of_update (t := t) (p := .runQueued old) rfl (.inl rfl) (.inl rfl) rfl (by simp))
        rfl ?_ ?_⟩
    · intro x hx
      simp [State.goto, State.finish, State.signal, hx]
    · intro x hx
      simp [State.goto, State.finish, State.signal, hx]
  case unblockNow j s₁ hpc h₁ =>
    rw [Log.next_move (by simp [finishes, hpc])]
    obtain ⟨hju, hja⟩ := hc.unblockNow t j hpc
    have hset := ht.settled (t := t) (by rw [hpc]; rfl) (by rw [hpc]; rfl)
    obtain ⟨hp₁, hc₁, hpc₁, -⟩ := hc.unblocked hp hset hju hja h₁
    rw [← hpc₁] at hpc
    exact kept_goto hp₁ hc₁ (t := t) (p := .runStart) ⟨rfl, rfl, rfl, rfl, rfl, rfl, rfl⟩ rfl
      (by simp [hpc]) rfl (.of_incoming rfl (by simp [hpc]) (by simp [hpc])) rfl rfl (.inl rfl)
      (by simp) (by simp)
  case job old copy j q o b st hpc hq hf hinv hcopy =>
    have hset := ht.settled (t := t) (by rw [hpc]; rfl) (by rw [hpc]; rfl)
    have hloc : loc j = .queued := (hp.memQueued j).mp (by rw [hq]; exact List.mem_cons_self)
    cases st with
    | done =>
      have hlog : (l.next cl s (.move t c)).asked = l.asked ∧
          (l.next cl s (.move t c)).dones = Function.update l.dones j (l.dones j + 1) := by
        simp [Log.next, asks, finishes, hpc, hq, hf, hinv]
      have hfin := hp.finish hset hq
      have hpcf : (s.finish j).pc t = .runQueued old := hpc
      exact ⟨_, S, W, hfin.goto (t := t) (p := .runQueued copy) ⟨rfl, rfl, rfl, rfl, rfl, rfl, rfl⟩
          rfl (.inl (by rw [hpcf]; rfl)) rfl (.of_incoming rfl (by rw [hpcf]; rfl) (by simp [hpcf])),
        hc.finished hf hloc (.of_update (t := t) (p := .runQueued copy) rfl (.inl rfl) (.inl rfl) rfl
          (by simp)) rfl rfl rfl hlog.1 hlog.2⟩
    | yield =>
      rw [Log.next_move (by simp [finishes, hpc, hq, hf, hinv])]
      have hrot := hp.rotate hset hq
      exact ⟨_, S, W, hrot.goto (t := t) (p := .runQueued copy) ⟨rfl, rfl, rfl, rfl, rfl, rfl, rfl⟩
          rfl (.inl (by simp [hpc])) rfl (.of_incoming rfl (by simp [hpc]) (by simp [hpc])),
        hc.shift (t := t) rfl rfl rfl rfl (fun _ => .rfl) (fun _ => .rfl) (fun _ _ => id)
          (fun _ => .inl) (fun _ _ => .inl) (by simp) (by simp) (by simp) (by simp) fun _ => .inl⟩
    | blockThis =>
      rw [Log.next_move (by simp [finishes, hpc, hq, hf, hinv])]
      have hblk := hp.block hset hq
      refine ⟨_, S, W, hblk.goto (t := t) (p := .runQueued copy) ⟨rfl, rfl, rfl, rfl, rfl, rfl, rfl⟩
          rfl (.inl (by simp [hpc])) rfl (.of_incoming rfl (by simp [hpc]) (by simp [hpc])),
        hc.shift (t := t) rfl rfl rfl rfl ?_ ?_ ?_ ?_ ?_ (by simp) (by simp) (by simp)
          (by simp) ?_⟩ <;>
        grind -linarith [Function.update_apply]
    | blockAll | reload =>
      rw [Log.next_move (by simp [finishes, hpc, hq, hf, hinv])]
      exact kept_goto hp hc (t := t) ⟨rfl, rfl, rfl, rfl, rfl, rfl, rfl⟩ rfl
        (by simp [hpc]) rfl (.of_incoming rfl (by simp [hpc]) (by simp [hpc])) rfl rfl (.inl rfl)
        (by simp) (by simp)

/-- **Every call but a cancel keeps the invariants.** -/
theorem kept_called (hcl : cl.Honest) {op : Op J D} {x : State T J P × Log J}
    (hp : Places s loc S W) (hc : Cancels cl s loc l proper) (hpc : s.pc t = .idle)
    (hok : Orderly cl (s, l) (.call t op) x) (hm : Called cl s t op s')
    (hop : ∀ j wait r, op ≠ .cancel j wait r) : Kept cl s' l proper := by
  have hidle : ({ s with await := s.await } : State T J P).pc = Function.update s.pc t .idle := by
    simp [← hpc]
  cases hm
  case submit j now _ hj =>
    have huser : cl.func j = .user := hok
    cases now <;>
      exact ⟨_, S, W, hp.enter hj hpc ⟨rfl, rfl, rfl, rfl, rfl, rfl, rfl⟩ rfl rfl rfl
          (.of_incoming rfl (by rw [hpc]; rfl) (by simp [hpc])),
        hc.enter ((hp.fresh j).mp hj) rfl rfl rfl rfl (by simp) (by simp [huser]) (by simp [huser])
          (fun u x hu => by simp [(hc.own u j x hu).1] at huser) rfl rfl rfl⟩
  case runReturn =>
    exact kept_goto hp hc (t := t) (p := .idle) ⟨rfl, rfl, rfl, rfl, rfl, rfl, rfl⟩ hidle
      (by simp [hpc]) rfl (.of_incoming rfl (by simp [hpc]) (by simp [hpc])) rfl rfl (.inl rfl)
      (by simp) (by simp)
  case runWait | runLock =>
    exact kept_goto hp hc ⟨rfl, rfl, rfl, rfl, rfl, rfl, rfl⟩ rfl (by simp [hpc]) rfl
      (.of_incoming rfl (by simp [hpc]) (by simp [hpc])) rfl rfl (.inl rfl) (by simp) (by simp)
  case cancelReturn | cancelSubmit | cancelLock => exact absurd rfl (hop _ _ _)
  case unblockSubmit target r a _ hr hj =>
    obtain ⟨-, huser, hnone⟩ := hok
    have hna : ∀ r', cl.func r' = .cancelJob target → l.asked r' = false :=
      fun r' hr' => Bool.eq_false_iff.mpr fun ha => hnone ⟨r', hr', ha⟩
    refine ⟨_, S, W, hp.enter hj hpc ⟨rfl, rfl, rfl, rfl, rfl, rfl, rfl⟩ rfl rfl rfl
        (.of_incoming rfl (by rw [hpc]; rfl) (by simp [hpc])),
      hc.enter ((hp.fresh r).mp hj) rfl rfl rfl rfl (by simp) (by simp [hr]) ?_ ?_ rfl rfl rfl⟩
    · intro x hx
      rw [hr] at hx
      cases hx
      exact ⟨huser, hna⟩
    · intro u x hu
      rw [(hc.own u r x hu).1] at hr
      cases hr
  case unblockLock target r a _ =>
    obtain ⟨-, huser, hnone⟩ := hok
    have hna : ∀ r', cl.func r' = .cancelJob target → l.asked r' = false :=
      fun r' hr' => Bool.eq_false_iff.mpr fun ha => hnone ⟨r', hr', ha⟩
    refine kept_goto hp hc ⟨rfl, rfl, rfl, rfl, rfl, rfl, rfl⟩ rfl (by simp [hpc]) rfl
      (.of_incoming rfl (by simp [hpc]) (by simp [hpc])) rfl rfl (.inl rfl) ?_ (by simp)
    intro j hj
    cases hj
    exact ⟨huser, hna⟩
  case directReturn hd =>
    obtain ⟨hi, -⟩ := hcl.bits hd
    exact kept_goto hp hc (t := t) (p := .idle) ⟨rfl, rfl, rfl, rfl, rfl, rfl, rfl⟩ hidle
      (by simp [hpc]) rfl (.of_incoming hi (by simp [hpc]) (by simp [hpc])) rfl rfl (.inl rfl)
      (by simp) (by simp)
  case directRun hd =>
    obtain ⟨hi, -⟩ := hcl.bits hd
    exact kept_goto hp hc ⟨rfl, rfl, rfl, rfl, rfl, rfl, rfl⟩ rfl (by simp [hpc]) rfl
      (.of_incoming hi (by simp [hpc]) (by simp [hpc])) rfl rfl (.inl rfl) (by simp) (by simp)
  case directSubmit j _ hd huser hj =>
    obtain ⟨hi, -⟩ := hcl.bits hd
    exact ⟨_, S, W, hp.enter hj hpc ⟨rfl, rfl, rfl, rfl, rfl, rfl, rfl⟩ rfl rfl rfl
        (.of_incoming hi (by rw [hpc]; rfl) (by simp [hpc])),
      hc.enter ((hp.fresh j).mp hj) rfl rfl rfl rfl (by simp) (by simp [huser]) (by simp [huser])
        (fun u x hu => by simp [(hc.own u j x hu).1] at huser) rfl rfl rfl⟩

/-- **A cancel that is called keeps the invariants**; its request is proper if the submission of
its target has returned. -/
theorem kept_cancel {proper' : J → Prop} {j r : J} {wait : Bool}
    {x : State T J P × Log J} (hp : Places s loc S W) (hc : Cancels cl s loc l proper)
    (hpc : s.pc t = .idle) (hok : Orderly (D := D) cl (s, l) (.call t (.cancel j wait r)) x)
    (hm : Called cl s t (.cancel j wait r) s')
    (hprop : ∀ r', proper' r' → proper r' ∨ r' = r ∧ Returned s j) :
    Kept cl s' (l.next cl s (.call t (.cancel j wait r))) proper' := by
  obtain ⟨hr, hju, ha, hun⟩ := hok
  have hc' := hc.ask hp hr hju ha hun hprop
  have hown : ∀ u x, (s.pc u).own ≠ some (x, r) := fun u x hu => by
    rw [(hc.own u r x hu).2.1] at ha
    cases ha
  have hnone := hc.unasked r ha
  have hloc : loc r = .fresh := by
    by_contra hne
    rw [hc.asked r j hr hne] at ha
    cases ha
  change Kept cl s' { l with asked := Function.update l.asked r true } proper'
  cases hm
  case cancelReturn =>
    exact kept_goto hp hc' (t := t) (p := .idle) ⟨rfl, rfl, rfl, rfl, rfl, rfl, rfl⟩
      (by simp [← hpc]) (by simp [hpc]) rfl (.of_incoming rfl (by simp [hpc]) (by simp [hpc])) rfl
      rfl (.inl rfl) (by simp) (by simp)
  case cancelSubmit =>
    exact ⟨_, S, W, hp.enter ‹s.submitted r = false› hpc ⟨rfl, rfl, rfl, rfl, rfl, rfl, rfl⟩ rfl rfl rfl
        (.of_incoming rfl (by rw [hpc]; rfl) (by simp [hpc])),
      hc'.enter hloc rfl rfl rfl rfl (by simp)
        (fun _ _ => ⟨Function.update_self _ _ _, hnone⟩) (by simp [hr]) hown rfl rfl rfl⟩
  case cancelLock =>
    refine ⟨loc, S, W, hp.goto ⟨rfl, rfl, rfl, rfl, rfl, rfl, rfl⟩ rfl (.inl (by simp [hpc])) rfl
        (.of_incoming rfl (by simp [hpc]) (by simp [hpc])),
      hc'.shift rfl rfl rfl rfl (fun _ => .rfl) (fun _ => .rfl) (fun _ _ => id) (fun _ => .inl)
        (fun _ _ => .inl) ?_ (by simp) (by simp) (by simp) fun _ => .inl⟩
    intro x r' hx
    cases hx
    exact .inr ⟨hr, Function.update_self _ _ _, hnone, hloc⟩

/-! ## Results -/

/-- **What changes a result**: the cancel itself, which only takes its target from the lists. -/
theorem result_moved {c : C} (hp : Places s loc S W) (hc : Cancels cl s loc l proper)
    (hm : Moved cl s t c s') :
    s'.cancelled = s.cancelled ∨ ∃ r j b, cl.func r = .cancelJob j ∧ s.cancelled r = none ∧
      s'.cancelled = Function.update s.cancelled r (some b) ∧
      s'.queued = s.queued.filter (fun x => x ≠ j ∧ x ≠ r) ∧
      s'.blocked = s.blocked.filter fun x => x ≠ j ∧ x ≠ r := by
  have hfilter : ∀ r j : J, r ∉ s.queued → r ∉ s.blocked →
      (s.delegateCancelJob r j).queued = s.queued.filter (fun x => x ≠ j ∧ x ≠ r) ∧
      (s.delegateCancelJob r j).blocked = s.blocked.filter fun x => x ≠ j ∧ x ≠ r :=
    fun r j hq hb => ⟨(hp.queued_cancel r j).trans (filter_and_of_not_mem hq j).symm,
      (hp.blocked_cancel r j).trans (filter_and_of_not_mem hb j).symm⟩
  cases hm
  case immediateCancel k r j imm hpc hr =>
    have hloc : loc r = .aside t := (hp.memAside t r).mp (by rw [hpc]; exact List.mem_cons_self)
    obtain ⟨hq, hb⟩ := hfilter r j (fun hm => by simp [(hp.memQueued r).mp hm] at hloc)
      (fun hm => by simp [(hp.memBlocked r).mp hm] at hloc)
    exact .inr ⟨r, j, s.stillWith j, hr, hc.pending r j hr (by simp [hloc]) (by simp [hloc]),
      by simp [State.goto, State.signal, cancelled_delegateCancelJob], hq, hb⟩
  case queuedCancel old r j q hpc hq hr =>
    have hloc : loc r = .queued := (hp.memQueued r).mp (by rw [hq]; exact List.mem_cons_self)
    have hrq : r ∉ q := by
      have hnd := hp.nodupQueued
      rw [hq] at hnd
      exact (List.nodup_cons.mp hnd).1
    have hrj : r ≠ j := by
      rintro rfl
      rw [hc.kind r r hr (hc.asked r r hr (by simp [hloc]))] at hr
      cases hr
    refine .inr ⟨r, j, s.stillWith j, hr, hc.pending r j hr (by simp [hloc]) (by simp [hloc]),
      by simp [State.goto, State.finish, State.signal, cancelled_delegateCancelJob], ?_, ?_⟩
    · change (s.delegateCancelJob r j).queued.tail = _
      rw [hp.queued_cancel r j, hq, List.filter_cons_of_pos (by simpa using hrj), List.tail_cons,
        List.filter_cons_of_neg (by simp), filter_and_of_not_mem hrq]
    · refine (hp.blocked_cancel r j).trans (filter_and_of_not_mem (fun hm => ?_) j).symm
      simp [(hp.memBlocked r).mp hm] at hloc
  case cancelRemove j r hpc =>
    obtain ⟨hr, -, hnone, hloc⟩ := hc.own t r j (by rw [hpc]; rfl)
    obtain ⟨hq, hb⟩ := hfilter r j (fun hm => by simp [(hp.memQueued r).mp hm] at hloc)
      (fun hm => by simp [(hp.memBlocked r).mp hm] at hloc)
    exact .inr ⟨r, j, s.stillWith j, hr, hnone, by simp [State.goto, cancelled_delegateCancelJob],
      hq, hb⟩
  case immediateUnblock h₁ | queuedUnblock h₁ | unblockNow h₁ =>
    obtain ⟨-, rfl⟩ := jobToUnblockAnotherJob_eq h₁
    exact .inl rfl
  case job st _ _ _ _ _ => cases st <;> exact .inl rfl
  all_goals exact .inl rfl

/-- A call gives no result. -/
theorem result_called {op : Op J D} (hm : Called cl s t op s') :
    s'.cancelled = s.cancelled := by
  cases hm <;> rfl

end Delegate
