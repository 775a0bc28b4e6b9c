import Lwlock.DelegateTurn

/-!
# One runner, and what the bits of a delegate say

What the lock of a delegate is for, over all runs in which the jobs leave the state word
alone: one thread has it at a time, the two lists are read and written under it and by
nobody else, and when it is clear the other bits describe the queues. The incoming bit does
so only as long as every job is submitted with `run_now`.

How often a thread that waits was handed the lock is a history of the run.
-/

namespace Delegate

variable {T J P C : Type}

/-- **The user whose jobs leave the state word alone**: an invocation has a status, and
nothing else; the word is changed by no other operation. -/
def plain (func : J → Func J) : Client J P Status Empty where
  func := func
  invoke := fun _ st o => (o, false, st)
  direct := fun d => d.elim

/-- Who takes the step. -/
def Event.thread {D : Type} : Event T J C D → T
  | .call t _ => t
  | .move t _ => t

/-- The state with other lists. -/
def State.withLists (s : State T J P) (q b : List J) : State T J P :=
  { s with queued := q, blocked := b }

variable [DecidableEq T] [DecidableEq J]

open State

/-! ## The two lists -/

section Lists

variable {D : Type} {cfg : Config J P C D} {s : State T J P} {t : T}

theorem delegateSubmit_withLists (j : J) (runNow : Bool) (q b : List J) :
    delegateSubmit (s.withLists q b) t j runNow
      = (delegateSubmit s t j runNow).map (·.withLists q b) := by
  unfold delegateSubmit
  change (if s.submitted j then _ else _) = _
  cases s.submitted j <;> cases runNow <;> rfl

/-- A call neither reads nor writes the two lists. -/
theorem call_withLists (op : Op J D) (q b : List J) :
    call cfg (s.withLists q b) t op = (call cfg s t op).map (·.withLists q b) := by
  have hpc : (s.withLists q b).pc t = s.pc t := rfl
  have hw : (s.withLists q b).word = s.word := rfl
  cases hp : s.pc t
  case idle =>
    cases op
    case submit j now =>
      simp only [call, hpc, hp]
      exact delegateSubmit_withLists (s := { s with await := _ }) j now q b
    case run noWait =>
      cases hl : s.word.lock <;> cases noWait <;> simp only [call, hpc, hp, hw, hl] <;> rfl
    case cancel target wait r =>
      cases hl : s.word.lock <;> cases wait <;> simp only [call, hpc, hp, hw, hl]
      case true.true =>
        by_cases hf : cfg.client.func r = .cancelJob target
        · simp only [hf, if_true]
          exact delegateSubmit_withLists (s := { s with
            await := Function.update (Function.update s.await t none) t (some r) }) r true q b
        · simp only [hf, if_true, if_false, Option.map_none]
      all_goals rfl
    case unblock target r =>
      cases hl : s.word.lock <;> simp only [call, hpc, hp, hw, hl]
      case true =>
        by_cases hf : cfg.client.func r = .unblockJob target
        · simp only [hf, if_true]
          exact delegateSubmit_withLists (s := { s with
            await := Function.update (Function.update s.await t none) t (some r) }) r true q b
        · simp only [hf, if_true, if_false, Option.map_none]
      case false => rfl
    case direct d waits =>
      simp only [call, hpc, hp, hw]
      obtain _ | ⟨w, _ | _ | j⟩ := cfg.client.direct d s.word
      case some.submit =>
        by_cases hf : cfg.client.func j = .user
        · simp only [hf, if_true]
          exact delegateSubmit_withLists (s := { s with
            word := w
            await := Function.update (Function.update s.await t none) t
              (if waits then some j else none) }) j true q b
        · simp only [hf, if_false, Option.map_none]
      all_goals rfl
  all_goals simp [call, hpc, hp]

omit [DecidableEq J] in
/-- The call of a thread returns the same way with other lists. -/
theorem ret_withLists (q b : List J) : (s.withLists q b).ret t = (s.ret t).withLists q b := by
  have ha : (s.withLists q b).await t = s.await t := rfl
  unfold ret
  rw [ha]
  cases s.await t <;> rfl

variable [DecidableEq P] in
/-- **A thread without the lock neither reads nor writes the two lists.** -/
theorem move_withLists (h : (s.pc t).holds = false) (c : C) (q b : List J) :
    move cfg (s.withLists q b) t c = (move cfg s t c).map (·.withLists q b) := by
  have hpc : (s.withLists q b).pc t = s.pc t := rfl
  cases hp : s.pc t with
  | idle => simp [move, hpc, hp]
  | submitLoop j =>
    simp only [move, hpc, hp]
    change (if s.word.incoming || s.word.pending || s.word.lock then _ else _) = _
    split <;> rfl
  | pushRead j lock =>
    simp only [move, hpc, hp]
    split <;> rfl
  | pushLink j lock old =>
    simp only [move, hpc, hp]
    rfl
  | pushSwap j lock old =>
    simp only [move, hpc, hp]
    change (if s.stack = old then _ else _) = _
    split <;> rfl
  | setBits j lock =>
    simp only [move, hpc, hp]
    change (if lock && !s.word.lock then _ else _) = _
    split
    · rfl
    · exact congrArg some (ret_withLists (s := { s with word := _ }) q b)
  | wakeup u =>
    simp only [move, hpc, hp]
    exact congrArg some (ret_withLists (s := { s with woken := _ }) q b)
  | waitLock =>
    simp only [move, hpc, hp]
    change (if s.woken t then _ else _) = _
    split <;> rfl
  | waitEvent j =>
    simp only [move, hpc, hp]
    change (if 0 < s.signals j then _ else _) = _
    split <;> rfl
  | _ => simp [hp] at h

/-- **A step of a thread without the lock neither reads nor writes the two lists.** -/
theorem step_withLists [DecidableEq P] (e : Event T J C D) (h : ¬ Holder s e.thread) (q b : List J) :
    (machine T cfg).step (s.withLists q b) e = ((machine T cfg).step s e).map (·.withLists q b) := by
  cases e with
  | call t op => exact call_withLists op q b
  | move t c => exact move_withLists (Bool.eq_false_iff.mpr fun hh => h (.inl hh)) c q b

end Lists

/-! ## The incoming bit -/

/-- Every job is submitted with `run_now`. -/
def runNow : State T J P → Event T J Status Empty → State T J P → Prop
  | _, .call _ (.submit _ now), _ => now = true
  | _, _, _ => True

/-- The bit of a push, or the copy of the word that the point holds, is as it is when
every job is submitted with `run_now`. -/
def Pc.Quiet : Pc T J P → Prop
  | .pushRead _ lock | .setBits _ lock => lock = true
  | .runQueued old | .release old => old.incoming = false
  | _ => True

/-- With the lock bit clear, nothing came in. -/
structure Quiet (s : State T J P) : Prop where
  quiet : ∀ t, (s.pc t).Quiet
  rest : s.word.lock = false → s.word.incoming = false

omit [DecidableEq J] in
theorem Quiet.goto {s s' : State T J P} {t : T} {p : Pc T J P} (h : Quiet s)
    (hs : s'.pc = Function.update s.pc t p) (hp : p.Quiet)
    (hrest : s'.word.lock = false → s'.word.incoming = false) : Quiet s' := by
  refine ⟨fun u => ?_, hrest⟩
  rw [hs, Function.update_apply]
  split
  · exact hp
  · exact h.quiet u

theorem Quiet.moved {func : J → Func J} {s s' : State T J P} {t : T} {c : Status} (h : Quiet s)
    (ht : Turn s) (hm : Moved (plain func) s t c s') : Quiet s' := by
  have hq := h.quiet t
  have hl := ht.locked t
  cases hm
  case push hpc =>
    rw [hpc] at hq
    exact h.goto rfl hq h.rest
  case setBits hpc hlock hout =>
    rw [hpc] at hq
    refine h.goto rfl ?_ fun hf => ?_
    · obtain rfl | ⟨_, rfl⟩ := hout <;> trivial
    · exact absurd (hf.symm.trans (hlock hq)) Bool.false_ne_true
  case submitFast | setBitsRun => exact h.goto rfl trivial nofun
  case submitSlow => exact h.goto rfl rfl h.rest
  case waitEvent => exact h.goto rfl trivial h.rest
  case wakeup hout =>
    refine h.goto rfl ?_ h.rest
    obtain rfl | ⟨_, rfl⟩ := hout <;> trivial
  case woken => exact h.goto rfl trivial h.rest
  case fastEnqueue | runStart | drainEnter | drainTake | walkEnd | walkAside | walkQueue |
      releaseRetry | handOver => exact h.goto rfl trivial h.rest
  case drainClear => exact h.goto rfl trivial fun _ => rfl
  case drainSkip k _ _ | immediateEnd k _ =>
    refine h.goto rfl ?_ h.rest
    cases k <;> trivial
  case immediateCancel k j target imm _ _ =>
    exact h.goto (t := t) (p := .drainImmediate k imm) (by simp [State.goto, State.signal]) trivial
      (by simpa [State.goto, State.signal] using h.rest)
  case cancelRemove =>
    exact h.goto (t := t) (p := .runStart) (by simp [State.goto]) trivial
      (by simpa [State.goto] using h.rest)
  case queuedCancel old _ _ _ hpc _ _ =>
    rw [hpc] at hq
    exact h.goto (t := t) (p := .runQueued old) (by simp [State.goto, finish, State.signal]) hq
      (by simpa [State.goto, finish, State.signal] using h.rest)
  case immediateUnblock h₁ | unblockNow h₁ =>
    obtain ⟨-, rfl⟩ := jobToUnblockAnotherJob_eq h₁
    exact h.goto rfl trivial h.rest
  case queuedUnblock hpc _ _ h₁ =>
    obtain ⟨-, rfl⟩ := jobToUnblockAnotherJob_eq h₁
    rw [hpc] at hq
    exact h.goto rfl hq h.rest
  case queueEnd hpc _ =>
    rw [hpc] at hq
    exact h.goto rfl hq h.rest
  case job hpc _ _ hinv hcopy =>
    rw [hpc] at hq
    cases hinv
    obtain rfl := hcopy
    cases c <;> exact h.goto rfl hq h.rest
  case releaseWait hpc hw hold =>
    subst hw
    rw [hpc] at hl
    refine h.goto rfl trivial fun hf => ?_
    simp [State.goto, released, hold, hl rfl] at hf
  case release hpc hw hold hout =>
    rw [hpc] at hq
    refine h.goto rfl ?_ fun _ => hq
    obtain rfl | ⟨_, rfl⟩ := hout <;> trivial
  case unlock hpc hw _ =>
    rw [ht.unlock t hpc] at hw
    cases hw

theorem Quiet.called {func : J → Func J} {s s' : State T J P} {t : T} {op : Op J Empty}
    (h : Quiet s) (hok : runNow s (.call t op) s') (hpc : s.pc t = .idle)
    (hc : Called (plain func) s t op s') : Quiet s' := by
  cases hc
  case submit =>
    obtain rfl := hok
    exact h.goto rfl trivial h.rest
  case runReturn | cancelReturn => exact h.goto (t := t) (p := .idle) (by simp [← hpc]) trivial h.rest
  case cancelSubmit | unblockSubmit | runWait => exact h.goto rfl trivial h.rest
  case runLock | cancelLock | unblockLock => exact h.goto rfl trivial nofun
  case directReturn d _ _ _ _ | directRun d _ _ _ _ | directSubmit d _ _ _ _ _ _ _ => exact d.elim

/-! ## How often a thread was handed the lock -/

section Handed

variable [DecidableEq P]

/-- How often each thread was handed the lock since it began to wait. -/
def countHanded (s : State T J P) (e : Event T J Status Empty) (s' : State T J P) (n : T → ℕ) :
    T → ℕ := fun u =>
  match e with
  | .call t _ => if t = u ∧ s'.pc u = .waitLock then 0 else n u
  | .move t _ => if s.pc t = .unlock ∧ s'.pc t = .wakeup u then n u + 1 else n u

/-- A thread that waits was handed the lock once if it left the line, and never before. -/
def HandedOnce (s : State T J P) (n : T → ℕ) : Prop :=
  ∀ u, s.pc u = .waitLock → n u = if u ∈ s.waiters then 0 else 1

theorem HandedOnce.moved {func : J → Func J} {s s' : State T J P} {t : T} {c : Status}
    {n : T → ℕ} (h : HandedOnce s n) (ht : Turn s) (hm : Moved (plain func) s t c s') :
    HandedOnce s' (countHanded s (.move t c) s' n) := by
  obtain ⟨p, hp, hwait, -, hline⟩ := hm.line
  intro u hu
  have hut : u ≠ t := by
    rintro rfl
    rw [hp, Function.update_self] at hu
    exact hwait hu
  rw [hp, Function.update_of_ne hut] at hu
  have hn := h u hu
  simp only [countHanded, hp, Function.update_self]
  obtain ⟨hw, hpk⟩ | ⟨v, vs, hun, rfl, hv, hvs⟩ := hline
  · rw [if_neg fun hk => hpk u hk.2, hw, hn]
  · have hnd := ht.nodup
    rw [hv, List.nodup_cons] at hnd
    rw [hvs, hn, hv]
    by_cases huv : u = v
    · subst huv
      simp [hun, hnd.1]
    · simp [huv, Ne.symm huv]

theorem HandedOnce.called {func : J → Func J} {s s' : State T J P} {t : T} {op : Op J Empty}
    {n : T → ℕ} (h : HandedOnce s n) (hpc : s.pc t = .idle) (hc : Called (plain func) s t op s') :
    HandedOnce s' (countHanded s (.call t op) s' n) := by
  obtain ⟨p, hp, hline⟩ := hc.line hpc
  intro u hu
  simp only [countHanded, hu, and_true]
  by_cases htu : t = u
  · subst htu
    rw [hp, Function.update_self] at hu
    obtain ⟨hwait, -⟩ | ⟨-, hw⟩ := hline
    · exact absurd hu hwait
    · simp [hw]
  · rw [hp, Function.update_of_ne (Ne.symm htu)] at hu
    rw [if_neg htu, h u hu]
    obtain ⟨-, hw⟩ | ⟨-, hw⟩ := hline <;> simp [hw, Ne.symm htu]

end Handed

/-! ## The promise -/

variable [DecidableEq P]

/-- The invariants of a run that remembers. -/
theorem turn_of_reach (func : J → Func J) (p : P) {q : State T J P × (T → ℕ)}
    (h : ((machine T ⟨plain func, p, true⟩).remember (fun _ => 0) countHanded).Reach
      Machine.anyStep q) : Turn q.1 ∧ HandedOnce q.1 q.2 := by
  refine h.invariant (I := fun q => Turn q.1 ∧ HandedOnce q.1 q.2) ?_ ?_
  · rintro ⟨s, n⟩ ⟨hs, -⟩
    obtain rfl := hs
    exact ⟨turn_init p, nofun⟩
  · rintro ⟨s, n⟩ e ⟨s', n'⟩ ⟨ht, hh⟩ hstep -
    obtain ⟨hs, hn⟩ := Machine.step_remember.mp hstep
    change n' = countHanded s e s' n at hn
    subst hn
    cases e with
    | call t op =>
      obtain ⟨hpc, hc⟩ := called_of_call hs
      exact ⟨ht.called (honest_of_empty _) hpc hc, hh.called hpc hc⟩
    | move t c =>
      have hm := moved_of_move rfl (ht.whole t) hs
      exact ⟨ht.moved hm, hh.moved ht hm⟩

theorem quiet_of_reach (func : J → Func J) (p : P) {s : State T J P}
    (h : (machine T ⟨plain func, p, true⟩).Reach runNow s) : Quiet s := by
  refine (h.invariant (I := fun s => Turn s ∧ Quiet s) ?_ ?_).2
  · rintro s hs
    obtain rfl := hs
    exact ⟨turn_init p, fun _ => trivial, fun _ => rfl⟩
  · rintro s e s' ⟨ht, hq⟩ hs hok
    cases e with
    | call t op =>
      obtain ⟨hpc, hc⟩ := called_of_call hs
      exact ⟨ht.called (honest_of_empty _) hpc hc, hq.called hok hpc hc⟩
    | move t c =>
      have hm := moved_of_move rfl (ht.whole t) hs
      exact ⟨ht.moved hm, hq.moved ht hm⟩

/-- **A delegate has at most one runner, and its bits describe its queues.** Over all runs of
a delegate whose jobs leave the state word alone: the lock bit is set exactly when a thread
has the lock, which then is one thread; a thread without the lock takes its step as it would
with any other two lists, and leaves them; with the lock bit clear the waiting bit is clear,
and the pending bit is set exactly when a job is queued; so is the incoming bit, if every job
was submitted with `run_now`; and a thread that waits is handed the lock exactly once before
it goes on. -/
theorem one_runner (func : J → Func J) (p : P) {q : State T J P × (T → ℕ)}
    (h : ((machine T ⟨plain func, p, true⟩).remember (fun _ => 0) countHanded).Reach
      Machine.anyStep q) :
    (∀ t u, Holder q.1 t → Holder q.1 u → t = u)
    ∧ (q.1.word.lock = true ↔ ∃ t, Holder q.1 t)
    ∧ (∀ (e : Event T J Status Empty) (l b : List J), ¬ Holder q.1 e.thread →
        (machine T ⟨plain func, p, true⟩).step (q.1.withLists l b) e
          = ((machine T ⟨plain func, p, true⟩).step q.1 e).map (·.withLists l b))
    ∧ (q.1.word.lock = false →
        q.1.word.waiting = false ∧ (q.1.word.pending = true ↔ q.1.queued ≠ []))
    ∧ ((machine T ⟨plain func, p, true⟩).Reach runNow q.1 →
        q.1.word.lock = false → q.1.word.incoming = false)
    ∧ (∀ t, q.1.pc t = .waitLock → q.2 t = if t ∈ q.1.waiters then 0 else 1)
    ∧ (∀ e t s', (machine T ⟨plain func, p, true⟩).step q.1 e = some s' →
        q.1.pc t = .waitLock → s'.pc t ≠ .waitLock → q.2 t = 1) := by
  obtain ⟨ht, hh⟩ := turn_of_reach func p h
  refine ⟨fun t u => ht.holder_unique, ?_, fun e l b he => step_withLists e he l b, ht.rest,
    fun hq => (quiet_of_reach func p hq).rest, hh, fun e t s' he hpc hpc' => ?_⟩
  · exact ⟨ht.covered, fun ⟨t, hu⟩ => ht.lock_of_holder hu⟩
  · rw [hh t hpc, if_neg]
    intro hw
    cases e with
    | call u op =>
      obtain ⟨hu, hc⟩ := called_of_call he
      obtain ⟨r, hr, -⟩ := hc.line hu
      have htu : t ≠ u := by
        rintro rfl
        rw [hpc] at hu
        cases hu
      rw [hr, Function.update_of_ne htu] at hpc'
      exact hpc' hpc
    | move u c =>
      by_cases htu : t = u
      · subst htu
        simp only [machine, move, hpc, (ht.waiter t hw).2] at he
        cases he
      · obtain ⟨r, hr, -⟩ := (moved_of_move rfl (ht.whole u) he).line
        rw [hr, Function.update_of_ne htu] at hpc'
        exact hpc' hpc

/-- A thread takes the lock, another waits for it, and the first hands it over. -/
def handRun : List (Event Bool Bool Status Empty) :=
  [.call false (.run false), .call true (.run false), .move false .done, .move false .done,
    .move false .done, .move false .done, .move false .done]

theorem one_runner_handRun : ∃ q, ((machine Bool ⟨plain fun _ : Bool => .user, (), true⟩).remember
      (fun _ => 0) countHanded).Reach Machine.anyStep q ∧ q.1.pc true = .waitLock ∧ q.2 true = 1 := by
  obtain ⟨q, hq, hp⟩ := Machine.Reach.exists_of_exec
    ((machine Bool ⟨plain fun _ : Bool => .user, (), true⟩).remember (fun _ => 0) countHanded)
    Machine.anyStep (s := (init (), fun _ => 0)) ⟨rfl, rfl⟩
    (p := fun q => decide (q.1.pc true = .waitLock ∧ true ∉ q.1.waiters)) handRun
    (by decide +kernel)
  obtain ⟨hpc, hw⟩ := of_decide_eq_true hp
  exact ⟨q, hq, hpc, by rw [(one_runner _ () hq).2.2.2.2.2.1 true hpc, if_neg hw]⟩

end Delegate
