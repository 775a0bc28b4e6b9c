import Lwlock.DelegateSteps
import Lwlock.History

/-!
# The threads of a delegate take turns

The lock bit of a delegate is taken in five ways, and given up in two: by the swap of the
whole word at the end of a run, or, when the waiting bit is set, by handing it to the first
of the threads that wait. A thread that was handed the lock has it before it is woken up.
-/

namespace Delegate

variable {T J P C D : Type}

/-! ## Who has the lock -/

/-- Whether a thread at that point has the lock. -/
@[simp, grind =] def Pc.holds : Pc T J P → Bool
  | .idle => false
  | .submitLoop _ => false
  | .pushRead _ _ => false
  | .pushLink _ _ _ => false
  | .pushSwap _ _ _ => false
  | .setBits _ _ => false
  | .fastEnqueue _ => true
  | .runStart => true
  | .drainTest _ => true
  | .drainClear _ => true
  | .drainTake _ => true
  | .drainLoop _ _ _ _ => true
  | .drainImmediate _ _ => true
  | .runQueued _ => true
  | .release _ => true
  | .unlock => true
  | .wakeup _ => false
  | .waitLock => false
  | .cancelRemove _ _ => true
  | .unblockNow _ => true
  | .waitEvent _ => false

/-- **Who has the lock**: a thread between taking it and giving it up, or one that was handed
it and did not go on yet. -/
def Holder (s : State T J P) (t : T) : Prop :=
  (s.pc t).holds = true ∨ (s.pc t = .waitLock ∧ t ∉ s.waiters)

/-- A user that takes the lock of the delegate only to run it, and leaves the other bits. -/
structure Client.Honest (cl : Client J P C D) : Prop where
  bits : ∀ {d w w' a}, cl.direct d w = some (w', a) → w'.incoming = w.incoming
    ∧ w'.pending = w.pending ∧ w'.waiting = w.waiting
  run : ∀ {d w w'}, cl.direct d w = some (w', .runInternal) → w.lock = false ∧ w'.lock = true
  lock : ∀ {d w w' a}, cl.direct d w = some (w', a) → a ≠ .runInternal → w'.lock = w.lock

/-- A user that does nothing but run jobs is one. -/
theorem honest_of_empty (cl : Client J P C Empty) : cl.Honest where
  bits {d} := d.elim
  run {d} := d.elim
  lock {d} := d.elim

/-- **The invariant.** -/
structure Turn (s : State T J P) : Prop where
  whole : ∀ t, (s.pc t).Whole
  one : ∀ t u, (s.pc t).holds = true → (s.pc u).holds = true → t = u
  apart : ∀ t u, (s.pc t).holds = true → s.pc u = .waitLock → u ∈ s.waiters
  oneHanded : ∀ t u, s.pc t = .waitLock → s.pc u = .waitLock → t ∉ s.waiters → u ∉ s.waiters → t = u
  locked : ∀ t, (s.pc t).holds = true → s.word.lock = true
  handedLocked : ∀ t, s.pc t = .waitLock → s.word.lock = false → t ∈ s.waiters
  waiter : ∀ t, t ∈ s.waiters → s.pc t = .waitLock ∧ s.woken t = false
  nodup : s.waiters.Nodup
  waiting : s.word.waiting = true ↔ s.waiters ≠ []
  rest : s.word.lock = false → s.word.waiting = false ∧ (s.word.pending = true ↔ s.queued ≠ [])
  unlock : ∀ t, s.pc t = .unlock → s.word.waiting = true
  wakeup : ∀ t u, s.pc t = .wakeup u → s.pc u = .waitLock ∧ u ∉ s.waiters ∧ s.woken u = false
  wakeOne : ∀ t t' u, s.pc t = .wakeup u → s.pc t' = .wakeup u → t = t'
  woken : ∀ t, s.woken t = true → s.pc t = .waitLock ∧ t ∉ s.waiters
  handed : ∀ t, s.pc t = .waitLock → t ∉ s.waiters → s.woken t = true ∨ ∃ u, s.pc u = .wakeup t
  covered : s.word.lock = true → ∃ t, Holder s t

attribute [grind →] Turn.one Turn.apart Turn.oneHanded Turn.locked Turn.handedLocked Turn.waiter
  Turn.rest Turn.unlock Turn.wakeup Turn.wakeOne Turn.woken Turn.handed

attribute [grind .] Turn.whole Turn.nodup Turn.waiting

theorem turn_init (p : P) : Turn (init p : State T J P) := by
  constructor <;> simp [init, Pc.Whole]

/-- **One thread has the lock.** -/
theorem Turn.holder_unique {s : State T J P} {t u : T} (h : Turn s) (ht : Holder s t)
    (hu : Holder s u) : t = u := by
  obtain ht | ⟨ht, htw⟩ := ht <;> obtain hu | ⟨hu, huw⟩ := hu
  · exact h.one t u ht hu
  · exact absurd (h.apart t u ht hu) huw
  · exact absurd (h.apart u t hu ht) htw
  · exact h.oneHanded t u ht hu htw huw

theorem Turn.lock_of_holder {s : State T J P} {t : T} (h : Turn s) (ht : Holder s t) :
    s.word.lock = true := by
  obtain ht | ⟨ht, htw⟩ := ht
  · exact h.locked t ht
  · exact Bool.not_eq_false _ ▸ fun hl => htw (h.handedLocked t ht hl)

variable [DecidableEq T] [DecidableEq J]

open State

omit [DecidableEq J] in
/-- Who was handed the lock goes on being woken up while another thread moves on. -/
theorem Turn.handed_update {s : State T J P} {t : T} {p : Pc T J P} (h : Turn s)
    (hp : p ≠ .waitLock) (hpc : ∀ u, s.pc t ≠ .wakeup u) (x : T)
    (hx : Function.update s.pc t p x = .waitLock) (hw : x ∉ s.waiters) :
    s.woken x = true ∨ ∃ u, Function.update s.pc t p u = .wakeup x := by
  have hxt : x ≠ t := by
    rintro rfl
    rw [Function.update_self] at hx
    exact hp hx
  rw [Function.update_of_ne hxt] at hx
  refine (h.handed x hx hw).imp_right ?_
  rintro ⟨u, hu⟩
  have hut : u ≠ t := by
    rintro rfl
    exact hpc x hu
  exact ⟨u, by rw [Function.update_of_ne hut, hu]⟩

omit [DecidableEq J] in
/-- Who has the lock keeps it while another thread moves on. -/
theorem Holder.update {s s' : State T J P} {t u : T} {p : Pc T J P}
    (hs : s'.pc = Function.update s.pc t p) (hp : (s.pc t).holds = true → p.holds = true)
    (hpc : s.pc t ≠ .waitLock) (h1 : u ∉ s.waiters → u ∉ s'.waiters) (hu : Holder s u) :
    Holder s' u := by
  unfold Holder
  rw [hs]
  by_cases hut : u = t
  · subst hut
    rw [Function.update_self]
    exact .inl (hp (hu.resolve_right fun hw => hpc hw.1))
  · rw [Function.update_of_ne hut]
    exact hu.imp_right (And.imp_right h1)

omit [DecidableEq J] in
/-- **A thread moves on** and neither takes the lock nor gives it up. -/
theorem Turn.goto {s s' : State T J P} {t : T} {p : Pc T J P} (h : Turn s)
    (hs : s'.pc = Function.update s.pc t p) (hp : p.holds = (s.pc t).holds) (hw : p.Whole)
    (hwait : p ≠ .waitLock) (hun : p ≠ .unlock) (hwk : ∀ u, p ≠ .wakeup u)
    (hpc : s.pc t ≠ .waitLock) (hpk : ∀ u, s.pc t ≠ .wakeup u) (h1 : s'.waiters = s.waiters)
    (h2 : s'.woken = s.woken) (h3 : s'.word.lock = s.word.lock)
    (h4 : s'.word.waiting = s.word.waiting)
    (h5 : s.word.lock = false → s'.word.pending = s.word.pending ∧ s'.queued = s.queued) :
    Turn s' := by
  have hhand := h.handed_update hwait hpk
  constructor
  case handed =>
    rw [hs, h1, h2]
    exact hhand
  case covered =>
    rw [h3]
    exact fun hl => (h.covered hl).imp fun u hu =>
      hu.update hs (fun ht => hp ▸ ht) hpc (fun hu => h1 ▸ hu)
  all_goals clear hhand
  all_goals simp only [hs, h1, h2, h3, h4]
  all_goals grind -linarith [Function.update_apply]

omit [DecidableEq J] in
/-- **A thread that has the lock goes on with it.** -/
theorem Turn.keep {s s' : State T J P} {t : T} {p : Pc T J P} (h : Turn s)
    (hpc : (s.pc t).holds = true) (hs : s'.pc = Function.update s.pc t p) (hp : p.holds = true)
    (hun : p = .unlock → s.word.waiting = true) (h1 : s'.waiters = s.waiters)
    (h2 : s'.woken = s.woken) (h3 : s'.word.lock = s.word.lock)
    (h4 : s'.word.waiting = s.word.waiting) : Turn s' := by
  have hl := h.locked t hpc
  have hwait : p ≠ .waitLock := by
    rintro rfl
    cases hp
  have hwhole : p.Whole := by
    cases p <;> trivial
  have hhand := h.handed_update hwait (t := t) (by intro u hu; simp [hu] at hpc)
  constructor
  case handed =>
    rw [hs, h1, h2]
    exact hhand
  case covered => exact fun _ => ⟨t, .inl (by rw [hs, Function.update_self, hp])⟩
  all_goals clear hhand
  all_goals simp only [hs, h1, h2, h3, h4]
  all_goals grind -linarith [Function.update_apply]

omit [DecidableEq J] in
/-- **A thread that has the lock gives it up**, or hands it over. -/
theorem Turn.release {s s' : State T J P} {t : T} {p : Pc T J P} (h : Turn s)
    (hs : s'.pc = Function.update s.pc t p) (hp : p.holds = false) (hw : p.Whole)
    (hwait : p ≠ .waitLock) (hwk : ∀ u, p ≠ .wakeup u) (hpc : (s.pc t).holds = true)
    (hold : s.word.waiting = false) (h1 : s'.waiters = s.waiters) (h2 : s'.woken = s.woken)
    (h3 : s'.word.lock = false) (h4 : s'.word.waiting = false)
    (h5 : s'.word.pending = true ↔ s'.queued ≠ []) : Turn s' := by
  have hhand := h.handed_update hwait (t := t) (by intro u hu; simp [hu] at hpc)
  constructor
  case handed =>
    rw [hs, h1, h2]
    exact hhand
  all_goals clear hhand
  all_goals simp only [hs, h1, h2, h3, h4]
  all_goals grind -linarith [Function.update_apply]

omit [DecidableEq J] in
/-- **A thread takes a lock that nobody has.** -/
theorem Turn.acquire {s s' : State T J P} {t : T} {p : Pc T J P} (h : Turn s)
    (hs : s'.pc = Function.update s.pc t p) (hp : p.holds = true) (hw : p.Whole)
    (hun : p ≠ .unlock) (hpk : ∀ u, s.pc t ≠ .wakeup u)
    (hl : s.word.lock = false) (h1 : s'.waiters = s.waiters) (h2 : s'.woken = s.woken)
    (h3 : s'.word.lock = true) (h4 : s'.word.waiting = s.word.waiting) : Turn s' := by
  have hwait : p ≠ .waitLock := by
    rintro rfl
    cases hp
  have hhand := h.handed_update hwait hpk
  constructor
  case handed =>
    rw [hs, h1, h2]
    exact hhand
  case covered => exact fun _ => ⟨t, .inl (by rw [hs, Function.update_self, hp])⟩
  all_goals clear hhand
  all_goals simp only [hs, h1, h2, h3, h4]
  all_goals grind -linarith [Function.update_apply]

omit [DecidableEq J] in
/-- **The lock is handed over**: the first thread in the queue is about to be woken. -/
theorem Turn.handOver {s : State T J P} {t u : T} {us : List T} (h : Turn s)
    (hpc : s.pc t = .unlock) (hus : s.waiters = u :: us) :
    Turn ({ s with word := { s.word with waiting := !us.isEmpty }, waiters := us }.goto t
      (.wakeup u)) := by
  have hwk := h.waiter u (by simp [hus])
  have hnd := h.nodup
  rw [hus, List.nodup_cons] at hnd
  have hholds : (s.pc t).holds = true := by rw [hpc]; rfl
  have hlock := h.locked t hholds
  constructor
  case handed =>
    intro x hx hxu
    simp only [State.goto, Function.update_apply] at hx hxu ⊢
    split at hx
    · cases hx
    · by_cases hxs : x ∈ s.waiters
      · obtain rfl : x = u := by simpa [hus, hxu] using hxs
        exact .inr ⟨t, by simp⟩
      · refine (h.handed x hx hxs).imp_right ?_
        rintro ⟨v, hv⟩
        have hvt : v ≠ t := by
          rintro rfl
          rw [hpc] at hv
          cases hv
        exact ⟨v, by simp [hvt, hv]⟩
  case covered =>
    have hut : u ≠ t := by
      rintro rfl
      simp [hpc] at hwk
    exact fun _ => ⟨u, .inr ⟨by simp [State.goto, hut, hwk.1], hnd.1⟩⟩
  all_goals simp only [State.goto]
  all_goals grind -linarith [Function.update_apply, Pc.Whole]

omit [DecidableEq J] in
/-- **The thread the lock was handed to is woken.** -/
theorem Turn.wake {s : State T J P} {t u : T} {p : Pc T J P} (h : Turn s)
    (hpc : s.pc t = .wakeup u) (hout : p.Out) :
    Turn ({ s with woken := Function.update s.woken u true }.goto t p) := by
  obtain ⟨hu, huw, huk⟩ := h.wakeup t u hpc
  have hp : p.holds = false ∧ p.Whole ∧ p ≠ .waitLock ∧ p ≠ .unlock ∧ ∀ v, p ≠ .wakeup v := by
    obtain rfl | ⟨_, rfl⟩ := hout <;> simp [Pc.Whole]
  clear hout
  constructor
  case handed =>
    intro x hx hxw
    simp only [State.goto, Function.update_apply] at hx ⊢
    by_cases hxu : x = u
    · exact .inl (by simp [hxu])
    · have hxt : x ≠ t := by
        rintro rfl
        rw [if_pos rfl] at hx
        exact hp.2.2.1 hx
      rw [if_neg hxt] at hx
      refine (h.handed x hx hxw).imp (fun hk => by rw [if_neg hxu, hk]) ?_
      rintro ⟨v, hv⟩
      have hvt : v ≠ t := by
        rintro rfl
        rw [hpc, Pc.wakeup.injEq] at hv
        exact hxu hv.symm
      exact ⟨v, by rw [if_neg hvt, hv]⟩
  case covered =>
    have hut : u ≠ t := by
      rintro rfl
      simp [hpc] at hu
    exact fun _ => ⟨u, .inr ⟨by simp [State.goto, hut, hu], huw⟩⟩
  all_goals simp only [State.goto]
  all_goals grind -linarith [Function.update_apply]

omit [DecidableEq J] in
/-- **A thread that was woken** has the lock. -/
theorem Turn.awake {s : State T J P} {t : T} (h : Turn s) (hpc : s.pc t = .waitLock)
    (hw : s.woken t = true) :
    Turn ({ s with woken := Function.update s.woken t false }.goto t .runStart) := by
  have htw := (h.woken t hw).2
  constructor
  case handed =>
    intro x hx hxw
    simp only [State.goto, Function.update_apply] at hx
    split at hx
    · cases hx
    · rename_i hxt
      exact absurd (h.oneHanded x t hx hpc hxw htw) hxt
  case covered => exact fun _ => ⟨t, .inl (by simp [State.goto])⟩
  all_goals simp only [State.goto]
  all_goals grind -linarith [Function.update_apply, Pc.Whole]

/-- **Every further step keeps the invariant.** -/
theorem Turn.moved {cl : Client J P C D} {s s' : State T J P} {t : T} {c : C} (h : Turn s)
    (hm : Moved cl s t c s') : Turn s' := by
  cases hm
  case submitSlow hpc _ | push hpc =>
    exact h.goto rfl (by rw [hpc]; rfl) trivial (by simp) (by simp) (by simp) (by simp [hpc])
      (by simp [hpc]) rfl rfl rfl rfl fun _ => ⟨rfl, rfl⟩
  case setBits hpc _ hout =>
    obtain rfl | ⟨_, rfl⟩ := hout <;>
      exact h.goto rfl (by rw [hpc]; rfl) trivial (by simp) (by simp) (by simp) (by simp [hpc])
        (by simp [hpc]) rfl rfl rfl rfl fun _ => ⟨rfl, rfl⟩
  case waitEvent hpc _ =>
    exact h.goto rfl (by rw [hpc]; rfl) trivial (by simp) (by simp) (by simp) (by simp [hpc])
      (by simp [hpc]) rfl rfl rfl rfl fun _ => ⟨rfl, rfl⟩
  case submitFast hpc _ _ hl =>
    exact h.acquire rfl rfl trivial (by simp) (by simp [hpc]) hl rfl rfl rfl rfl
  case setBitsRun hpc hl =>
    exact h.acquire rfl rfl trivial (by simp) (by simp [hpc]) hl rfl rfl rfl rfl
  case fastEnqueue hpc | runStart hpc | drainEnter hpc _ | drainClear hpc | drainTake hpc |
      walkEnd hpc | walkAside hpc _ | walkQueue hpc _ | queueEnd hpc _ | releaseRetry hpc _ =>
    exact h.keep (by rw [hpc]; rfl) rfl rfl (by simp) rfl rfl rfl rfl
  case drainSkip k hpc _ | immediateEnd k hpc =>
    cases k <;> exact h.keep (by rw [hpc]; rfl) rfl rfl (by simp [Caller.next]) rfl rfl rfl rfl
  case immediateCancel k j target imm hpc _ =>
    exact h.keep (p := .drainImmediate k imm) (by rw [hpc]; rfl) (by simp [State.goto, State.signal]) rfl (by simp)
      (by simp [State.goto, State.signal]) (by simp [State.goto, State.signal]) (by simp [State.goto, State.signal])
      (by simp [State.goto, State.signal])
  case cancelRemove hpc =>
    exact h.keep (p := .runStart) (by rw [hpc]; rfl) (by simp [State.goto]) rfl (by simp) (by simp [State.goto])
      (by simp [State.goto]) (by simp [State.goto]) (by simp [State.goto])
  case queuedCancel old j target q hpc _ _ =>
    exact h.keep (p := .runQueued old) (by rw [hpc]; rfl) (by simp [State.goto, finish, State.signal]) rfl (by simp)
      (by simp [State.goto, finish, State.signal]) (by simp [State.goto, finish, State.signal])
      (by simp [State.goto, finish, State.signal]) (by simp [State.goto, finish, State.signal])
  case immediateUnblock hpc _ h₁ | queuedUnblock hpc _ _ h₁ | unblockNow hpc h₁ =>
    obtain ⟨-, rfl⟩ := jobToUnblockAnotherJob_eq h₁
    exact h.keep (by rw [hpc]; rfl) rfl rfl (by simp) rfl rfl rfl rfl
  case job st hpc _ _ _ _ =>
    cases st <;> exact h.keep (by rw [hpc]; rfl) rfl rfl (by simp) rfl rfl rfl rfl
  case releaseWait old hpc hw hold =>
    refine h.keep (by rw [hpc]; rfl) rfl rfl (fun _ => by rw [hw, hold]) rfl rfl ?_ ?_
    · simp [released, State.goto, hw, hold]
    · simp [released, State.goto, hw]
  case release old p hpc hw hold hout =>
    subst hw
    obtain rfl | ⟨_, rfl⟩ := hout <;>
      refine h.release rfl rfl trivial (by simp) (by simp) (by rw [hpc]; rfl) hold rfl rfl
        (by simp [State.goto, released, hold]) (by simp [State.goto, released, hold]) ?_ <;>
      simp [State.goto, released]
  case unlock hpc hw _ =>
    rw [h.unlock t hpc] at hw
    cases hw
  case handOver hpc _ hus => exact h.handOver hpc hus
  case wakeup hpc hout => exact h.wake hpc hout
  case woken hpc hw => exact h.awake hpc hw

/-- **Every call keeps the invariant.** -/
theorem Turn.called {cl : Client J P C D} (hcl : cl.Honest) {s s' : State T J P} {t : T}
    {op : Op J D} (h : Turn s) (hpc : s.pc t = .idle) (hc : Called cl s t op s') : Turn s' := by
  cases hc
  case submit runNow _ _ =>
    cases runNow <;>
      exact h.goto rfl (by rw [hpc]; rfl) trivial (by simp) (by simp) (by simp) (by simp [hpc])
        (by simp [hpc]) rfl rfl rfl rfl fun _ => ⟨rfl, rfl⟩
  case cancelSubmit | unblockSubmit =>
    exact h.goto rfl (by rw [hpc]; rfl) trivial (by simp) (by simp) (by simp) (by simp [hpc])
      (by simp [hpc]) rfl rfl rfl rfl fun _ => ⟨rfl, rfl⟩
  case runReturn | cancelReturn =>
    exact h.goto (t := t) (p := .idle) (by simp [← hpc]) (by rw [hpc]) trivial (by simp) (by simp) (by simp)
      (by simp [hpc]) (by simp [hpc]) rfl rfl rfl rfl fun _ => ⟨rfl, rfl⟩
  case runLock hl | unblockLock hl | cancelLock hl =>
    exact h.acquire rfl rfl trivial (by simp) (by simp [hpc]) hl rfl rfl rfl rfl
  case runWait a hl =>
    have htw : t ∉ s.waiters := fun hm => by simp [(h.waiter t hm).1] at hpc
    constructor
    case handed =>
      intro x hx hxw
      simp only [State.goto, Function.update_apply, List.mem_append, not_or] at hx hxw ⊢
      have hxt : x ≠ t := by simpa using hxw.2
      rw [if_neg hxt] at hx
      refine (h.handed x hx hxw.1).imp_right ?_
      rintro ⟨v, hv⟩
      have hvt : v ≠ t := by
        rintro rfl
        rw [hpc] at hv
        cases hv
      exact ⟨v, by rw [if_neg hvt, hv]⟩
    case waiting => simp [State.goto]
    case nodup =>
      simpa [State.goto, List.nodup_append] using ⟨h.nodup, fun x hx hxt => htw (hxt ▸ hx)⟩
    case covered =>
      intro hl'
      obtain ⟨u, hu⟩ := h.covered hl
      have hut : u ≠ t := by
        rintro rfl
        simp [Holder, hpc] at hu
      exact ⟨u, hu.imp (by simp [State.goto, hut]) (by simp [State.goto, hut])⟩
    all_goals simp only [State.goto, List.mem_append, List.mem_singleton]
    all_goals grind -linarith [Function.update_apply, Pc.Whole]
  case directReturn w a hd =>
    obtain ⟨-, hp, hw⟩ := hcl.bits hd
    have hl := hcl.lock hd (by simp)
    exact h.goto (t := t) (p := .idle) (by simp [← hpc]) (by rw [hpc]) trivial (by simp) (by simp) (by simp)
      (by simp [hpc]) (by simp [hpc]) rfl rfl hl hw fun _ => ⟨hp, rfl⟩
  case directSubmit w j a hd _ _ =>
    obtain ⟨-, hp, hw⟩ := hcl.bits hd
    have hl := hcl.lock hd (by simp)
    exact h.goto rfl (by rw [hpc]; rfl) trivial (by simp) (by simp) (by simp)
      (by simp [hpc]) (by simp [hpc]) rfl rfl hl hw fun _ => ⟨hp, rfl⟩
  case directRun w a hd =>
    obtain ⟨-, -, hw⟩ := hcl.bits hd
    obtain ⟨hl, hl'⟩ := hcl.run hd
    exact h.acquire rfl rfl trivial (by simp) (by simp [hpc]) hl rfl rfl hl' hw

end Delegate
