import Lwlock.DelegatePlaces
import Lwlock.History

/-!
# Cancelling a job of a delegate

A cancel runs as a job of its own: by the thread that called it, when it gets the lock; by
the drain that finds it on the stack; or from the queue, when it took the fast path. It
looks for its target on the two lists of the delegate, and there only. That is enough,
because its target is ahead of it: a job whose submission has returned is taken off the
stack no later than a cancel that is called afterwards.

What was asked, and which jobs said they were done, is a history of the run.
-/

namespace Delegate

variable {T J P C D : Type}

/-- **What the past of a run is asked about**: the cancels that were called, by the name of
their request, and how often an invocation of a job returned `DONE`. -/
structure Log (J : Type) where
  asked : J → Bool
  dones : J → ℕ

/-- Nothing has happened yet. -/
def Log.empty : Log J := ⟨fun _ => false, fun _ => 0⟩

/-- The job that is invoked in the step, and returns `DONE`. -/
def finishes (cl : Client J P C D) (s : State T J P) : Event T J C D → Option J
  | .call _ _ => none
  | .move t c =>
    match s.pc t, s.queued with
    | .runQueued _, j :: _ => match cl.func j with
      | .user => if (cl.invoke j c s.word.other).2.2 = .done then some j else none
      | _ => none
    | _, _ => none

/-- The request of the cancel that is called in the step. -/
def asks : Event T J C D → Option J
  | .call _ (.cancel _ _ r) => some r
  | _ => none

/-- A job that the thread brings, or whose bits it has yet to set. -/
def Pc.Brings (p : Pc T J P) (j : J) : Prop := p.hand.coming = some j ∨ p.marking = some j

/-- The submission of the job has returned. -/
def Returned (s : State T J P) (j : J) : Prop :=
  s.submitted j = true ∧ ∀ t, ¬ (s.pc t).Brings j

/-- An unblock of the job is under way. -/
def Unblocking (cl : Client J P C D) (s : State T J P) (j : J) : Prop :=
  (∃ t, s.pc t = .unblockNow j) ∨
    ∃ r, cl.func r = .unblockJob j ∧ s.submitted r = true ∧ s.signals r = 0

/-- A cancel of the job was called. -/
def Log.Cancelling (l : Log J) (cl : Client J P C D) (j : J) : Prop :=
  ∃ r, cl.func r = .cancelJob j ∧ l.asked r = true

/-- **The demands of the interface**: only jobs of the user are submitted, cancelled and
unblocked; a cancel has a request of its own; and no job is cancelled while it is being
unblocked, or unblocked after a cancel. -/
def Orderly (cl : Client J P C D) (p : State T J P × Log J) (e : Event T J C D)
    (_ : State T J P × Log J) : Prop :=
  match e with
  | .call _ (.submit j _) => cl.func j = .user
  | .call _ (.cancel target _ r) => cl.func r = .cancelJob target ∧ cl.func target = .user ∧
      p.2.asked r = false ∧ ¬ Unblocking cl p.1 target
  | .call _ (.unblock target r) => cl.func r = .unblockJob target ∧ cl.func target = .user ∧
      ¬ p.2.Cancelling cl target
  | _ => True

/-- The cancel that drains with its own lock: its target and its request. -/
@[simp, grind =] def Caller.own : Caller J P → Option (J × J)
  | .run _ => none
  | .cancel target r => some (target, r)

/-- Its request. -/
@[simp, grind =] def Caller.request : Caller J P → Option J
  | .run _ => none
  | .cancel _ r => some r

/-- The cancel a thread does with its own lock. -/
@[simp, grind =] def Pc.own : Pc T J P → Option (J × J)
  | .drainTest k => k.own
  | .drainClear k => k.own
  | .drainTake k => k.own
  | .drainLoop k _ _ _ => k.own
  | .drainImmediate k _ => k.own
  | .cancelRemove target r => some (target, r)
  | .idle => none
  | .submitLoop _ => none
  | .pushRead _ _ => none
  | .pushLink _ _ _ => none
  | .pushSwap _ _ _ => none
  | .setBits _ _ => none
  | .fastEnqueue _ => none
  | .runStart => none
  | .runQueued _ => none
  | .release _ => none
  | .unlock => none
  | .wakeup _ => none
  | .waitLock => none
  | .unblockNow _ => none
  | .waitEvent _ => none

/-- The request of a cancel that is past the stack: the stack was taken, or held nothing that
was announced. -/
@[simp, grind =] def Pc.past : Pc T J P → Option J
  | .drainLoop k _ _ _ => k.request
  | .drainImmediate k _ => k.request
  | .cancelRemove _ r => some r
  | .fastEnqueue r => some r
  | .drainTest _ => none
  | .drainClear _ => none
  | .drainTake _ => none
  | .idle => none
  | .submitLoop _ => none
  | .pushRead _ _ => none
  | .pushLink _ _ _ => none
  | .pushSwap _ _ _ => none
  | .setBits _ _ => none
  | .runStart => none
  | .runQueued _ => none
  | .release _ => none
  | .unlock => none
  | .wakeup _ => none
  | .waitLock => none
  | .unblockNow _ => none
  | .waitEvent _ => none

theorem Pc.holds_of_own {p : Pc T J P} {x : J × J} (h : p.own = some x) : p.holds = true := by
  cases p <;> first | rfl | cases h

/-- **The invariant of the cancels.** `proper` are the requests whose target had been
submitted when they were called. -/
structure Cancels (cl : Client J P C D) (s : State T J P) (loc : J → Loc T) (l : Log J)
    (proper : J → Prop) : Prop where
  kind : ∀ r j, cl.func r = .cancelJob j → l.asked r = true → cl.func j = .user
  asked : ∀ r j, cl.func r = .cancelJob j → loc r ≠ .fresh → l.asked r = true
  unasked : ∀ r, l.asked r = false → s.cancelled r = none
  pending : ∀ r j, cl.func r = .cancelJob j → loc r ≠ .fresh → loc r ≠ .gone → s.cancelled r = none
  own : ∀ t r j, (s.pc t).own = some (j, r) →
    cl.func r = .cancelJob j ∧ l.asked r = true ∧ s.cancelled r = none ∧ loc r = .fresh
  unblock : ∀ r j, cl.func r = .unblockJob j → loc r ≠ .fresh → loc r ≠ .gone →
    cl.func j = .user ∧ ∀ r', cl.func r' = .cancelJob j → l.asked r' = false
  unblockNow : ∀ t j, s.pc t = .unblockNow j →
    cl.func j = .user ∧ ∀ r', cl.func r' = .cancelJob j → l.asked r' = false
  aside : ∀ t j, loc j = .aside t → cl.func j ≠ .user
  signals : ∀ j, loc j ≠ .gone → s.signals j = 0
  dones : ∀ j, cl.func j = .user → l.dones j = s.signals j
  gone : ∀ j, cl.func j = .user → loc j = .gone →
    s.owned j = false ∧ s.signals j = 1 ∨ s.owned j = true ∧ s.signals j = 0
  taken : ∀ j, cl.func j = .user → loc j = .gone → s.owned j = true →
    ∃ r, cl.func r = .cancelJob j ∧ s.cancelled r = some true
  gave : ∀ r j, cl.func r = .cancelJob j → s.cancelled r = some true →
    loc j = .gone ∧ s.owned j = true
  gaveOnce : ∀ r r' j, cl.func r = .cancelJob j → cl.func r' = .cancelJob j →
    s.cancelled r = some true → s.cancelled r' = some true → r = r'
  refused : ∀ r j, cl.func r = .cancelJob j → proper r → s.cancelled r = some false → loc j = .gone
  ready : ∀ r j, cl.func r = .cancelJob j → proper r →
    loc j ≠ .fresh ∧ (∀ t, loc j ≠ .coming t) ∧ ∀ t, (s.pc t).marking ≠ some j
  past : ∀ t r j, cl.func r = .cancelJob j → proper r → (s.pc t).past = some r → loc j ≠ .stack
  behind : ∀ r j, cl.func r = .cancelJob j → proper r →
    (∃ t, loc r = .rest t) ∨ (∃ t, loc r = .aside t) ∨ loc r = .queued → loc j ≠ .stack

attribute [grind →] Cancels.own Cancels.unblockNow Cancels.gave

attribute [grind .] Cancels.kind Cancels.asked Cancels.unasked Cancels.pending Cancels.unblock
  Cancels.aside Cancels.signals Cancels.dones Cancels.gone Cancels.refused Cancels.ready
  Cancels.past Cancels.behind

variable {cl : Client J P C D} {s s' : State T J P} {loc loc' : J → Loc T} {l l' : Log J}
  {proper : J → Prop} {S : List J} {W : T → List J}

theorem cancels_init (p : P) :
    Cancels cl (init p : State T J P) (fun _ => .fresh) Log.empty fun _ => False := by
  constructor <;> simp [init, Log.empty]

variable [DecidableEq T] {t : T} {p : Pc T J P}

/-- **Jobs move on their way, and none comes or goes.** -/
theorem Cancels.shift (h : Cancels cl s loc l proper) (hs : s'.pc = Function.update s.pc t p)
    (h1 : s'.signals = s.signals) (h2 : s'.cancelled = s.cancelled) (h3 : s'.owned = s.owned)
    (hgone : ∀ j, loc' j = .gone ↔ loc j = .gone) (hfresh : ∀ j, loc' j = .fresh ↔ loc j = .fresh)
    (hcoming : ∀ j u, loc' j = .coming u → loc j = .coming u)
    (hstack : ∀ j, loc' j = .stack → loc j = .stack ∨ loc j = .coming t)
    (haside : ∀ j u, loc' j = .aside u → loc j = .aside u ∨ cl.func j ≠ .user)
    (hown : ∀ j r, p.own = some (j, r) → (s.pc t).own = some (j, r) ∨
      cl.func r = .cancelJob j ∧ l.asked r = true ∧ s.cancelled r = none ∧ loc r = .fresh)
    (hun : ∀ j, p = .unblockNow j →
      cl.func j = .user ∧ ∀ r, cl.func r = .cancelJob j → l.asked r = false)
    (hmark : ∀ j, p.marking = some j → loc j = .coming t)
    (hpast : ∀ r, p.past = some r → (s.pc t).past = some r ∨
      ∀ j, cl.func r = .cancelJob j → proper r → loc' j ≠ .stack)
    (hbehind : ∀ r, (∃ u, loc' r = .rest u) ∨ (∃ u, loc' r = .aside u) ∨ loc' r = .queued →
      ((∃ u, loc r = .rest u) ∨ (∃ u, loc r = .aside u) ∨ loc r = .queued) ∨
        ∀ j, cl.func r = .cancelJob j → proper r → loc' j ≠ .stack) :
    Cancels cl s' loc' l proper := by
  constructor
  case taken =>
    rw [h2, h3]
    intro j hj hg
    exact h.taken j hj ((hgone j).mp hg)
  case behind =>
    intro r j hr hp hw
    have hready := h.ready r j hr hp
    obtain hw | hw := hbehind r hw
    · have hnot := h.behind r j hr hp hw
      exact fun hst => (hstack j hst).elim hnot (hready.2.1 t)
    · exact hw j hr hp
  case gaveOnce =>
    rw [h2]
    exact h.gaveOnce
  all_goals clear hbehind
  case kind | asked | unblock | aside => grind -linarith
  all_goals simp only [hs, h1, h2, h3]
  all_goals grind -linarith [Function.update_apply]

omit [DecidableEq T] in
/-- **What the threads do beside**: none takes up a cancel, a push or an unblock. -/
structure Stays (s s' : State T J P) : Prop where
  own : ∀ u x, (s'.pc u).own = some x → (s.pc u).own = some x
  past : ∀ u r, (s'.pc u).past = some r → (s.pc u).past = some r
  marking : ∀ u j, (s'.pc u).marking = some j → (s.pc u).marking = some j
  unblockNow : ∀ u j, s'.pc u = .unblockNow j → s.pc u = .unblockNow j

theorem Stays.of_update (hs : s'.pc = Function.update s.pc t p)
    (h1 : p.own = none ∨ p.own = (s.pc t).own) (h2 : p.past = none ∨ p.past = (s.pc t).past)
    (h3 : p.marking = none) (h4 : ∀ j, p ≠ .unblockNow j) : Stays s s' := by
  constructor <;> simp only [hs] <;> grind -linarith [Function.update_apply]

variable [DecidableEq J]

omit [DecidableEq T] in
/-- **A cancel is done.** What it looks for is on one of the two lists, or gone. -/
theorem Cancels.cancel {r j : J} (h : Cancels cl s loc l proper) (hp : Places s loc S W)
    (hr : cl.func r = .cancelJob j) (ha : l.asked r = true) (hc : s.cancelled r = none)
    (hfound : proper r → loc j = .queued ∨ loc j = .blocked ∨ loc j = .gone)
    (hs : Stays s s') (hown : ∀ u x, (s'.pc u).own = some (x, r) → False)
    (h1 : s'.cancelled = Function.update s.cancelled r (some (s.stillWith j)))
    (h2 : ∀ x, x ≠ r → s'.signals x = s.signals x) (h3 : ∀ x, x ≠ r → s'.owned x = s.owned x)
    (hloc : ∀ x, x ≠ r → loc' x = if x = j ∧ s.stillWith j = true then .gone else loc x)
    (hlocr : loc' r = .gone ∨ loc' r = .fresh ∧ loc r = .fresh ∧ s'.signals r = s.signals r) :
    Cancels cl s' loc' l proper := by
  have hstill := hp.stillWith_iff (j := j)
  have hju := h.kind r j hr ha
  have hjr : j ≠ r := by
    rintro rfl
    rw [hr] at hju
    cases hju
  have hown' := hs.own
  have hpast := hs.past
  have hmark := hs.marking
  have hun := hs.unblockNow
  have hc' : ∀ x, s'.cancelled x = if x = r then some (s.stillWith j) else s.cancelled x := fun x => by
    rw [h1, Function.update_apply]
  clear h1 hs
  constructor
  case taken =>
    intro x hx hg ho
    have hxr : x ≠ r := by grind -linarith
    rw [h3 x hxr] at ho
    by_cases hxj : x = j ∧ s.stillWith j = true
    · obtain ⟨rfl, hw⟩ := hxj
      exact ⟨r, hr, by rw [hc', if_pos rfl, hw]⟩
    · rw [hloc x hxr, if_neg hxj] at hg
      obtain ⟨r', hr', hcr'⟩ := h.taken x hx hg ho
      have hrr : r' ≠ r := by
        rintro rfl
        rw [hc] at hcr'
        cases hcr'
      exact ⟨r', hr', by rw [hc', if_neg hrr, hcr']⟩
  case gaveOnce =>
    have honce := h.gaveOnce
    grind -linarith
  case signals =>
    intro x hx
    have hsig := h.signals x
    by_cases hxr : x = r <;> grind -linarith
  case behind =>
    intro r' x hr' hp' hw hx
    refine h.behind r' x hr' hp' ?_ (by grind -linarith)
    have hlr : loc' r' = loc r' := by grind -linarith
    rwa [hlr] at hw
  all_goals grind -linarith

omit [DecidableEq T] in
/-- **An unblock is done**: its target is queued. -/
theorem Cancels.requeue {j : J} (h : Cancels cl s loc l proper) (hjb : loc j = .blocked)
    (hja : ∀ r, cl.func r = .cancelJob j → l.asked r = false) (hju : cl.func j = .user)
    (hs : Stays s s') (h1 : s'.cancelled = s.cancelled) (h2 : s'.signals = s.signals)
    (h3 : s'.owned = s.owned) : Cancels cl s' (Function.update loc j .queued) l proper := by
  have hown := hs.own
  have hpast := hs.past
  have hmark := hs.marking
  have hun := hs.unblockNow
  clear hs
  constructor
  case taken =>
    rw [h1, h3]
    intro x hx hg ho
    exact h.taken x hx (by grind -linarith [Function.update_apply]) ho
  case gaveOnce =>
    rw [h1]
    exact h.gaveOnce
  case behind =>
    intro r x hr hp hw hx
    have hlr : Function.update loc j .queued r = loc r := by grind -linarith [Function.update_apply]
    rw [hlr] at hw
    exact h.behind r x hr hp hw (by grind -linarith [Function.update_apply])
  case kind | asked | unblock | aside | ready | past | unblockNow => grind -linarith [Function.update_apply]
  all_goals simp only [h1, h2, h3]
  all_goals grind -linarith [Function.update_apply]

omit [DecidableEq T] in
/-- A request to unblock leaves. -/
theorem Cancels.leave {r j : J} (h : Cancels cl s loc l proper) (hr : cl.func r = .unblockJob j)
    (hs : Stays s s') (h1 : s'.cancelled = s.cancelled)
    (h2 : ∀ x, x ≠ r → s'.signals x = s.signals x) (h3 : ∀ x, x ≠ r → s'.owned x = s.owned x) :
    Cancels cl s' (Function.update loc r .gone) l proper := by
  have hown := hs.own
  have hpast := hs.past
  have hmark := hs.marking
  have hun := hs.unblockNow
  clear hs
  constructor
  case taken =>
    rw [h1]
    intro x hx hg ho
    exact h.taken x hx (by grind -linarith [Function.update_apply]) (by grind -linarith)
  case gaveOnce =>
    rw [h1]
    exact h.gaveOnce
  case behind =>
    intro r' x hr' hp hw hx
    have hlr : Function.update loc r .gone r' = loc r' := by grind -linarith [Function.update_apply]
    rw [hlr] at hw
    exact h.behind r' x hr' hp hw (by grind -linarith [Function.update_apply])
  case kind | asked | unblock | aside | ready | past | signals | dones | gone | unblockNow =>
    grind -linarith [Function.update_apply]
  all_goals simp only [h1]
  all_goals grind -linarith [Function.update_apply]

omit [DecidableEq T] in
/-- **A job of the user is done.** -/
theorem Cancels.finished {j : J} (h : Cancels cl s loc l proper) (hju : cl.func j = .user)
    (hj : loc j = .queued) (hs : Stays s s') (h1 : s'.cancelled = s.cancelled)
    (h2 : s'.signals = Function.update s.signals j (s.signals j + 1))
    (h3 : s'.owned = Function.update s.owned j false) (h4 : l'.asked = l.asked)
    (h5 : l'.dones = Function.update l.dones j (l.dones j + 1)) :
    Cancels cl s' (Function.update loc j .gone) l' proper := by
  have hown' := hs.own
  have hpast := hs.past
  have hmark := hs.marking
  have hun := hs.unblockNow
  clear hs
  constructor
  case taken =>
    rw [h1, h3]
    intro x hx hg ho
    exact h.taken x hx (by grind -linarith) (by grind -linarith)
  case gaveOnce =>
    rw [h1]
    exact h.gaveOnce
  case behind =>
    intro r' x hr' hp' hw hx
    refine h.behind r' x hr' hp' ?_ (by grind -linarith)
    have hlr : Function.update loc j .gone r' = loc r' := by grind -linarith
    rwa [hlr] at hw
  case aside | ready | past => grind -linarith [Function.update_apply]
  all_goals simp only [h1, h2, h3, h4, h5]
  all_goals grind -linarith [Function.update_apply]

/-! ## What the requests find -/

omit [DecidableEq T] [DecidableEq J] in
/-- **What a cancel looks for** is on one of the lists, or gone. -/
theorem Cancels.found {r j : J} (hc : Cancels cl s loc l proper) (hp : Places s loc S W)
    (ht : Turn s) (hpc : (s.pc t).holds = true) (hl : (s.pc t).hand.ahead = .null)
    (hr : cl.func r = .cancelJob j) (ha : l.asked r = true) (hprop : proper r)
    (hst : loc j ≠ .stack) : loc j = .queued ∨ loc j = .blocked ∨ loc j = .gone := by
  have hready := hc.ready r j hr hprop
  cases hj : loc j with
  | fresh => exact absurd hj hready.1
  | coming u => exact absurd hj (hready.2.1 u)
  | stack => exact absurd hj hst
  | rest u => exact absurd hj (hp.no_rest ht hpc hl j u)
  | aside u => exact absurd (hc.kind r j hr ha) (hc.aside u j hj)
  | queued => exact .inl rfl
  | blocked => exact .inr (.inl rfl)
  | gone => exact .inr (.inr rfl)

omit [DecidableEq T] [DecidableEq J] in
/-- **What an unblock looks for** is blocked, if nobody cancels it. -/
theorem Cancels.blocked {j : J} (hc : Cancels cl s loc l proper) (hp : Places s loc S W)
    (hju : cl.func j = .user) (hja : ∀ r, cl.func r = .cancelJob j → l.asked r = false)
    (ho : s.owned j = true) (hb : s.isBlocked j = true) : loc j = .blocked := by
  by_contra hne
  have hfresh : loc j ≠ .fresh := fun hf => by simp [hp.unowned j hf] at ho
  have hgone : loc j ≠ .gone := fun hg => by
    obtain ⟨r, hr, hcr⟩ := hc.taken j hju hg ho
    rw [hc.unasked r (hja r hr)] at hcr
    cases hcr
  rw [hp.free j hfresh hne hgone] at hb
  cases hb

/-! ## The calls -/

omit [DecidableEq T] [DecidableEq J] in
/-- Fewer requests may be taken to be proper. -/
theorem Cancels.mono {proper' : J → Prop} (h : Cancels cl s loc l proper)
    (hprop : ∀ r, proper' r → proper r) : Cancels cl s loc l proper' :=
  { h with
    refused := fun r j hr hp => h.refused r j hr (hprop r hp)
    ready := fun r j hr hp => h.ready r j hr (hprop r hp)
    past := fun t r j hr hp => h.past t r j hr (hprop r hp)
    behind := fun r j hr hp => h.behind r j hr (hprop r hp) }

omit [DecidableEq T] [DecidableEq J] in
theorem Pc.own_of_past {p : Pc T J P} {r : J} (h : p.past = some r) :
    (∃ j, p.own = some (j, r)) ∨ p = .fastEnqueue r := by
  cases p with
  | drainLoop k _ _ _ | drainImmediate k _ =>
    cases k with
    | run old => cases h
    | cancel j r' =>
      cases h
      exact .inl ⟨j, rfl⟩
  | cancelRemove j r' =>
    cases h
    exact .inl ⟨j, rfl⟩
  | fastEnqueue r' =>
    cases h
    exact .inr rfl
  | _ => cases h

omit [DecidableEq T] in
/-- **A cancel is called.** Its request was not used before. -/
theorem Cancels.ask {r j : J} {proper' : J → Prop} (h : Cancels cl s loc l proper)
    (hp : Places s loc S W) (hr : cl.func r = .cancelJob j) (hju : cl.func j = .user)
    (ha : l.asked r = false) (hun : ¬ Unblocking cl s j)
    (hprop : ∀ x, proper' x → proper x ∨ x = r ∧ Returned s j) :
    Cancels cl s loc { l with asked := Function.update l.asked r true } proper' := by
  have hloc : loc r = .fresh := by
    by_contra hne
    rw [h.asked r j hr hne] at ha
    cases ha
  have hnone := h.unasked r ha
  have hown : ∀ u x, (s.pc u).own ≠ some (x, r) := fun u x hu => by
    rw [(h.own u r x hu).2.1] at ha
    cases ha
  have hpast : ∀ u, (s.pc u).past ≠ some r := fun u hu => by
    obtain ⟨x, hx⟩ | hx := Pc.own_of_past hu
    · exact hown u x hx
    · have hcoming : loc r = .coming u := (hp.coming u r).mp (by rw [hx]; rfl)
      rw [hloc] at hcoming
      cases hcoming
  have hready : Returned s j → loc j ≠ .fresh ∧ (∀ t, loc j ≠ .coming t) ∧
      ∀ t, (s.pc t).marking ≠ some j := fun hret => by
    refine ⟨fun hf => ?_, fun u hu => ?_, fun u hu => hret.2 u (.inr hu)⟩
    · exact absurd hret.1 (by rw [(hp.fresh j).mpr hf]; exact Bool.false_ne_true)
    · exact hret.2 u (.inl ((hp.coming u j).mpr hu))
  constructor
  case taken => exact h.taken
  case gaveOnce => exact h.gaveOnce
  case ready =>
    intro r' x hr' hp'
    obtain hp' | ⟨rfl, hret⟩ := hprop r' hp'
    · exact h.ready r' x hr' hp'
    · rw [hr] at hr'
      cases hr'
      exact hready hret
  case past =>
    intro u r' x hr' hp' hu
    obtain hp' | ⟨rfl, hret⟩ := hprop r' hp'
    · exact h.past u r' x hr' hp' hu
    · exact absurd hu (hpast u)
  case behind =>
    intro r' x hr' hp' hw
    obtain hp' | ⟨rfl, hret⟩ := hprop r' hp'
    · exact h.behind r' x hr' hp' hw
    · simp [hloc] at hw
  case unblock =>
    intro r' x hr' hf hg
    obtain ⟨hx, hxa⟩ := h.unblock r' x hr' hf hg
    refine ⟨hx, fun r'' hr'' => ?_⟩
    have hne : r'' ≠ r := by
      rintro rfl
      rw [hr] at hr''
      cases hr''
      refine hun (.inr ⟨r', hr', ?_, h.signals r' hg⟩)
      exact Bool.not_eq_false _ ▸ fun hs => hf ((hp.fresh r').mp hs)
    exact (Function.update_of_ne hne _ _).trans (hxa r'' hr'')
  case unblockNow =>
    intro u x hu
    obtain ⟨hx, hxa⟩ := h.unblockNow u x hu
    refine ⟨hx, fun r'' hr'' => ?_⟩
    have hne : r'' ≠ r := by
      rintro rfl
      rw [hr] at hr''
      cases hr''
      exact hun (.inl ⟨u, hu⟩)
    exact (Function.update_of_ne hne _ _).trans (hxa r'' hr'')
  all_goals grind -linarith [Function.update_apply]

/-- **A job is submitted.** -/
theorem Cancels.enter {j : J} (h : Cancels cl s loc l proper) (hj : loc j = .fresh)
    (hs : s'.pc = Function.update s.pc t p) (hown : p.own = none)
    (hpast : p.past = none) (hmark : p.marking = none) (hunb : ∀ x, p ≠ .unblockNow x)
    (hk : ∀ x, cl.func j = .cancelJob x → l.asked j = true ∧ s.cancelled j = none)
    (hku : ∀ x, cl.func j = .unblockJob x →
      cl.func x = .user ∧ ∀ r, cl.func r = .cancelJob x → l.asked r = false)
    (hfree : ∀ u x, (s.pc u).own ≠ some (x, j)) (h1 : s'.signals = s.signals)
    (h2 : s'.cancelled = s.cancelled) (h3 : s'.owned = Function.update s.owned j true) :
    Cancels cl s' (Function.update loc j (.coming t)) l proper := by
  constructor
  case taken =>
    rw [h2, h3]
    intro x hx hg ho
    exact h.taken x hx (by grind -linarith) (by grind -linarith)
  case gaveOnce =>
    rw [h2]
    exact h.gaveOnce
  case behind =>
    intro r x hr hprop hw
    have hlr : r ≠ j := by
      rintro rfl
      simp at hw
    rw [Function.update_of_ne hlr] at hw
    have hready := h.ready r x hr hprop
    have hx : x ≠ j := by
      rintro rfl
      exact hready.1 hj
    rw [Function.update_of_ne hx]
    exact h.behind r x hr hprop hw
  case kind | asked | unblock | aside => grind -linarith [Function.update_apply]
  all_goals simp only [hs, h1, h2, h3]
  all_goals grind -linarith [Function.update_apply]

end Delegate
