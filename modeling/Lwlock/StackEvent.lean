import Lwlock.Machine

/-!
# The event with a waiter on the stack

One thread, the owner of an event, waits on it, with or without a timeout, as
often as it takes until a wait returns `0`; one other thread signals it, once.
The two meet at a counter. It starts at 2, and each side decrements it: the
side that brings it to 0 comes second. If that is the owner, the signal is
there already; if it is the signaller, the owner waits, and is woken through
the waiter that its call keeps on the stack and has put into `wait_src`. A wait
that times out takes its decrement back.

A wait has four exits: it finds the signal at its first look, or with its own
decrement, it is woken, or it times out, and then may find with its increment
that the signal came first after all, in which case it waits once more for the
wake-up that is on its way. On the second of these exits the code returns a
local variable that nothing has written. `Defined` is the assumption that where
this exit is taken that variable happened to hold `0`; `protocol_good` says that
the event then does all that it promises, and `exists_undefined_result` is a run
where the variable held something else.
-/

namespace StackEvent

/-- `ETIMEDOUT`. -/
abbrev etimedout : Int := 110

/-- What `wait_src` points to: nothing, or the waiter of the `n`-th wait. -/
inductive Ptr where
  | null
  | waiter (n : Nat)
deriving DecidableEq

/-- The life of a waiter structure on the stack of a wait. -/
inductive Life where
  | unused
  | live
  | destroyed
deriving DecidableEq

/-- The waiter of one wait. -/
structure Waiter where
  /-- Whether its event is initialized, and not destroyed yet. -/
  life : Life
  /-- Its own `wait_src`. -/
  waitSrc : Ptr
  /-- Whether a wake-up waits to be consumed. -/
  signalPending : Bool

/-- Where the owner is. -/
inductive Owner where
  /-- Between two waits. -/
  | idle
  /-- Before the first look at the tag. -/
  | check
  /-- The signal was there: before setting the tag to `0`. -/
  | consume
  /-- Before `waiter_event_init`. -/
  | initWaiter
  /-- Before `lw_waiter_set_src`. -/
  | setSrc
  /-- Before the waiter is put into `wait_src`. -/
  | publish
  /-- Before the decrement. -/
  | dec
  /-- In `lw_waiter_timedwait`. -/
  | wait
  /-- Timed out: before the increment. -/
  | inc
  /-- In the second `lw_waiter_wait`. -/
  | waitAgain
  /-- Before setting the tag to `0` after it. -/
  | setTag
  /-- Before `wait_src` is restored. -/
  | restore
  /-- Before `lw_waiter_clear_src`. -/
  | clearSrc
  /-- Before `waiter_event_destroy`. -/
  | destroy
  /-- A wait returned `0`: it does not wait again. -/
  | done
deriving DecidableEq

/-- Where the signaller is. -/
inductive Signaller where
  /-- Before its decrement. -/
  | dec
  /-- It brought the tag to `0`: before reading `wait_src`. -/
  | readSrc
  /-- Before waking what it read. -/
  | wakeup (waiter : Ptr)
  /-- Returned. -/
  | done
deriving DecidableEq

/-- What a wait returned, and when. -/
structure Return where
  /-- The value returned. -/
  result : Int
  /-- Whether the wait had a timeout. -/
  timed : Bool
  /-- Whether the signaller had made its decrement when the wait started. -/
  signalledBefore : Bool
  /-- Whether it had when the wait returned. -/
  signalled : Bool
  /-- The event's `wait_src` when the wait started. -/
  srcBefore : Ptr
  /-- The event's `wait_src` when it returned. -/
  src : Ptr
deriving DecidableEq

/-- The event, its two threads, and the waits that have returned. -/
structure State where
  /-- The tag, of 64 bits. -/
  tag : Nat
  /-- The event's `wait_src`. -/
  waitSrc : Ptr
  /-- The waiters of the waits. -/
  waiters : Nat → Waiter
  /-- Where the owner is. -/
  owner : Owner
  /-- The number of its wait. -/
  calls : Nat
  /-- Whether its wait has a timeout. -/
  timed : Bool
  /-- Its local `wait_res`. -/
  waitRes : Int
  /-- Where the signaller is. -/
  signaller : Signaller
  /-- Whether the signaller has made its decrement. -/
  signalled : Bool
  /-- Whether it had when the owner's wait started. -/
  signalledBefore : Bool
  /-- The event's `wait_src` when the owner's wait started. -/
  srcBefore : Ptr
  /-- The waits that have returned, the last one first. -/
  returns : List Return

/-- `lw_atomic64_dec_with_ret`. -/
def dec (tag : Nat) : Nat := (tag + (2 ^ 64 - 1)) % 2 ^ 64

/-- `lw_atomic64_inc_with_ret`. -/
def inc (tag : Nat) : Nat := (tag + 1) % 2 ^ 64

namespace State

/-- The waiter of the owner's wait. -/
def current (s : State) : Waiter := s.waiters s.calls

/-- Write to the waiter of the owner's wait. -/
def setCurrent (s : State) (w : Waiter) : State :=
  { s with waiters := Function.update s.waiters s.calls w }

/-- The owner's wait returns. -/
def ret (s : State) (result : Int) : State :=
  { s with
    owner := if result = 0 then .done else .idle
    returns :=
      { result := result
        timed := s.timed
        signalledBefore := s.signalledBefore
        signalled := s.signalled
        srcBefore := s.srcBefore
        src := s.waitSrc } :: s.returns }

/-- `lw_stack_event_wait`, one step at a time. The wait itself either consumes
the wake-up, or times out where it has a timeout and no wake-up is there. -/
def waitStep (s : State) (timeout : Bool) : Option State :=
  match s.owner with
  | .idle | .done => none
  | .check => some { s with owner := if s.tag = 1 then .consume else .initWaiter }
  | .consume => some (ret { s with tag := 0 } 0)
  | .initWaiter =>
    some { s.setCurrent ⟨.live, .null, false⟩ with owner := .setSrc }
  | .setSrc =>
    some { s.setCurrent { s.current with waitSrc := s.waitSrc } with owner := .publish }
  | .publish => some { s with waitSrc := .waiter s.calls, owner := .dec }
  | .dec =>
    some { s with tag := dec s.tag, owner := if dec s.tag ≠ 0 then .wait else .restore }
  | .wait =>
    if s.current.signalPending then
      some { s.setCurrent { s.current with signalPending := false } with
        owner := .restore, waitRes := 0 }
    else if timeout && s.timed then some { s with owner := .inc, waitRes := etimedout }
    else none
  | .inc =>
    if inc s.tag = 1 ∨ inc s.tag = 2 then
      some { s with
        tag := inc s.tag
        owner := if inc s.tag = 1 then .waitAgain else .restore }
    else none
  | .waitAgain =>
    if s.current.signalPending then
      some { s.setCurrent { s.current with signalPending := false } with
        owner := .setTag, waitRes := 0 }
    else none
  | .setTag => some { s with tag := 0, owner := .restore }
  | .restore => some { s with waitSrc := s.current.waitSrc, owner := .clearSrc }
  | .clearSrc => some { s.setCurrent { s.current with waitSrc := .null } with owner := .destroy }
  | .destroy =>
    if s.current.waitSrc = .null ∧ s.current.signalPending = false then
      some (ret (s.setCurrent { s.current with life := .destroyed }) s.waitRes)
    else none

/-- `lw_stack_event_signal`, one step at a time. -/
def signalStep (s : State) : Option State :=
  match s.signaller with
  | .dec =>
    some { s with
      tag := dec s.tag
      signalled := true
      signaller := if dec s.tag ≠ 0 then .done else .readSrc }
  | .readSrc => some { s with signaller := .wakeup s.waitSrc }
  | .wakeup .null => none
  | .wakeup (.waiter n) =>
    if (s.waiters n).signalPending = false then
      some { s with
        waiters := Function.update s.waiters n { s.waiters n with signalPending := true }
        signaller := .done }
    else none
  | .done => none

/-- `lw_stack_event_wakeup_pending`. -/
def wakeupPending (s : State) : Bool := s.tag == 1

end State

/-- Who moves. -/
inductive Event where
  /-- The owner calls `lw_stack_event_wait`: with a timeout or not, and with
  what its local `wait_res` happens to hold. -/
  | call (timed : Bool) (waitRes : Int)
  /-- The owner goes on, and times out where it can if `timeout` says so. -/
  | owner (timeout : Bool)
  /-- The signaller goes on. -/
  | signaller
deriving DecidableEq

/-- The state after a step. -/
def step (s : State) : Event → Option State
  | .call timed waitRes =>
    if s.owner = .idle then
      some { s with
        owner := .check
        calls := s.calls + 1
        timed := timed
        waitRes := waitRes
        signalledBefore := s.signalled
        srcBefore := s.waitSrc }
    else none
  | .owner timeout => s.waitStep timeout
  | .signaller => s.signalStep

/-- `lw_stack_base_event_init`, before the first wait and the signal. -/
def Init (s : State) : Prop :=
  s.tag = 2 ∧ s.waitSrc = .null ∧ s.owner = .idle ∧ s.signaller = .dec ∧ s.signalled = false ∧
    s.signalledBefore = false ∧ s.returns = [] ∧ ∀ n, (s.waiters n).life = .unused

/-- The event as a machine. -/
def machine : Machine State Event where
  start := Init
  step := step

/-- **What the event promises.** -/
structure Good (s : State) : Prop where
  /-- A wait returns `0` or `ETIMEDOUT`. -/
  result : ∀ r ∈ s.returns, r.result = 0 ∨ r.result = etimedout
  /-- It returns `0` only after the signaller's decrement. -/
  zero : ∀ r ∈ s.returns, r.result = 0 → r.signalled = true
  /-- A wait that starts after that decrement returns `0`. -/
  late : ∀ r ∈ s.returns, r.signalledBefore = true → r.result = 0
  /-- A wait without a timeout returns `0`. -/
  untimed : ∀ r ∈ s.returns, r.timed = false → r.result = 0
  /-- The signaller wakes a waiter that is live, and that it has not woken yet. -/
  live : ∀ p, s.signaller = .wakeup p →
    ∃ n, p = .waiter n ∧ (s.waiters n).life = .live ∧ (s.waiters n).signalPending = false
  /-- A waiter that is destroyed has had its wake-up consumed. -/
  consumed : ∀ n, (s.waiters n).life = .destroyed → (s.waiters n).signalPending = false
  /-- The event's `wait_src` is after a wait what it was before. -/
  restored : ∀ r ∈ s.returns, r.src = r.srcBefore
  /-- No check of a wait fails. -/
  checks : (s.owner = .inc → inc s.tag = 1 ∨ inc s.tag = 2) ∧
    (s.owner = .destroy → s.current.waitSrc = .null ∧ s.current.signalPending = false)
  /-- Between the waits the pending test tells whether the signal has come. -/
  pending : s.owner = .idle → (s.wakeupPending = true ↔ s.signalled = true)

/-- Where the owner's decrement finds the signal, its `wait_res` holds `0`. -/
def Defined (s : State) (e : Event) (_ : State) : Prop :=
  e ≠ .signaller → s.owner = .dec → s.tag = 1 → s.waitRes = 0

instance (s : State) (e : Event) (s' : State) : Decidable (Defined s e s') :=
  inferInstanceAs (Decidable (e ≠ .signaller → s.owner = .dec → s.tag = 1 → s.waitRes = 0))

/-! ## The invariant -/

/-- The owner has not decremented the tag, or has taken its decrement back. -/
def Owner.before : Owner → Bool
  | .idle | .check | .initWaiter | .setSrc | .publish | .dec => true
  | _ => false

/-- The owner has decremented the tag and waits for the wake-up. -/
def Owner.waiting : Owner → Bool
  | .wait | .inc | .waitAgain => true
  | _ => false

/-- The owner leaves its wait. -/
def Owner.leaving : Owner → Bool
  | .restore | .clearSrc | .destroy => true
  | _ => false

/-- The waiter of the wait is in `wait_src`. -/
def Owner.published : Owner → Bool
  | .dec | .wait | .inc | .waitAgain | .setTag | .restore => true
  | _ => false

/-- The waiter of the wait is live. -/
def Owner.hasWaiter : Owner → Bool
  | .setSrc | .publish | .dec | .wait | .inc | .waitAgain | .setTag | .restore | .clearSrc
  | .destroy => true
  | _ => false

/-- The waiter's `wait_src` holds what the event's held. -/
def Owner.saved : Owner → Bool
  | .publish | .dec | .wait | .inc | .waitAgain | .setTag | .restore | .clearSrc | .destroy => true
  | _ => false

/-- The signal has come and the wake-up is where it should be: on its way to
the waiter, or there. -/
def Coming (s : State) : Prop :=
  s.signaller = .readSrc ∧ s.current.signalPending = false ∨
    s.signaller = .wakeup (.waiter s.calls) ∧ s.current.signalPending = false ∨
    s.signaller = .done ∧ s.current.signalPending = true

/-- **The invariant**, by where the owner is. -/
structure Inv (s : State) : Prop where
  /-- Outside of its wait the tag counts the signal alone. -/
  before : s.owner.before = true →
    s.signalled = false ∧ s.tag = 2 ∧ s.signaller = .dec ∨
      s.signalled = true ∧ s.tag = 1 ∧ s.signaller = .done
  consume : s.owner = .consume → s.signalled = true ∧ s.signaller = .done
  waiting : s.owner.waiting = true → s.owner ≠ .waitAgain →
    s.signalled = false ∧ s.tag = 1 ∧ s.signaller = .dec ∧ s.current.signalPending = false ∨
      s.signalled = true ∧ s.tag = 0 ∧ Coming s
  again : s.owner = .waitAgain → s.signalled = true ∧ s.tag = 1 ∧ Coming s
  setTag : s.owner = .setTag → s.signalled = true ∧ s.signaller = .done ∧ s.waitRes = 0
  leaving : s.owner.leaving = true →
    s.waitRes = 0 ∧ s.signalled = true ∧ s.tag = 0 ∧ s.signaller = .done ∨
      s.waitRes = etimedout ∧ s.timed = true ∧
        (s.signalled = false ∧ s.tag = 2 ∧ s.signaller = .dec ∨
          s.signalled = true ∧ s.tag = 1 ∧ s.signaller = .done)
  done : s.owner = .done → s.signaller = .done
  quiet : s.owner.hasWaiter = true → s.owner.waiting = false → s.current.signalPending = false
  /-- The timeout's result is in place before the increment. -/
  inc : s.owner = .inc → s.waitRes = etimedout ∧ s.timed = true
  published : s.owner.published = true → s.waitSrc = .waiter s.calls
  unpublished : s.owner.published = false → s.waitSrc = .null
  hasWaiter : s.owner.hasWaiter = true → s.current.life = .live
  saved : s.owner.saved = true → s.current.waitSrc = .null
  srcBefore : s.owner ≠ .idle → s.srcBefore = .null
  /-- A wait that starts after the signal leaves by its first exit. -/
  late : s.signalledBefore = true → s.owner.hasWaiter = false ∧ s.owner ≠ .initWaiter
  monotone : s.signalledBefore = true → s.signalled = true
  readSrc : s.signaller = .readSrc → s.owner.waiting = true
  wakeup : ∀ p, s.signaller = .wakeup p → s.owner.waiting = true
  dead : ∀ n, (s.waiters n).life = .destroyed → (s.waiters n).signalPending = false
  results : ∀ r ∈ s.returns, (r.result = 0 ∧ r.signalled = true ∨
    r.result = etimedout ∧ r.timed = true ∧ r.signalledBefore = false) ∧ r.src = r.srcBefore

open State

/-- Where an owner waits, and that its waiter is published and live there. -/
@[grind →] theorem Owner.waiting_cases {o : Owner} (h : o.waiting = true) :
    (o = .wait ∨ o = .inc ∨ o = .waitAgain) ∧ o.published = true ∧ o.hasWaiter = true ∧
      o.before = false := by
  cases o
  case wait => exact ⟨.inl rfl, rfl, rfl, rfl⟩
  case inc => exact ⟨.inr (.inl rfl), rfl, rfl, rfl⟩
  case waitAgain => exact ⟨.inr (.inr rfl), rfl, rfl, rfl⟩
  all_goals cases h

@[grind =] theorem dec_two : dec 2 = 1 := by decide +kernel
@[grind =] theorem dec_one : dec 1 = 0 := by decide +kernel
@[grind =] theorem inc_one : inc 1 = 2 := by decide +kernel
@[grind =] theorem inc_zero : inc 0 = 1 := by decide +kernel
/-! ## What a step keeps -/

attribute [grind →] Inv.before Inv.consume Inv.again Inv.setTag Inv.leaving Inv.done Inv.inc
  Inv.published Inv.unpublished Inv.hasWaiter Inv.saved Inv.srcBefore Inv.late Inv.monotone
  Inv.wakeup Inv.dead Inv.results Inv.waiting Inv.quiet Inv.readSrc

attribute [grind =] Owner.before Owner.waiting Owner.leaving Owner.published Owner.hasWaiter
  Owner.saved

/-- The owner's steps up to its decrement keep the invariant. -/
theorem Inv.enterStep {s s' : State} {timeout : Bool} (h : Inv s)
    (hin : s.owner.before = true ∨ s.owner = .consume)
    (hd : s.owner = .dec → s.tag = 1 → s.waitRes = 0) (hs : s.waitStep timeout = some s') :
    Inv s' := by
  cases ho : s.owner
  all_goals simp only [State.waitStep, ho] at hs
  case idle => cases hs
  case check =>
    obtain rfl := Option.some.inj hs
    constructor
    all_goals dsimp only [State.current, Coming]
    all_goals grind -linarith [Function.update_apply, State.current]
  case consume =>
    obtain rfl := Option.some.inj hs
    constructor
    all_goals dsimp only [State.current, Coming, State.ret]
    all_goals grind -linarith [Function.update_apply, State.current]
  case initWaiter =>
    obtain rfl := Option.some.inj hs
    constructor
    all_goals dsimp only [State.current, Coming, State.setCurrent]
    all_goals grind -linarith [Function.update_apply, State.current]
  case setSrc =>
    obtain rfl := Option.some.inj hs
    constructor
    all_goals dsimp only [State.current, Coming, State.setCurrent]
    all_goals grind -linarith [Function.update_apply, State.current]
  case publish =>
    obtain rfl := Option.some.inj hs
    constructor
    all_goals dsimp only [State.current, Coming]
    all_goals grind -linarith [Function.update_apply, State.current]
  case dec =>
    obtain rfl := Option.some.inj hs
    -- the decrement finds 2, or the 1 that the signal has left
    rcases h.before (by rw [ho]; rfl) with ⟨hsig, htag, hsr⟩ | ⟨hsig, htag, hsr⟩
    all_goals
      simp only [htag, dec_two, dec_one]
      constructor
    all_goals dsimp only [State.current, Coming, State.setCurrent]
    all_goals grind -linarith [Function.update_apply, State.current]
  all_goals simp [ho, Owner.before] at hin

/-- The owner's steps after its decrement keep the invariant. -/
theorem Inv.leaveStep {s s' : State} {timeout : Bool} (h : Inv s)
    (hin : ¬ (s.owner.before = true ∨ s.owner = .consume))
    (hs : s.waitStep timeout = some s') : Inv s' := by
  cases ho : s.owner
  all_goals simp only [State.waitStep, ho] at hs
  case done => cases hs
  case wait =>
    split at hs
    · obtain rfl := Option.some.inj hs
      constructor
      all_goals dsimp only [State.current, Coming, State.setCurrent]
      all_goals grind -linarith [Function.update_apply, State.current, Coming]
    · split at hs
      · obtain rfl := Option.some.inj hs
        constructor
        all_goals dsimp only [State.current, Coming, State.setCurrent]
        all_goals grind -linarith [Function.update_apply, State.current, Coming]
      · cases hs
  case inc =>
    split at hs
    · obtain rfl := Option.some.inj hs
      constructor
      all_goals dsimp only [State.current, Coming, State.setCurrent]
      all_goals grind -linarith [Function.update_apply, State.current, Coming]
    · cases hs
  case waitAgain =>
    split at hs
    · obtain rfl := Option.some.inj hs
      constructor
      all_goals dsimp only [State.current, Coming, State.setCurrent]
      all_goals grind -linarith [Function.update_apply, State.current, Coming]
    · cases hs
  case setTag =>
    obtain rfl := Option.some.inj hs
    constructor
    all_goals dsimp only [State.current, Coming, State.setCurrent]
    all_goals grind -linarith [Function.update_apply, State.current]
  case restore =>
    obtain rfl := Option.some.inj hs
    constructor
    all_goals dsimp only [State.current, Coming, State.setCurrent]
    all_goals grind -linarith [Function.update_apply, State.current]
  case clearSrc =>
    obtain rfl := Option.some.inj hs
    constructor
    all_goals dsimp only [State.current, Coming, State.setCurrent]
    all_goals grind -linarith [Function.update_apply, State.current]
  case destroy =>
    split at hs
    · obtain rfl := Option.some.inj hs
      constructor
      all_goals dsimp only [State.current, Coming, State.setCurrent, State.ret]
      all_goals grind -linarith [Function.update_apply, State.current, Coming]
    · cases hs
  all_goals exact absurd (by simp [ho, Owner.before]) hin

/-- **A step of the owner keeps the invariant.** -/
theorem Inv.waitStep {s s' : State} {timeout : Bool} (h : Inv s)
    (hd : s.owner = .dec → s.tag = 1 → s.waitRes = 0) (hs : s.waitStep timeout = some s') :
    Inv s' := by
  by_cases hin : s.owner.before = true ∨ s.owner = .consume
  · exact h.enterStep hin hd hs
  · exact h.leaveStep hin hs

/-- The signaller decrements a tag of 2, or of 1 where the owner waits. -/
theorem Inv.signaller_dec {s : State} (h : Inv s) (hc : s.signaller = .dec) :
    s.signalled = false ∧ (s.tag = 2 ∧ s.owner.waiting = false ∨
      s.tag = 1 ∧ s.owner.waiting = true ∧ s.owner ≠ .waitAgain) := by
  cases ho : s.owner
  all_goals grind -linarith [Coming]

/-- **A step of the signaller keeps the invariant.** -/
theorem Inv.signalStep {s s' : State} (h : Inv s) (hs : s.signalStep = some s') :
    Inv s' := by
  cases hc : s.signaller
  case done =>
    rw [State.signalStep, hc] at hs
    cases hs
  case dec =>
    rw [State.signalStep, hc] at hs
    obtain rfl := Option.some.inj hs
    obtain ⟨hsig, ⟨htag, hw⟩ | ⟨htag, hw, hne⟩⟩ := h.signaller_dec hc
    all_goals
      simp only [htag, dec_two, dec_one]
      constructor
    all_goals dsimp only [State.current, Coming, State.setCurrent, State.ret]
    all_goals grind -linarith [Function.update_apply, State.current, Coming]
  case readSrc =>
    rw [State.signalStep, hc] at hs
    obtain rfl := Option.some.inj hs
    constructor
    all_goals dsimp only [State.current, Coming, State.setCurrent, State.ret]
    all_goals grind -linarith [Function.update_apply, State.current, Coming]
  case wakeup p =>
    cases p
    case null =>
      rw [State.signalStep, hc] at hs
      cases hs
    case waiter n =>
      rw [State.signalStep, hc] at hs
      dsimp only at hs
      split at hs
      · obtain rfl := Option.some.inj hs
        constructor
        all_goals dsimp only [State.current, Coming, State.setCurrent, State.ret]
        all_goals grind -linarith [Function.update_apply, State.current, Coming]
      · cases hs

/-- **A call keeps the invariant.** -/
theorem Inv.call {s s' : State} {timed : Bool} {waitRes : Int} (h : Inv s)
    (hs : step s (.call timed waitRes) = some s') : Inv s' := by
  change (if s.owner = .idle then _ else none) = some s' at hs
  split at hs
  case isFalse => cases hs
  case isTrue ho =>
    obtain rfl := Option.some.inj hs
    constructor
    all_goals dsimp only [State.current, Coming]
    all_goals grind -linarith

/-- The invariant holds at the start. -/
theorem Inv.init {s : State} (h : Init s) : Inv s := by
  obtain ⟨htag, hsrc, ho, hc, hsig, hbefore, hret, hunused⟩ := h
  constructor
  all_goals grind -linarith

/-- **The invariant holds in every run** whose results are written before they
are read. -/
theorem Inv.reach {s : State} (h : machine.Reach Defined s) : Inv s := by
  refine h.invariant (I := Inv) (fun _ h₀ => Inv.init h₀) fun s e s' hinv hs hd => ?_
  cases e with
  | call timed waitRes => exact hinv.call hs
  | owner timeout => exact hinv.waitStep (hd (by simp)) hs
  | signaller => exact hinv.signalStep hs

/-- What the invariant says is what the event promises. -/
theorem Inv.good {s : State} (h : Inv s) : Good s := by
  constructor
  case result => exact fun r hr => (h.results r hr).1.imp And.left And.left
  case zero =>
    intro r hr h0
    rcases (h.results r hr).1 with ⟨-, hsig⟩ | ⟨h110, -⟩
    · exact hsig
    · cases h0.symm.trans h110
  case late =>
    intro r hr hb
    rcases (h.results r hr).1 with ⟨h0, -⟩ | ⟨-, -, hn⟩
    · exact h0
    · cases hb.symm.trans hn
  case untimed =>
    intro r hr ht
    rcases (h.results r hr).1 with ⟨h0, -⟩ | ⟨-, hn, -⟩
    · exact h0
    · cases ht.symm.trans hn
  case live =>
    intro p hp
    have hw := h.wakeup p hp
    have hcoming : Coming s := by grind -linarith
    -- of the places a wake-up can be, the signaller is at the last one
    rcases hcoming with ⟨hc, -⟩ | ⟨hc, hpend⟩ | ⟨hc, -⟩
    · cases hp.symm.trans hc
    · obtain rfl := Signaller.wakeup.inj (hp.symm.trans hc)
      exact ⟨s.calls, rfl, h.hasWaiter (Owner.waiting_cases hw).2.2.1, hpend⟩
    · cases hp.symm.trans hc
  case consumed => exact h.dead
  case restored => exact fun r hr => (h.results r hr).2
  case checks =>
    refine ⟨fun ho => ?_, fun ho => ⟨h.saved (ho ▸ rfl), h.quiet (ho ▸ rfl) (ho ▸ rfl)⟩⟩
    rcases h.waiting (ho ▸ rfl) (by simp [ho]) with ⟨-, htag, -⟩ | ⟨-, htag, -⟩
    · exact .inr (htag ▸ inc_one)
    · exact .inl (htag ▸ inc_zero)
  case pending =>
    intro ho
    rw [State.wakeupPending, beq_iff_eq]
    rcases h.before (ho ▸ rfl) with ⟨hsig, htag, -⟩ | ⟨hsig, htag, -⟩
    · simp only [hsig, htag]
      decide
    · simp only [hsig, htag]

/-- **The protocol of the event on the stack.** In a run where `wait_res` holds
`0` whenever the owner's decrement finds the signal, the event does in every
state reached all that it promises. -/
theorem protocol_good {s : State} (h : machine.Reach Defined s) : Good s :=
  (Inv.reach h).good

/-- An event just initialized. -/
def fresh : State where
  tag := 2
  waitSrc := .null
  waiters := fun _ => ⟨.unused, .null, false⟩
  owner := .idle
  calls := 0
  timed := false
  waitRes := 0
  signaller := .dec
  signalled := false
  signalledBefore := false
  srcBefore := .null
  returns := []

theorem init_fresh : Init fresh :=
  ⟨rfl, rfl, rfl, rfl, rfl, rfl, rfl, fun _ => rfl⟩

/-- A wait that times out just as it is signalled, with another value in
`wait_res`: it waits for its wake-up and returns `0`. -/
theorem protocol_good_timeout :
    ∃ s, machine.Reach Defined s ∧ s.returns.map Return.result = [0] ∧ Good s := by
  obtain ⟨s, hs, hp⟩ := Machine.Reach.exists_of_exec machine Defined init_fresh
    (p := fun s => decide (s.returns.map Return.result = [0]))
    ([.call true 7] ++ List.replicate 5 (.owner false) ++ [.owner true, .signaller, .owner false] ++
      [.signaller, .signaller] ++ List.replicate 5 (.owner false)) (by decide +kernel)
  exact ⟨s, hs, of_decide_eq_true hp, protocol_good hs⟩

/-- **A wait returns what its local happened to hold.** The signal comes between
the first look at the tag and the decrement: the wait, which has no timeout,
returns the 7 that was in `wait_res`. -/
theorem exists_undefined_result :
    ∃ s, machine.Reach Machine.anyStep s ∧
      (∃ r ∈ s.returns, r.timed = false ∧ r.result = 7) ∧ ¬ Good s := by
  obtain ⟨s, hs, hp⟩ := Machine.Reach.exists_of_exec machine Machine.anyStep init_fresh
    (p := fun s => decide (∃ r ∈ s.returns, r.timed = false ∧ r.result = 7))
    ([.call false 7] ++ List.replicate 4 (.owner false) ++ [.signaller] ++
      List.replicate 4 (.owner false)) (by decide +kernel)
  have hret := of_decide_eq_true hp
  refine ⟨s, hs, hret, fun hg => ?_⟩
  obtain ⟨r, hr, ht, h7⟩ := hret
  exact absurd ((hg.untimed r hr ht).symm.trans h7) (by decide)

end StackEvent
