import Lwlock.RwBitlockWord

/-!
# Reader-writer bitlocks in a debug build

In a debug build `lw_assert` is checked, and so is `lw_verify`, as always: this is the code
of the operations once more, on whole words and with every assertion where it stands.
Elements of lists know the list they are in, which is what the list operations assert.

A waiter is the own one of its thread, with which threads write, or a buffer that a reader
passes to both of its calls; that a buffer is no thread's own waiter is up to the caller. A
loop that swaps is one step, and so is a section under the lock of the wait list. An
iteration of a loop whose swap fails is a step of its own, that changes nothing and checks
what the iteration asserts.

Waiters of other modules, and of locks that are no part of the model, come to the wait
lists with any tag; what those assert is theirs.
-/

namespace RwBitlock.Debug

variable {C K ι α : Type}

/-- **`lw_assert`**, and `lw_verify`: what follows, unless the process is aborted. -/
def lwAssert (p : Prop) [Decidable p] (o : Option α) : Option α :=
  if p then o else none

/-- Locals of an unlock that are used after its section, or before it. -/
structure Locals where
  /-- What `clear_wrlock` returned. -/
  old : BitVec 32
  doWakeup : Bool
  nextIsReader : Bool
  deriving DecidableEq, Repr

/-- **A state of the words, the wait lists and the waiters.** -/
structure State (C K ι : Type) where
  lock : K → BitVec 32
  list : ι → List C
  /-- The field `list` of a list element. -/
  on : C → Option ι
  /-- `event.wait_src`. -/
  src : C → Option K
  /-- `event.tag`. -/
  tag : C → Tag
  /-- `signal_pending`. -/
  signalled : C → Bool
  locals : C → Locals
  pc : C → Pc C K ι

/-- An event: one of the release build, or an iteration of a loop whose swap fails. -/
inductive Event (C K ι : Type)
  | step (e : RwBitlock.Event C K ι)
  | again (c : C)
  deriving DecidableEq, Repr

/-! ## The helpers on words -/

variable (cfg : Config K ι) (k : K)

/-- What every helper asserts about its masks. -/
def Masks : Prop :=
  cfg.readerInc k &&& (cfg.readerInc k - 1#32) = 0#32
    ∧ cfg.writerMask k &&& (cfg.writerMask k - 1#32) = 0#32
    ∧ cfg.readerMask k &&& cfg.writerMask k = 0#32
    ∧ cfg.readerInc k = cfg.writerMask k <<< 1
    ∧ cfg.readerMask k &&& cfg.readerInc k = cfg.readerInc k

instance : Decidable (Masks cfg k) :=
  inferInstanceAs (Decidable (_ ∧ _))

/-- What every call asserts about its range of bits. -/
def Range : Prop :=
  cfg.startBit k < 30 ∧ 2 < cfg.numBits k ∧ cfg.numBits k < 32

instance : Decidable (Range cfg k) :=
  inferInstanceAs (Decidable (_ ∧ _))

/-- **`set_rdlock`**: the word it leaves. -/
def setRdlock (old : BitVec 32) (try' underWaitListLock : Bool) : Option (BitVec 32) :=
  lwAssert (Masks cfg k) <|
  if old &&& cfg.writerMask k ≠ 0#32 then
    if !underWaitListLock || try' then some old
    else if old &&& cfg.readerMask k ≠ 0#32 then some old
    else some (old + cfg.readerInc k)
  else if old &&& cfg.readerMask k = cfg.readerMask k then some old
  else some (old + cfg.readerInc k)

/-- **`clear_rdlock`**: the word it leaves. -/
def clearRdlock (old : BitVec 32) : Option (BitVec 32) :=
  lwAssert (Masks cfg k) <|
  lwAssert (old &&& cfg.readerMask k ≠ 0#32) <|
  if old &&& cfg.readerMask k = cfg.readerMask k then some old
  else if old &&& cfg.readerMask k = cfg.readerInc k ∧ old &&& cfg.writerMask k ≠ 0#32 then
    some old
  else some (old - cfg.readerInc k)

/-- **`set_wrlock`**: the word it leaves. -/
def setWrlock (old : BitVec 32) (try' underWaitListLock : Bool) : Option (BitVec 32) :=
  lwAssert (Masks cfg k) <|
  if old &&& cfg.writerMask k ≠ 0#32 then
    if !underWaitListLock || try' then some old
    else if old &&& cfg.readerMask k ≠ 0#32 then some old
    else
      -- the whole word is compared, with its payload
      lwAssert (old + cfg.readerInc k = cfg.writerMask k ||| cfg.readerInc k) <|
      some (old + cfg.readerInc k)
  else if old &&& cfg.readerMask k ≠ 0#32 then
    if !underWaitListLock || try' then some old else some (old ||| cfg.writerMask k)
  else some (old ||| cfg.writerMask k)

/-- **`clear_wrlock`**, which is not called under the lock of the list: the word it leaves. -/
def clearWrlock (old : BitVec 32) : Option (BitVec 32) :=
  lwAssert (Masks cfg k) <|
  lwAssert (old &&& cfg.writerMask k = cfg.writerMask k) <|
  if old &&& cfg.readerMask k ≠ 0#32 then some old
  else some (old &&& ~~~cfg.writerMask k)

/-- The test of `readunlock` on what `clear_rdlock` returned. -/
def leavesWork (old : BitVec 32) : Bool :=
  decide (old &&& cfg.readerMask k = cfg.readerMask k
    ∨ (old &&& cfg.writerMask k ≠ 0#32 ∧ old &&& cfg.readerMask k = cfg.readerInc k))

variable [DecidableEq C] [DecidableEq K] [DecidableEq ι]

/-! ## The helpers on lists and waiters -/

namespace State

/-- Move a client to a program point. -/
def goto (s : State C K ι) (c : C) (pc : Pc C K ι) : State C K ι :=
  { s with pc := Function.update s.pc c pc }

/-- Store a word. -/
def setLock (s : State C K ι) (k : K) (v : BitVec 32) : State C K ι :=
  { s with lock := Function.update s.lock k v }

/-- Store a tag. -/
def setTag (s : State C K ι) (c : C) (tag : Tag) : State C K ι :=
  { s with tag := Function.update s.tag c tag }

/-- Store the locals of a client. -/
def setLocals (s : State C K ι) (c : C) (l : Locals) : State C K ι :=
  { s with locals := Function.update s.locals c l }

/-- **`waiter_event_init`** of a buffer. -/
def eventInit (s : State C K ι) (c : C) : State C K ι :=
  { s with
    on := Function.update s.on c none
    src := Function.update s.src c none
    signalled := Function.update s.signalled c false }

/-- **`waiter_event_destroy`** of a buffer, if it has waited. -/
def eventDestroy (s : State C K ι) (c : C) : Option (State C K ι) :=
  if (s.tag c).needToWait then
    lwAssert (s.src c = none) <| lwAssert (s.signalled c = false) <| some s
  else some s

/-- A waiter is appended to the wait list of a lock: `lw_waiter_set_src`, the store of the
tag, and `lw_dl_append_at_end`. -/
def append (cfg : Config K ι) (s : State C K ι) (c : C) (k : K) (tag : Tag) :
    Option (State C K ι) :=
  lwAssert (s.src c = none) <|
  lwAssert (s.on c = none) <|
  some { s.setTag c tag with
    src := Function.update s.src c (some k)
    on := Function.update s.on c (some (cfg.list k))
    list := Function.update s.list (cfg.list k) (s.list (cfg.list k) ++ [c]) }

/-- Waiters leave a wait list. -/
def unlist (s : State C K ι) (i : ι) (ds : List C) : State C K ι :=
  { s with
    on := fun d => if d ∈ ds then none else s.on d
    list := Function.update s.list i ((s.list i).filter fun c => decide (c ∉ ds)) }

/-- **`lw_dl_remove`** of some waiters. -/
def remove (s : State C K ι) (i : ι) (ds : List C) : Option (State C K ι) :=
  lwAssert (∀ d ∈ ds, s.on d = some i ∧ d ∈ s.list i) <| some (s.unlist i ds)

/-- **`lw_waiter_wakeup`**. -/
def wakeup (s : State C K ι) (d : C) : Option (State C K ι) :=
  lwAssert (s.signalled d = false) <|
  some { s with signalled := Function.update s.signalled d true }

/-- **The waiters that `find_next_matching_waiter` goes through.** -/
def found (cfg : Config K ι) (s : State C K ι) (k : K) : List C :=
  (s.list (cfg.list k)).filter fun c => isMatch cfg (s.tag c) k

/-- What `find_next_matching_waiter` asserts about a waiter it returns. -/
def Marked (s : State C K ι) (m : List C) : Prop :=
  ∀ d ∈ m.head?, (s.tag d).inList = true

instance (s : State C K ι) (m : List C) : Decidable (s.Marked m) :=
  inferInstanceAs (Decidable (∀ d ∈ m.head?, (s.tag d).inList = true))

end State

/-! ## Locking -/

/-- **`readlock_async`** up to its section. -/
def readlock (s : State C K ι) (c : C) (try' : Bool) : Option (State C K ι) :=
  lwAssert (Range cfg k) <|
  (setRdlock cfg k (s.lock k) try' false).bind fun new =>
  let old := s.lock k
  let s' := s.setLock k new
  if old &&& cfg.readerMask k ≠ cfg.readerMask k ∧ old &&& cfg.writerMask k = 0#32 then
    some ((s'.setTag c (ownTag cfg k true)).goto c (.reading k))
  else if try' ∧ old &&& cfg.writerMask k ≠ 0#32 then some s'
  else some (s'.goto c (.readSection k try'))

/-- **The section of `readlock_async`.** -/
def readSection (s : State C K ι) (c : C) (try' : Bool) : Option (State C K ι) :=
  (setRdlock cfg k (s.lock k) try' true).bind fun new =>
  let old := s.lock k
  let s' := s.setLock k new
  if old &&& cfg.readerMask k ≠ cfg.readerMask k ∧ old &&& cfg.writerMask k = 0#32 then
    some ((s'.setTag c (ownTag cfg k true)).goto c (.reading k))
  else if try' ∧ old &&& cfg.writerMask k ≠ 0#32 then some (s'.goto c .idle)
  else
    let haveLock := decide (old &&& cfg.writerMask k = 0#32)
    ((s'.eventInit c).append cfg c k (waitTag cfg k true haveLock)).map fun s' =>
      s'.goto c (if haveLock then .reading k else .waiting k true)

/-- **`writelock_async`** up to its section. -/
def writelock (s : State C K ι) (c : C) (try' : Bool) : Option (State C K ι) :=
  lwAssert (Range cfg k) <|
  (setWrlock cfg k (s.lock k) try' false).bind fun new =>
  let old := s.lock k
  let s' := s.setLock k new
  if old &&& cfg.readerMask k = 0#32 ∧ old &&& cfg.writerMask k = 0#32 then
    some ((s'.setTag c (ownTag cfg k false)).goto c (.writing k))
  else if try' then some s'
  else some (s'.goto c (.writeSection k))

/-- **The section of `writelock_async`.** -/
def writeSection (s : State C K ι) (c : C) : Option (State C K ι) :=
  (setWrlock cfg k (s.lock k) false true).bind fun new =>
  let old := s.lock k
  let s' := s.setLock k new
  if old &&& cfg.readerMask k = 0#32 ∧ old &&& cfg.writerMask k = 0#32 then
    some ((s'.setTag c (ownTag cfg k false)).goto c (.writing k))
  else
    (s'.append cfg c k (waitTag cfg k false false)).map fun s' => s'.goto c (.waiting k false)

/-- **`lw_bitlock_rw_complete_wait`**, once the waiter is signalled. -/
def completeWait (s : State C K ι) (c : C) (rd : Bool) : Option (State C K ι) :=
  lwAssert ((s.tag c).waitedForLock = false ∧ (s.tag c).needToWait = true) <|
  lwAssert ((s.tag c).haveLock = true) <|
  lwAssert (s.src c ≠ none) <|
  some ({ s.setTag c { s.tag c with waitedForLock := true } with
    src := Function.update s.src c none
    signalled := Function.update s.signalled c false }.goto c
    (if rd then .reading k else .writing k))

/-! ## Unlocking -/

/-- The end of `readunlock`, without a wakeup. -/
def readDone (s : State C K ι) (c : C) : Option (State C K ι) :=
  (s.eventDestroy c).map fun s => s.goto c .idle

/-- **`readunlock`** up to its section. -/
def readunlock (s : State C K ι) (c : C) : Option (State C K ι) :=
  lwAssert (Range cfg k) <|
  lwAssert ((s.tag c).haveLock = true) <|
  lwAssert (s.lock k &&& cfg.readerMask k ≠ 0#32) <|
  (clearRdlock cfg k (s.lock k)).bind fun new =>
  let old := s.lock k
  let s' := s.setLock k new
  if leavesWork cfg k old then some (s'.goto c (.readUnlockSection k))
  else lwAssert ((s'.tag c).inList = false) <| readDone s' c

/-- The end of the section of `readunlock`: the word `old` becomes `new`; `first` is
`first_match`. -/
def readSwap (s : State C K ι) (c : C) (old new : BitVec 32) (first : Option C)
    (doWakeup : Bool) : Option (State C K ι) :=
  lwAssert (doWakeup = false ∨ old &&& cfg.readerMask k = cfg.readerInc k) <|
  (if old ≠ new then
    lwAssert (leavesWork cfg k old = true) <|
    -- the inner `new`
    (Word.swapWithMask (s.lock k) (~~~cfg.readerMask k) old (old - cfg.readerInc k)).map
      (s.setLock k)
  else
    lwAssert ((old &&& cfg.readerMask k = cfg.readerMask k
        ∧ (∃ f ∈ first, (s.tag f).haveLock = true ∧ (s.tag f).rdlock = true))
      ∨ (old &&& cfg.writerMask k ≠ 0#32 ∧ old &&& cfg.readerMask k ≠ 0#32)) <|
    some s).bind fun s =>
  if doWakeup then
    some ((s.setLocals c ⟨old, true, false⟩).goto c (.granting k first.toList))
  else readDone s c

/-- **The section of `readunlock`.** -/
def readUnlockSection (s : State C K ι) (c : C) : Option (State C K ι) :=
  (clearRdlock cfg k (s.lock k)).bind fun new =>
  let old := s.lock k
  if leavesWork cfg k old = false then
    let s' := s.setLock k new
    lwAssert ((s'.tag c).inList = false) <| readDone s' c
  else
  -- `clear_rdlock` left the word as it was, and it is read again
  let s := s.setLock k new
  let old := s.lock k
  lwAssert (leavesWork cfg k old = true) <|
  if (s.tag c).inList then
    (s.remove (cfg.list k) [c]).bind fun s =>
    lwAssert (old &&& cfg.readerMask k = cfg.readerMask k) <|
    readSwap cfg k (s.setTag c { s.tag c with inList := false }) c old old (some c) false
  else match s.found cfg k with
    | [] => readSwap cfg k s c old (old - cfg.readerInc k) none false
    | f :: rest =>
      lwAssert (s.Marked (f :: rest)) <|
      if (s.tag f).haveLock then
        lwAssert ((s.tag f).rdlock = true) <|
        lwAssert (old &&& cfg.readerMask k = cfg.readerMask k) <|
        (s.remove (cfg.list k) [f]).bind fun s =>
        readSwap cfg k (s.setTag f { s.tag f with inList := false }) c old old (some f) false
      else
        lwAssert ((s.tag f).rdlock = false) <|
        lwAssert (s.Marked rest) <|
        let doWakeup := decide (old &&& cfg.readerMask k = cfg.readerInc k)
        let new := if rest = [] ∨ old &&& cfg.readerMask k = cfg.readerMask k then
          old - cfg.readerInc k else old
        (if doWakeup then
          (s.remove (cfg.list k) [f]).map fun s => s.setTag f { s.tag f with inList := false }
        else some s).bind fun s =>
        readSwap cfg k s c old new (some f) doWakeup

/-- **`writeunlock`** up to its section. -/
def writeunlock (s : State C K ι) (c : C) : Option (State C K ι) :=
  lwAssert (Range cfg k) <|
  (clearWrlock cfg k (s.lock k)).bind fun new =>
  let old := s.lock k
  let s' := s.setLock k new
  if old &&& cfg.readerMask k = 0#32 then some (s'.goto c .idle)
  else some ((s'.setLocals c ⟨old, false, false⟩).goto c (.writeUnlockSection k))

/-- **`find_eligible_waiters`** from a match on. -/
def findEligibleWaiters (s : State C K ι) (want : Bool) (max : ℕ) :
    List C → List C → Option (List C × Bool × Bool)
  | [], taken => some (taken, false, false)
  | c :: m, taken =>
    -- the next match is searched for first
    lwAssert (s.Marked m) <|
    if want = (s.tag c).rdlock ∧ taken.length < max then
      findEligibleWaiters s want max m (taken ++ [c])
    else some (taken, true, (s.tag c).rdlock)

/-- **`wake_eligible_readers`** from a match on, with the waiters in the list. -/
def wakeEligibleReaders : State C K ι → List C → Option (State C K ι × List C × Bool)
  | s, [] => some (s, [], false)
  | s, c :: m =>
    lwAssert (s.Marked m) <|
    if (s.tag c).rdlock then
      ((s.setTag c { s.tag c with haveLock := true }).wakeup c).bind fun s =>
      (wakeEligibleReaders s m).map fun o => (o.1, c :: o.2.1, o.2.2)
    else some (s, [], true)

/-- The word that `writeunlock` stores for the waiters it takes out of the list, and the
state after it has woken up readers past a saturated count. -/
def newWord (s : State C K ι) (rd : Bool) (taken rest : List C) (more nextIsReader : Bool) :
    Option (State C K ι × BitVec 32) :=
  let new := if rd then cfg.readerInc k * BitVec.ofNat 32 taken.length else cfg.writerMask k
  if more then
    if rd = false then
      lwAssert (new = cfg.writerMask k ∧ new &&& cfg.readerMask k = 0#32) <|
      lwAssert (new + cfg.readerInc k = cfg.writerMask k ||| cfg.readerInc k) <|
      some (s, new + cfg.readerInc k)
    else if new = cfg.readerMask k then
      if nextIsReader then
        lwAssert (s.Marked rest) <|
        (wakeEligibleReaders s rest).map fun o =>
          (o.1, if o.2.2 then new ||| cfg.writerMask k else new)
      else some (s, new ||| cfg.writerMask k)
    else some (s, new ||| cfg.writerMask k)
  else some (s, new)

/-- **The section of `writeunlock`.** -/
def writeUnlockSection (s : State C K ι) (c : C) : Option (State C K ι) :=
  lwAssert ((s.locals c).old = s.lock k) <|
  match s.found cfg k with
  -- the first waiter to wake up is asserted to exist
  | [] => none
  | f :: m =>
    let rd := (s.tag f).rdlock
    lwAssert (s.Marked (f :: m)) <|
    (findEligibleWaiters s rd (if rd then cfg.maxReaders k else 1) (f :: m) []).bind fun e =>
    let taken := e.1
    (s.remove (cfg.list k) taken).bind fun s =>
    lwAssert (0 < taken.length ∧ taken.length ≤ cfg.maxReaders k) <|
    (newWord cfg k s rd taken ((f :: m).drop taken.length) e.2.1 e.2.2).bind fun o =>
    let s := o.1
    let new := o.2
    let old := s.lock k &&& cfg.lockMask k
    (if old ≠ new then Word.swapWithMask (s.lock k) (~~~cfg.lockMask k) old new
      else some (s.lock k)).map fun v =>
    (((s.setLock k v).setLocals c ⟨old, false, rd⟩).goto c (.granting k taken))

/-- **A waiter that was taken out of the list is woken up.** -/
def grant (s : State C K ι) (c d : C) (ds : List C) : Option (State C K ι) :=
  (if (s.locals c).doWakeup then
    lwAssert ((s.tag d).rdlock = false ∧ (s.tag d).inList = false) <|
    some (s.setTag d { s.tag d with haveLock := true })
  else
    lwAssert ((s.tag d).rdlock = (s.locals c).nextIsReader) <|
    some (s.setTag d { s.tag d with inList := false, haveLock := true })).bind fun s =>
  (s.wakeup d).map fun s => s.goto c (.granting k ds)

/-! ## The machine -/

/-- **A step that is taken**, or fails an assertion. -/
def State.run (s : State C K ι) (c : C) (o : Option (State C K ι)) : State C K ι :=
  o.getD (s.goto c .aborted)

/-- A call with its first step. -/
def call (own : C → Bool) (s : State C K ι) (c : C) (op : Op K) : Option (State C K ι) :=
  match s.pc c, op with
  | .idle, .readlock k try' => if own c then none else some (s.run c (readlock cfg k s c try'))
  | .idle, .writelock k try' => if own c then some (s.run c (writelock cfg k s c try')) else none
  | .reading k, .readunlock => some (s.run c (readunlock cfg k s c))
  | .writing k, .writeunlock => some (s.run c (writeunlock cfg k s c))
  | _, _ => none

/-- **A further step of a client.** -/
def move (s : State C K ι) (c : C) : Option (State C K ι) :=
  match s.pc c with
  | .readSection k try' => some (s.run c (readSection cfg k s c try'))
  | .writeSection k => some (s.run c (writeSection cfg k s c))
  | .waiting k rd => if s.signalled c then some (s.run c (completeWait k s c rd)) else none
  | .readUnlockSection k => some (s.run c (readUnlockSection cfg k s c))
  | .writeUnlockSection k => some (s.run c (writeUnlockSection cfg k s c))
  | .granting _ [] =>
    some (s.run c (if (s.locals c).doWakeup then readDone s c else some (s.goto c .idle)))
  | .granting k (d :: ds) => some (s.run c (grant k s c d ds))
  | _ => none

/-- **An iteration whose swap fails**, of a loop that asserts something about the word. -/
def again (s : State C K ι) (c : C) : Option (State C K ι) :=
  match s.pc c with
  | .reading k => some (s.run c (
    lwAssert ((s.tag c).haveLock = true) <|
    lwAssert (s.lock k &&& cfg.readerMask k ≠ 0#32) <|
    (clearRdlock cfg k (s.lock k)).map fun _ => s))
  | .readUnlockSection k => some (s.run c ((clearRdlock cfg k (s.lock k)).map fun _ => s))
  | .writing k => some (s.run c ((clearWrlock cfg k (s.lock k)).map fun _ => s))
  | .writeSection k => some (s.run c ((setWrlock cfg k (s.lock k) false true).map fun _ => s))
  | _ => none

/-- The locks are free and nobody waits; the payloads are what they are. -/
structure Start (s : State C K ι) : Prop where
  lock : ∀ k, s.lock k &&& cfg.lockMask k = 0#32
  list : ∀ i, s.list i = []
  on : ∀ c, s.on c = none
  src : ∀ c, s.src c = none
  signalled : ∀ c, s.signalled c = false
  pc : ∀ c, s.pc c = .idle

/-- **The reader-writer bitlocks of a debug build**; `own` are the waiters that are the own
ones of a thread. -/
def machine (own : C → Bool) : Machine (State C K ι) (Event C K ι) where
  start := Start cfg
  step := fun s e => match e with
    | .step (.call c op) => call cfg own s c op
    | .step (.move c) => move cfg s c
    | .step (.join c i tag) =>
      if s.pc c = .idle then
        some ({ s.setTag c tag with
          on := Function.update s.on c (some i)
          list := Function.update s.list i (s.list i ++ [c]) }.goto c (.foreign i))
      else none
    | .step (.leave c) => match s.pc c with
      | .foreign i => some ((s.unlist i [c]).goto c .idle)
      | _ => none
    | .again c => again cfg s c

end RwBitlock.Debug
