import Lwlock.Machine

/-!
# Reader-writer bitlocks

A reader-writer bitlock is a range of bits of a word: its lowest bit is the
writer bit, the others count readers. There is no wait bit. Which lock is held,
and who waits, follows from the bits and the wait list together: the writer bit
is set while a writer holds the lock or waits for it, and a count beside a
writer that holds the lock only says that somebody waits. When the count is
saturated, a further reader puts its waiter in the wait list – not to wait, but
to be counted.

A word is kept as its two fields, which the code reads and writes by masks; the
rest of the word is not looked at. The wait lists are shared, with other locks
and with other users; a section under the lock of a list is one step, as is
every update of a waiter's tag outside of one. The client of the lock is a
waiter buffer: one acquisition, from the call that locks to the end of the call
that unlocks. A failed `lw_verify`, or a search that finds nobody where the code
goes on with its result, leaves the client at `aborted`; `lw_assert` is compiled
out.
-/

namespace RwBitlock

/-- **The locks**: their wait lists, and the range of bits of each. -/
structure Config (K ι : Type) where
  list : K → ι
  startBit : K → ℕ
  numBits : K → ℕ
  three_le : ∀ k, 3 ≤ numBits k
  fits : ∀ k, startBit k + numBits k ≤ 32

/-- Three bits at the bottom of a word are in it. -/
theorem Config.fits_three (_ : Unit) : 0 + 3 ≤ 32 := by decide

variable {C K ι : Type}

/-- The saturated count, `(1 << (num_bits - 1)) - 1`. -/
def Config.maxReaders (cfg : Config K ι) (k : K) : ℕ := 2 ^ (cfg.numBits k - 1) - 1

/-- **The tag of a waiter**, `bitlock_rw_wait_t`; `rwUniq` is whether all bits of
that field are set. -/
structure Tag where
  startBit : ℕ
  numBits : ℕ
  rdlock : Bool
  inList : Bool
  haveLock : Bool
  needToWait : Bool
  waitedForLock : Bool
  rwUniq : Bool
  deriving DecidableEq, Repr

/-- **The program points** of a client. -/
inductive Pc (C K ι : Type)
  | idle
  /-- `readlock_async` before its section. -/
  | readSection (k : K) (try' : Bool)
  /-- `writelock_async` before its section. -/
  | writeSection (k : K)
  /-- `complete_wait`, or before it, for a read or a write lock. -/
  | waiting (k : K) (rd : Bool)
  /-- With a read lock. -/
  | reading (k : K)
  /-- With a write lock. -/
  | writing (k : K)
  /-- `readunlock` before its section. -/
  | readUnlockSection (k : K)
  /-- `writeunlock` before its section. -/
  | writeUnlockSection (k : K)
  /-- An unlock after its section, with the waiters it has to wake up. -/
  | granting (k : K) (ds : List C)
  /-- In a wait list on behalf of somebody else. -/
  | foreign (i : ι)
  | aborted
  deriving DecidableEq, Repr

/-- The operations; the unlock calls are for the lock the client has. -/
inductive Op (K : Type)
  | readlock (k : K) (try' : Bool)
  | writelock (k : K) (try' : Bool)
  | readunlock
  | writeunlock
  deriving DecidableEq, Repr

/-- An event: a call with its first step, a further step, or a waiter of another
module that comes to a wait list or leaves it. -/
inductive Event (C K ι : Type)
  | call (c : C) (op : Op K)
  | move (c : C)
  | join (c : C) (i : ι) (tag : Tag)
  | leave (c : C)
  deriving DecidableEq, Repr

/-- **A state of the locks, the wait lists and the clients.** -/
structure State (C K ι : Type) where
  /-- The writer bit. -/
  w : K → Bool
  /-- The reader count. -/
  r : K → ℕ
  list : ι → List C
  /-- `event.wait_src`. -/
  src : C → Option K
  /-- `event.tag`. -/
  tag : C → Tag
  signalled : C → Bool
  /-- Whether the lock a waiting client waits for was handed to it. -/
  granted : C → Bool
  pc : C → Pc C K ι

/-- The locks are free and nobody waits. -/
structure Start (s : State C K ι) : Prop where
  w : ∀ k, s.w k = false
  r : ∀ k, s.r k = 0
  list : ∀ i, s.list i = []
  signalled : ∀ c, s.signalled c = false
  granted : ∀ c, s.granted c = false
  pc : ∀ c, s.pc c = .idle

/-- Whether `find_next_matching_waiter` stops at a waiter. -/
def isMatch (cfg : Config K ι) (tag : Tag) (k : K) : Bool :=
  tag.rwUniq && decide (tag.startBit = cfg.startBit k) && decide (tag.numBits = cfg.numBits k)

variable [DecidableEq C] [DecidableEq K] [DecidableEq ι]

namespace State

/-- Move a client to a program point. -/
def goto (s : State C K ι) (c : C) (pc : Pc C K ι) : State C K ι :=
  { s with pc := Function.update s.pc c pc }

/-- Store the two fields of a lock. -/
def setBits (s : State C K ι) (k : K) (w : Bool) (r : ℕ) : State C K ι :=
  { s with w := Function.update s.w k w, r := Function.update s.r k r }

/-- Store a tag. -/
def setTag (s : State C K ι) (c : C) (tag : Tag) : State C K ι :=
  { s with tag := Function.update s.tag c tag }

/-- **The waiters that `find_next_matching_waiter` goes through.** -/
def found (cfg : Config K ι) (s : State C K ι) (k : K) : List C :=
  (s.list (cfg.list k)).filter fun c => isMatch cfg (s.tag c) k

/-- Waiters leave a wait list. -/
def remove (s : State C K ι) (i : ι) (ds : List C) : State C K ι :=
  { s with list := Function.update s.list i ((s.list i).filter fun c => decide (c ∉ ds)) }

/-- A waiter is appended to the wait list of a lock. -/
def append (cfg : Config K ι) (s : State C K ι) (c : C) (k : K) (tag : Tag) : State C K ι :=
  { s.setTag c tag with
    src := Function.update s.src c (some k)
    signalled := Function.update s.signalled c false
    granted := Function.update s.granted c false
    list := Function.update s.list (cfg.list k) (s.list (cfg.list k) ++ [c]) }

end State

/-- The tag of a client that got the lock at once. -/
def ownTag (cfg : Config K ι) (k : K) (rd : Bool) : Tag :=
  ⟨cfg.startBit k, cfg.numBits k, rd, false, true, false, false, false⟩

/-- The tag of a client in the wait list. -/
def waitTag (cfg : Config K ι) (k : K) (rd haveLock : Bool) : Tag :=
  ⟨cfg.startBit k, cfg.numBits k, rd, true, haveLock, !haveLock, false, true⟩

/-! ## Locking -/

/-- **`set_rdlock`**: the fields it leaves. -/
def setRdlock (cfg : Config K ι) (s : State C K ι) (k : K) (try' underWaitListLock : Bool) :
    State C K ι :=
  if s.w k then
    if !underWaitListLock || try' then s
    else if s.r k ≠ 0 then s
    else s.setBits k true (s.r k + 1)
  else if s.r k = cfg.maxReaders k then s
  else s.setBits k false (s.r k + 1)

/-- **`set_wrlock`**: the fields it leaves. -/
def setWrlock (s : State C K ι) (k : K) (try' underWaitListLock : Bool) : State C K ι :=
  if s.w k then
    if !underWaitListLock || try' then s
    else if s.r k ≠ 0 then s
    else s.setBits k true (s.r k + 1)
  else if s.r k ≠ 0 then
    if !underWaitListLock || try' then s else s.setBits k true (s.r k)
  else s.setBits k true (s.r k)

/-- **`readlock_async`** up to its section. -/
def readlock (cfg : Config K ι) (s : State C K ι) (c : C) (k : K) (try' : Bool) : State C K ι :=
  let s' := setRdlock cfg s k try' false
  if s.r k ≠ cfg.maxReaders k ∧ s.w k = false then
    (s'.setTag c (ownTag cfg k true)).goto c (.reading k)
  else if try' ∧ s.w k then s'
  else s'.goto c (.readSection k try')

/-- **The section of `readlock_async`.** -/
def readSection (cfg : Config K ι) (s : State C K ι) (c : C) (k : K) (try' : Bool) :
    State C K ι :=
  let s' := setRdlock cfg s k try' true
  if s.r k ≠ cfg.maxReaders k ∧ s.w k = false then
    (s'.setTag c (ownTag cfg k true)).goto c (.reading k)
  else if try' ∧ s.w k then s'.goto c .idle
  else if s.w k then (s'.append cfg c k (waitTag cfg k true false)).goto c (.waiting k true)
  else (s'.append cfg c k (waitTag cfg k true true)).goto c (.reading k)

/-- **`writelock_async`** up to its section. -/
def writelock (cfg : Config K ι) (s : State C K ι) (c : C) (k : K) (try' : Bool) : State C K ι :=
  let s' := setWrlock s k try' false
  if s.r k = 0 ∧ s.w k = false then (s'.setTag c (ownTag cfg k false)).goto c (.writing k)
  else if try' then s'
  else s'.goto c (.writeSection k)

/-- **The section of `writelock_async`.** -/
def writeSection (cfg : Config K ι) (s : State C K ι) (c : C) (k : K) : State C K ι :=
  let s' := setWrlock s k false true
  if s.r k = 0 ∧ s.w k = false then (s'.setTag c (ownTag cfg k false)).goto c (.writing k)
  else (s'.append cfg c k (waitTag cfg k false false)).goto c (.waiting k false)

/-! ## Unlocking -/

/-- The cases in which `clear_rdlock` leaves the work to its caller. -/
def leavesWork (cfg : Config K ι) (s : State C K ι) (k : K) : Bool :=
  decide (s.r k = cfg.maxReaders k) || (s.w k && decide (s.r k = 1))

/-- **`readunlock`** up to its section. -/
def readunlock (cfg : Config K ι) (s : State C K ι) (c : C) (k : K) : State C K ι :=
  if leavesWork cfg s k then s.goto c (.readUnlockSection k)
  else (s.setBits k (s.w k) (s.r k - 1)).goto c .idle

/-- **The section of `readunlock`.** -/
def readUnlockSection (cfg : Config K ι) (s : State C K ι) (c : C) (k : K) : State C K ι :=
  if leavesWork cfg s k = false then
    if (s.tag c).inList then s.goto c .aborted
    else (s.setBits k (s.w k) (s.r k - 1)).goto c .idle
  else if (s.tag c).inList then
    if s.r k = cfg.maxReaders k then
      ((s.remove (cfg.list k) [c]).setTag c { s.tag c with inList := false }).goto c .idle
    else s.goto c .aborted
  else match s.found cfg k with
    | [] => (s.setBits k (s.w k) (s.r k - 1)).goto c .idle
    | f :: rest =>
      if (s.tag f).haveLock then
        ((s.remove (cfg.list k) [f]).setTag f { s.tag f with inList := false }).goto c .idle
      else if (s.tag f).rdlock then s.goto c .aborted
      else
        let r := if rest = [] ∨ s.r k = cfg.maxReaders k then s.r k - 1 else s.r k
        if s.r k = 1 then
          ({ (s.remove (cfg.list k) [f]).setTag f { s.tag f with inList := false } with
            granted := Function.update s.granted f true }.setBits k (s.w k) r).goto c
            (.granting k [f])
        else (s.setBits k (s.w k) r).goto c .idle

/-- **`find_eligible_waiters`** from a match on: the waiters to wake up, whether
more remain, and whether the next one is a reader. -/
def findEligibleWaiters (s : State C K ι) (want : Bool) (max : ℕ) :
    List C → List C → List C × Bool × Bool
  | [], taken => (taken, false, false)
  | c :: m, taken =>
    if want = (s.tag c).rdlock ∧ taken.length < max then
      findEligibleWaiters s want max m (taken ++ [c])
    else (taken, true, (s.tag c).rdlock)

/-- **`wake_eligible_readers`**: the readers it wakes up, and whether it came to a
writer. -/
def wakeEligibleReaders (s : State C K ι) : List C → List C × Bool
  | [] => ([], false)
  | c :: m =>
    if (s.tag c).rdlock then (c :: (wakeEligibleReaders s m).1, (wakeEligibleReaders s m).2)
    else ([], true)

/-- **The section of `writeunlock`.** -/
def writeUnlockSection (cfg : Config K ι) (s : State C K ι) (c : C) (k : K) : State C K ι :=
  match s.found cfg k with
  | [] => s.goto c .aborted
  | f :: m =>
    let rd := (s.tag f).rdlock
    let e := findEligibleWaiters s rd (if rd then cfg.maxReaders k else 1) (f :: m) []
    let taken := e.1
    let more := e.2.1
    let nextIsReader := e.2.2
    -- readers past a saturated count are woken up where they stand
    let o := if more ∧ rd ∧ taken.length = cfg.maxReaders k ∧ nextIsReader then
        wakeEligibleReaders s ((f :: m).drop taken.length)
      else ([], more)
    let w := if rd then o.2 else true
    let r := if rd then taken.length else if more then 1 else 0
    ({ s.remove (cfg.list k) taken with
      tag := fun d => if d ∈ o.1 then { s.tag d with haveLock := true } else s.tag d
      signalled := fun d => if d ∈ o.1 then true else s.signalled d
      granted := fun d => if d ∈ taken ∨ d ∈ o.1 then true else s.granted d }.setBits k w r).goto c
      (.granting k taken)

/-- **`writeunlock`** up to its section. -/
def writeunlock (s : State C K ι) (c : C) (k : K) : State C K ι :=
  if s.r k ≠ 0 then s.goto c (.writeUnlockSection k)
  else (s.setBits k false (s.r k)).goto c .idle

/-! ## The machine -/

/-- A call with its first step. -/
def call (cfg : Config K ι) (s : State C K ι) (c : C) (op : Op K) : Option (State C K ι) :=
  match s.pc c, op with
  | .idle, .readlock k try' => some (readlock cfg s c k try')
  | .idle, .writelock k try' => some (writelock cfg s c k try')
  | .reading k, .readunlock => some (readunlock cfg s c k)
  | .writing k, .writeunlock => some (writeunlock s c k)
  | _, _ => none

/-- **A further step of a client.** -/
def move (cfg : Config K ι) (s : State C K ι) (c : C) : Option (State C K ι) :=
  match s.pc c with
  | .readSection k try' => some (readSection cfg s c k try')
  | .writeSection k => some (writeSection cfg s c k)
  | .waiting k rd =>
    if s.signalled c then
      if (s.tag c).haveLock ∧ (s.tag c).needToWait ∧ (s.tag c).waitedForLock = false then
        some ({ s.setTag c { s.tag c with waitedForLock := true } with
          src := Function.update s.src c none
          signalled := Function.update s.signalled c false
          granted := Function.update s.granted c false }.goto c
          (if rd then .reading k else .writing k))
      else some (s.goto c .aborted)
    else none
  | .readUnlockSection k => some (readUnlockSection cfg s c k)
  | .writeUnlockSection k => some (writeUnlockSection cfg s c k)
  | .granting _ [] => some (s.goto c .idle)
  | .granting k (d :: ds) =>
    some ({ s.setTag d { s.tag d with inList := false, haveLock := true } with
      signalled := Function.update s.signalled d true }.goto c (.granting k ds))
  | _ => none

/-- **The reader-writer bitlocks as a machine.** The tag of a waiter of another
module has not all bits of `rw_uniq` set. -/
def machine (C : Type) [DecidableEq C] (cfg : Config K ι) :
    Machine (State C K ι) (Event C K ι) where
  start := Start
  step := fun s e => match e with
    | .call c op => call cfg s c op
    | .move c => move cfg s c
    | .join c i tag =>
      if s.pc c = .idle ∧ tag.rwUniq = false then
        some ({ s.setTag c tag with
          list := Function.update s.list i (s.list i ++ [c]) }.goto c (.foreign i))
      else none
    | .leave c => match s.pc c with
      | .foreign i => some ((s.remove i [c]).goto c .idle)
      | _ => none

end RwBitlock
