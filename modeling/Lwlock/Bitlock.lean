import Lwlock.Monitor
import Lwlock.Word

/-!
# Bitlocks

A bitlock is a mutex made of two bits of a word, a lock bit and a wait bit, and
a third one for a condition. Several bitlocks may lie on disjoint bits of one
word. Threads that have to wait are kept in wait lists that are shared: the
address of the word hashes to a list, and an entry says which word it waits for
(`wait_src`) and for which bits of it (`tag`).

A word is changed by masked compare-and-swaps, a wait list under its own lock;
a section under that lock is one step, with the swaps it makes. Words have any
width up to that of a tag, so that the 32-bit and the 64-bit functions are one
model. A thread has one waiter. A call that would need it for a second wait is
not a step of the machine. `lw_assert` is compiled out, so a section that finds
no waiter where it needs one goes on with a null pointer: the thread is then at
`crashed`.
-/

namespace Bitlock

open Monitor (Kind)

/-- **Where the bitlocks are**: the words and their widths, the wait list of each
word, and the word and the bits of each lock. The bits of a lock are different,
and different from those of the other locks of the word. A lock without a
condition is one whose `cvAt` lies outside of the word. -/
structure Config (A K ι : Type) where
  width : A → ℕ
  width_le : ∀ a, width a ≤ 64
  hash : A → ι
  addr : K → A
  lockAt : K → ℕ
  waitAt : K → ℕ
  cvAt : K → ℕ
  lockAt_lt : ∀ k, lockAt k < width (addr k)
  waitAt_lt : ∀ k, waitAt k < width (addr k)
  lock_ne_wait : ∀ k, lockAt k ≠ waitAt k
  lock_ne_cv : ∀ k, lockAt k ≠ cvAt k
  wait_ne_cv : ∀ k, waitAt k ≠ cvAt k
  apart : ∀ k k', addr k = addr k' → k ≠ k' →
    ∀ i ∈ [lockAt k, waitAt k, cvAt k], i ∉ [lockAt k', waitAt k', cvAt k']

variable {T A K ι : Type} {cfg : Config A K ι}

namespace Config

/-- `lock_mask`. -/
def lockMask (cfg : Config A K ι) (k : K) : BitVec (cfg.width (cfg.addr k)) :=
  Word.bit _ (cfg.lockAt k)

/-- `wait_mask`. -/
def waitMask (cfg : Config A K ι) (k : K) : BitVec (cfg.width (cfg.addr k)) :=
  Word.bit _ (cfg.waitAt k)

/-- `cv_mask`. -/
def cvMask (cfg : Config A K ι) (k : K) : BitVec (cfg.width (cfg.addr k)) :=
  Word.bit _ (cfg.cvAt k)

/-- `payload_mask`. -/
def payloadMask (cfg : Config A K ι) (k : K) : BitVec (cfg.width (cfg.addr k)) :=
  ~~~(cfg.lockMask k ||| cfg.waitMask k)

/-- The tag of a thread that waits for the lock. -/
def waitTag (cfg : Config A K ι) (k : K) : BitVec 64 :=
  (cfg.lockMask k ||| cfg.waitMask k).setWidth 64

/-- The tag of a thread that waits for the condition. -/
def cvTag (cfg : Config A K ι) (k : K) : BitVec 64 :=
  (cfg.lockMask k ||| cfg.cvMask k).setWidth 64

/-- The tag of a waiter. -/
def tagOf (cfg : Config A K ι) (k : K) : Kind → BitVec 64
  | .lock => cfg.waitTag k
  | .cv => cfg.cvTag k

/-- The wait list of a lock. -/
def listOf (cfg : Config A K ι) (k : K) : ι := cfg.hash (cfg.addr k)

/-- The payload a caller expects, without the bits of the lock. -/
def payload (cfg : Config A K ι) (k : K) (v : BitVec 64) : BitVec (cfg.width (cfg.addr k)) :=
  v.setWidth _ &&& cfg.payloadMask k

end Config

/-! ## The state -/

/-- **The program points** of a thread. -/
inductive Pc (T K : Type)
  /-- Outside; a wait that was begun without `sync` may be pending. -/
  | idle
  /-- `lock_async` before its section. -/
  | lockSection (k : K) (sync : Bool)
  /-- `lock_if_payload` before its section. -/
  | payloadSection (k : K) (v : BitVec 64) (sync : Bool)
  /-- `lw_waiter_wait`. -/
  | waiting
  /-- `unlock_return_waiter` before its section. -/
  | unlockSection (k : K)
  /-- `cv_wait` with the condition bit set, before its section. -/
  | cvSection (k : K) (sync : Bool)
  /-- `cv_signal` before its section. -/
  | signalSection (k : K)
  /-- `cv_broadcast` before its section. -/
  | broadcastSection (k : K)
  /-- Either of them, before it clears the condition bit. -/
  | clearCv (k : K)
  /-- Either of them, before it sets the wait bit. -/
  | setWait (k : K)
  /-- Before it wakes up the thread it handed the lock to; then it waits itself if
  `sync`. -/
  | wake (u : T) (sync : Bool)
  /-- A null pointer was followed. -/
  | crashed
  deriving DecidableEq, Repr

/-- The operations; `sync` is whether the call waits by itself. -/
inductive Op (K : Type)
  | lock (k : K) (sync : Bool)
  | lockIfPayload (k : K) (v : BitVec 64) (sync : Bool)
  | trylock (k : K)
  | completeWait
  | unlock (k : K)
  | cvWait (k : K) (sync : Bool)
  | cvSignal (k : K)
  | cvBroadcast (k : K)
  deriving DecidableEq, Repr

/-- An event: a call with its first step, or a further step of a thread. -/
inductive Event (T K : Type)
  | call (t : T) (op : Op K)
  | move (t : T)
  deriving DecidableEq, Repr

/-- **A state of the words, the wait lists and the threads.** -/
structure State (T : Type) (cfg : Config A K ι) where
  word : (a : A) → BitVec (cfg.width a)
  /-- The wait lists, each from its head on. -/
  list : ι → List T
  /-- `event.wait_src`. -/
  src : T → Option A
  /-- `event.tag`. -/
  tag : T → BitVec 64
  /-- Whether the waiter was signalled. -/
  signalled : T → Bool
  pc : T → Pc T K
  /-- The lock the thread has a pending wait for. -/
  want : T → Option K
  /-- Whether that lock was handed to it. -/
  granted : T → Bool
  /-- The locks the thread was given and has not given up. -/
  holds : T → K → Bool

/-- The bits of the locks are clear and nobody waits. -/
structure Start (cfg : Config A K ι) (s : State T cfg) : Prop where
  lock : ∀ k, (s.word (cfg.addr k)).getLsbD (cfg.lockAt k) = false
  wait : ∀ k, (s.word (cfg.addr k)).getLsbD (cfg.waitAt k) = false
  cv : ∀ k, (s.word (cfg.addr k)).getLsbD (cfg.cvAt k) = false
  list : ∀ i, s.list i = []
  signalled : ∀ t, s.signalled t = false
  pc : ∀ t, s.pc t = .idle
  want : ∀ t, s.want t = none
  granted : ∀ t, s.granted t = false
  holds : ∀ t k, s.holds t k = false

variable [DecidableEq T] [DecidableEq A] [DecidableEq K] [DecidableEq ι]

namespace State

/-- Move a thread to a program point. -/
def goto (s : State T cfg) (t : T) (pc : Pc T K) : State T cfg :=
  { s with pc := Function.update s.pc t pc }

/-- Store a word. -/
def setWord (s : State T cfg) (a : A) (v : BitVec (cfg.width a)) : State T cfg :=
  { s with word := Function.update s.word a v }

/-- Record that a thread has a lock, or no longer has it. -/
def setHolds (s : State T cfg) (t : T) (k : K) (b : Bool) : State T cfg :=
  { s with holds := fun u j => if u = t ∧ j = k then b else s.holds u j }

/-- A masked swap of the lock and the wait bit. -/
def swapBits (s : State T cfg) (k : K) (old new : BitVec (cfg.width (cfg.addr k))) :
    Option (State T cfg) :=
  (Word.swapWithMask (s.word (cfg.addr k)) (cfg.payloadMask k) old new).map
    (s.setWord (cfg.addr k))

/-- A masked swap of the bits of a mask, whose result is ignored. -/
def swapIgnore (s : State T cfg) (k : K) (mask old new : BitVec (cfg.width (cfg.addr k))) :
    State T cfg :=
  ((Word.swapWithMask (s.word (cfg.addr k)) (~~~mask) old new).map (s.setWord (cfg.addr k))).getD s

/-- `lw_bitlock_set_lock_bit` without `set_wait_bit`. -/
def setLockBit (s : State T cfg) (k : K) : Option (State T cfg) :=
  s.swapBits k 0 (cfg.lockMask k)

/-- **`lw_bitlock_set_lock_bit` with `set_wait_bit`**: the swap that ends the
loop, and whether it took the lock. -/
def setLockOrWaitBit (s : State T cfg) (k : K) : State T cfg × Bool :=
  let old := s.word (cfg.addr k)
  if old &&& cfg.lockMask k ≠ 0 then
    ((s.swapBits k old (cfg.lockMask k ||| cfg.waitMask k)).getD s, false)
  else ((s.swapBits k old (cfg.lockMask k)).getD s, true)

/-- `lw_bitlock_drop_lock_if_no_waiters`. -/
def dropLockIfNoWaiters (s : State T cfg) (k : K) : Option (State T cfg) :=
  s.swapBits k (cfg.lockMask k) 0

/-- `lw_bitlock_clear_wait_mask`. -/
def clearWaitMask (s : State T cfg) (k : K) : State T cfg :=
  (s.swapBits k (cfg.lockMask k ||| cfg.waitMask k) (cfg.lockMask k)).getD s

/-- The waiter of a thread is set up for a lock and appended to the wait list. -/
def append (s : State T cfg) (t : T) (k : K) (kind : Kind) : State T cfg :=
  { s with
    src := Function.update s.src t (some (cfg.addr k))
    tag := Function.update s.tag t (cfg.tagOf k kind)
    list := Function.update s.list (cfg.listOf k) (s.list (cfg.listOf k) ++ [t])
    want := Function.update s.want t (some k) }

/-- A wait is over: the signal is consumed and `wait_src` cleared, and the thread
has the lock. -/
def finishWait (s : State T cfg) (t : T) (k : K) : State T cfg :=
  { s.setHolds t k true with
    src := Function.update s.src t none
    signalled := Function.update s.signalled t false
    want := Function.update s.want t none
    granted := Function.update s.granted t false }

/-- Whether a waiter waits for a lock, or for its condition. -/
def waitsFor (s : State T cfg) (k : K) (kind : Kind) (u : T) : Bool :=
  decide (s.src u = some (cfg.addr k)) && decide (s.tag u = cfg.tagOf k kind)

/-- **`lw_bitlock_get_one_waiter`**: the first waiter of the lock leaves the list
and has the lock, and the wait bit is cleared if there is no other one. -/
def getOneWaiter (s : State T cfg) (k : K) : Option (State T cfg × T) :=
  match (s.list (cfg.listOf k)).find? (s.waitsFor k .lock) with
  | none => none
  | some u =>
    let rest := (s.list (cfg.listOf k)).erase u
    let s' := { s with
      list := Function.update s.list (cfg.listOf k) rest
      granted := Function.update s.granted u true }
    if rest.any (s.waitsFor k .lock) then some (s', u) else some (s'.clearWaitMask k, u)

end State

/-! ## The steps -/

/-- The section of `lock_async` and of `lock_if_payload` found the lock free, or
sets the thread up to wait. -/
def lockOrQueue (s : State T cfg) (t : T) (k : K) (sync : Bool) (r : State T cfg × Bool) :
    Option (State T cfg) :=
  if r.2 then some ((r.1.setHolds t k true).goto t .idle)
  else if s.want t = none then
    some ((r.1.append t k .lock).goto t (if sync then .waiting else .idle))
  else none

/-- **The section of `lock_if_payload`.** -/
def payloadSection (s : State T cfg) (t : T) (k : K) (v : BitVec 64) (sync : Bool) :
    Option (State T cfg) :=
  let old := s.word (cfg.addr k)
  if old &&& cfg.payloadMask k ≠ cfg.payload k v then some (s.goto t .idle)
  else if old &&& cfg.lockMask k = 0 then
    lockOrQueue s t k sync (s.setWord _ (old ||| cfg.lockMask k), true)
  else lockOrQueue s t k sync (s.setWord _ (old ||| cfg.waitMask k), false)

/-- **The section of `unlock_return_waiter`.** -/
def unlockSection (s : State T cfg) (t : T) (k : K) : State T cfg :=
  match s.getOneWaiter k with
  | none => s.goto t .crashed
  | some (s', u) => (s'.setHolds t k false).goto t (.wake u false)

/-- **The section of `cv_wait`.** -/
def cvSection (s : State T cfg) (t : T) (k : K) (sync : Bool) : State T cfg :=
  match s.dropLockIfNoWaiters k with
  | some s' => ((s'.setHolds t k false).append t k .cv).goto t (if sync then .waiting else .idle)
  | none => match s.getOneWaiter k with
    | none => s.goto t .crashed
    | some (s', u) => ((s'.setHolds t k false).append t k .cv).goto t (.wake u sync)

/-- **The section of `cv_signal`**: the first waiter for the condition waits for
the lock from now on. -/
def signalSection (s : State T cfg) (t : T) (k : K) : State T cfg :=
  match (s.list (cfg.listOf k)).find? (s.waitsFor k .cv) with
  | none => s.goto t (.clearCv k)
  | some u =>
    let s' := { s with tag := Function.update s.tag u (cfg.waitTag k) }
    if (s.list (cfg.listOf k)).any (s'.waitsFor k .cv) then s'.goto t (.setWait k)
    else s'.goto t (.clearCv k)

/-- **The section of `cv_broadcast`.** -/
def broadcastSection (s : State T cfg) (t : T) (k : K) : State T cfg :=
  { s with
    tag := fun u => if u ∈ s.list (cfg.listOf k) ∧ s.waitsFor k .cv u then cfg.waitTag k
      else s.tag u }.goto t (.clearCv k)

/-- **A call with its first step.** A thread unlocks, waits on and signals what it
has; a wait needs its waiter. -/
def call (s : State T cfg) (t : T) (op : Op K) : Option (State T cfg) :=
  match s.pc t, op with
  | .idle, .lock k sync => match s.setLockBit k with
    | some s => some (s.setHolds t k true)
    | none => some (s.goto t (.lockSection k sync))
  | .idle, .lockIfPayload k v sync =>
    let old := s.word (cfg.addr k)
    if old = cfg.payload k v then
      some ((s.setWord _ (cfg.payload k v ||| cfg.lockMask k)).setHolds t k true)
    else if old &&& cfg.payloadMask k ≠ cfg.payload k v then some s
    else some (s.goto t (.payloadSection k v sync))
  | .idle, .trylock k => match s.setLockBit k with
    | some s => some (s.setHolds t k true)
    | none => some s
  | .idle, .completeWait => if s.want t = none then none else some (s.goto t .waiting)
  | .idle, .unlock k =>
    if s.holds t k then match s.dropLockIfNoWaiters k with
      | some s => some (s.setHolds t k false)
      | none => some (s.goto t (.unlockSection k))
    else none
  | .idle, .cvWait k sync =>
    if s.holds t k ∧ s.want t = none ∧ cfg.cvAt k < cfg.width (cfg.addr k) then
      some ((s.swapIgnore k (cfg.cvMask k) 0 (cfg.cvMask k)).goto t (.cvSection k sync))
    else none
  | .idle, .cvSignal k =>
    if s.holds t k ∧ cfg.cvAt k < cfg.width (cfg.addr k) then
      if s.word (cfg.addr k) &&& cfg.cvMask k = 0 then some s
      else some (s.goto t (.signalSection k))
    else none
  | .idle, .cvBroadcast k =>
    if s.holds t k ∧ cfg.cvAt k < cfg.width (cfg.addr k) then
      if s.word (cfg.addr k) &&& cfg.cvMask k = 0 then some s
      else some (s.goto t (.broadcastSection k))
    else none
  | _, _ => none

/-- **A further step of a thread.** -/
def move (s : State T cfg) (t : T) : Option (State T cfg) :=
  match s.pc t with
  | .idle => none
  | .lockSection k sync => lockOrQueue s t k sync (s.setLockOrWaitBit k)
  | .payloadSection k v sync => payloadSection s t k v sync
  | .waiting =>
    if s.signalled t then (s.want t).map fun k => (s.finishWait t k).goto t .idle else none
  | .unlockSection k => some (unlockSection s t k)
  | .cvSection k sync => some (cvSection s t k sync)
  | .signalSection k => some (signalSection s t k)
  | .broadcastSection k => some (broadcastSection s t k)
  | .clearCv k => some ((s.swapIgnore k (cfg.cvMask k) (cfg.cvMask k) 0).goto t (.setWait k))
  | .setWait k => some ((s.swapIgnore k (cfg.waitMask k) 0 (cfg.waitMask k)).goto t .idle)
  | .wake u sync =>
    some ({ s with signalled := Function.update s.signalled u true }.goto t
      (if sync then .waiting else .idle))
  | .crashed => none

/-- **The bitlocks as a machine.** -/
def machine (T : Type) [DecidableEq T] (cfg : Config A K ι) : Machine (State T cfg) (Event T K) where
  start := Start cfg
  step := fun s e => match e with
    | .call t op => call s t op
    | .move t => move s t

end Bitlock
