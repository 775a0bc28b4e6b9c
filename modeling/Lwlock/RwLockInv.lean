import Lwlock.RwLock
import Lwlock.Chain

/-!
# Where the waiters of a read-write lock are

The waiters that were not served yet are in the queue, youngest first, or in lists of
the one thread that hands the lock over: the run it has cut off, or the queue it
sorts. Which lists these are is carried along, and the program point of that thread
says how its variables reach them. The waiters that were served and not woken up are
in a list of the thread that wakes them up.

Who holds the lock is a list and an option. A thread that unlocks is still a holder
as long as its own share is in the word – under a field of the other kind where the
last reader turns into a writer and a writer into a reader – and a waiter is one from
the moment it is served.
-/

namespace RwLock

variable {T : Type}

/-! ## What a program point says -/

/-- The tag with which the thread waits after the unlock. -/
def After.tag : After → Option Tag
  | .done => none
  | .upgrade => some .upgrade
  | .downgrade => some .shared

/-- **The tag with which the thread waits**, or will go on to. -/
def Pc.pends : Pc T → Option Tag
  | .queued excl => some (Tag.of excl)
  | .waiting tag => some tag
  | .unlock _ k | .unlockContention _ k | .upgradeOrRelease k | .fairStart _ k
  | .fairScan _ k _ _ _ _ | .fairTake _ k _ _ _ _ | .fairCut _ k _ _ _ _ _ | .fairSwap _ k _ _ _
  | .wakeAll k _ | .wakeClear k _ _ | .wakeSignal k _ _ | .unfairStart k | .unfairScan k _
  | .downgradeList k | .separate k _ _ | .separateClear k _ _ _ | .separateReader k _ _ _
  | .separateWriter k _ _ _ | .reinsert k _ _ _ | .reinsertVerify k _ _ _ _
  | .reinsertOldest k _ _ _ _ | .reinsertCurr k _ _ _ | .reinsertHead k _ _ _
  | .reinsertLast k _ _ _ | .unfairSwap k _ _ _ => k.tag
  | _ => none

/-- Whether it hands the lock over as `lw_rwlock_unlock_fair_contention` does, and from
which share. -/
def Pc.fair : Pc T → Option Bool
  | .fairStart excl _ | .fairScan excl _ _ _ _ _ | .fairTake excl _ _ _ _ _
  | .fairCut excl _ _ _ _ _ _ | .fairSwap excl _ _ _ _ => some excl
  | _ => none

/-- Whether it sorts the queue and puts the writers back. -/
def Pc.sorts : Pc T → Bool
  | .separate _ _ _ | .separateClear _ _ _ _ | .separateReader _ _ _ _ | .separateWriter _ _ _ _
  | .reinsert _ _ _ _ | .reinsertVerify _ _ _ _ _ | .reinsertOldest _ _ _ _ _
  | .reinsertCurr _ _ _ _ | .reinsertHead _ _ _ _ | .reinsertLast _ _ _ _
  | .unfairSwap _ _ _ _ => true
  | _ => false

/-- **Whether it has a share of the shared lock**, or the one of the writer it was. -/
def Pc.shares : Pc T → Bool
  | .reader | .upgradeOrRelease _ | .upgradeStart | .upgradeScan _ | .upgradeSwap _ => true
  | .unlock excl _ | .unlockContention excl _ | .fairStart excl _ | .fairScan excl _ _ _ _ _
  | .fairTake excl _ _ _ _ _ | .fairCut excl _ _ _ _ _ _ | .fairSwap excl _ _ _ _ => !excl
  | .separate _ _ _ | .separateClear _ _ _ _ | .separateReader _ _ _ _ | .separateWriter _ _ _ _
  | .reinsert _ _ _ _ | .reinsertVerify _ _ _ _ _ | .reinsertOldest _ _ _ _ _
  | .reinsertCurr _ _ _ _ | .reinsertHead _ _ _ _ | .reinsertLast _ _ _ _
  | .unfairSwap _ _ _ _ => true
  | _ => false

/-- **Whether it has the exclusive lock**, or keeps the place of the last reader. -/
def Pc.owns : Pc T → Bool
  | .writer | .unfairStart _ | .unfairScan _ _ | .downgradeList _ | .downgradeScan _
  | .downgradeLink _ => true
  | .unlock excl _ | .unlockContention excl _ | .fairStart excl _ | .fairScan excl _ _ _ _ _
  | .fairTake excl _ _ _ _ _ | .fairCut excl _ _ _ _ _ _ | .fairSwap excl _ _ _ _ => excl
  | _ => false

/-- Whether it has cut off a run of waiters. -/
def Pc.cuts : Pc T → Bool
  | .fairSwap _ _ _ _ f => f.kept
  | _ => false

/-- Whether it wakes waiters up. -/
def Pc.wakes : Pc T → Bool
  | .wakeAll _ _ | .wakeClear _ _ _ | .wakeSignal _ _ _ => true
  | _ => false

/-- Whether its `next` may be set though it does not wait. -/
def Pc.links : Pc T → Bool
  | .lockSwap _ _ _ => true
  | _ => false

/-- Whether it got there because the lock is unfair. -/
def Pc.unfair : Pc T → Bool
  | .upgradeOrRelease _ | .unfairStart _ | .unfairScan _ _ | .downgradeList _ => true
  | p => p.sorts

/-- Whether it gives up a share that is the last one. -/
def Pc.leaves : Pc T → Bool
  | .unlockContention excl _ => !excl
  | _ => false

/-! ## The invariant -/

/-- **The lists of waiters**: the queue, what was cut off it, what is left to be
sorted, the readers and the writers of it, and those that are to be woken up. -/
structure Lists (T : Type) where
  queue : List T
  cut : List T
  rest : List T
  rds : List T
  wrs : List T
  wake : T → List T

/-- The waiters that were not served. -/
def Lists.pending (l : Lists T) : List T := l.queue ++ l.cut ++ l.rest ++ l.rds ++ l.wrs

/-- The lists, the readers that have the lock, and the writer that has it. -/
structure Ghost (T : Type) where
  lists : Lists T
  hold : List T
  own : Option T

/-- **The waiters at the old end that are served together**: one that wants the lock
for itself, or a run of readers behind which there is none. -/
def Serves (tag : T → Tag) (K R : List T) : Prop :=
  (∃ x, R = [x] ∧ tag x ≠ .shared)
    ∨ (R ≠ [] ∧ (∀ x ∈ R, tag x = .shared) ∧ ∀ y, K.getLast? = some y → tag y ≠ .shared)

/-- **The variables of the fair hand-over**, with the waiters it has found. -/
structure Fair.Found (tag : T → Tag) (f : Fair T) (R : List T) (old new : Word T) (excl : Bool)
    (waitq : Option T) : Prop where
  waiter : f.waiter = R.getLast?
  count : f.count = R.length
  list : f.list = R.head?
  new : new = handOver tag { old.release excl with waitq := waitq } R.getLast? R.length

/-- **The variables of the unfair one**; `e` is where the writers arrive. -/
structure Unfair.Sorted (next : T → Option T) (tag : T → Tag) (l : Lists T) (u : Unfair T)
    (e : Option T) : Prop where
  readers : Chain next u.readers l.rds
  count : u.count = l.rds.length
  shared : ∀ c ∈ l.rds, tag c = .shared
  writers : Segment next u.writers l.wrs e
  exclusive : ∀ c ∈ l.wrs, tag c = .exclusive
  oldest : l.wrs ≠ [] → u.oldest = l.wrs.getLast?

/-- While it sorts, there are readers, found or to be found. -/
structure Unfair.Sorting (next : T → Option T) (tag : T → Tag) (l : Lists T) (u : Unfair T) :
    Prop where
  sorted : u.Sorted next tag l none
  some : l.rds ≠ [] ∨ ∃ c ∈ l.rest, tag c = .shared
  none : l.wrs = [] → u.oldest = none

/-- The writers arrive at the end, or at a waiter for an upgrade that is last. -/
def Behind (tag : T → Tag) (l : Lists T) (e : Option T) : Prop :=
  ∀ c, e = some c → l.queue.getLast? = some c ∧ tag c = .upgrade

/-- **While the writers are put back.** -/
structure Unfair.Back (next : T → Option T) (tag : T → Tag) (l : Lists T) (u : Unfair T)
    (old : Word T) : Prop where
  rest : l.rest = []
  rds : l.rds ≠ []
  wrs : l.wrs ≠ []
  sorted : ∃ e, u.Sorted next tag l e ∧ Behind tag l e
  head : ∃ q ∈ l.queue, old.waitq = some q

/-- **What a thread knows**, at each point. -/
def Work (next : T → Option T) (tag : T → Tag) (l : Lists T) (t : T) : Pc T → Prop
  | .lockSwap excl _ old =>
    if old.grants excl then next t = none else next t = old.waitq ∧ tag t = Tag.of excl
  | .unlockContention _ _ | .upgradeOrRelease _ | .fairStart _ _ | .unfairStart _ => l.queue ≠ []
  | .fairScan _ _ old w link count => ∃ P K R B, l.queue = P ++ (K ++ (R ++ B))
      ∧ Chain next old.waitq (K ++ (R ++ B)) ∧ Serves tag K R ∧ R.getLast? = some w
      ∧ link = K.getLast? ∧ count = R.length
  | .fairTake _ _ old w c count => ∃ P K R, l.queue = P ++ (K ++ R)
      ∧ Chain next old.waitq (K ++ R) ∧ Serves tag K R ∧ R.getLast? = some w
      ∧ K.getLast? = some c ∧ count = R.length
  | .fairCut _ _ old w c count list => ∃ P K R, l.queue = P ++ (K ++ R)
      ∧ Chain next old.waitq (K ++ R) ∧ Serves tag K R ∧ R.getLast? = some w
      ∧ K.getLast? = some c ∧ count = R.length ∧ list = R.head?
  | .fairSwap excl _ old new f =>
    (f.kept = false ∧ ∃ P R, l.queue = P ++ R ∧ Chain next old.waitq R ∧ Serves tag [] R
      ∧ f.Found tag R old new excl none)
    ∨ (f.kept = true ∧ ∃ P K, l.queue = P ++ K ∧ K ≠ [] ∧ Chain next old.waitq K
      ∧ Chain next f.list l.cut ∧ Serves tag K l.cut ∧ f.Found tag l.cut old new excl old.waitq)
  | .wakeAll _ id => Chain next id (l.wake t)
  | .wakeClear _ w id => ∃ L, l.wake t = w :: L ∧ Chain next id L
  | .wakeSignal _ w id => ∃ L, l.wake t = w :: L ∧ Chain next id L ∧ next w = none
  | .unfairScan _ w | .downgradeScan w => w ∈ l.queue
  | .downgradeList _ => ∃ A a, l.queue = A ++ [a] ∧ tag a = .shared
  | .separate _ u list => u.Sorting next tag l ∧ Chain next list l.rest
  | .separateClear _ u w list => u.Sorting next tag l ∧ ∃ L, l.rest = w :: L ∧ Chain next list L
  | .separateReader _ u w list => u.Sorting next tag l ∧ tag w = .shared
      ∧ ∃ L, l.rest = w :: L ∧ Chain next list L
  | .separateWriter _ u w list => u.Sorting next tag l ∧ tag w ≠ .shared ∧ l.wrs ≠ []
      ∧ next w = none ∧ ∃ L, l.rest = w :: L ∧ Chain next list L
  | .reinsert _ u old c => u.Back next tag l old ∧ c ∈ l.queue
      ∧ (tag c = .upgrade → old.waitq = some c)
  | .reinsertVerify _ u old c n | .reinsertOldest _ u old c n => u.Back next tag l old
      ∧ ∃ A, l.queue = A ++ [c, n] ∧ tag n = .upgrade
  | .reinsertCurr _ u old c => u.Back next tag l old
      ∧ ∃ A n, l.queue = A ++ [c, n] ∧ tag n = .upgrade ∧ u.Sorted next tag l (some n)
  | .reinsertHead _ u old c => u.Back next tag l old ∧ old.waitq = some c ∧ tag c = .upgrade
      ∧ l.queue.getLast? = some c
  | .reinsertLast _ u old c => u.Back next tag l old ∧ tag c ≠ .upgrade
      ∧ ∃ A, l.queue = A ++ [c] ∨ ∃ n, l.queue = A ++ [c, n] ∧ tag n = .upgrade
  | .unfairSwap _ u old new => l.rest = [] ∧ l.rds ≠ []
      ∧ ((l.wrs = [] ∧ u.writers = none ∧ u.Sorted next tag l none ∧ new = old.letIn u.count)
        ∨ (l.wrs ≠ [] ∧ u.Sorted next tag l old.waitq ∧ Behind tag l old.waitq
          ∧ new = { old.letIn u.count with waitq := u.writers }))
  | .downgradeLink w => ∃ A, l.queue = A ++ [w]
  | .upgradeStart => tag t = .upgrade ∧ l.queue ≠ []
  | .upgradeScan w => tag t = .upgrade ∧ w ∈ l.queue
  | .upgradeSwap w => tag t = .upgrade ∧ w ∈ l.queue ∧ tag w ≠ .upgrade
  | _ => True

/-- **Who waits and who holds the lock.** -/
structure Clients (s : State T) (g : Ghost T) : Prop where
  nodup : g.lists.pending.Nodup
  pending : ∀ c, c ∈ g.lists.pending ↔ (s.pc c).pends ≠ none ∧ s.made c = 0
  tag : ∀ c tag, (s.pc c).pends = some tag → s.tag c = tag
  waits : ∀ c, (s.pc c).pends ≠ none → s.made c = 0 → s.sent c = 0 ∧ s.signalled c = false
  once : ∀ c, (s.pc c).pends ≠ none → s.made c ≤ 1
  told : ∀ c, (s.pc c).pends ≠ none → s.made c = 1 →
    (s.sent c = 0 ∧ s.signalled c = false ∧ ∃ h, c ∈ g.lists.wake h)
      ∨ (s.sent c = 1 ∧ s.signalled c = true ∧ s.next c = none)
  wake : ∀ h c, c ∈ g.lists.wake h → (s.pc c).pends ≠ none ∧ s.made c = 1 ∧ s.sent c = 0
  wakeNodup : ∀ h, (g.lists.wake h).Nodup
  waker : ∀ h h' c, c ∈ g.lists.wake h → c ∈ g.lists.wake h' → h = h'
  wakes : ∀ h, (s.pc h).wakes = false → g.lists.wake h = []
  quiet : ∀ c, (s.pc c).pends = none → s.signalled c = false
    ∧ ((s.pc c).links = false → s.next c = none)
  hold : ∀ c, c ∈ g.hold ↔ (s.pc c).shares = true ∨ ((s.pc c).pends = some .shared ∧ s.made c = 1)
  holdNodup : g.hold.Nodup
  own : ∀ c, g.own = some c ↔ (s.pc c).owns = true
    ∨ ((s.pc c).pends ≠ none ∧ (s.pc c).pends ≠ some .shared ∧ s.made c = 1)
  alone : ∀ c, g.own = some c → g.hold = []
  solo : ∀ c, (s.pc c).fair = some false → s.word.unfair = false ∧ g.hold = [c]
  last : ∀ c, (s.pc c).leaves = true → s.word.unfair = false → g.hold = [c]
  unfair : ∀ c, (s.pc c).unfair = true → s.word.unfair = true
  sorter : ∀ c c', (s.pc c).sorts = true → (s.pc c').sorts = true → c = c'
  busy : ∀ c, (s.pc c).shares = true ∨ (s.pc c).owns = true → (s.pc c).pends ≠ none → s.made c = 0
  kind : ∀ c, (s.pc c).shares = true → (s.pc c).pends = some .shared → (s.pc c).sorts = true
  alive : ∀ c, s.pc c ≠ .aborted

/-- **What the word and the queue say.** -/
structure Queue (s : State T) (g : Ghost T) : Prop where
  readers : s.word.readers = g.hold.length
  small : g.hold.length < readersSize
  wlocked : s.word.wlocked = g.own.isSome
  chain : Chain s.next s.word.waitq g.lists.queue
  free : g.hold = [] → g.own = none → g.lists.queue = []
  cutter : g.lists.cut ≠ [] → ∃ h, (s.pc h).cuts = true
  sorting : g.lists.rest ≠ [] ∨ g.lists.rds ≠ [] ∨ g.lists.wrs ≠ [] → ∃ h, (s.pc h).sorts = true
  upgradeLast : ∀ c ∈ g.lists.queue, s.tag c = .upgrade →
    g.lists.queue.getLast? = some c ∧ g.lists.cut = []
  upgradeCut : ∀ c ∈ g.lists.cut, s.tag c = .upgrade → g.lists.cut = [c]
  upgradeSort : ∀ c, c ∈ g.lists.rest ∨ c ∈ g.lists.rds ∨ c ∈ g.lists.wrs → s.tag c ≠ .upgrade
  upgradeOwn : ∀ c, c ∈ g.lists.queue ∨ c ∈ g.lists.cut → s.tag c = .upgrade →
    ∀ h, g.own = some h → (s.pc h).fair = some true
  unfairQueue : s.word.unfair = true → g.own = none → ∀ c ∈ g.lists.queue, s.tag c ≠ .shared
  unfairLast : s.word.unfair = true → ∀ h, (s.pc h).fair ≠ none →
    ∀ a, (g.lists.queue ++ g.lists.cut).getLast? = some a → s.tag a ≠ .shared

/-- **The invariant.** -/
structure Inv (s : State T) (g : Ghost T) : Prop where
  clients : Clients s g
  queue : Queue s g
  work : ∀ t, Work s.next s.tag g.lists t (s.pc t)

end RwLock
