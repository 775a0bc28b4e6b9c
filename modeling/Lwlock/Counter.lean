import Lwlock.Delegate

/-!
# The counter

A counter hands out units of a resource, strictly in turn. It is a delegate
whose state word also carries the number of units available: an allocation
that finds enough units and nobody in its way takes them with one
compare-and-swap, and any other becomes a job of the delegate. The function of
that job takes the units with the same routine, `counter_reserve_work`, and
stores the word it left through `updated_state`; it blocks all processing
when there are not enough.

The number of units is a field of 32 bits; `counter_free` adds to it modulo
`2 ^ 32`.
-/

namespace Counter

open Delegate

variable {T J : Type}

/-- The fixed part of a counter: `max`, `hard_max`, the `need` of each request
and the function of each job. -/
structure Config (J : Type) where
  max : ℕ
  max_lt : max < 2 ^ 32
  hardMax : Bool
  need : J → ℕ
  func : J → Func J

/-- Two units are not too many. -/
theorem Config.two_lt : 2 < 2 ^ 32 := by decide

/-- **`counter_reserve_work`**: the word after the units were taken, if they
could be. With `fair`, nobody may be ahead. -/
def counterReserveWork (need : ℕ) (fair : Bool) (w : Word ℕ) : Option (Word ℕ) :=
  if w.other < need || (fair && (w.lock || w.incoming || w.pending)) then none
  else some { w with other := w.other - need }

/-- The operations on a counter that work on the word themselves. -/
inductive Direct (J : Type)
  /-- `counter_try_alloc`. -/
  | tryAlloc (need : ℕ)
  /-- `counter_alloc_async`, with the request to submit if need be. -/
  | allocAsync (j : J)
  /-- `counter_free`. -/
  | free (count : ℕ)
  deriving DecidableEq, Repr

/-- The word `counter_free` wants to install. -/
def freed (count : ℕ) (w : Word ℕ) : Word ℕ :=
  { w with
    other := (w.other + count) % 2 ^ 32
    lock := w.lock || w.incoming || w.pending }

/-- **`counter_free`**: the check of a hard maximum ends the run. -/
def counterFree (cfg : Config J) (count : ℕ) (w : Word ℕ) : Option (Word ℕ × After J) :=
  if (freed count w).other ≤ cfg.max || !cfg.hardMax then
    some (freed count w, if !w.lock && (freed count w).lock then .runInternal else .done)
  else none

/-- **`counter_alloc_job`**: take the units and be done, or block everything. -/
def counterAllocJob (need : ℕ) (p : ℕ) : ℕ × Bool × Status :=
  if p < need then (p, false, .blockAll) else (p - need, true, .done)

/-- A counter is a user of its delegate. -/
def client (cfg : Config J) : Client J ℕ Unit (Direct J) where
  func := cfg.func
  invoke := fun j _ p => counterAllocJob (cfg.need j) p
  direct := fun d w => match d with
    | .tryAlloc need => some ((counterReserveWork need true w).getD w, .done)
    | .allocAsync j => match counterReserveWork (cfg.need j) true w with
      | some w' => some (w', .done)
      | none => some (w, .submit j)
    | .free count => counterFree cfg count w

/-- The operations of `counter.h`. A cancel names the job it would submit. -/
inductive Op (J : Type)
  | tryAlloc (need : ℕ)
  | alloc (j : J)
  | allocAsync (j : J)
  | cancel (target request : J)
  | free (count : ℕ)
  deriving DecidableEq, Repr

/-- An operation of the counter as one of the delegate: `counter_alloc` waits
for its event, and `counter_alloc_async_cancel` is a cancel that waits. -/
def Op.toDelegate : Op J → Delegate.Op J (Direct J)
  | .tryAlloc need => .direct (.tryAlloc need) false
  | .alloc j => .direct (.allocAsync j) true
  | .allocAsync j => .direct (.allocAsync j) false
  | .cancel target r => .cancel target true r
  | .free count => .direct (.free count) false

/-- An event: a thread calls an operation, or takes its next step. -/
inductive Event (T J : Type)
  | call (t : T) (op : Op J)
  | move (t : T)
  deriving DecidableEq, Repr

variable [DecidableEq T] [DecidableEq J]

/-- The delegate of a counter; a push on its incoming stack is one step. -/
abbrev Config.delegate (cfg : Config J) : Delegate.Config J ℕ Unit (Direct J) :=
  ⟨client cfg, cfg.max, true⟩

/-- **The counter as a machine**, from `counter_init`. -/
def machine (T : Type) [DecidableEq T] (cfg : Config J) :
    Machine (State T J ℕ) (Event T J) where
  start := fun s => s = init cfg.max
  step := fun s e => match e with
    | .call t op => call cfg.delegate s t op.toDelegate
    | .move t => move cfg.delegate s t ()

end Counter
