import Lwlock.DList

/-!
# Lists whose elements are pinned

An element of an adlist is pinned by whoever is at it, and is masked when somebody is about to
remove it: a masked element is stepped over, and leaves the list when its last pin is gone. An
iterator keeps the element that it is at pinned. It can pop that element, in which case it
moves on by itself and hands out the element it is at by the next call.

The model is that of one thread on a list that no other thread changes. The locks of the
elements are then free whenever they are taken, and a call that has to wait for another thread
has no result. Others may hold pins, and may have masked elements that they wait for.
-/

namespace AdList

variable {E : Type*}

/-- **A list**, with the fields of its elements; `pin_count` has 15 bits and `count` has 32. -/
structure State (E : Type*) where
  links : DList.Links E
  head : Option E
  tail : Option E
  count : ℕ
  pinCount : E → ℕ
  mask : E → Bool

/-- A field of some bits, incremented. -/
def incr (bits n : ℕ) : ℕ := if n + 1 = 2 ^ bits then 0 else n + 1

/-- A field of some bits, decremented. -/
def decr (bits n : ℕ) : ℕ := if n = 0 then 2 ^ bits - 1 else n - 1

/-- `adl_remove_result_t`. -/
inductive RemoveResult
  | fail | success | successWait
  deriving DecidableEq

/-- `adl_iter_direction_t`. -/
inductive Direction
  | forward | backward
  deriving DecidableEq

/-- The element that an iterator is at: none yet, none any more, or an element. -/
inductive Current (E : Type*)
  | null
  | done
  | elem (e : E)
  deriving DecidableEq

/-- **An iterator.** -/
structure Iter (E : Type*) where
  current : Current E
  count : ℕ
  direction : Direction
  returnCurrent : Bool

variable [DecidableEq E]

namespace State

/-! ## Pins -/

/-- **`adl_elem_pin`**, whose `lw_verify` fails on an overflow. -/
def elemPin (s : State E) (e : E) : Option (State E × Bool) :=
  if s.mask e then some (s, false)
  else
    let new := incr 15 (s.pinCount e)
    if new = 0 then none else some ({ s with pinCount := Function.update s.pinCount e new }, true)

/-- **`adl_elem_unpin`**; with the last pin of a masked element another thread goes on. -/
def elemUnpin (s : State E) (e : E) : Option (State E) :=
  let new := decr 15 (s.pinCount e)
  if s.mask e ∧ new = 0 then none else some { s with pinCount := Function.update s.pinCount e new }

/-- **`adl_elem_force_pin_masked`.** -/
def elemForcePinMasked (s : State E) (e : E) : Option (State E × Bool) :=
  if s.pinCount e = 0 then some (s, false)
  else
    let new := incr 15 (s.pinCount e)
    if new = 0 then none else some ({ s with pinCount := Function.update s.pinCount e new }, true)

/-- **`adl_elem_mask`**, which takes the pin of the caller if there is no other. -/
def elemMask (s : State E) (e : E) : State E × RemoveResult :=
  if s.mask e then (s, .fail)
  else if s.pinCount e = 1 then
    ({ s with
      mask := Function.update s.mask e true
      pinCount := Function.update s.pinCount e 0 }, .success)
  else ({ s with mask := Function.update s.mask e true }, .successWait)

/-! ## Steps along the list -/

/-- The loop of `_adl_first` and of `adl_next_intern`, from the element that is tried first. -/
def nextLoop : ℕ → State E → Option E → Option (State E × Option E)
  | _, s, none => some (s, none)
  | 0, _, some _ => none
  | rounds + 1, s, some e =>
    (s.elemPin e).bind fun p =>
      if p.2 then some (p.1, some e) else nextLoop rounds p.1 (p.1.links.next e)

/-- The end of a step: the element is unpinned if that is asked for. -/
def leave (s : State E) (elem : E) (unpin : Bool) : Option (State E) :=
  if unpin then s.elemUnpin elem else some s

/-- **`adl_next_intern`.** -/
def nextIntern (rounds : ℕ) (s : State E) (elem : E) (unpin : Bool) :
    Option (State E × Option E) :=
  (nextLoop rounds s (s.links.next elem)).bind fun p =>
    (p.1.leave elem unpin).map fun s => (s, p.2)

/-- **`_adl_first`.** -/
def first (rounds : ℕ) (s : State E) : Option (State E × Option E) := nextLoop rounds s s.head

/-- **`adl_prev_intern`**, which steps to a masked element if it can force a pin on it, and
waits for its removal if not. -/
def prevIntern : ℕ → State E → E → Bool → Option (State E × Option E)
  | 0, _, _, _ => none
  | rounds + 1, s, elem, unpin =>
    match s.links.prev elem with
    | none => (s.leave elem unpin).map fun s => (s, none)
    | some prev =>
      (s.elemPin prev).bind fun p =>
        if p.2 then (p.1.leave elem unpin).map fun s => (s, some prev)
        else
          (p.1.elemForcePinMasked prev).bind fun p =>
            if p.2 then (p.1.leave elem unpin).bind fun s => prevIntern rounds s prev true
            else none

/-- **`_adl_last`.** -/
def last (rounds : ℕ) (s : State E) : Option (State E × Option E) :=
  match s.tail with
  | none => some (s, none)
  | some e =>
    (s.elemPin e).bind fun p =>
      if p.2 then some (p.1, some e)
      else
        (p.1.elemForcePinMasked e).bind fun p =>
          if p.2 then prevIntern rounds p.1 e true else none

/-- A step from an element in a direction. -/
def intern (rounds : ℕ) (s : State E) : Direction → E → Bool → Option (State E × Option E)
  | .forward => nextIntern rounds s
  | .backward => prevIntern rounds s

/-! ## Removal -/

/-- **`adl_remove_elem_do`**, and `adl_elem_clear`. -/
def removeElemDo (bad : E) (s : State E) (elem : E) : State E :=
  let prev := s.links.prev elem
  let next := s.links.next elem
  { s with
    head := if prev = none then next else s.head
    tail := if next = none then prev else s.tail
    links :=
      ⟨Function.update (DList.setLink s.links.next prev next) elem (some bad),
        Function.update (DList.setLink s.links.prev next prev) elem (some bad)⟩ }

/-- **`adl_remove_elem_start`.** -/
def removeElemStart (bad : E) (s : State E) (elem : E) : State E × RemoveResult :=
  match s.elemMask elem with
  | (s, .fail) => (s, .fail)
  | (s, .successWait) => ({ s with count := decr 32 s.count }, .successWait)
  | (s, .success) =>
    ({ s with count := decr 32 s.count }.removeElemDo bad elem, .success)

/-- **`adl_remove_elem_wait`**, which waits as long as others pin the element. -/
def removeElemWait (s : State E) (elem : E) : Option (State E) :=
  if s.mask elem ∧ s.pinCount elem = 1 then
    some { s with pinCount := Function.update s.pinCount elem 0 }
  else none

end State

namespace Iter

/-! ## The iterator -/

/-- `adlist_iter_init`. -/
def init (direction : Direction) : Iter E := ⟨.null, 0, direction, false⟩

/-- The step of `_adlist_iter_next`. -/
def fetch (rounds : ℕ) (s : State E) (it : Iter E) : Option (State E × Option E) :=
  match it.direction, it.current with
  | .forward, .null => s.first rounds
  | .backward, .null => s.last rounds
  | d, .elem e => s.intern rounds d e true
  | _, .done => some (s, none)

/-- What `_adlist_iter_next` does with the element that it is at now. -/
def arrive (it : Iter E) : Option E → Iter E × Option E
  | none => ({ it with current := .done }, none)
  | some e => ({ it with current := .elem e, count := incr 32 it.count }, some e)

/-- **`_adlist_iter_next`.** -/
def next (rounds : ℕ) (s : State E) (it : Iter E) : Option (State E × Iter E × Option E) :=
  match it.current with
  | .done => some (s, it, none)
  | current =>
    if it.returnCurrent then
      some (s, { it with returnCurrent := false, count := decr 32 it.count }.arrive
        (match current with
          | .elem e => some e
          | _ => none))
    else (it.fetch rounds s).map fun p => (p.1, it.arrive p.2)

/-- **`adlist_iter_pop_start`**; a failed `lw_verify` ends the run. -/
def popStart (bad : E) (s : State E) (it : Iter E) : Option (State E × Bool) :=
  match it.current with
  | .elem e =>
    (s.elemPin e).bind fun p =>
      if p.2 then
        match p.1.removeElemStart bad e with
        | (s, .fail) => (s.elemUnpin e).map fun s => (s, false)
        | (_, .success) => none
        | (s, .successWait) => some (s, true)
      else some (p.1, false)
  | _ => none

/-- The element is got again, and popped. -/
def popDo (bad : E) (rounds : ℕ) (s : State E) (it : Iter E) (e : E) : Option (State E × Iter E) :=
  (s.removeElemWait e).bind fun s =>
    (s.intern rounds it.direction e false).map fun p =>
      (p.1.removeElemDo bad e, match p.2 with
        | none => { it with current := .done, count := decr 32 it.count }
        | some n => { it with current := .elem n })

/-- **`adlist_iter_pop_finish`.** -/
def popFinish (bad : E) (rounds : ℕ) (s : State E) (it : Iter E) : Option (State E × Iter E) :=
  match it.current with
  | .elem e =>
    (it.next rounds s).bind fun p =>
      let it := { p.2.1 with returnCurrent := true }
      match p.2.2 with
      | none => (p.1.removeElemWait e).map fun s => (s.removeElemDo bad e, it)
      | some n => (p.1.elemUnpin n).bind fun s => popDo bad rounds s it e
  | _ => none

/-- **`adlist_iter_pop`.** -/
def pop (bad : E) (rounds : ℕ) (s : State E) (it : Iter E) : Option (State E × Iter E × Bool) :=
  (it.popStart bad s).bind fun p =>
    if p.2 then (it.popFinish bad rounds p.1).map fun q => (q.1, q.2, true)
    else some (p.1, it, false)

/-- The pin on the current element is given up. -/
def drop (s : State E) (it : Iter E) : Option (State E) :=
  match it.current with
  | .elem c => s.elemUnpin c
  | _ => some s

/-- **`adlist_iter_seek`.** -/
def seek (s : State E) (it : Iter E) (elem : E) (needPin : Bool) :
    Option (State E × Iter E × Bool) :=
  (if needPin then s.elemPin elem else some (s, true)).bind fun p =>
    if p.2 then (it.drop p.1).map fun s => (s, { it with current := .elem elem }, true)
    else some (p.1, it, false)

/-- **`adlist_iter_destroy`.** -/
def destroy (s : State E) (it : Iter E) : Option (State E) := it.drop s

end Iter

/-! ## What a list holds -/

/-- **The elements of a list.** -/
def State.Holds (s : State E) (L : List E) : Prop :=
  (⟨s.head, s.tail, L.length⟩ : DList.Header E).Rep s.links L

/-- A list in a direction. -/
def view : Direction → List E → List E
  | .forward, L => L
  | .backward, L => L.reverse

/-- What a current element has before it in a direction. -/
def ahead (D : List E) : Current E → List E
  | .null => D
  | .done => []
  | .elem c => (D.dropWhile fun x => decide (x ≠ c)).tail

/-- **The element that comes next**, among those that are not masked. -/
def State.following (s : State E) (d : Direction) (L : List E) (c : Current E) : Option E :=
  (ahead (view d L) c).find? fun x => !s.mask x

end AdList
