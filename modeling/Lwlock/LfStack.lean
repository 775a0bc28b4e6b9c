import Lwlock.Machine
import Lwlock.Chain
import Lwlock.Lifo

/-!
# The lock-free stack

The elements of the stack are those of an array, and the links are their
numbers, counted from 1, so that a link and a 32-bit tag fit into one word that
is read and swapped at once. A push writes the link of its own element and then
swaps the word; a pop reads the link of the element it saw at the top – which
another thread may have popped and may be writing over by then – and then swaps
the word. The tag is incremented by every swap, so that a thread whose swap
succeeds has seen the word that is there now, and not an older one with the same
link.

Threads own elements: a push gives its element up, a pop makes its thread an
owner. `LfStack.owners` is a ledger that is only added to by pops and only taken
from by pushes, so that an element popped twice would have two owners. An owner
that is in no operation may write over its elements, and may pass them on.
-/

variable {T : Type*} [DecidableEq T]

namespace LfStack

/-- An element of the stack, at the start of its structure. -/
structure Elem where
  /-- The number of the next element, 0 for none. -/
  next : Nat
  /-- The id of the stack it was last pushed to. -/
  stackId : Nat
deriving DecidableEq

/-- `lf_stack_top_t`: the word at the top. -/
structure Top where
  /-- The number of the first element, 0 for none. -/
  next : Nat
  /-- The tag, of 32 bits. -/
  abaTag : Nat
deriving DecidableEq

/-- What a stack is initialised with, within its checks. -/
structure Config where
  /-- The id of the stack. -/
  id : Nat
  /-- The number of elements of the array, of 32 bits. -/
  numElems : Nat
  /-- The size of an element in bytes. -/
  elemSize : Nat
  /-- Whether the elements are on the stack at first. -/
  populate : Bool
  numElems_lt : numElems < 2 ^ 32
  /-- An element has room for a link and an id. -/
  elemSize_le : 8 ≤ elemSize

namespace Config

variable (S : Config)

/-- The element of an index, as an offset from the start of the array. -/
def elem (i : Nat) : Nat := i * S.elemSize

/-- The offset is that of an element. -/
def IsElem (obj : Nat) : Prop := ∃ i < S.numElems, obj = S.elem i

/-- `lf_stack_obj_to_id32`. -/
def objToId32 (obj : Nat) : Nat := (obj / S.elemSize % 2 ^ 32 + 1) % 2 ^ 32

/-- `lf_stack_id32_to_obj`. -/
def id32ToObj (idx : Nat) : Option Nat :=
  if idx = 0 then none else some (S.elem (idx - 1))

/-- The loop of `lf_stack_init` over the array, after the first turns. -/
def populateElems (elems : Nat → Elem) : Nat → Nat × (Nat → Elem)
  | 0 => (0, elems)
  | i + 1 =>
    let (next, elems) := populateElems elems i
    (i + 1, Function.update elems (S.elem i) ⟨next, S.id⟩)

/-- The elements on the stack at first, from the top. -/
def populated : List Nat :=
  if S.populate then (List.range S.numElems).reverse.map S.elem else []

end Config

/-- Where a thread is, with its copies of the top. -/
inductive Pc where
  | idle
  /-- In a push, before reading the top. -/
  | pushRead (obj : Nat)
  /-- Before writing the stack's id. -/
  | pushId (obj : Nat) (old : Top)
  /-- Before writing the element's link. -/
  | pushLink (obj : Nat) (old : Top)
  /-- Before the swap. -/
  | pushSwap (obj : Nat) (old : Top)
  /-- In a pop, before reading the top. -/
  | popRead
  /-- Before reading the link of the element at the top. -/
  | popNext (old : Top)
  /-- Before the swap. -/
  | popSwap (old : Top) (obj next : Nat)
  /-- Popped: before clearing the element's link, and returning it. -/
  | popClear (obj : Nat)
deriving DecidableEq

/-- The stack and its threads, and what has happened so far. -/
structure State (T : Type*) where
  /-- The top. -/
  top : Top
  /-- The elements, by offset. -/
  elems : Nat → Elem
  /-- Where each thread is. -/
  pc : T → Pc
  /-- The owners of each element. -/
  owners : Nat → List T
  /-- The swaps that have succeeded, the last one first. -/
  history : List (StackOp Nat)
  /-- Those that had, when the thread last read the top. -/
  seen : T → List (StackOp Nat)
  /-- For each pop that returned `NULL`, the swaps before its read of the top. -/
  nulls : List (List (StackOp Nat))

/-- Who does what. -/
inductive Event (T : Type*) where
  /-- A thread calls `lf_stack_push` with an element it owns. -/
  | push (t : T) (obj : Nat)
  /-- A thread calls `lf_stack_pop`. -/
  | pop (t : T)
  /-- A thread goes on. -/
  | step (t : T)
  /-- An owner writes over its element. -/
  | write (t : T) (obj : Nat) (elem : Elem)
  /-- An owner passes its element on. -/
  | give (t u : T) (obj : Nat)
deriving DecidableEq

namespace State

/-- Move a thread. -/
def goto (s : State T) (t : T) (pc : Pc) : State T :=
  { s with pc := Function.update s.pc t pc }

/-- A thread reads the top, or is told it by a swap that fails. -/
def readTop (s : State T) (t : T) (pc : Top → Pc) : State T :=
  { s with
    pc := Function.update s.pc t (pc s.top)
    seen := Function.update s.seen t s.history }

/-- Write an element. -/
def setElem (s : State T) (obj : Nat) (elem : Elem) : State T :=
  { s with elems := Function.update s.elems obj elem }

/-- A thread goes on in `lf_stack_push` or `lf_stack_pop`. -/
def threadStep (S : Config) (s : State T) (t : T) : Option (State T) :=
  match s.pc t with
  | .idle => none
  | .pushRead obj => some (s.readTop t (.pushId obj))
  | .pushId obj old =>
    some ((s.setElem obj { s.elems obj with stackId := S.id }).goto t (.pushLink obj old))
  | .pushLink obj old =>
    some ((s.setElem obj { s.elems obj with next := old.next }).goto t (.pushSwap obj old))
  | .pushSwap obj old =>
    if s.top = old then
      some { s.goto t .idle with
        top := ⟨S.objToId32 obj, (old.abaTag + 1) % 2 ^ 32⟩
        owners := Function.update s.owners obj ((s.owners obj).erase t)
        history := .push obj :: s.history }
    else some (s.readTop t (.pushLink obj))
  | .popRead => some (s.readTop t .popNext)
  | .popNext old =>
    match S.id32ToObj old.next with
    | none => some { s.goto t .idle with nulls := s.seen t :: s.nulls }
    | some obj => some (s.goto t (.popSwap old obj (s.elems obj).next))
  | .popSwap old obj next =>
    if s.top = old then
      some { s.goto t (.popClear obj) with
        top := ⟨next, (old.abaTag + 1) % 2 ^ 32⟩
        owners := Function.update s.owners obj (t :: s.owners obj)
        history := .pop obj :: s.history }
    else some (s.readTop t .popNext)
  | .popClear obj =>
    some ((s.setElem obj { s.elems obj with next := 0 }).goto t .idle)

end State

open State

/-- The state after a step. -/
def step (S : Config) (s : State T) : Event T → Option (State T)
  | .push t obj =>
    if s.pc t = .idle ∧ t ∈ s.owners obj then some (s.goto t (.pushRead obj)) else none
  | .pop t => if s.pc t = .idle then some (s.goto t .popRead) else none
  | .step t => s.threadStep S t
  | .write t obj elem =>
    if s.pc t = .idle ∧ t ∈ s.owners obj then some (s.setElem obj elem) else none
  | .give t u obj =>
    if s.pc t = .idle ∧ t ∈ s.owners obj then
      some { s with owners := Function.update s.owners obj (u :: (s.owners obj).erase t) }
    else none

/-- After `lf_stack_init`: the elements that are not on the stack may have
owners, one each. -/
def Init (S : Config) (s : State T) : Prop :=
  (∃ elems, (s.top, s.elems) = if S.populate
    then (⟨(S.populateElems elems S.numElems).1, 0⟩, (S.populateElems elems S.numElems).2)
    else (⟨0, 0⟩, elems)) ∧
  (∀ t, s.pc t = .idle) ∧ s.history = [] ∧ (∀ t, s.seen t = []) ∧ s.nulls = [] ∧
  ∀ obj, (s.owners obj).length ≤ 1 ∧ (s.owners obj ≠ [] → S.IsElem obj ∧ S.populate = false)

/-- The stack as a machine. -/
def machine (S : Config) : Machine (State T) (Event T) where
  start := Init S
  step := step S

/-- The thread is about to swap the top. -/
def Pc.atSwap : Pc → Bool
  | .pushSwap _ _ | .popSwap _ _ _ => true
  | _ => false

/-- Between the thread's read of the top and its swap, fewer swaps succeed than
the tag has values. -/
def Fresh (s : State T) (e : Event T) (_ : State T) : Prop :=
  match e with
  | .step t => (s.pc t).atSwap = true → s.history.length - (s.seen t).length < 2 ^ 32
  | _ => True

instance (s : State T) (e : Event T) (s' : State T) : Decidable (Fresh s e s') :=
  match e with
  | .step t => inferInstanceAs
    (Decidable ((s.pc t).atSwap = true → s.history.length - (s.seen t).length < 2 ^ 32))
  | .push _ _ | .pop _ | .write _ _ _ | .give _ _ _ => inferInstanceAs (Decidable True)

/-- **What the stack promises**: the elements on it, from the top, are `L`. -/
structure Good (S : Config) (s : State T) (L : List Nat) : Prop where
  /-- The links lead through these elements, and end. -/
  chain : Chain (fun obj => S.id32ToObj (s.elems obj).next) (S.id32ToObj s.top.next) L
  /-- No element is there twice. -/
  nodup : L.Nodup
  /-- They are elements of the array. -/
  elem : ∀ obj ∈ L, S.IsElem obj
  /-- They are those pushed, or there at first, and not popped since. -/
  mem : ∀ obj, obj ∈ L ↔ StackOp.Present S.populated s.history obj
  /-- They are what the successful swaps leave, performed one after the other. -/
  lifo : StackOp.replay S.populated s.history = some L
  /-- An element on the stack has no owner, and no element has two. -/
  unowned : ∀ obj ∈ L, s.owners obj = []
  owners : ∀ obj, (s.owners obj).length ≤ 1
  /-- A thread about to return from a pop is the only owner of its element. -/
  popped : ∀ t obj, s.pc t = .popClear obj → s.owners obj = [t]
  /-- A pop returns `NULL` only if the stack was empty at its read of the top. -/
  nulls : ∀ h ∈ s.nulls, h <:+ s.history ∧ StackOp.replay S.populated h = some []

/-! ## Numbers and elements -/

namespace Config

variable {S : Config} {obj : Nat}

/-- The elements keep apart. -/
theorem elem_inj {i j : Nat} (h : S.elem i = S.elem j) : i = j := by
  have hpos : 0 < S.elemSize := lt_of_lt_of_le (by decide) S.elemSize_le
  exact Nat.eq_of_mul_eq_mul_right hpos h

/-- **An element is found by its number.** -/
theorem IsElem.id32ToObj (h : S.IsElem obj) : S.id32ToObj (S.objToId32 obj) = some obj := by
  obtain ⟨i, hi, rfl⟩ := h
  have hpos : 0 < S.elemSize := lt_of_lt_of_le (by decide) S.elemSize_le
  have hlt := S.numElems_lt
  have hid : S.objToId32 (S.elem i) = i + 1 := by
    rw [objToId32, elem, Nat.mul_div_cancel i hpos, Nat.mod_eq_of_lt (by omega : i < 2 ^ 32),
      Nat.mod_eq_of_lt (by omega)]
  rw [hid, Config.id32ToObj, if_neg (Nat.succ_ne_zero i), Nat.add_sub_cancel]

end Config

/-! ## The invariant -/

/-- The element a thread is pushing. -/
def Pc.pushing : Pc → Option Nat
  | .pushRead obj | .pushId obj _ | .pushLink obj _ | .pushSwap obj _ => some obj
  | _ => none

/-- The thread's copy of the top. -/
def Pc.old : Pc → Option Top
  | .pushId _ old | .pushLink _ old | .pushSwap _ old | .popNext old | .popSwap old _ _ => some old
  | _ => none

/-- **The invariant**, `L` being the elements on the stack. -/
structure Inv (S : Config) (s : State T) (L : List Nat) : Prop where
  chain : Chain (fun obj => S.id32ToObj (s.elems obj).next) (S.id32ToObj s.top.next) L
  elem : ∀ obj ∈ L, S.IsElem obj
  mem : ∀ obj, obj ∈ L ↔ StackOp.Present S.populated s.history obj
  lifo : StackOp.replay S.populated s.history = some L
  unowned : ∀ obj ∈ L, s.owners obj = []
  owners : ∀ obj, (s.owners obj).length ≤ 1
  owned : ∀ obj, s.owners obj ≠ [] → S.IsElem obj
  /-- The tag counts the swaps. -/
  tag : s.top.abaTag = s.history.length % 2 ^ 32
  suffix : ∀ t, s.seen t <:+ s.history
  /-- A copy of the top has the tag of its time, and is the top if nothing has
  happened since. -/
  old : ∀ t old, (s.pc t).old = some old →
    old.abaTag = (s.seen t).length % 2 ^ 32 ∧ (s.seen t = s.history → old = s.top)
  empty : ∀ t old, (s.pc t).old = some old → S.id32ToObj old.next = none →
    StackOp.replay S.populated (s.seen t) = some []
  pushing : ∀ t obj, (s.pc t).pushing = some obj → t ∈ s.owners obj
  linked : ∀ t obj old, s.pc t = .pushSwap obj old → (s.elems obj).next = old.next
  /-- The link a pop has read is the element's if nothing has happened since. -/
  popSwap : ∀ t old obj next, s.pc t = .popSwap old obj next →
    S.id32ToObj old.next = some obj ∧ (s.seen t = s.history → next = (s.elems obj).next)
  popClear : ∀ t obj, s.pc t = .popClear obj → t ∈ s.owners obj
  nulls : ∀ h ∈ s.nulls, h <:+ s.history ∧ StackOp.replay S.populated h = some []

variable {S : Config} {s s' : State T} {L : List Nat} {t : T}

section

omit [DecidableEq T]

/-- An element with an owner is not on the stack. -/
theorem Inv.not_mem (h : Inv S s L) {obj : Nat} (ht : t ∈ s.owners obj) : obj ∉ L :=
  fun hobj => by
    rw [h.unowned obj hobj] at ht
    cases ht

/-- **The tag does its work**: a thread whose copy is the top has seen all the
swaps, unless as many have happened since as the tag has values. -/
theorem Inv.seen_eq (h : Inv S s L) {old : Top} (ho : (s.pc t).old = some old)
    (htop : s.top = old) (hf : s.history.length - (s.seen t).length < 2 ^ 32) :
    s.seen t = s.history := by
  have hsuf := h.suffix t
  have hlen := hsuf.length_le
  have htag : s.history.length % 2 ^ 32 = (s.seen t).length % 2 ^ 32 := by
    rw [← h.tag, htop, (h.old t old ho).1]
  exact hsuf.eq_of_length (by omega)

/-- An owner of an element is its only one. -/
theorem Inv.owners_eq (h : Inv S s L) {obj : Nat} (ht : t ∈ s.owners obj) :
    s.owners obj = [t] := by
  obtain ⟨A, B, hAB⟩ := List.append_of_mem ht
  have hlen := h.owners obj
  rw [hAB, List.length_append, List.length_cons] at hlen
  obtain rfl : A = [] := List.eq_nil_of_length_eq_zero (by omega)
  obtain rfl : B = [] := List.eq_nil_of_length_eq_zero (by omega)
  exact hAB

@[grind →] theorem Inv.owner_unique (h : Inv S s L) {obj : Nat} {u : T} (ht : t ∈ s.owners obj)
    (hu : u ∈ s.owners obj) : t = u := by
  rw [h.owners_eq hu] at ht
  exact List.mem_singleton.mp ht

attribute [grind →] Inv.unowned Inv.old Inv.empty Inv.pushing Inv.linked Inv.popSwap Inv.popClear Inv.not_mem
attribute [grind =] Pc.pushing Pc.old

/-- A thread about to swap its element in owns it. -/
@[grind →] theorem Inv.pushSwap_owner (h : Inv S s L) {obj : Nat} {old : Top}
    (hp : s.pc t = .pushSwap obj old) : t ∈ s.owners obj :=
  h.pushing t obj (by rw [hp]; rfl)

/-- The element of a pop whose copy is the top is on the stack. -/
@[grind →] theorem Inv.popSwap_mem (h : Inv S s L) {old : Top} {obj next : Nat}
    (hp : s.pc t = .popSwap old obj next) (hseen : s.seen t = s.history) : obj ∈ L := by
  have hc := h.chain
  have htop := (h.old t old (by rw [hp]; rfl)).2 hseen
  rw [← htop, (h.popSwap t old obj next hp).1] at hc
  cases L with
  | nil => cases hc
  | cons a L =>
    obtain ⟨ha, -⟩ := hc
    rw [Option.some.inj ha]
    exact List.mem_cons_self

/-- Writing an element that is not on the stack leaves its links alone. -/
theorem Inv.chain_setElem (h : Inv S s L) {obj : Nat} (hobj : obj ∉ L) (e : Elem) :
    Chain (fun o => S.id32ToObj (Function.update s.elems obj e o).next) (S.id32ToObj s.top.next)
      L := by
  refine h.chain.congr fun a ha => ?_
  rw [Function.update_of_ne (ne_of_mem_of_not_mem ha hobj)]

/-- Nobody has seen a swap that only now succeeds. -/
theorem Inv.seen_ne (h : Inv S s L) (op : StackOp Nat) (u : T) : s.seen u ≠ op :: s.history := by
  intro heq
  have hlen := (h.suffix u).length_le
  rw [heq, List.length_cons] at hlen
  omega

/-- What a successful swap leaves of the tag. -/
theorem Inv.tag_swap (h : Inv S s L) (op : StackOp Nat) :
    (s.top.abaTag + 1) % 2 ^ 32 = (op :: s.history).length % 2 ^ 32 := by
  rw [h.tag, List.length_cons]
  omega

end

/-- A thread moves, reading the top. -/
theorem Inv.readTop (h : Inv S s L) {pc : Top → Pc} (hold : (pc s.top).old = some s.top)
    (hpush : (pc s.top).pushing = (s.pc t).pushing)
    (hpushSwap : ∀ obj old, pc s.top ≠ .pushSwap obj old)
    (hpopSwap : ∀ old obj next, pc s.top ≠ .popSwap old obj next) :
    Inv S (s.readTop t pc) L := by
  have hempty : S.id32ToObj s.top.next = none → StackOp.replay S.populated s.history = some [] := by
    intro hnone
    rw [h.lifo, (h.chain.eq_nil_iff).mpr hnone]
  constructor
  case chain => exact h.chain
  case elem => exact h.elem
  case mem => exact h.mem
  case lifo => exact h.lifo
  case unowned => exact h.unowned
  case owners => exact h.owners
  case owned => exact h.owned
  case tag => exact h.tag
  case nulls => exact h.nulls
  case suffix => 
    intro u
    have hsuf := h.suffix u
    dsimp only [State.readTop]
    grind -linarith [Function.update_apply]
  case old =>
    intro u
    dsimp only [State.readTop]
    have := h.tag
    grind -linarith [Function.update_apply]
  all_goals dsimp only [State.readTop]
  all_goals grind -linarith [Function.update_apply]

/-- A thread moves, writing to an element it owns. -/
theorem Inv.setElem (h : Inv S s L) {obj : Nat} {e : Elem} {pc : Pc} (ht : t ∈ s.owners obj)
    (hold : ∀ old, pc.old = some old → (s.pc t).old = some old)
    (hpush : ∀ o, pc.pushing = some o → t ∈ s.owners o)
    (hlink : ∀ o old, pc = .pushSwap o old → o = obj ∧ e.next = old.next)
    (hpopSwap : ∀ old o next, pc ≠ .popSwap old o next) (hpopClear : ∀ o, pc ≠ .popClear o) :
    Inv S ((s.setElem obj e).goto t pc) L := by
  have hobj := h.not_mem ht
  refine ⟨h.chain_setElem hobj e, h.elem, h.mem, h.lifo, h.unowned, h.owners, h.owned, h.tag,
    h.suffix, ?old, ?empty, ?pushing, ?linked, ?popSwap, ?popClear, h.nulls⟩
  all_goals dsimp only [State.setElem, State.goto]
  all_goals grind -linarith [Function.update_apply]

/-- **A push that succeeds** puts the element on the stack. -/
theorem Inv.push (h : Inv S s L) {obj : Nat} (hp : s.pc t = .pushSwap obj s.top) :
    Inv S { s.goto t .idle with
      top := ⟨S.objToId32 obj, (s.top.abaTag + 1) % 2 ^ 32⟩
      owners := Function.update s.owners obj ((s.owners obj).erase t)
      history := .push obj :: s.history } (obj :: L) := by
  have ht : t ∈ s.owners obj := h.pushSwap_owner hp
  have howners : s.owners obj = [t] := h.owners_eq ht
  have helem : S.IsElem obj := h.owned obj (List.ne_nil_of_mem ht)
  have hnew := h.seen_ne (.push obj)
  constructor
  case chain =>
    dsimp only [State.goto]
    rw [helem.id32ToObj]
    exact h.chain.push (by rw [h.linked t obj s.top hp])
  case elem => exact List.forall_mem_cons.mpr ⟨helem, h.elem⟩
  case mem => exact StackOp.mem_push h.mem
  case lifo => exact StackOp.replay_push h.lifo
  case unowned =>
    intro o ho
    dsimp only
    grind -linarith [Function.update_apply]
  case owners =>
    intro o
    have := h.owners o
    dsimp only
    grind -linarith [Function.update_apply]
  case owned =>
    intro o
    have := h.owned o
    dsimp only
    grind -linarith [Function.update_apply]
  case tag => exact h.tag_swap _
  case suffix => exact fun u => (h.suffix u).trans (List.suffix_cons _ _)
  case nulls => exact fun h' hh' => ⟨(h.nulls h' hh').1.trans (List.suffix_cons _ _), (h.nulls h' hh').2⟩
  all_goals dsimp only [State.goto]
  all_goals grind -linarith [Function.update_apply]

/-- **A pop that succeeds** takes the first element off the stack. -/
theorem Inv.pop (h : Inv S s L) {obj next : Nat} (hp : s.pc t = .popSwap s.top obj next)
    (hseen : s.seen t = s.history) :
    ∃ L', L = obj :: L' ∧ Inv S { s.goto t (.popClear obj) with
      top := ⟨next, (s.top.abaTag + 1) % 2 ^ 32⟩
      owners := Function.update s.owners obj (t :: s.owners obj)
      history := .pop obj :: s.history } L' := by
  obtain ⟨hobj, hnext⟩ := h.popSwap t s.top obj next hp
  have hnd := h.chain.nodup
  have hchain := h.chain
  have hmem := h.popSwap_mem hp hseen
  have howners : s.owners obj = [] := h.unowned obj hmem
  have hnew := h.seen_ne (.pop obj)
  obtain ⟨L', rfl⟩ : ∃ L', L = obj :: L' := by
    cases L with
    | nil => cases hmem
    | cons a L' =>
      obtain ⟨ha, -⟩ := hchain
      exact ⟨L', by rw [Option.some.inj (ha.symm.trans hobj)]⟩
  refine ⟨L', rfl, ?_⟩
  have hnot : obj ∉ L' := (List.nodup_cons.mp hnd).1
  constructor
  case chain =>
    dsimp only [State.goto]
    rw [hnext hseen]
    exact hchain.2
  case elem => exact fun o ho => h.elem o (List.mem_cons_of_mem _ ho)
  case mem => exact StackOp.mem_pop h.mem hnd
  case lifo => exact StackOp.replay_pop h.lifo
  case unowned =>
    intro o ho
    have := h.unowned o (List.mem_cons_of_mem _ ho)
    dsimp only
    grind -linarith [Function.update_apply]
  case owners =>
    intro o
    have := h.owners o
    dsimp only
    grind -linarith [Function.update_apply]
  case owned =>
    intro o
    have := h.owned o
    have := h.elem obj hmem
    dsimp only
    grind -linarith [Function.update_apply]
  case tag => exact h.tag_swap _
  case suffix => exact fun u => (h.suffix u).trans (List.suffix_cons _ _)
  case nulls => exact fun h' hh' => ⟨(h.nulls h' hh').1.trans (List.suffix_cons _ _), (h.nulls h' hh').2⟩
  all_goals dsimp only [State.goto]
  all_goals grind -linarith [Function.update_apply]

/-- **A step of a thread keeps the invariant.** -/
theorem Inv.threadStep (h : Inv S s L) (hs : s.threadStep S t = some s')
    (hf : (s.pc t).atSwap = true → s.history.length - (s.seen t).length < 2 ^ 32) :
    ∃ L', Inv S s' L' := by
  cases hp : s.pc t
  all_goals rw [State.threadStep, hp] at hs
  case idle => cases hs
  case pushRead obj =>
    obtain rfl := Option.some.inj hs
    exact ⟨L, h.readTop rfl (by rw [hp]; rfl) nofun nofun⟩
  case pushId obj old =>
    obtain rfl := Option.some.inj hs
    have ht : t ∈ s.owners obj := h.pushing t obj (by rw [hp]; rfl)
    refine ⟨L, h.setElem ht ?_ ?_ nofun nofun nofun⟩
    · exact fun o ho => by rwa [hp]
    · exact fun o ho => Option.some.inj ho ▸ ht
  case pushLink obj old =>
    obtain rfl := Option.some.inj hs
    have ht : t ∈ s.owners obj := h.pushing t obj (by rw [hp]; rfl)
    refine ⟨L, h.setElem ht ?_ ?_ ?_ nofun nofun⟩
    · exact fun o ho => by rwa [hp]
    · exact fun o ho => Option.some.inj ho ▸ ht
    · rintro o old' ⟨⟩
      exact ⟨rfl, rfl⟩
  case pushSwap obj old =>
    dsimp only at hs
    split at hs
    case isFalse =>
      obtain rfl := Option.some.inj hs
      exact ⟨L, h.readTop rfl (by rw [hp]; rfl) nofun nofun⟩
    case isTrue htop =>
      obtain rfl := Option.some.inj hs
      subst htop
      exact ⟨_, h.push hp⟩
  case popRead =>
    obtain rfl := Option.some.inj hs
    exact ⟨L, h.readTop rfl (by rw [hp]; rfl) nofun nofun⟩
  case popNext old =>
    dsimp only at hs
    split at hs
    case h_1 hnone =>
      obtain rfl := Option.some.inj hs
      refine ⟨L, ⟨h.chain, h.elem, h.mem, h.lifo, h.unowned, h.owners, h.owned, h.tag, h.suffix, ?_, ?_, ?_, ?_, ?_, ?_, ?_⟩⟩
      case refine_7 => 
        have hold : (s.pc t).old = some old := by rw [hp]; rfl
        intro h' hh'
        rcases List.mem_cons.mp hh' with rfl | hh'
        · exact ⟨h.suffix t, h.empty t old hold hnone⟩
        · exact h.nulls h' hh'
      all_goals dsimp only [State.setElem, State.goto]
      all_goals grind -linarith [Function.update_apply]
    case h_2 obj hobj =>
      obtain rfl := Option.some.inj hs
      have hold : (s.pc t).old = some old := by rw [hp]; rfl
      refine ⟨L, ⟨h.chain, h.elem, h.mem, h.lifo, h.unowned, h.owners, h.owned, h.tag, h.suffix, ?_, ?_, ?_, ?_, ?_, ?_, h.nulls⟩⟩
      all_goals dsimp only [State.setElem, State.goto]
      all_goals grind -linarith [Function.update_apply]
  case popSwap old obj next =>
    dsimp only at hs
    split at hs
    case isFalse =>
      obtain rfl := Option.some.inj hs
      exact ⟨L, h.readTop rfl (by rw [hp]; rfl) nofun nofun⟩
    case isTrue htop =>
      obtain rfl := Option.some.inj hs
      have hseen := h.seen_eq (by rw [hp]; rfl) htop (hf (by rw [hp]; rfl))
      subst htop
      obtain ⟨L', -, hinv⟩ := h.pop hp hseen
      exact ⟨L', hinv⟩
  case popClear obj =>
    obtain rfl := Option.some.inj hs
    exact ⟨L, h.setElem (h.popClear t obj hp) nofun nofun nofun nofun nofun⟩

/-- **Every step keeps the invariant.** -/
theorem Inv.step {e : Event T} (h : Inv S s L) (hs : step S s e = some s') (hf : Fresh s e s') :
    ∃ L', Inv S s' L' := by
  cases e with
  | push t obj =>
    change (if s.pc t = .idle ∧ t ∈ s.owners obj then _ else none) = some s' at hs
    split at hs
    case isFalse => cases hs
    case isTrue hin =>
      obtain rfl := Option.some.inj hs
      refine ⟨L, ⟨h.chain, h.elem, h.mem, h.lifo, h.unowned, h.owners, h.owned, h.tag, h.suffix, ?_, ?_, ?_, ?_, ?_, ?_, h.nulls⟩⟩
      all_goals dsimp only [State.goto]
      all_goals grind -linarith [Function.update_apply]
  | pop t =>
    change (if s.pc t = .idle then _ else none) = some s' at hs
    split at hs
    case isFalse => cases hs
    case isTrue hin =>
      obtain rfl := Option.some.inj hs
      refine ⟨L, ⟨h.chain, h.elem, h.mem, h.lifo, h.unowned, h.owners, h.owned, h.tag, h.suffix, ?_, ?_, ?_, ?_, ?_, ?_, h.nulls⟩⟩
      all_goals dsimp only [State.goto]
      all_goals grind -linarith [Function.update_apply]
  | write t obj elem =>
    change (if s.pc t = .idle ∧ t ∈ s.owners obj then _ else none) = some s' at hs
    split at hs
    case isFalse => cases hs
    case isTrue hin =>
      obtain rfl := Option.some.inj hs
      have hobj := h.not_mem hin.2
      refine ⟨L, ⟨h.chain_setElem hobj elem, h.elem, h.mem, h.lifo, h.unowned, h.owners, h.owned, h.tag, h.suffix, ?_, ?_, ?_, ?_, ?_, ?_, h.nulls⟩⟩
      all_goals dsimp only [State.setElem]
      all_goals grind -linarith [Function.update_apply]
  | give t u obj =>
    change (if s.pc t = .idle ∧ t ∈ s.owners obj then _ else none) = some s' at hs
    split at hs
    case isFalse => cases hs
    case isTrue hin =>
      obtain rfl := Option.some.inj hs
      refine ⟨L, ⟨h.chain, h.elem, h.mem, h.lifo, ?_, ?_, ?_, h.tag, h.suffix, h.old, h.empty, ?_, h.linked, h.popSwap, ?_, h.nulls⟩⟩
      all_goals dsimp only
      · grind -linarith [Function.update_apply]
      · have := h.owners
        grind -linarith [Function.update_apply, List.length_erase_of_mem]
      · have := h.owned
        grind -linarith [Function.update_apply]
      all_goals grind -linarith [Function.update_apply]
  | step t =>
    exact h.threadStep hs hf

/-! ## What the stack promises -/

/-- The loop over the array links its elements, the last one first. -/
theorem Config.populateElems_chain (S : Config) (elems : Nat → Elem) (n : Nat) :
    (S.populateElems elems n).1 = n ∧
      Chain (fun o => S.id32ToObj ((S.populateElems elems n).2 o).next) (S.id32ToObj n)
        ((List.range n).reverse.map S.elem) := by
  induction n with
  | zero => exact ⟨rfl, rfl⟩
  | succ n ih =>
    obtain ⟨hn, hchain⟩ := ih
    refine ⟨rfl, ?_⟩
    rw [List.range_succ, List.reverse_append, List.reverse_singleton, List.singleton_append,
      List.map_cons]
    refine ⟨if_neg (Nat.succ_ne_zero n), ?_⟩
    have hfresh : S.elem n ∉ (List.range n).reverse.map S.elem := by
      intro hmem
      obtain ⟨i, hi, heq⟩ := List.mem_map.mp hmem
      rw [Config.elem_inj heq, List.mem_reverse, List.mem_range] at hi
      exact lt_irrefl _ hi
    rw [Config.populateElems]
    dsimp only
    rw [Function.update_self, hn]
    refine hchain.congr fun a ha => ?_
    rw [Function.update_of_ne (ne_of_mem_of_not_mem ha hfresh)]

omit [DecidableEq T] in
/-- The invariant holds at the start. -/
theorem Inv.init (h : Init S s) : Inv S s S.populated := by
  obtain ⟨⟨elems, htop⟩, hpc, hhist, hseen, hnulls, howners⟩ := h
  constructor
  case chain =>
    unfold Config.populated
    by_cases hpop : S.populate = true
    · rw [if_pos hpop] at htop ⊢
      obtain ⟨hfst, hchain⟩ := S.populateElems_chain elems S.numElems
      rw [(Prod.mk.inj htop).1, (Prod.mk.inj htop).2, hfst]
      exact hchain
    · rw [if_neg hpop] at htop ⊢
      rw [(Prod.mk.inj htop).1]
      rfl
  case elem =>
    intro obj hobj
    unfold Config.populated at hobj
    split at hobj
    · obtain ⟨i, hi, rfl⟩ := List.mem_map.mp hobj
      exact ⟨i, List.mem_range.mp (List.mem_reverse.mp hi), rfl⟩
    · cases hobj
  case mem =>
    intro obj
    rw [hhist]
    rfl
  case lifo => rw [hhist, StackOp.replay]
  case unowned =>
    intro obj hobj
    by_contra hne
    have hpop := ((howners obj).2 hne).2
    rw [Config.populated, hpop] at hobj
    cases hobj
  case owners => exact fun obj => (howners obj).1
  case owned => exact fun obj hne => ((howners obj).2 hne).1
  case tag =>
    rw [hhist]
    split at htop
    all_goals
      rw [(Prod.mk.inj htop).1]
      rfl
  case suffix =>
    intro t
    rw [hseen t]
    exact List.nil_suffix
  case nulls => rw [hnulls]; exact fun _ h => by cases h
  all_goals grind -linarith

omit [DecidableEq T] in
/-- What the invariant says is what the stack promises. -/
theorem Inv.good (h : Inv S s L) : Good S s L where
  chain := h.chain
  nodup := h.chain.nodup
  elem := h.elem
  mem := h.mem
  lifo := h.lifo
  unowned := h.unowned
  owners := h.owners
  popped := fun t obj hp => h.owners_eq (h.popClear t obj hp)
  nulls := h.nulls

/-- **The lock-free stack loses and duplicates nothing**, while fewer swaps
happen between a thread's read of the top and its swap than the tag has
values. -/
theorem loses_nothing (h : (machine S).Reach Fresh s) : ∃ L, Good S s L := by
  have hinv : ∃ L, Inv S s L := h.invariant (I := fun s => ∃ L, Inv S s L)
    (fun _ h₀ => ⟨_, Inv.init h₀⟩) fun _ _ _ ⟨_, hL⟩ hs hf => hL.step hs hf
  obtain ⟨L, hL⟩ := hinv
  exact ⟨L, hL.good⟩

/-- Two threads, and two elements on the stack: the first thread has seen the
upper element and its link when the other one pops both, writes over the lower
and pushes the upper again. The link at the top is what the first thread has
seen, but the tag is not. -/
theorem loses_nothing_reused :
    ∃ s L, (machine (T := Bool) ⟨1, 2, 8, true, by decide, by decide⟩).Reach Fresh s ∧
      (s.top.next = 2 ∧ s.pc false = .popNext s.top ∧ s.owners 0 = [true]) ∧
      Good ⟨1, 2, 8, true, by decide, by decide⟩ s L := by
  have hstart : (machine (T := Bool) ⟨1, 2, 8, true, by decide, by decide⟩).start
      { top := ⟨2, 0⟩
        elems := (Config.populateElems ⟨1, 2, 8, true, by decide, by decide⟩ (fun _ => ⟨0, 0⟩) 2).2
        pc := fun _ => .idle
        owners := fun _ => []
        history := []
        seen := fun _ => []
        nulls := [] } :=
    ⟨⟨_, rfl⟩, fun _ => rfl, rfl, fun _ => rfl, rfl,
      fun _ => ⟨Nat.zero_le _, fun h => absurd rfl h⟩⟩
  obtain ⟨s, hs, hp⟩ := Machine.Reach.exists_of_exec _ Fresh hstart
    (p := fun s => decide (s.top.next = 2 ∧ s.pc false = .popNext s.top ∧ s.owners 0 = [true]))
    ([.pop false, .step false, .step false, .pop true] ++ List.replicate 4 (.step true) ++
      [.pop true] ++ List.replicate 4 (.step true) ++ [.write true 0 ⟨7, 7⟩, .push true 8] ++
      List.replicate 4 (.step true) ++ [.step false]) (by decide +kernel)
  obtain ⟨L, hL⟩ := loses_nothing hs
  exact ⟨s, L, hs, of_decide_eq_true hp, hL⟩

end LfStack
