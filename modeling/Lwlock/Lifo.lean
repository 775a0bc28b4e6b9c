import Mathlib

/-!
# Histories of a stack

What a concurrent stack is asked to do is said by the order of its operations
alone: performed one after the other on a list, each pop must find its element
at the head. A history lists the operations that have taken effect, the last
one first, and `replay` performs it; a history that `replay` rejects is not one
of a stack.
-/

variable {α : Type*} [DecidableEq α]

/-- An operation of a stack, with its element. -/
inductive StackOp (α : Type*) where
  | push (x : α)
  | pop (x : α)
deriving DecidableEq

namespace StackOp

/-- Perform a history on a list, last operation first: none where a pop does
not find its element at the head. -/
def replay (L₀ : List α) : List (StackOp α) → Option (List α)
  | [] => some L₀
  | .push x :: h => (replay L₀ h).map (List.cons x)
  | .pop x :: h => (replay L₀ h).bind fun L => if L.head? = some x then some L.tail else none

omit [DecidableEq α] in
/-- The element was there at the start or has been pushed, and has not been
popped since. -/
def Present (L₀ : List α) : List (StackOp α) → α → Prop
  | [], x => x ∈ L₀
  | .push y :: h, x => x = y ∨ Present L₀ h x
  | .pop y :: h, x => x ≠ y ∧ Present L₀ h x

variable {L₀ L : List α} {h : List (StackOp α)} {x : α}

/-- A push onto what a history leaves. -/
theorem replay_push (hL : replay L₀ h = some L) : replay L₀ (.push x :: h) = some (x :: L) := by
  rw [replay, hL, Option.map_some]

/-- A pop of the head of what a history leaves. -/
theorem replay_pop (hL : replay L₀ h = some (x :: L)) : replay L₀ (.pop x :: h) = some L := by
  rw [replay, hL, Option.bind_some, List.head?_cons, if_pos rfl, List.tail_cons]

omit [DecidableEq α] in
/-- What is present after a push. -/
theorem mem_push (hmem : ∀ y, y ∈ L ↔ Present L₀ h y) (y : α) :
    y ∈ x :: L ↔ Present L₀ (.push x :: h) y := by
  rw [Present, List.mem_cons, hmem]

omit [DecidableEq α] in
/-- What is present after a pop. -/
theorem mem_pop (hmem : ∀ y, y ∈ x :: L ↔ Present L₀ h y) (hnd : (x :: L).Nodup) (y : α) :
    y ∈ L ↔ Present L₀ (.pop x :: h) y := by
  have hx : x ∉ L := (List.nodup_cons.mp hnd).1
  rw [Present, ← hmem, List.mem_cons]
  constructor
  · exact fun hy => ⟨ne_of_mem_of_not_mem hy hx, .inr hy⟩
  · rintro ⟨hne, rfl | hy⟩
    · exact absurd rfl hne
    · exact hy

end StackOp
