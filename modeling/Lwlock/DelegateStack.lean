import Lwlock.Chain
import Lwlock.Delegate

/-!
# The incoming stack of a delegate

`push_incoming` is a lock-free push written by hand. It reads the stack
twice: once for the value its compare-and-swap expects, and once for the link
of the job. When the stack changes between the two reads and is then drained,
the swap succeeds although the link leads to a job that is gone.

This module states what the stack is for – a job that was installed is taken
off and moved exactly once – and shows on which runs the code delivers it:
those in which every swap that succeeds finds the link equal to the value it
expected. On the others a job can be drained twice.

The invariant reads very little of a state: the stack, the links, the two
history variables, and for each thread the job it is pushing or the part of a
drained stack it still walks. That part is the *books* of a state, and what
the steps of a delegate do to the books is said once, in `Books.Change`.
-/

namespace Delegate

variable {T J P C D : Type}

/-- What the books keep of a thread: the job it is about to install, or where
its drain is and which immediate requests it has put aside. -/
inductive View (J : Type)
  | none
  | pushing (j : J)
  | draining (p : Ptr J) (imm : List J)
  deriving DecidableEq

/-- The view of a program point. -/
def Pc.view : Pc T J P → View J
  | .submitLoop j => .pushing j
  | .pushRead j _ => .pushing j
  | .pushLink j _ _ => .pushing j
  | .pushSwap j _ _ => .pushing j
  | .drainLoop _ p _ imm => .draining p imm
  | .drainImmediate _ imm => .draining .null imm
  | _ => .none

/-- **The books of a state.** -/
@[ext] structure Books (T J : Type) where
  stack : Option J
  link : J → Ptr J
  view : T → View J
  submitted : J → Bool
  installs : J → ℕ
  moves : J → ℕ

/-- The job after `j` on a stack with the given links. -/
def nextOf (link : J → Ptr J) (j : J) : Option J := (link j).target

namespace Books

/-- The job after `j` on a stack. -/
abbrev next (b : Books T J) : J → Option J := nextOf b.link

/-- Where an installed job waits: on the stack, on the part of it that a
thread still has to walk, or among the immediate requests of a thread. -/
inductive Place (T : Type)
  | stack
  | drain (t : T)
  | immediate (t : T)
  deriving DecidableEq

/-- `j` is at the place `p`, as found by following links. -/
def At (b : Books T J) (j : J) : Place T → Prop
  | .stack => ∃ L, Chain b.next b.stack L ∧ j ∈ L
  | .drain t => ∃ p imm L, b.view t = .draining p imm ∧ Chain b.next p.target L ∧ j ∈ L
  | .immediate t => ∃ p imm, b.view t = .draining p imm ∧ j ∈ imm

/-- **Neither lost nor duplicated.** An installed job that was not moved yet
is at exactly one place; a job at some place was installed once and not moved
yet; following links from the stack, or from the pointer of a drain, is
finite, meets no poison and visits no job twice. -/
structure Conserved (b : Books T J) : Prop where
  installs_le : ∀ j, b.installs j ≤ 1
  moves_le : ∀ j, b.moves j ≤ b.installs j
  stack_chain : ∃ L, Chain b.next b.stack L ∧ L.Nodup ∧ ∀ j ∈ L, b.link j ≠ .bad
  drain_chain : ∀ t p imm, b.view t = .draining p imm →
    p ≠ .bad ∧ imm.Nodup ∧ ∃ L, Chain b.next p.target L ∧ L.Nodup ∧ ∀ j ∈ L, b.link j ≠ .bad
  not_lost : ∀ j, b.installs j = 1 → b.moves j = 0 → ∃! p, b.At j p
  not_again : ∀ j p, b.At j p → b.installs j = 1 ∧ b.moves j = 0

/-- Where a job is in its life, as the invariant records it. -/
inductive Stage (T : Type)
  /-- Not submitted. -/
  | fresh
  /-- A thread is about to install it. -/
  | pushing (t : T)
  /-- Installed, and waiting at a place. -/
  | placed (p : Place T)
  /-- Moved to `queued_jobs` or run. -/
  | moved
  /-- Queued on the fast path, without the stack. -/
  | direct
  deriving DecidableEq

/-- The compare-and-swaps that installed a job of that stage. -/
@[simp, grind =] def Stage.installs : Stage T → ℕ
  | .placed _ => 1
  | .moved => 1
  | _ => 0

/-- The moves of a job of that stage. -/
@[simp, grind =] def Stage.moves : Stage T → ℕ
  | .moved => 1
  | _ => 0

/-- **The invariant**: the stages of the jobs agree with the books. The lists
`L` and `W t` are what hangs from the stack and what the drain of `t` still
has to walk. -/
structure Agrees (b : Books T J) (stage : J → Stage T) (L : List J) (W : T → List J) :
    Prop where
  stack : Chain b.next b.stack L
  mem_stack : ∀ j, j ∈ L ↔ stage j = .placed .stack
  drain : ∀ t p imm, b.view t = .draining p imm →
    p ≠ .bad ∧ imm.Nodup ∧ Chain b.next p.target (W t)
      ∧ ∀ j, j ∈ imm ↔ stage j = .placed (.immediate t)
  mem_drain : ∀ t j, j ∈ W t ↔ stage j = .placed (.drain t)
  busy : ∀ t j, stage j = .placed (.drain t) ∨ stage j = .placed (.immediate t) →
    ∃ p imm, b.view t = .draining p imm
  pushing : ∀ t j, b.view t = .pushing j ↔ stage j = .pushing t
  fresh : ∀ j, b.submitted j = false ↔ stage j = .fresh
  link : ∀ j, stage j = .placed .stack ∨ (∃ t, stage j = .placed (.drain t)) → b.link j ≠ .bad
  installs : ∀ j, b.installs j = (stage j).installs
  moves : ∀ j, b.moves j = (stage j).moves

/-- The job at a place the invariant names is found there by following links,
and nowhere else. -/
theorem Agrees.at_iff {b : Books T J} {stage : J → Stage T} {L : List J} {W : T → List J}
    (h : b.Agrees stage L W) (j : J) (p : Place T) :
    b.At j p ↔ stage j = .placed p := by
  cases p with
  | stack =>
    rw [← h.mem_stack j]
    constructor
    · rintro ⟨L', hL', hj⟩
      rwa [h.stack.unique hL']
    · exact fun hj => ⟨L, h.stack, hj⟩
  | drain t =>
    constructor
    · rintro ⟨p, imm, L', hv, hL', hj⟩
      obtain ⟨-, -, hW, -⟩ := h.drain t p imm hv
      rw [← h.mem_drain t j]
      rwa [hW.unique hL']
    · intro hj
      obtain ⟨p, imm, hv⟩ := h.busy t j (Or.inl hj)
      obtain ⟨-, -, hW, -⟩ := h.drain t p imm hv
      exact ⟨p, imm, W t, hv, hW, (h.mem_drain t j).mpr hj⟩
  | immediate t =>
    constructor
    · rintro ⟨p, imm, hv, hj⟩
      obtain ⟨-, -, -, himm⟩ := h.drain t p imm hv
      exact (himm j).mp hj
    · intro hj
      obtain ⟨p, imm, hv⟩ := h.busy t j (Or.inr hj)
      obtain ⟨-, -, -, himm⟩ := h.drain t p imm hv
      exact ⟨p, imm, hv, (himm j).mpr hj⟩

/-- **The invariant gives exactly-once.** -/
theorem Agrees.conserved {b : Books T J} {stage : J → Stage T} {L : List J} {W : T → List J}
    (h : b.Agrees stage L W) : b.Conserved where
  installs_le j := by
    rw [h.installs j]
    cases stage j <;> simp
  moves_le j := by
    rw [h.installs j, h.moves j]
    cases stage j <;> simp
  stack_chain := by
    refine ⟨L, h.stack, h.stack.nodup, fun j hj => h.link j (Or.inl ?_)⟩
    exact (h.mem_stack j).mp hj
  drain_chain t p imm hv := by
    obtain ⟨hp, hnd, hW, -⟩ := h.drain t p imm hv
    refine ⟨hp, hnd, W t, hW, hW.nodup, fun j hj => h.link j (Or.inr ⟨t, ?_⟩)⟩
    exact (h.mem_drain t j).mp hj
  not_lost j hi hm := by
    rw [h.installs j] at hi
    rw [h.moves j] at hm
    cases hs : stage j with
    | placed p =>
      refine ⟨p, (h.at_iff j p).mpr hs, fun q hq => ?_⟩
      have hq' := (h.at_iff j q).mp hq
      rw [hs] at hq'
      exact (Stage.placed.inj hq').symm
    | _ => simp [hs] at hi hm
  not_again j p hp := by
    rw [h.at_iff j p] at hp
    rw [h.installs j, h.moves j, hp]
    exact ⟨rfl, rfl⟩

variable [DecidableEq T] [DecidableEq J]

/-- **What a step can do to the books.** `t` is the thread that moves. -/
inductive Change (b : Books T J) (t : T) : Books T J → Prop
  /-- Nothing the books record happens. -/
  | quiet : Change b t b
  /-- A job is submitted. -/
  | submit {j : J} : b.submitted j = false → b.view t = .none →
      Change b t { b with
        submitted := Function.update b.submitted j true
        view := Function.update b.view t (.pushing j) }
  /-- The job goes straight to the queue. -/
  | fastPath {j : J} : b.view t = .pushing j →
      Change b t { b with view := Function.update b.view t .none }
  /-- The link of the job that is pushed is written. -/
  | relink {j : J} {x : Ptr J} : b.view t = .pushing j →
      Change b t { b with link := Function.update b.link j x }
  /-- The job is installed, with a link to the rest of the stack. -/
  | install {j : J} : b.view t = .pushing j → b.link j = Ptr.ofTop b.stack →
      Change b t { b with
        stack := some j
        installs := Function.update b.installs j (b.installs j + 1)
        view := Function.update b.view t .none }
  /-- The stack is exchanged with `NULL`. -/
  | take : b.view t = .none →
      Change b t { b with
        stack := none
        view := Function.update b.view t (.draining (Ptr.ofTop b.stack) []) }
  /-- A job of the drained stack is queued. -/
  | queue {j : J} {imm : List J} : b.view t = .draining (.job j) imm →
      Change b t { b with
        link := Function.update b.link j .bad
        moves := Function.update b.moves j (b.moves j + 1)
        view := Function.update b.view t (.draining (b.link j) imm) }
  /-- A job of the drained stack is put aside to be run at once. -/
  | putAside {j : J} {imm : List J} : b.view t = .draining (.job j) imm →
      Change b t { b with
        link := Function.update b.link j .bad
        view := Function.update b.view t (.draining (b.link j) (imm ++ [j])) }
  /-- An immediate request is run. -/
  | runNow {j : J} {imm : List J} : b.view t = .draining .null (j :: imm) →
      Change b t { b with
        moves := Function.update b.moves j (b.moves j + 1)
        view := Function.update b.view t (.draining .null imm) }
  /-- The drain is over. -/
  | leave : b.view t = .draining .null [] →
      Change b t { b with view := Function.update b.view t .none }

omit [DecidableEq T] in
/-- Writing the link of a job off a chain leaves the chain alone. -/
theorem chain_relink {link : J → Ptr J} {p : Option J} {L : List J}
    (h : Chain (nextOf link) p L) {j : J} (hj : j ∉ L) (x : Ptr J) :
    Chain (nextOf (Function.update link j x)) p L := by
  refine h.congr (fun a ha => ?_)
  rw [nextOf, nextOf, Function.update_of_ne (ne_of_mem_of_not_mem ha hj)]

namespace Agrees

variable {b : Books T J} {stage : J → Stage T} {L : List J} {W : T → List J} {t : T}

/-- A submitted job is pushed by its thread. -/
theorem submit (h : b.Agrees stage L W) {j : J} (hj : b.submitted j = false)
    (hv : b.view t = .none) :
    Agrees { b with
        submitted := Function.update b.submitted j true
        view := Function.update b.view t (.pushing j) }
      (Function.update stage j (.pushing t)) L W := by
  have hf : stage j = .fresh := (h.fresh j).mp hj
  refine ⟨h.stack, ?_, ?_, ?_, ?_, ?_, ?_, ?_, ?_, ?_⟩ <;>
  grind -linarith [Function.update_apply, h.mem_stack, h.drain, h.mem_drain, h.busy, h.pushing, h.fresh,
    h.link, h.installs, h.moves]

/-- A job leaves for the fast path. -/
theorem fastPath (h : b.Agrees stage L W) {j : J} (hv : b.view t = .pushing j) :
    Agrees { b with view := Function.update b.view t .none }
      (Function.update stage j .direct) L W := by
  have hs : stage j = .pushing t := (h.pushing t j).mp hv
  refine ⟨h.stack, ?_, ?_, ?_, ?_, ?_, ?_, ?_, ?_, ?_⟩ <;>
  grind -linarith [Function.update_apply, h.mem_stack, h.drain, h.mem_drain, h.busy, h.pushing, h.fresh,
    h.link, h.installs, h.moves]

omit [DecidableEq T] in
/-- The link of a job that is not installed is nobody else's. -/
theorem relink (h : b.Agrees stage L W) {j : J} {x : Ptr J} (hv : b.view t = .pushing j) :
    Agrees { b with link := Function.update b.link j x } stage L W := by
  have hs : stage j = .pushing t := (h.pushing t j).mp hv
  have hL : j ∉ L := fun hj => by simp [(h.mem_stack j).mp hj] at hs
  have hW : ∀ u, j ∉ W u := fun u hj => by simp [(h.mem_drain u j).mp hj] at hs
  refine ⟨chain_relink h.stack hL x, h.mem_stack, fun u p imm hu => ?_, h.mem_drain, h.busy,
    h.pushing, h.fresh, fun i hi => ?_, h.installs, h.moves⟩
  · obtain ⟨hp, hnd, hc, himm⟩ := h.drain u p imm hu
    exact ⟨hp, hnd, chain_relink hc (hW u) x, himm⟩
  · have hij : i ≠ j := by
      rintro rfl
      simp [hs] at hi
    simpa [Function.update_of_ne hij] using h.link i hi

/-- **The push**: with a link to the rest of the stack, the job is the new top
of one chain. -/
theorem install (h : b.Agrees stage L W) {j : J} (hv : b.view t = .pushing j)
    (hl : b.link j = Ptr.ofTop b.stack) :
    Agrees { b with
        stack := some j
        installs := Function.update b.installs j (b.installs j + 1)
        view := Function.update b.view t .none }
      (Function.update stage j (.placed .stack)) (j :: L) W := by
  have hs : stage j = .pushing t := (h.pushing t j).mp hv
  have hn : b.next j = b.stack := by
    rw [next, nextOf, hl]
    cases b.stack <;> rfl
  have hbad : b.link j ≠ .bad := by
    rw [hl]
    cases b.stack <;> simp [Ptr.ofTop]
  refine ⟨h.stack.push hn, ?_, ?_, ?_, ?_, ?_, ?_, ?_, ?_, ?_⟩ <;>
  grind -linarith [Function.update_apply, h.mem_stack, h.drain, h.mem_drain, h.busy, h.pushing, h.fresh,
    h.link, h.installs, h.moves]

omit [DecidableEq J] in
/-- **The exchange**: what hung from the stack is now the drain's to walk. -/
theorem take (h : b.Agrees stage L W) (hv : b.view t = .none) :
    Agrees { b with
        stack := none
        view := Function.update b.view t (.draining (Ptr.ofTop b.stack) []) }
      (fun j => if stage j = .placed .stack then .placed (.drain t) else stage j)
      [] (Function.update W t L) := by
  have hq : ∀ j, ¬ (stage j = .placed (.drain t) ∨ stage j = .placed (.immediate t)) := by
    intro j hj
    obtain ⟨p, imm, hp⟩ := h.busy t j hj
    simp [hv] at hp
  have htop : (Ptr.ofTop b.stack).target = b.stack := by cases b.stack <;> rfl
  have hbad : Ptr.ofTop b.stack ≠ .bad := by cases b.stack <;> simp [Ptr.ofTop]
  refine ⟨rfl, ?_, fun u p imm hu => ?_, ?_, fun u j hj => ?_, ?_, ?_, ?_, ?_, ?_⟩
  case refine_2 =>
    by_cases hut : u = t
    · subst hut
      simp only [Function.update_self, View.draining.injEq] at hu
      obtain ⟨rfl, rfl⟩ := hu
      refine ⟨hbad, List.nodup_nil, ?_, fun j => ?_⟩
      · rw [htop, Function.update_self]
        exact h.stack
      · grind -linarith
    · simp only [Function.update_of_ne hut] at hu ⊢
      obtain ⟨hp, hnd, hc, himm⟩ := h.drain u p imm hu
      exact ⟨hp, hnd, hc, by grind -linarith⟩
  case refine_4 =>
    by_cases hut : u = t
    · subst hut
      exact ⟨_, _, Function.update_self _ _ _⟩
    · simp only [Function.update_of_ne hut]
      exact h.busy u j (by grind -linarith)
  all_goals
    grind -linarith [Function.update_apply, h.mem_stack, h.mem_drain, h.busy, h.pushing, h.fresh,
      h.link, h.installs, h.moves]

/-- The job a drain looks at is the first of the part it has to walk; its
stage changes, its link is poisoned, and the drain goes on with the rest. -/
theorem walk (h : b.Agrees stage L W) {j : J} {imm imm' : List J} {x : Stage T} {m : J → ℕ}
    (hv : b.view t = .draining (.job j) imm)
    (hx : x = .moved ∧ imm' = imm ∧ m = Function.update b.moves j (b.moves j + 1)
      ∨ x = .placed (.immediate t) ∧ imm' = imm ++ [j] ∧ m = b.moves) :
    Agrees { b with
        link := Function.update b.link j .bad
        moves := m
        view := Function.update b.view t (.draining (b.link j) imm') }
      (Function.update stage j x) L (Function.update W t (W t).tail) := by
  obtain ⟨-, hnd, hc, himm⟩ := h.drain t _ _ hv
  obtain ⟨R, hR⟩ : ∃ R, W t = j :: R := by
    cases hw : W t with
    | nil =>
      rw [hw] at hc
      exact absurd hc (Option.some_ne_none j)
    | cons a R =>
      rw [hw] at hc
      obtain rfl : j = a := Option.some.inj hc.1
      exact ⟨R, rfl⟩
  have hs : stage j = .placed (.drain t) := (h.mem_drain t j).mp (by rw [hR]; exact List.mem_cons_self)
  have hjR : j ∉ R := by
    have := hc.nodup
    rw [hR] at this
    exact (List.nodup_cons.mp this).1
  have hjL : j ∉ L := fun hj => by simp [(h.mem_stack j).mp hj] at hs
  have hjW : ∀ u, u ≠ t → j ∉ W u := fun u hu hj => by
    rw [(h.mem_drain u j).mp hj] at hs
    simp [hu] at hs
  have hbad : b.link j ≠ .bad := h.link j (Or.inr ⟨t, hs⟩)
  have hji : j ∉ imm := fun hj => by simp [(himm j).mp hj] at hs
  refine ⟨chain_relink h.stack hjL _, ?_, fun u p im hu => ?_, ?_, fun u i hi => ?_, ?_, ?_, ?_,
    ?_, fun i => ?_⟩
  case refine_2 =>
    by_cases hut : u = t
    · subst hut
      simp only [Function.update_self, View.draining.injEq] at hu
      obtain ⟨rfl, rfl⟩ := hu
      refine ⟨hbad, ?_, ?_, fun i => ?_⟩
      · obtain ⟨-, rfl, -⟩ | ⟨-, rfl, -⟩ := hx
        · exact hnd
        · exact List.Nodup.append hnd (List.nodup_singleton j) (by simpa using hji)
      · rw [Function.update_self, hR, List.tail_cons]
        rw [hR] at hc
        exact chain_relink hc.2 hjR _
      · grind -linarith [Function.update_apply]
    · simp only [Function.update_of_ne hut] at hu ⊢
      obtain ⟨hp, hnd', hc', himm'⟩ := h.drain u p im hu
      exact ⟨hp, hnd', chain_relink hc' (hjW u hut) _, by grind -linarith [Function.update_apply]⟩
  case refine_4 =>
    by_cases hut : u = t
    · subst hut
      exact ⟨_, _, Function.update_self _ _ _⟩
    · simp only [Function.update_of_ne hut]
      exact h.busy u i (by grind -linarith [Function.update_apply])
  case refine_9 =>
    obtain ⟨rfl, -, rfl⟩ | ⟨rfl, -, rfl⟩ := hx <;> grind -linarith [Function.update_apply, h.moves]
  all_goals
    grind -linarith [Function.update_apply, h.mem_stack, h.mem_drain, h.busy, h.pushing, h.fresh,
      h.link, h.installs]

/-- An immediate request is run. -/
theorem runNow (h : b.Agrees stage L W) {j : J} {imm : List J}
    (hv : b.view t = .draining .null (j :: imm)) :
    Agrees { b with
        moves := Function.update b.moves j (b.moves j + 1)
        view := Function.update b.view t (.draining .null imm) }
      (Function.update stage j .moved) L W := by
  obtain ⟨-, hnd, hc, himm⟩ := h.drain t _ _ hv
  have hs : stage j = .placed (.immediate t) := (himm j).mp List.mem_cons_self
  have hji : j ∉ imm := (List.nodup_cons.mp hnd).1
  refine ⟨h.stack, ?_, fun u p im hu => ?_, ?_, fun u i hi => ?_, ?_, ?_, ?_, ?_, ?_⟩
  case refine_2 =>
    by_cases hut : u = t
    · subst hut
      simp only [Function.update_self, View.draining.injEq] at hu
      obtain ⟨rfl, rfl⟩ := hu
      refine ⟨by simp, (List.nodup_cons.mp hnd).2, hc, fun i => ?_⟩
      grind -linarith [Function.update_apply]
    · simp only [Function.update_of_ne hut] at hu
      obtain ⟨hp, hnd', hc', himm'⟩ := h.drain u p im hu
      exact ⟨hp, hnd', hc', by grind -linarith [Function.update_apply]⟩
  case refine_4 =>
    by_cases hut : u = t
    · subst hut
      exact ⟨_, _, Function.update_self _ _ _⟩
    · simp only [Function.update_of_ne hut]
      exact h.busy u i (by grind -linarith [Function.update_apply])
  all_goals
    grind -linarith [Function.update_apply, h.mem_stack, h.mem_drain, h.busy, h.pushing, h.fresh,
      h.link, h.installs, h.moves]

/-- A drain that is over leaves nothing behind. -/
theorem leave (h : b.Agrees stage L W) (hv : b.view t = .draining .null []) :
    Agrees { b with view := Function.update b.view t .none } stage L W := by
  obtain ⟨-, -, hc, himm⟩ := h.drain t _ _ hv
  have hW : W t = [] := (Chain.eq_nil_iff hc).mpr rfl
  refine ⟨h.stack, h.mem_stack, ?_, h.mem_drain, fun u i hi => ?_, ?_, h.fresh, h.link,
    h.installs, h.moves⟩
  · grind -linarith [Function.update_apply, h.drain]
  · have hut : u ≠ t := by
      rintro rfl
      grind -linarith [h.mem_drain]
    simp only [Function.update_of_ne hut]
    exact h.busy u i hi
  · grind -linarith [Function.update_apply, h.pushing]

/-- **Every change of the books keeps the invariant.** -/
theorem step (h : b.Agrees stage L W) {b' : Books T J} (hc : Change b t b') :
    ∃ stage' L' W', b'.Agrees stage' L' W' := by
  cases hc with
  | quiet => exact ⟨_, _, _, h⟩
  | submit hj hv => exact ⟨_, _, _, h.submit hj hv⟩
  | fastPath hv => exact ⟨_, _, _, h.fastPath hv⟩
  | relink hv => exact ⟨_, _, _, h.relink hv⟩
  | install hv hl => exact ⟨_, _, _, h.install hv hl⟩
  | take hv => exact ⟨_, _, _, h.take hv⟩
  | queue hv => exact ⟨_, _, _, h.walk hv (Or.inl ⟨rfl, rfl, rfl⟩)⟩
  | putAside hv => exact ⟨_, _, _, h.walk hv (Or.inr ⟨rfl, rfl, rfl⟩)⟩
  | runNow hv => exact ⟨_, _, _, h.runNow hv⟩
  | leave hv => exact ⟨_, _, _, h.leave hv⟩

end Agrees

/-- Books that some assignment of stages agrees with. -/
def Sound (b : Books T J) : Prop := ∃ stage L W, b.Agrees stage L W

theorem Sound.step {b b' : Books T J} {t : T} (h : b.Sound) (hc : Change b t b') : b'.Sound := by
  obtain ⟨stage, L, W, h⟩ := h
  exact h.step hc

end Books

/-! ## The books of the delegate -/

variable [DecidableEq T] [DecidableEq J]

namespace State

/-- The books of a state. -/
def books (s : State T J P) : Books T J where
  stack := s.stack
  link := s.link
  view := fun t => (s.pc t).view
  submitted := s.submitted
  installs := s.installs
  moves := s.moves

omit [DecidableEq J] in
theorem books_goto (s : State T J P) (t : T) (pc : Pc T J P) :
    (s.goto t pc).books = { s.books with view := Function.update s.books.view t pc.view } := by
  refine Books.ext rfl rfl (funext fun u => ?_) rfl rfl rfl
  by_cases hu : u = t
  · subst hu
    simp [books, goto]
  · simp [books, goto, Function.update_of_ne hu]

omit [DecidableEq J] in
/-- A move between program points with the same view is not in the books. -/
theorem books_goto_of_view {s : State T J P} {t : T} {pc : Pc T J P}
    (h : (s.pc t).view = pc.view) : (s.goto t pc).books = s.books := by
  rw [books_goto, ← h]
  exact Books.ext rfl rfl (Function.update_eq_self t _) rfl rfl rfl

omit [DecidableEq J] in
/-- A return leaves the books with no view of the thread. -/
theorem books_ret (s : State T J P) (t : T) :
    (s.ret t).books = { s.books with view := Function.update s.books.view t .none } := by
  unfold ret
  cases s.await t <;> exact books_goto _ _ _

omit [DecidableEq J] in
theorem books_ret_of_view {s : State T J P} {t : T} (h : (s.pc t).view = .none) :
    (s.ret t).books = s.books := by
  unfold ret
  cases s.await t <;> exact books_goto_of_view h

omit [DecidableEq T] in
theorem books_delegateCancelJob (s : State T J P) (r target : J) :
    (s.delegateCancelJob r target).books = s.books
      ∧ (s.delegateCancelJob r target).pc = s.pc := by
  unfold delegateCancelJob dropJob
  split
  · split <;> exact ⟨rfl, rfl⟩
  · exact ⟨rfl, rfl⟩

omit [DecidableEq T] in
theorem books_jobToUnblockAnotherJob {s s' : State T J P} {target : J}
    (h : s.jobToUnblockAnotherJob target = some s') : s'.books = s.books ∧ s'.pc = s.pc := by
  unfold jobToUnblockAnotherJob at h
  split at h
  · cases h
    exact ⟨rfl, rfl⟩
  · cases h

end State

open State

/-- A submission puts its job in the books as being pushed. -/
theorem delegateSubmit_sound {s s' : State T J P} {t : T} {j : J} {runNow : Bool}
    (h : delegateSubmit s t j runNow = some s') (hv : (s.pc t).view = .none)
    (hs : s.books.Sound) : s'.books.Sound := by
  unfold delegateSubmit at h
  split at h
  · cases h
  · rename_i hj
    have hc := hs.step (Books.Change.submit (t := t) (j := j) (Bool.eq_false_iff.mpr hj) hv)
    split at h <;> cases h <;> rw [books_goto] <;> exact hc

/-- The calls: only a submission is in the books. -/
theorem call_sound {cfg : Config J P C D} {s s' : State T J P} {t : T} {op : Op J D}
    (h : call cfg s t op = some s') (hs : s.books.Sound) : s'.books.Sound := by
  unfold call at h
  split at h
  all_goals rename_i hpc
  all_goals try (have hv : (s.pc t).view = .none := by rw [hpc]; rfl)
  · exact delegateSubmit_sound h hv hs
  all_goals try dsimp only at h
  · split at h
    · split at h
      · cases h
        exact hs
      · cases h
        rw [books_goto_of_view hv]
        exact hs
    · cases h
      rw [books_goto_of_view hv]
      exact hs
  · split at h
    · split at h
      · split at h
        · exact delegateSubmit_sound h hv hs
        · cases h
      · cases h
        exact hs
    · cases h
      rw [books_goto_of_view hv]
      exact hs
  · split at h
    · split at h
      · exact delegateSubmit_sound h hv hs
      · cases h
    · cases h
      rw [books_goto_of_view hv]
      exact hs
  · split at h
    · cases h
    · cases h
      exact hs
    · cases h
      rw [books_goto_of_view hv]
      exact hs
    · split at h
      · exact delegateSubmit_sound h hv hs
      · cases h
  · cases h

/-- An iteration of the queueing loop. -/
theorem drainJob_sound {cl : Client J P C D} {s : State T J P} {t : T} {k : Caller J P} {j : J}
    {last : Option J} {imm : List J} (hpc : s.pc t = .drainLoop k (.job j) last imm)
    (hs : s.books.Sound) : (drainJob cl s t k j last imm).books.Sound := by
  have hv : s.books.view t = .draining (.job j) imm := by
    show (s.pc t).view = _
    rw [hpc]
    rfl
  unfold drainJob
  split
  · rw [books_goto]
    exact hs.step (Books.Change.putAside hv)
  · rw [books_goto]
    exact hs.step (Books.Change.queue hv)

/-- What `run_queued_jobs` does with a status is not in the books. -/
theorem books_afterJob {s : State T J P} {t : T} (hv : (s.pc t).view = .none)
    (j : J) (w : Word P) (st : Status) : (afterJob s t j w st).books = s.books := by
  cases st <;> exact books_goto_of_view hv

/-- Nor is an iteration of its loop. -/
theorem books_runJob {cl : Client J P C D} {s s' : State T J P} {t : T} {c : C} {j : J}
    {old : Word P} (h : runJob cl s t c j old = some s') (hv : (s.pc t).view = .none) :
    s'.books = s.books := by
  unfold runJob at h
  split at h
  · cases h
    rw [books_afterJob (by exact hv)]
    rfl
  · cases h
    obtain ⟨hb, hp⟩ := books_delegateCancelJob s j ‹_›
    rw [books_afterJob (by rw [hp]; exact hv), hb]
  · obtain ⟨s₁, h₁, rfl⟩ := Option.map_eq_some_iff.mp h
    obtain ⟨hb, hp⟩ := books_jobToUnblockAnotherJob h₁
    rw [books_afterJob (by rw [hp]; exact hv), hb]

omit [DecidableEq T] in
theorem books_runImmediate {cl : Client J P C D} {s s' : State T J P} {j : J}
    (h : runImmediate cl s j = some s') : s'.books = s.books ∧ s'.pc = s.pc := by
  unfold runImmediate at h
  split at h
  · cases h
    exact books_delegateCancelJob _ _ _
  · exact books_jobToUnblockAnotherJob h
  · cases h

theorem afterDrain_sound {s : State T J P} {t : T} {k : Caller J P}
    (hv : s.books.view t = .none ∨ s.books.view t = .draining .null []) (hs : s.books.Sound) :
    (s.afterDrain t k).books.Sound := by
  have key : ∀ pc : Pc T J P, pc.view = .none → (s.goto t pc).books.Sound := by
    intro pc hpc
    rcases hv with hv | hv
    · rw [books_goto_of_view (by rw [hpc]; exact hv)]
      exact hs
    · rw [books_goto, hpc]
      exact hs.step (Books.Change.leave hv)
  cases k <;> exact key _ rfl

/-- The step is not a compare-and-swap that installs a job whose link differs
from the value it expects on the stack. -/
def linkFresh (s : State T J P) : Event T J C D → Bool
  | .call _ _ => true
  | .move t _ =>
    match s.pc t with
    | .pushSwap j _ old => decide (s.stack = old → s.link j = Ptr.ofTop old)
    | _ => true

/-- **The guard**: a compare-and-swap that installs a job finds the link of the
job equal to the value it expects on the stack. -/
def LinkFresh (s : State T J P) (e : Event T J C D) (_ : State T J P) : Prop :=
  linkFresh s e = true

instance (s : State T J P) (e : Event T J C D) (s' : State T J P) :
    Decidable (LinkFresh s e s') :=
  inferInstanceAs (Decidable (linkFresh s e = true))

variable [DecidableEq P]

/-- **The moves**, under the guard. -/
theorem move_sound {cfg : Config J P C D} {s s' : State T J P} {t : T} {c : C}
    (h : move cfg s t c = some s') (hok : LinkFresh (D := D) s (.move t c) s')
    (hs : s.books.Sound) : s'.books.Sound := by
  have hview : s.books.view t = (s.pc t).view := rfl
  cases hpc : s.pc t with
  | idle => simp [move, hpc] at h
  | submitLoop j =>
    rw [hpc] at hview
    simp only [move, hpc] at h
    split at h <;> cases h
    · rw [books_goto_of_view (by rw [hpc]; rfl)]
      exact hs
    · rw [books_goto]
      exact hs.step (Books.Change.fastPath hview)
  | pushRead j lock =>
    rw [hpc] at hview
    simp only [move, hpc] at h
    split at h <;> cases h
    · rw [books_goto]
      refine (hs.step (Books.Change.relink (t := t) (x := Ptr.ofTop s.stack) hview)).step
        (Books.Change.install (t := t) hview ?_)
      exact Function.update_self _ _ _
    · rw [books_goto_of_view (by rw [hpc]; rfl)]
      exact hs
  | pushLink j lock old =>
    rw [hpc] at hview
    simp only [move, hpc] at h
    cases h
    rw [books_goto_of_view (by simp only [hpc]; rfl)]
    exact hs.step (Books.Change.relink (t := t) hview)
  | pushSwap j lock old =>
    rw [hpc] at hview
    simp only [move, hpc] at h
    split at h <;> cases h
    · -- the swap succeeds, and the guard says what the link of the job is
      rename_i hold
      rw [books_goto]
      refine hs.step (Books.Change.install hview ?_)
      simp only [LinkFresh, linkFresh, hpc, decide_eq_true_eq] at hok
      rw [show s.books.stack = s.stack from rfl, hold]
      exact hok hold
    · rw [books_goto_of_view (by rw [hpc]; rfl)]
      exact hs
  | setBits j lock =>
    simp only [move, hpc] at h
    split at h <;> cases h
    · rw [books_goto_of_view (by simp only [hpc]; rfl)]
      exact hs
    · rw [books_ret_of_view (by simp only [hpc]; rfl)]
      exact hs
  | fastEnqueue j =>
    simp only [move, hpc] at h
    cases h
    rw [books_goto_of_view (by simp only [hpc]; rfl)]
    exact hs
  | runStart =>
    simp only [move, hpc] at h
    cases h
    rw [books_goto_of_view (by simp only [hpc]; rfl)]
    exact hs
  | drainTest k =>
    rw [hpc] at hview
    simp only [move, hpc] at h
    split at h <;> cases h
    · rw [books_goto_of_view (by simp only [hpc]; rfl)]
      exact hs
    · exact afterDrain_sound (Or.inl hview) hs
  | drainClear k =>
    simp only [move, hpc] at h
    cases h
    rw [books_goto_of_view (by simp only [hpc]; rfl)]
    exact hs
  | drainTake k =>
    rw [hpc] at hview
    simp only [move, hpc] at h
    cases h
    rw [books_goto]
    exact hs.step (Books.Change.take hview)
  | drainLoop k job last imm =>
    simp only [move, hpc] at h
    cases job with
    | null =>
      cases h
      rw [books_goto_of_view (by simp only [hpc]; rfl)]
      exact hs
    | bad => cases h
    | job j =>
      cases h
      exact drainJob_sound hpc hs
  | drainImmediate k imm =>
    rw [hpc] at hview
    simp only [move, hpc] at h
    cases imm with
    | nil =>
      cases h
      exact afterDrain_sound (Or.inr hview) hs
    | cons j imm =>
      obtain ⟨s₁, h₁, rfl⟩ := Option.map_eq_some_iff.mp h
      obtain ⟨hb, -⟩ := books_runImmediate h₁
      have hc := hs.step (Books.Change.runNow hview)
      rw [← hb] at hc
      rw [books_goto]
      exact hc
  | runQueued old =>
    simp only [move, hpc] at h
    split at h
    · cases h
      rw [books_goto_of_view (by simp only [hpc]; rfl)]
      exact hs
    · rw [books_runJob h (by simp only [hpc]; rfl)]
      exact hs
  | release old =>
    simp only [move, hpc] at h
    split at h
    · split at h <;> cases h
      · rw [books_goto_of_view (by simp only [hpc]; rfl)]
        exact hs
      · rw [books_ret_of_view (by simp only [hpc]; rfl)]
        exact hs
    · cases h
      rw [books_goto_of_view (by simp only [hpc]; rfl)]
      exact hs
  | unlock =>
    simp only [move, hpc] at h
    split at h
    · split at h <;> cases h
      rw [books_goto_of_view (by simp only [hpc]; rfl)]
      exact hs
    · cases h
      rw [books_ret_of_view (by simp only [hpc]; rfl)]
      exact hs
  | wakeup u =>
    simp only [move, hpc] at h
    cases h
    rw [books_ret_of_view (by simp only [hpc]; rfl)]
    exact hs
  | waitLock =>
    simp only [move, hpc] at h
    split at h <;> cases h
    rw [books_goto_of_view (by simp only [hpc]; rfl)]
    exact hs
  | cancelRemove target r =>
    simp only [move, hpc] at h
    cases h
    obtain ⟨hb, hp⟩ := books_delegateCancelJob s r target
    rw [books_goto_of_view (by rw [hp, hpc]; rfl), hb]
    exact hs
  | unblockNow target =>
    simp only [move, hpc] at h
    obtain ⟨s₁, h₁, rfl⟩ := Option.map_eq_some_iff.mp h
    obtain ⟨hb, hp⟩ := books_jobToUnblockAnotherJob h₁
    rw [books_goto_of_view (by rw [hp, hpc]; rfl), hb]
    exact hs
  | waitEvent j =>
    simp only [move, hpc] at h
    split at h <;> cases h
    rw [books_goto_of_view (by rw [hpc]; rfl)]
    exact hs

omit [DecidableEq T] [DecidableEq J] [DecidableEq P] in
/-- A delegate that was just initialised has empty books. -/
theorem init_sound (p : P) : (init p : State T J P).books.Sound := by
  refine ⟨fun _ => .fresh, [], fun _ => [], ?_⟩
  refine ⟨rfl, ?_, ?_, ?_, ?_, ?_, ?_, ?_, ?_, ?_⟩ <;> simp [init, books, Pc.view]

/-- **Jobs are neither lost nor duplicated**, on every run in which each
compare-and-swap that installs a job finds its link fresh. -/
theorem conserved_of_linkFresh (cfg : Config J P C D) (s : State T J P)
    (h : (machine T cfg).Reach LinkFresh s) : s.books.Conserved := by
  have hsound : s.books.Sound := by
    refine Machine.Reach.invariant (I := fun s => s.books.Sound) ?_ ?_ h
    · rintro s rfl
      exact init_sound _
    · intro s e s' hs he hok
      cases e with
      | call t op => exact call_sound he hs
      | move t c => exact move_sound he hok hs
  obtain ⟨stage, L, W, hagree⟩ := hsound
  exact hagree.conserved

/-! ## A run that drains a job twice -/

/-- A user whose jobs are done at their first invocation. -/
def promptClient (J : Type) : Client J Unit Unit Unit where
  func := fun _ => .user
  invoke := fun _ _ p => (p, false, .done)
  direct := fun _ w => some (w, .done)

/-- Three threads and two jobs. -/
abbrev promptConfig : Config (Fin 2) Unit Unit Unit := ⟨promptClient (Fin 2), (), false⟩

/-- Thread `2` runs the delegate: it drains and runs what is there, one job. -/
def drainOnce : List (Event (Fin 3) (Fin 2) Unit Unit) :=
  .call 2 (.run true) :: List.replicate 10 (.move 2 ())

/-- Thread `0` reads an empty stack; thread `1` pushes its job; thread `0` links
its own job to it; thread `2` drains and finishes the job of thread `1`; the
swap of thread `0` then finds the stack empty as expected. -/
def staleLinkRun : List (Event (Fin 3) (Fin 2) Unit Unit) :=
  [.call 0 (.submit 0 false), .move 0 (), .call 1 (.submit 1 false), .move 1 (), .move 1 (),
    .move 1 (), .move 1 (), .move 0 ()] ++ drainOnce ++ [.move 0 (), .move 0 ()] ++
  .call 2 (.run true) :: List.replicate 6 (.move 2 ())

/-- **The push can duplicate a job**: after `staleLinkRun` a job that was
installed once has been moved to `queued_jobs` twice. -/
theorem exists_job_moved_twice :
    ∃ s : State (Fin 3) (Fin 2) Unit,
      (machine (Fin 3) promptConfig).Reach Machine.anyStep s
        ∧ s.installs 1 = 1 ∧ s.moves 1 = 2 ∧ ¬ s.books.Conserved := by
  obtain ⟨s, hs, hp⟩ := Machine.Reach.exists_of_exec (machine (Fin 3) promptConfig)
    Machine.anyStep rfl (p := fun s => s.installs 1 == 1 && s.moves 1 == 2) staleLinkRun
    (by decide)
  rw [Bool.and_eq_true, beq_iff_eq, beq_iff_eq] at hp
  refine ⟨s, hs, hp.1, hp.2, fun hc => ?_⟩
  have hle : s.moves 1 ≤ s.installs 1 := hc.moves_le 1
  omega

/-- A push and a drain that do not interfere: the job is moved once. -/
theorem conserved_after_push :
    ∃ s : State (Fin 3) (Fin 2) Unit,
      s.installs 1 = 1 ∧ s.moves 1 = 1 ∧ s.books.Conserved := by
  obtain ⟨s, hs, hp⟩ := Machine.Reach.exists_of_exec (machine (Fin 3) promptConfig)
    LinkFresh rfl (p := fun s => s.installs 1 == 1 && s.moves 1 == 1)
    ([.call 1 (.submit 1 false), .move 1 (), .move 1 (), .move 1 (), .move 1 ()] ++ drainOnce)
    (by decide)
  rw [Bool.and_eq_true, beq_iff_eq, beq_iff_eq] at hp
  exact ⟨s, hp.1, hp.2, conserved_of_linkFresh promptConfig s hs⟩

end Delegate
