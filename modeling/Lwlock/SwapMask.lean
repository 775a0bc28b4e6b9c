import Lwlock.Machine
import Lwlock.Word

/-!
# The loop of a masked swap

A masked swap is written with the compare-and-swap of a whole word: what is to be retained
is copied from the value that was read, and when the word has changed meanwhile the copy is
made again. Others may write to the word before and after every access.

The call is atomic all the same: it changes the word once, at an instant when the replaced
bits are the expected ones, or not at all, and then it has seen other ones. Bits that are
retained only make it repeat.
-/

namespace SwapMask

variable {n : ℕ}

/-- **Where the call is**, with its locals. -/
inductive Pc (n : ℕ)
  | start
  /-- At the head of the loop. -/
  | test (curval : BitVec n)
  /-- Before the swap. -/
  | swap (curval newval : BitVec n)
  | done (result : Bool)
  deriving DecidableEq, Repr

/-- **A state of a call**: the word, `*old`, and the history of the word during the call. -/
structure State (n : ℕ) where
  var : BitVec n
  old : BitVec n
  pc : Pc n
  /-- History: the values of the word, the latest first. -/
  seen : List (BitVec n)
  /-- History: what the call changed, from what to what. -/
  changes : List (BitVec n × BitVec n)
  deriving DecidableEq, Repr

/-- Somebody else writes to the word, or the call takes a step. -/
inductive Event (n : ℕ)
  | write (v : BitVec n)
  | step
  deriving DecidableEq, Repr

/-- The test of the loop, and the two values for the swap. -/
def test (retain new : BitVec n) (s : State n) (curval : BitVec n) : State n :=
  if curval &&& ~~~retain ≠ s.old &&& ~~~retain then
    { s with old := curval &&& ~~~retain, pc := .done false }
  else
    let curval' := (curval &&& retain) ||| (s.old &&& ~~~retain)
    { s with pc := .swap curval' ((curval' &&& retain) ||| (new &&& ~~~retain)) }

/-- **`lw_uint32_swap`** on the word. -/
def swap (s : State n) (curval newval : BitVec n) : State n :=
  if s.var = curval then
    { s with
      var := newval
      pc := .done true
      seen := newval :: s.seen
      changes := (s.var, newval) :: s.changes }
  else { s with pc := .test s.var }

/-- A step of the call. -/
def step (retain new : BitVec n) (s : State n) : Option (State n) :=
  match s.pc with
  | .start => some { s with pc := .test s.var }
  | .test curval => some (test retain new s curval)
  | .swap curval newval => some (swap s curval newval)
  | .done _ => none

/-- **`lw_uint32_swap_with_mask`**, and `lw_uint64_swap_with_mask`, among writes of others. -/
def machine (retain old new : BitVec n) : Machine (State n) (Event n) where
  start := fun s => s.old = old ∧ s.pc = .start ∧ s.seen = [s.var] ∧ s.changes = []
  step := fun s e => match e with
    | .write v => some { s with var := v, seen := v :: s.seen }
    | .step => step retain new s

/-- **What a call has done**, and that a result says so. -/
structure Atomic (retain old new : BitVec n) (s : State n) : Prop where
  success : s.pc = .done true → s.old = old ∧ ∃ v ∈ s.seen,
    v &&& ~~~retain = old &&& ~~~retain
      ∧ s.changes = [(v, (v &&& retain) ||| (new &&& ~~~retain))]
  failure : s.pc = .done false → s.changes = [] ∧ ∃ v ∈ s.seen,
    s.old = v &&& ~~~retain ∧ v &&& ~~~retain ≠ old &&& ~~~retain
  running : (∀ r, s.pc ≠ .done r) → s.changes = [] ∧ s.old = old

/-- **The invariant**: what was read is a value of the word, and what is expected has the
expected bits. -/
structure Inv (retain old new : BitVec n) (s : State n) : Prop where
  atomic : Atomic retain old new s
  var : s.var ∈ s.seen
  test : ∀ v, s.pc = .test v → v ∈ s.seen
  swap : ∀ v w, s.pc = .swap v w →
    v &&& ~~~retain = old &&& ~~~retain ∧ w = (v &&& retain) ||| (new &&& ~~~retain)

variable {retain old new : BitVec n} {s s' : State n}

/-- Putting the replaced bits back where they are changes nothing. -/
theorem and_or_and_not {v w m : BitVec n} (h : v &&& ~~~m = w &&& ~~~m) :
    (v &&& m) ||| (w &&& ~~~m) = v := by
  rw [← h]
  ext i hi
  simp only [BitVec.getElem_or, BitVec.getElem_and, BitVec.getElem_not]
  cases m[i] <;> simp

/-- Somebody else's write leaves the call as it is. -/
theorem Inv.write (h : Inv retain old new s) (v : BitVec n) :
    Inv retain old new { s with var := v, seen := v :: s.seen } := by
  refine ⟨⟨fun hp => ?_, fun hp => ?_, h.atomic.running⟩, List.mem_cons_self,
    fun w hp => List.mem_cons_of_mem v (h.test w hp), h.swap⟩
  · obtain ⟨hold, w, hw, hrest⟩ := h.atomic.success hp
    exact ⟨hold, w, List.mem_cons_of_mem v hw, hrest⟩
  · obtain ⟨hch, w, hw, hrest⟩ := h.atomic.failure hp
    exact ⟨hch, w, List.mem_cons_of_mem v hw, hrest⟩

/-- The test finds other bits, or prepares a swap of the value that was read. -/
theorem Inv.testing (h : Inv retain old new s) {v : BitVec n} (hpc : s.pc = .test v) :
    Inv retain old new (SwapMask.test retain new s v) := by
  have hv := h.test v hpc
  obtain ⟨hch, hold⟩ := h.atomic.running fun r => by rw [hpc]; nofun
  rw [SwapMask.test]
  split
  · next hne =>
    rw [hold] at hne
    exact ⟨⟨nofun, fun _ => ⟨hch, v, hv, rfl, hne⟩, fun hno => absurd rfl (hno false)⟩, h.var,
      nofun, nofun⟩
  · next heq =>
    have hsame := and_or_and_not (not_not.mp heq)
    rw [hsame]
    rw [hold] at heq
    refine ⟨⟨nofun, nofun, fun _ => ⟨hch, hold⟩⟩, h.var, nofun, fun w w' hp => ?_⟩
    obtain ⟨rfl, rfl⟩ := Pc.swap.inj hp
    exact ⟨not_not.mp heq, rfl⟩

/-- The swap changes the word, or reads it again. -/
theorem Inv.swapping (h : Inv retain old new s) {v w : BitVec n} (hpc : s.pc = .swap v w) :
    Inv retain old new (SwapMask.swap s v w) := by
  obtain ⟨hv, hw⟩ := h.swap v w hpc
  obtain ⟨hch, hold⟩ := h.atomic.running fun r => by rw [hpc]; nofun
  rw [SwapMask.swap]
  split
  · next heq =>
    refine ⟨⟨fun _ => ⟨hold, v, List.mem_cons_of_mem w (heq ▸ h.var), hv, ?_⟩, nofun,
      fun hno => absurd rfl (hno true)⟩, List.mem_cons_self, nofun, nofun⟩
    rw [hch, heq, hw]
  · refine ⟨⟨nofun, nofun, fun _ => ⟨hch, hold⟩⟩, h.var, fun u hp => ?_, nofun⟩
    rw [← Pc.test.inj hp]
    exact h.var

/-- **Every step** keeps the invariant. -/
theorem Inv.step {e : Event n} (h : Inv retain old new s)
    (he : (machine retain old new).step s e = some s') : Inv retain old new s' := by
  cases e with
  | write v =>
    obtain rfl := Option.some.inj he
    exact h.write v
  | step =>
    have hstep : SwapMask.step retain new s = some s' := he
    cases hpc : s.pc with
    | start =>
      rw [SwapMask.step, hpc] at hstep
      obtain rfl := Option.some.inj hstep
      refine ⟨⟨nofun, nofun, fun _ => h.atomic.running fun r => by rw [hpc]; nofun⟩, h.var,
        fun v hp => ?_, nofun⟩
      rw [← Pc.test.inj hp]
      exact h.var
    | test v =>
      rw [SwapMask.step, hpc] at hstep
      obtain rfl := Option.some.inj hstep
      exact h.testing hpc
    | swap v w =>
      rw [SwapMask.step, hpc] at hstep
      obtain rfl := Option.some.inj hstep
      exact h.swapping hpc
    | done r =>
      rw [SwapMask.step, hpc] at hstep
      cases hstep

/-- The invariant holds in every state of a call. -/
theorem inv_of_reach (h : (machine retain old new).Reach Machine.anyStep s) :
    Inv retain old new s := by
  refine h.invariant (I := Inv retain old new) ?_ fun s e s' hs he _ => hs.step he
  rintro s ⟨hold, hpc, hseen, hch⟩
  refine ⟨⟨fun hp => ?_, fun hp => ?_, fun _ => ⟨hch, hold⟩⟩, ?_, fun v hp => ?_, fun v w hp => ?_⟩
  · rw [hpc] at hp
    cases hp
  · rw [hpc] at hp
    cases hp
  · rw [hseen]
    exact List.mem_singleton_self _
  · rw [hpc] at hp
    cases hp
  · rw [hpc] at hp
    cases hp

/-- A step of the call notes what it changes. -/
theorem step_changes (he : step retain new s = some s') :
    (s'.var = s.var ∧ s'.changes = s.changes) ∨ s'.changes = (s.var, s'.var) :: s.changes := by
  cases hpc : s.pc with
  | start =>
    rw [step, hpc] at he
    obtain rfl := Option.some.inj he
    exact .inl ⟨rfl, rfl⟩
  | test v =>
    rw [step, hpc] at he
    obtain rfl := Option.some.inj he
    rw [test]
    split <;> exact .inl ⟨rfl, rfl⟩
  | swap v w =>
    rw [step, hpc] at he
    obtain rfl := Option.some.inj he
    rw [swap]
    split
    · exact .inr rfl
    · exact .inl ⟨rfl, rfl⟩
  | done r =>
    rw [step, hpc] at he
    cases he

/-- The call returns within a number of steps of its own, if nobody disturbs it. -/
def Returns (retain old new : BitVec n) (k : ℕ) (s : State n) : Prop :=
  ∃ m ≤ k, ∃ s' r, (machine retain old new).exec Machine.anyStep s (List.replicate m .step) = some s'
    ∧ s'.pc = .done r

theorem returns_done {r : Bool} (k : ℕ) (hpc : s.pc = .done r) : Returns retain old new k s :=
  ⟨0, Nat.zero_le k, s, r, rfl, hpc⟩

theorem Returns.step {k : ℕ} (he : SwapMask.step retain new s = some s')
    (h : Returns retain old new k s') : Returns retain old new (k + 1) s := by
  obtain ⟨m, hm, s'', r, hexec, hpc⟩ := h
  refine ⟨m + 1, Nat.succ_le_succ hm, s'', r, ?_, hpc⟩
  rw [List.replicate_succ, Machine.exec]
  show (SwapMask.step retain new s).bind _ = _
  rw [he, Option.bind_some]
  exact (if_pos trivial).trans hexec

/-- A swap of the value that the word has succeeds. -/
theorem returns_swap {v w : BitVec n} (hpc : s.pc = .swap v w) (hv : s.var = v) :
    Returns retain old new 1 s := by
  have he : step retain new s = some (swap s v w) := by rw [step, hpc]
  refine Returns.step he (returns_done 0 ?_ (r := true))
  rw [swap, if_pos hv]

/-- Behind the test is the end, or a swap of the value that was read. -/
theorem returns_test {v : BitVec n} {k : ℕ} (hpc : s.pc = .test v)
    (h : ∀ w, Returns retain old new k { s with pc := .swap v w }) :
    Returns retain old new (k + 1) s := by
  have he : step retain new s = some (test retain new s v) := by rw [step, hpc]
  refine Returns.step he ?_
  rw [test]
  split
  · exact returns_done k rfl
  · next heq =>
    rw [and_or_and_not (not_not.mp heq)]
    exact h _

/-- **Undisturbed, a call returns** after the round that it is in and one round more. -/
theorem returns (s : State n) : Returns retain old new 4 s := by
  -- a round that begins with the value of the word
  have hround : ∀ s : State n, Returns retain old new 2 { s with pc := .test s.var } :=
    fun s => returns_test rfl fun w => returns_swap rfl rfl
  have hswap : ∀ (s : State n) v w, s.pc = .swap v w → Returns retain old new 3 s := by
    intro s v w hpc
    have he : step retain new s = some (swap s v w) := by rw [step, hpc]
    refine Returns.step he ?_
    rw [swap]
    split
    · exact returns_done 2 rfl
    · exact hround s
  have hmore : ∀ {k : ℕ} {s : State n}, k ≤ 4 → Returns retain old new k s →
      Returns retain old new 4 s :=
    fun hk ⟨m, hm, hrest⟩ => ⟨m, hm.trans hk, hrest⟩
  cases hpc : s.pc with
  | start =>
    have he : step retain new s = some { s with pc := .test s.var } := by rw [step, hpc]
    exact hmore (by decide) (Returns.step he (hround s))
  | test v => exact returns_test hpc fun w => hswap _ v w rfl
  | swap v w => exact hmore (by decide) (hswap s v w hpc)
  | done r => exact returns_done 4 hpc

/-- **A masked swap is atomic.** -/
theorem atomic_of_reach (h : (machine retain old new).Reach Machine.anyStep s) :
    Atomic retain old new s
      ∧ (∀ s', step retain new s = some s' →
        (s'.var = s.var ∧ s'.changes = s.changes) ∨ s'.changes = (s.var, s'.var) :: s.changes)
      ∧ Returns retain old new 4 s :=
  ⟨(inv_of_reach h).atomic, fun _ he => step_changes he, returns s⟩

/-- A bit that is retained changes between the read and the swap, and the call succeeds in
the second round. -/
theorem atomic_retry : ∃ s : State 4, s.pc = .done true
    ∧ s.changes = [(0b1101#4, 0b1110#4)] ∧ Atomic 0b1100#4 0b0001#4 0b0010#4 s := by
  obtain ⟨s, hs, hp⟩ := Machine.Reach.exists_of_exec (machine 0b1100#4 0b0001#4 0b0010#4)
    Machine.anyStep (s := ⟨0b0101#4, 0b0001#4, .start, [0b0101#4], []⟩) ⟨rfl, rfl, rfl, rfl⟩
    (p := fun s => decide (s.pc = .done true ∧ s.changes = [(0b1101#4, 0b1110#4)]))
    [.step, .step, .write 0b1101#4, .step, .step, .step] (by decide)
  obtain ⟨hpc, hch⟩ := of_decide_eq_true hp
  exact ⟨s, hpc, hch, (atomic_of_reach hs).1⟩

end SwapMask
