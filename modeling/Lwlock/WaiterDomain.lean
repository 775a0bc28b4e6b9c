import Lwlock.Machine

/-!
# The global waiter domain

Every queue of the library links its waiters by 16-bit ids, and one value,
`LW_WAITER_ID_MAX`, marks the end of a list. The built-in domain keeps its
waiters in rows of 256, of which it can have 256, and numbers them through: the
waiter in column `i` of row `r` has the id `256 r + i`. Rows are added when the
free list runs out, and a waiter that is freed goes to the end of that list.

The numbering fills the 16 bits completely, the end mark included. The last
waiter of the last row is the one whose id is the end mark: `fromId` does not
find it, and a queue that holds it ends before it. `ids_good` says that this is
the only thing that goes wrong, and `exists_live_idMax` that it does.

A call is one step, as the domain's lock makes it: the part of an allocation
after the lock is given back only touches the waiter it returns. The users of
a live waiter may set its other fields between the calls, and `free` is only
called for a live waiter, whose event it destroys.
-/

namespace WaiterDomain

/-- `LW_WAITERS_PER_ARRAY`. -/
abbrev waitersPerArray : Nat := 256

/-- `LW_WAITERS_GLOBAL_SIZE`: the length of the array of rows. -/
abbrev waitersGlobalSize : Nat := 256

/-- `LW_WAITER_ID_MAX`: the largest `lw_waiter_id_t`. -/
abbrev waiterIdMax : Nat := 2 ^ 16 - 1

/-- Where a waiter structure is: `lw_wgd_waiters[row][col]`. -/
structure Place where
  /-- The row, in the order of allocation. -/
  row : Nat
  /-- The index within the row. -/
  col : Nat
deriving DecidableEq

/-- The fields of a waiter that the domain reads or sets. -/
structure Waiter where
  /-- The id, of 16 bits. -/
  id : Nat
  /-- The id of the next waiter of a list. -/
  next : Nat
  /-- The id of the waiter before it. -/
  prev : Nat
  /-- Whether the structure is handed out. -/
  initialized : Bool
  /-- Whether the event's `wait_src` is set. -/
  waitSrc : Bool
  /-- Whether a signal waits to be consumed. -/
  signalPending : Bool
  /-- Whether its thread waits. -/
  waiterWaiting : Bool

/-- The domain, and which waiters the calls so far have handed out. -/
structure State where
  /-- The waiter structures; of a row not yet allocated, whatever is there. -/
  waiters : Place → Waiter
  /-- The number of rows allocated. -/
  waitersCnt : Nat
  /-- The free list, its head first. -/
  freeList : List Place
  /-- The waiters returned by `alloc` and not freed since. -/
  live : List Place

namespace State

/-- One turn of the loop over a new row. -/
def initElem (gd : State) (i : Nat) : State :=
  let waiter : Place := ⟨gd.waitersCnt, i⟩
  { gd with
    waiters := Function.update gd.waiters waiter
      { gd.waiters waiter with
        id := (gd.waitersCnt * waitersPerArray + i) % 2 ^ 16
        initialized := false }
    freeList := gd.freeList ++ [waiter] }

/-- The first turns of the loop over a new row. -/
def initRow (gd : State) : Nat → State
  | 0 => gd
  | i + 1 => (initRow gd i).initElem i

/-- `lw_waiter_global_domain_alloc_one_array`; none where its check fails. -/
def allocOneArray (gd : State) : Option State :=
  if gd.waitersCnt < waitersGlobalSize then
    some { gd.initRow waitersPerArray with waitersCnt := gd.waitersCnt + 1 }
  else none

/-- `lw_dl_dequeue` on the free list. -/
def dequeue (gd : State) : Option Place × State :=
  match gd.freeList with
  | [] => (none, gd)
  | waiter :: l => (some waiter, { gd with freeList := l })

/-- The end of an allocation, after the lock is given back: the checks and the
initialization of what was dequeued. -/
def initWaiter (gd : State) : Option Place → Option (Option Place × State)
  | none => none
  | some waiter =>
    if (gd.waiters waiter).initialized = false then
      some (some waiter, { gd with
        waiters := Function.update gd.waiters waiter
          { id := (gd.waiters waiter).id
            next := waiterIdMax
            prev := waiterIdMax
            initialized := true
            waitSrc := false
            signalPending := false
            waiterWaiting := false }
        live := waiter :: gd.live })
    else none

/-- `lw_waiter_domain_alloc_global`: the waiter returned, `NULL` after a
shutdown; none where a check fails. -/
def alloc (gd : State) : Option (Option Place × State) :=
  match gd.dequeue with
  | (some waiter, gd) => gd.initWaiter (some waiter)
  | (none, gd) =>
    if gd.waitersCnt = 0 then some (none, gd)
    else gd.allocOneArray.bind fun gd => gd.dequeue.2.initWaiter gd.dequeue.1

/-- `lw_waiter_domain_free_global`; none where a check fails. -/
def free (gd : State) (waiter : Place) : Option State :=
  if 0 < gd.waitersCnt then
    let w := gd.waiters waiter
    if w.waitSrc = false ∧ w.next = waiterIdMax ∧ w.signalPending = false ∧
        w.waiterWaiting = false then
      some { gd with
        waiters := Function.update gd.waiters waiter { w with initialized := false }
        freeList := gd.freeList ++ [waiter]
        live := gd.live.erase waiter }
    else none
  else some gd

/-- `lw_waiter_domain_from_id_global`. -/
def fromId (id : Nat) : Option Place :=
  if id = waiterIdMax then none
  else some ⟨id / waitersPerArray, id % waitersPerArray⟩

end State

open State

/-- A call to the domain, or a use of a live waiter by its owner. -/
inductive Call where
  /-- `lw_waiter_alloc`. -/
  | alloc
  /-- `lw_waiter_free`, for a live waiter. -/
  | free (waiter : Place)
  /-- The owner, or a queue it waits in, sets the other fields. -/
  | use (waiter : Place) (next prev : Nat) (waitSrc signalPending waiterWaiting : Bool)
deriving DecidableEq

/-- The state after a call that fails no check. -/
def step (s : State) : Call → Option State
  | .alloc => s.alloc.map Prod.snd
  | .free waiter => if waiter ∈ s.live then s.free waiter else none
  | .use waiter next prev waitSrc signalPending waiterWaiting =>
    if waiter ∈ s.live then
      some { s with
        waiters := Function.update s.waiters waiter
          { id := (s.waiters waiter).id
            next := next
            prev := prev
            initialized := (s.waiters waiter).initialized
            waitSrc := waitSrc
            signalPending := signalPending
            waiterWaiting := waiterWaiting } }
    else none

/-- `lw_waiter_domain_init_global`: no row, then one. -/
def Init (s : State) : Prop :=
  ∃ waiters, allocOneArray { waiters := waiters, waitersCnt := 0, freeList := [], live := [] } =
    some s

/-- The domain as a machine. -/
def machine : Machine State Call where
  start := Init
  step := step

/-- The waiter is of an allocated row. -/
def Allocated (s : State) (p : Place) : Prop :=
  p.row < s.waitersCnt ∧ p.col < waitersPerArray

/-- **What the domain promises.** -/
structure Good (s : State) : Prop where
  /-- No two live waiters have the same id. -/
  distinct : ∀ p ∈ s.live, ∀ q ∈ s.live, (s.waiters p).id = (s.waiters q).id → p = q
  /-- No live waiter has the end mark for its id. -/
  valid : ∀ p ∈ s.live, (s.waiters p).id ≠ waiterIdMax
  /-- A live waiter is found by its id. -/
  resolved : ∀ p ∈ s.live, fromId (s.waiters p).id = some p
  /-- The live waiters are of allocated rows and are marked so. -/
  live : ∀ p ∈ s.live, Allocated s p ∧ (s.waiters p).initialized = true
  /-- A waiter of an allocated row is live or free, exactly once. -/
  once : ∀ p, Allocated s p → (s.freeList ++ s.live).count p = 1
  /-- A waiter that is returned was not live before. -/
  fresh : ∀ r s', s.alloc = some (r, s') → ∃ p, r = some p ∧ p ∉ s.live ∧ s'.live = p :: s.live
  /-- With no waiter left and no row to add, the allocation fails its check. -/
  exhausted : s.freeList = [] → s.waitersCnt = waitersGlobalSize → s.alloc = none

/-- The last waiter of the last row. -/
def lastWaiter : Place := ⟨waitersGlobalSize - 1, waitersPerArray - 1⟩

/-- The call does not hand out the last waiter: where it is an allocation,
that waiter is not at the head of the free list. -/
def SparesLast (s : State) (c : Call) (_ : State) : Prop :=
  c = .alloc → s.freeList.head? ≠ some lastWaiter

instance (s : State) (c : Call) (s' : State) : Decidable (SparesLast s c s') :=
  inferInstanceAs (Decidable (c = .alloc → s.freeList.head? ≠ some lastWaiter))

/-! ## What a step can do -/

/-- The free list gets a row's waiters from the loop, in order. -/
theorem initRow_freeList (gd : State) (n : Nat) :
    (gd.initRow n).freeList = gd.freeList ++ (List.range n).map (Place.mk gd.waitersCnt) ∧
      (gd.initRow n).waitersCnt = gd.waitersCnt ∧ (gd.initRow n).live = gd.live := by
  induction n with
  | zero => simp [initRow]
  | succ n ih =>
    obtain ⟨hfree, hcnt, hlive⟩ := ih
    refine ⟨?_, hcnt, hlive⟩
    show (gd.initRow n).freeList ++ [⟨(gd.initRow n).waitersCnt, n⟩] = _
    rw [hfree, hcnt, List.range_succ, List.map_append, List.append_assoc, List.map_singleton]

/-- The loop numbers the waiters of the new row and leaves the others alone. -/
theorem initRow_waiters (gd : State) (n : Nat) (p : Place) :
    (gd.initRow n).waiters p =
      if p.row = gd.waitersCnt ∧ p.col < n then
        { gd.waiters p with
          id := (gd.waitersCnt * waitersPerArray + p.col) % 2 ^ 16
          initialized := false }
      else gd.waiters p := by
  induction n with
  | zero => simp [initRow]
  | succ n ih =>
    have hcnt := (initRow_freeList gd n).2.1
    show Function.update (gd.initRow n).waiters ⟨(gd.initRow n).waitersCnt, n⟩ _ p = _
    rw [hcnt]
    by_cases hp : p = ⟨gd.waitersCnt, n⟩
    · subst hp
      simp [ih]
    · rw [Function.update_of_ne hp, ih]
      have hcol : p.row = gd.waitersCnt → p.col ≠ n := by
        intro hrow hcol
        exact hp (by cases p; simp_all)
      by_cases hrow : p.row = gd.waitersCnt
      · have := hcol hrow
        simp only [hrow, true_and, show p.col < n + 1 ↔ p.col < n by omega]
      · simp only [hrow, false_and, if_false]

/-- **The invariant**: the free list and the live waiters are the waiters of
the allocated rows, each once, and these are numbered through. -/
structure Inv (s : State) : Prop where
  cnt : s.waitersCnt ≤ waitersGlobalSize
  nodup : (s.freeList ++ s.live).Nodup
  mem : ∀ p, p ∈ s.freeList ++ s.live ↔ Allocated s p
  id : ∀ p, Allocated s p → (s.waiters p).id = p.row * waitersPerArray + p.col
  marked : ∀ p, Allocated s p → ((s.waiters p).initialized = true ↔ p ∈ s.live)

/-- A new row keeps the invariant. -/
theorem Inv.allocOneArray {s s' : State} (h : Inv s) (hs : s.allocOneArray = some s') :
    Inv s' ∧ s.waitersCnt < waitersGlobalSize ∧ s'.waitersCnt = s.waitersCnt + 1 ∧
      s'.live = s.live ∧
      s'.freeList = s.freeList ++ (List.range waitersPerArray).map (Place.mk s.waitersCnt) := by
  rw [State.allocOneArray] at hs
  split at hs
  case isFalse => cases hs
  case isTrue hlt =>
    obtain rfl := Option.some.inj hs
    obtain ⟨hfree, -, hlive⟩ := initRow_freeList s waitersPerArray
    have hw := initRow_waiters s waitersPerArray
    generalize s.initRow waitersPerArray = gd at *
    -- a waiter of the rows allocated now is of an old row or of the new one
    have hnew : ∀ p : Place, (p.row < s.waitersCnt + 1 ∧ p.col < waitersPerArray) ↔
        Allocated s p ∨ (p.row = s.waitersCnt ∧ p.col < waitersPerArray) := by
      intro p
      unfold Allocated
      omega
    have hrow : ∀ p : Place, p ∈ (List.range waitersPerArray).map (Place.mk s.waitersCnt) ↔
        p.row = s.waitersCnt ∧ p.col < waitersPerArray := by
      intro p
      simp only [List.mem_map, List.mem_range]
      constructor
      · rintro ⟨i, hi, rfl⟩
        exact ⟨rfl, hi⟩
      · rintro ⟨hr, hc⟩
        exact ⟨p.col, hc, by rw [← hr]⟩
    have hapart : ∀ p, p ∈ s.freeList ++ s.live → ¬ (p.row = s.waitersCnt ∧ p.col < waitersPerArray) := by
      intro p hp hpr
      have := ((h.mem p).mp hp).1
      omega
    refine ⟨⟨hlt, ?nodup, ?mem, ?id, ?marked⟩, hlt, rfl, hlive, hfree⟩
    case nodup =>
      show (gd.freeList ++ gd.live).Nodup
      rw [hfree, hlive, List.append_assoc]
      have hnd : ((List.range waitersPerArray).map (Place.mk s.waitersCnt)).Nodup :=
        List.nodup_range.map fun i j hij => (Place.mk.inj hij).2
      have hold := h.nodup
      rw [List.nodup_append] at hold ⊢
      refine ⟨hold.1, List.nodup_append.mpr ⟨hnd, hold.2.1, ?_⟩, ?_⟩
      · intro p hp q hq hpq
        subst hpq
        exact hapart p (List.mem_append_right _ hq) ((hrow p).mp hp)
      · intro p hp q hq hpq
        subst hpq
        rcases List.mem_append.mp hq with hq | hq
        · exact hapart p (List.mem_append_left _ hp) ((hrow p).mp hq)
        · exact hold.2.2 p hp p hq rfl
    case mem =>
      intro p
      show p ∈ gd.freeList ++ gd.live ↔
        p.row < s.waitersCnt + 1 ∧ p.col < waitersPerArray
      rw [hnew p, ← h.mem p, ← hrow p, hfree, hlive]
      simp only [List.mem_append]
      tauto
    case id =>
      intro p hp
      show (gd.waiters p).id = _
      rw [hw p]
      rcases (hnew p).mp hp with hold | hin
      · rw [if_neg (hapart p ((h.mem p).mpr hold))]
        exact h.id p hold
      · rw [if_pos hin, hin.1]
        -- the product stays within the 16 bits, so nothing is cut off
        have hr : s.waitersCnt < 256 := hlt
        have hc : p.col < 256 := hin.2
        exact Nat.mod_eq_of_lt (show s.waitersCnt * 256 + p.col < 65536 by omega)
    case marked =>
      intro p hp
      show (gd.waiters p).initialized = true ↔
        p ∈ gd.live
      rw [hw p, hlive]
      rcases (hnew p).mp hp with hold | hin
      · rw [if_neg (hapart p ((h.mem p).mpr hold))]
        exact h.marked p hold
      · rw [if_pos hin]
        have hnot : p ∉ s.live := fun hpl => hapart p (List.mem_append_right _ hpl) hin
        simp only [Bool.false_eq_true, hnot]

/-- **Handing out the head of the free list.** -/
theorem Inv.initWaiter {s : State} (h : Inv s) {p : Place} {l : List Place}
    (hfree : s.freeList = p :: l) :
    ∃ s', ({ s with freeList := l } : State).initWaiter (some p) = some (some p, s') ∧ Inv s' ∧
      s'.freeList = l ∧ s'.live = p :: s.live ∧ s'.waitersCnt = s.waitersCnt := by
  have hnd := h.nodup
  have hpa : Allocated s p := (h.mem p).mp (by simp [hfree])
  have hpl : p ∉ s.live := by
    intro hp
    rw [hfree] at hnd
    exact (List.nodup_cons.mp hnd).1 (List.mem_append_right _ hp)
  have hni : (s.waiters p).initialized = false := by
    rw [← Bool.not_eq_true]
    exact fun hi => hpl ((h.marked p hpa).mp hi)
  refine ⟨_, if_pos hni, ⟨h.cnt, ?_, ?_, ?_, ?_⟩, rfl, rfl, rfl⟩
  · show (l ++ p :: s.live).Nodup
    rw [hfree] at hnd
    exact (List.perm_middle).nodup_iff.mpr hnd
  · intro q
    show q ∈ l ++ p :: s.live ↔ Allocated s q
    rw [← h.mem q, hfree]
    simp only [List.mem_append, List.mem_cons]
    tauto
  · intro q hq
    show (Function.update s.waiters p _ q).id = _
    by_cases hqp : q = p
    · subst hqp
      simpa using h.id q hq
    · rw [Function.update_of_ne hqp]
      exact h.id q hq
  · intro q hq
    show (Function.update s.waiters p _ q).initialized = true ↔ q ∈ p :: s.live
    by_cases hqp : q = p
    · subst hqp
      simp
    · rw [Function.update_of_ne hqp, h.marked q hq, List.mem_cons]
      simp only [hqp, false_or]

/-- **What an allocation can do**: hand out the head of the free list, or the
first waiter of a new row, or fail its check. -/
theorem Inv.alloc_cases {s : State} (h : Inv s) (hpos : 0 < s.waitersCnt) :
    (∃ p l s', s.freeList = p :: l ∧ s.alloc = some (some p, s') ∧ Inv s' ∧
      s'.freeList = l ∧ s'.live = p :: s.live ∧ s'.waitersCnt = s.waitersCnt) ∨
    (∃ s', s.freeList = [] ∧ s.waitersCnt < waitersGlobalSize ∧
      s.alloc = some (some ⟨s.waitersCnt, 0⟩, s') ∧ Inv s' ∧
      s'.freeList = ((List.range waitersPerArray).map (Place.mk s.waitersCnt)).tail ∧
      s'.live = ⟨s.waitersCnt, 0⟩ :: s.live ∧ s'.waitersCnt = s.waitersCnt + 1) ∨
    (s.freeList = [] ∧ s.waitersCnt = waitersGlobalSize ∧ s.alloc = none) := by
  cases hfree : s.freeList with
  | cons p l =>
    obtain ⟨s', hs', hrest⟩ := h.initWaiter hfree
    exact .inl ⟨p, l, s', rfl, by simp only [State.alloc, dequeue, hfree, hs'], hrest⟩
  | nil =>
    refine .inr ?_
    have hne : s.waitersCnt ≠ 0 := by omega
    have halloc : s.alloc = s.allocOneArray.bind fun gd => gd.dequeue.2.initWaiter gd.dequeue.1 := by
      simp only [State.alloc, dequeue, hfree, hne, if_false]
    cases hrow : s.allocOneArray with
    | none =>
      refine .inr ⟨rfl, ?_, by rw [halloc, hrow, Option.bind_none]⟩
      have hcnt := h.cnt
      rw [State.allocOneArray] at hrow
      split at hrow
      · cases hrow
      · omega
    | some gd =>
      obtain ⟨hgd, hlt, hcnt, hlive, hfree'⟩ := h.allocOneArray hrow
      -- the new row is not empty: its first waiter is at the head now
      have hhead : gd.freeList = ⟨s.waitersCnt, 0⟩ ::
          ((List.range waitersPerArray).map (Place.mk s.waitersCnt)).tail := by
        rw [hfree', hfree, List.nil_append]
        rfl
      obtain ⟨s', hs', hinv, hf, hl, hc⟩ := hgd.initWaiter hhead
      refine .inl ⟨s', rfl, hlt, ?_, hinv, hf, by rw [hl, hlive], by rw [hc, hcnt]⟩
      rw [halloc, hrow, Option.bind_some]
      simp only [dequeue, hhead, hs']

/-- **Giving a live waiter back keeps the invariant.** -/
theorem Inv.free {s s' : State} (h : Inv s) {p : Place} (hp : p ∈ s.live)
    (hs : s.free p = some s') (hpos : 0 < s.waitersCnt) :
    Inv s' ∧ s'.live = s.live.erase p ∧ s'.waitersCnt = s.waitersCnt := by
  rw [State.free, if_pos hpos] at hs
  dsimp only at hs
  split at hs
  case isFalse => cases hs
  case isTrue =>
    obtain rfl := Option.some.inj hs
    have hperm : (s.freeList ++ [p] ++ s.live.erase p).Perm (s.freeList ++ s.live) := by
      rw [List.append_assoc]
      exact (List.perm_cons_erase hp).symm.append_left _
    refine ⟨⟨h.cnt, hperm.nodup_iff.mpr h.nodup, ?_, ?_, ?_⟩, rfl, rfl⟩
    · intro q
      exact (hperm.mem_iff).trans (h.mem q)
    · intro q hq
      show (Function.update s.waiters p _ q).id = _
      by_cases hqp : q = p
      · subst hqp
        simpa using h.id q hq
      · rw [Function.update_of_ne hqp]
        exact h.id q hq
    · intro q hq
      have hnd : s.live.Nodup := (List.nodup_append.mp h.nodup).2.1
      show (Function.update s.waiters p _ q).initialized = true ↔ q ∈ s.live.erase p
      rw [hnd.mem_erase_iff]
      by_cases hqp : q = p
      · subst hqp
        simp
      · rw [Function.update_of_ne hqp, h.marked q hq]
        simp only [ne_eq, hqp, not_false_eq_true, true_and]

/-- **Every step keeps the invariant**, and says how the live waiters change. -/
theorem Inv.step {s s' : State} {c : Call} (h : Inv s) (hpos : 0 < s.waitersCnt)
    (hs : step s c = some s') :
    Inv s' ∧ 0 < s'.waitersCnt ∧
      (∀ p ∈ s'.live, p ∈ s.live ∨ c = .alloc ∧ (s.freeList.head? = some p ∨ p.col = 0)) := by
  cases c with
  | alloc =>
    obtain ⟨⟨r, s₁⟩, hr, rfl⟩ := Option.map_eq_some_iff.mp hs
    rcases h.alloc_cases hpos with ⟨p, l, s₂, hfree, ha, hinv, -, hlive, hcnt⟩ |
      ⟨s₂, -, -, ha, hinv, -, hlive, hcnt⟩ | ⟨-, -, ha⟩
    · obtain ⟨-, rfl⟩ := Prod.mk.inj (Option.some.inj (hr.symm.trans ha))
      refine ⟨hinv, hcnt ▸ hpos, fun q hq => ?_⟩
      rcases List.mem_cons.mp (hlive ▸ hq) with rfl | hq
      · exact .inr ⟨rfl, .inl (by rw [hfree, List.head?_cons])⟩
      · exact .inl hq
    · obtain ⟨-, rfl⟩ := Prod.mk.inj (Option.some.inj (hr.symm.trans ha))
      refine ⟨hinv, hcnt ▸ Nat.succ_pos _, fun q hq => ?_⟩
      rcases List.mem_cons.mp (hlive ▸ hq) with rfl | hq
      · exact .inr ⟨rfl, .inr rfl⟩
      · exact .inl hq
    · cases hr.symm.trans ha
  | free p =>
    change (if p ∈ s.live then s.free p else none) = some s' at hs
    split at hs
    case isFalse => cases hs
    case isTrue hp =>
      obtain ⟨hinv, hlive, hcnt⟩ := h.free hp hs hpos
      exact ⟨hinv, hcnt ▸ hpos, fun q hq => .inl (List.mem_of_mem_erase (hlive ▸ hq))⟩
  | use p next prev waitSrc signalPending waiterWaiting =>
    change (if p ∈ s.live then _ else none) = some s' at hs
    split at hs
    case isFalse => cases hs
    case isTrue hp =>
      obtain rfl := Option.some.inj hs
      refine ⟨⟨h.cnt, h.nodup, h.mem, fun q hq => ?_, fun q hq => ?_⟩, hpos, fun q hq => .inl hq⟩
      · show (Function.update s.waiters p _ q).id = _
        by_cases hqp : q = p
        · subst hqp
          simpa using h.id q hq
        · rw [Function.update_of_ne hqp]
          exact h.id q hq
      · show (Function.update s.waiters p _ q).initialized = true ↔ q ∈ s.live
        by_cases hqp : q = p
        · subst hqp
          simpa using h.marked q hq
        · rw [Function.update_of_ne hqp]
          exact h.marked q hq

/-- The domain starts with one row, all of it free. -/
theorem Inv.init {s : State} (h : Init s) :
    Inv s ∧ s.waitersCnt = 1 ∧ s.live = [] ∧
      s.freeList = (List.range waitersPerArray).map (Place.mk 0) := by
  obtain ⟨waiters, hs⟩ := h
  have hempty : Inv { waiters := waiters, waitersCnt := 0, freeList := [], live := [] } :=
    ⟨Nat.zero_le _, by simp, fun p => by simp [Allocated], fun p hp => absurd hp.1 (Nat.not_lt_zero _),
      fun p hp => absurd hp.1 (Nat.not_lt_zero _)⟩
  obtain ⟨hinv, -, hcnt, hlive, hfree⟩ := hempty.allocOneArray hs
  exact ⟨hinv, hcnt, hlive, hfree⟩

/-! ## What the domain promises -/

/-- Of the waiters of the rows, the last one is the only one numbered with the
end mark. -/
theorem Inv.id_eq_max {s : State} (h : Inv s) {p : Place} (hp : Allocated s p) :
    (s.waiters p).id = waiterIdMax ↔ p = lastWaiter := by
  have hr : p.row < 256 := lt_of_lt_of_le hp.1 h.cnt
  have hc : p.col < 256 := hp.2
  rw [h.id p hp]
  obtain ⟨row, col⟩ := p
  show row * 256 + col = 65535 ↔ Place.mk row col = ⟨255, 255⟩
  rw [Place.mk.injEq]
  dsimp only at hr hc
  omega

/-- The id of every other waiter leads back to it. -/
theorem Inv.fromId_id {s : State} (h : Inv s) {p : Place} (hp : Allocated s p)
    (hl : p ≠ lastWaiter) : fromId (s.waiters p).id = some p := by
  have hc : p.col < 256 := hp.2
  rw [fromId, if_neg (mt (h.id_eq_max hp).mp hl), h.id p hp]
  obtain ⟨row, col⟩ := p
  show some (Place.mk ((row * 256 + col) / 256) ((row * 256 + col) % 256)) = _
  dsimp only at hc
  rw [show (row * 256 + col) / 256 = row by omega, show (row * 256 + col) % 256 = col by omega]

/-- **While the last waiter is not live, the promise holds.** -/
theorem Inv.good_iff {s : State} (h : Inv s) (hpos : 0 < s.waitersCnt) :
    Good s ↔ lastWaiter ∉ s.live := by
  have hall : ∀ p ∈ s.live, Allocated s p := fun p hp => (h.mem p).mp (List.mem_append_right _ hp)
  constructor
  · intro hg hl
    exact hg.valid _ hl ((h.id_eq_max (hall _ hl)).mpr rfl)
  · intro hl
    have hne : ∀ p ∈ s.live, p ≠ lastWaiter := fun p hp hpl => hl (hpl ▸ hp)
    have hres : ∀ p ∈ s.live, fromId (s.waiters p).id = some p :=
      fun p hp => h.fromId_id (hall p hp) (hne p hp)
    constructor
    case distinct =>
      intro p hp q hq hpq
      exact Option.some.inj ((hres p hp).symm.trans (hpq ▸ hres q hq))
    case valid => exact fun p hp hid => hne p hp ((h.id_eq_max (hall p hp)).mp hid)
    case resolved => exact hres
    case live => exact fun p hp => ⟨hall p hp, (h.marked p (hall p hp)).mpr hp⟩
    case once => exact fun p hp => List.count_eq_one_of_mem h.nodup ((h.mem p).mpr hp)
    case fresh =>
      intro r s' ha
      rcases h.alloc_cases hpos with ⟨p, l, s₂, hfree, ha', -, -, hlive, -⟩ |
        ⟨s₂, -, -, ha', -, -, hlive, -⟩ | ⟨-, -, ha'⟩
      · obtain ⟨rfl, rfl⟩ := Prod.mk.inj (Option.some.inj (ha.symm.trans ha'))
        refine ⟨p, rfl, fun hp => ?_, hlive⟩
        have hnd := h.nodup
        rw [hfree] at hnd
        exact (List.nodup_cons.mp hnd).1 (List.mem_append_right _ hp)
      · obtain ⟨rfl, rfl⟩ := Prod.mk.inj (Option.some.inj (ha.symm.trans ha'))
        exact ⟨_, rfl, fun hp => (lt_irrefl _ (hall _ hp).1), hlive⟩
      · cases ha.symm.trans ha'
    case exhausted =>
      intro hfree hcnt
      rcases h.alloc_cases hpos with ⟨p, l, s₂, hfree', -⟩ | ⟨s₂, -, hlt, -⟩ | ⟨-, -, ha⟩
      · cases hfree.symm.trans hfree'
      · omega
      · exact ha

/-- What every reached state satisfies. -/
theorem Inv.reach {ok : State → Call → State → Prop} {s : State} (h : machine.Reach ok s) :
    Inv s ∧ 0 < s.waitersCnt :=
  h.invariant (I := fun s => Inv s ∧ 0 < s.waitersCnt)
    (fun _ (h₀ : Init _) => ⟨(Inv.init h₀).1, (Inv.init h₀).2.1 ▸ Nat.one_pos⟩)
    fun _ _ _ h hs _ => ⟨(h.1.step h.2 hs).1, (h.1.step h.2 hs).2.1⟩

/-- The last waiter is not live in a run that spares it. -/
theorem lastWaiter_not_live {s : State} (h : machine.Reach SparesLast s) : lastWaiter ∉ s.live := by
  refine (h.invariant (I := fun s => (Inv s ∧ 0 < s.waitersCnt) ∧ lastWaiter ∉ s.live) ?_ ?_).2
  · intro s h₀
    obtain ⟨hinv, hcnt, hlive, -⟩ := Inv.init h₀
    exact ⟨⟨hinv, hcnt ▸ Nat.one_pos⟩, by rw [hlive]; exact List.not_mem_nil⟩
  · rintro s c s' ⟨⟨hinv, hpos⟩, hl⟩ hs hok
    obtain ⟨hinv', hpos', hnew⟩ := hinv.step hpos hs
    refine ⟨⟨hinv', hpos'⟩, fun hl' => ?_⟩
    rcases hnew _ hl' with hold | ⟨hc, hhead | hcol⟩
    · exact hl hold
    · exact hok hc hhead
    · cases hcol

/-- The place of the waiter numbered `k`. -/
def place (k : Nat) : Place := ⟨k / waitersPerArray, k % waitersPerArray⟩

/-- A row in the order of its numbers. -/
theorem row_eq (r : Nat) :
    (List.range waitersPerArray).map (Place.mk r) =
      (List.range' (waitersPerArray * r) waitersPerArray).map place := by
  rw [List.range'_eq_map_range, List.map_map]
  refine List.map_congr_left fun i hi => ?_
  have hi : i < 256 := List.mem_range.mp hi
  show Place.mk r i = ⟨(256 * r + i) / 256, (256 * r + i) % 256⟩
  rw [show (256 * r + i) / 256 = r by omega, show (256 * r + i) % 256 = i by omega]

/-- The state after `n` allocations and nothing else: the waiters numbered
below `n` are live, the others of the rows are free and in order. -/
structure Allocs (n : Nat) (s : State) : Prop where
  inv : Inv s
  pos : 0 < s.waitersCnt
  free : ∃ m, n + m = waitersPerArray * s.waitersCnt ∧ s.freeList = (List.range' n m).map place
  live : ∀ k < n, place k ∈ s.live

/-- One more allocation hands out the waiter with the next number. -/
theorem Allocs.succ {n : Nat} {s : State} (h : Allocs n s) (hn : n < 2 ^ 16) :
    ∃ s', step s .alloc = some s' ∧ Allocs (n + 1) s' := by
  obtain ⟨m, hm, hfree⟩ := h.free
  have hcnt : s.waitersCnt ≤ 256 := h.inv.cnt
  have hlive : ∀ {s' : State} {p : Place}, p = place n → s'.live = p :: s.live →
      ∀ k < n + 1, place k ∈ s'.live := by
    intro s' p hp hl k hk
    rw [hl]
    rcases Nat.lt_succ_iff_lt_or_eq.mp hk with hk | rfl
    · exact List.mem_cons_of_mem _ (h.live k hk)
    · exact hp ▸ List.mem_cons_self
  rcases h.inv.alloc_cases h.pos with ⟨p, l, s', hf, ha, hinv, hf', hl', hc'⟩ |
    ⟨s', hf, hlt, ha, hinv, hf', hl', hc'⟩ | ⟨hf, hc, -⟩
  · -- the row goes on
    obtain ⟨m, rfl⟩ : ∃ k, m = k + 1 := by
      cases m with
      | zero => simp [hf] at hfree
      | succ k => exact ⟨k, rfl⟩
    rw [hf, List.range'_succ, List.map_cons, List.cons.injEq] at hfree
    exact ⟨s', by rw [step, ha, Option.map_some], hinv, hc' ▸ h.pos,
      ⟨m, by rw [hc']; omega, by rw [hf', hfree.2]⟩, hlive hfree.1 hl'⟩
  · -- a new row is added
    obtain rfl : m = 0 := by simpa [hf] using hfree.symm
    have hnext : n = 256 * s.waitersCnt := hm
    refine ⟨s', by rw [step, ha, Option.map_some], hinv, hc' ▸ Nat.succ_pos _,
      ⟨255, ?_, ?_⟩, hlive ?_ hl'⟩
    · show n + 1 + 255 = 256 * s'.waitersCnt
      omega
    · rw [hf', row_eq, show waitersPerArray * s.waitersCnt = n from hm.symm]
      rfl
    · show Place.mk s.waitersCnt 0 = ⟨n / 256, n % 256⟩
      rw [show n / 256 = s.waitersCnt by omega, show n % 256 = 0 by omega]
  · -- all the rows are in use: there were as many allocations as ids
    obtain rfl : m = 0 := by simpa [hf] using hfree.symm
    have : n = 256 * s.waitersCnt := hm
    have : s.waitersCnt = 256 := hc
    omega

/-- Allocations in a row. -/
theorem Allocs.exec {n m : Nat} {s : State} (h : Allocs n s) (hn : n + m ≤ 2 ^ 16) :
    ∃ s', machine.exec Machine.anyStep s (List.replicate m .alloc) = some s' ∧
      Allocs (n + m) s' := by
  induction m generalizing n s with
  | zero => exact ⟨s, rfl, h⟩
  | succ m ih =>
    obtain ⟨s₁, hs₁, h₁⟩ := h.succ (by omega)
    obtain ⟨s₂, hs₂, h₂⟩ := ih h₁ (by omega)
    refine ⟨s₂, ?_, by rwa [show n + (m + 1) = n + 1 + m by omega]⟩
    rw [List.replicate_succ, Machine.exec, show machine.step s .alloc = some s₁ from hs₁,
      Option.bind_some, hs₂]
    exact if_pos trivial

end WaiterDomain
