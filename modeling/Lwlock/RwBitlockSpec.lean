import Lwlock.RwBitlock

/-!
# What a reader-writer bitlock is

Seen from one lock, the wait list is a queue of its own clients: first the
readers that are in it to be counted, then those that wait, the first of which is
a writer while readers have the lock. The bits follow: they are clear if nobody
has the lock; while readers have it, the count and the queued readers together
count them, and the writer bit says whether somebody waits; while a writer has
it, the count says whether somebody waits.

`Abs` is this reading of a state, and the invariant and the effect of every step
are about it. The readers that have a lock, the clients of its queue and the
writer that has it are carried along as lists and are no part of the state.
-/

namespace RwBitlock

variable {C K ι : Type}

/-! ## What a program point says -/

/-- The lock for which the client may be in a wait list. -/
def Pc.lockOf : Pc C K ι → Option K
  | .waiting k _ | .reading k | .readUnlockSection k => some k
  | _ => none

/-- The lock the client has for reading. -/
def Pc.reads : Pc C K ι → Option K
  | .reading k | .readUnlockSection k => some k
  | _ => none

/-- The lock the client has for writing. -/
def Pc.writes : Pc C K ι → Option K
  | .writing k | .writeUnlockSection k => some k
  | _ => none

/-- The lock the client waits for, and whether it is to read. -/
def Pc.waits : Pc C K ι → Option (K × Bool)
  | .waiting k rd => some (k, rd)
  | _ => none

/-- The clients it has to wake up. -/
def Pc.grants : Pc C K ι → List C
  | .granting _ ds => ds
  | _ => []

/-- The lock from which it wakes them up. -/
def Pc.releases : Pc C K ι → Option K
  | .granting k _ => some k
  | _ => none

/-- The lock it hands over next. -/
def Pc.hands : Pc C K ι → Option K
  | .writeUnlockSection k => some k
  | _ => none

/-! ## The invariant -/

/-- **The locks, each for itself.** -/
structure Abs (C K ι : Type) where
  w : K → Bool
  r : K → ℕ
  queue : K → List C
  src : C → Option K
  tag : C → Tag
  signalled : C → Bool
  granted : C → Bool
  pc : C → Pc C K ι

/-- A client has a lock for reading, or was handed it and has not run yet. -/
def ReadHolder (pc : C → Pc C K ι) (granted : C → Bool) (c : C) (k : K) : Prop :=
  (pc c).reads = some k ∨ ((pc c).waits = some (k, true) ∧ granted c = true)

/-- A client has a lock for writing, or was handed it and has not run yet. -/
def WriteHolder (pc : C → Pc C K ι) (granted : C → Bool) (c : C) (k : K) : Prop :=
  (pc c).writes = some k ∨ ((pc c).waits = some (k, false) ∧ granted c = true)

/-- Who is where: the readers in the queue that are counted there (`surplus`), those
that wait (`line`), the readers that have the lock and the writer that has it. -/
structure Ghost (C K : Type) where
  surplus : K → List C
  line : K → List C
  hold : K → List C
  wr : K → Option C

/-- **The bits of one lock** and its clients: nobody has it, readers have it, or a
writer has it. -/
inductive Shape (max : ℕ) (rd : C → Bool) :
    Bool → ℕ → List C → List C → List C → Option C → Prop
  | free : Shape max rd false 0 [] [] [] none
  | readers {r : ℕ} {surplus line hold : List C} (count : hold.length = r + surplus.length)
    (pos : 1 ≤ r) (le : r ≤ max) (sat : surplus ≠ [] → r = max)
    (first : ∀ c, line.head? = some c → rd c = false) :
    Shape max rd (!line.isEmpty) r surplus line hold none
  | writer {line : List C} {c : C} :
    Shape max rd true (if line = [] then 0 else 1) [] line [] (some c)

/-- **Clients and queues agree.** -/
structure Clients (a : Abs C K ι) (g : Ghost C K) : Prop where
  queue : ∀ k, a.queue k = g.surplus k ++ g.line k
  nodup : ∀ k, (a.queue k).Nodup
  line : ∀ k c, c ∈ g.line k → (a.pc c).waits = some (k, (a.tag c).rdlock)
    ∧ a.granted c = false ∧ (a.tag c).haveLock = false ∧ (a.tag c).inList = true
    ∧ a.src c = some k
  surplus : ∀ k c, c ∈ g.surplus k → c ∈ g.hold k ∧ (a.tag c).haveLock = true
    ∧ (a.tag c).rdlock = true ∧ (a.tag c).inList = true
    ∧ (a.src c = some k ∨ (a.src c = none ∧ (a.pc c).reads = some k))
  inList : ∀ c k, (a.pc c).reads = some k ∨ ((a.pc c).waits = some (k, true) ∧ a.signalled c = true)
    → (a.tag c).inList = true → c ∈ g.surplus k
  hold : ∀ c k, c ∈ g.hold k ↔ ReadHolder a.pc a.granted c k
  holdNodup : ∀ k, (g.hold k).Nodup
  wr : ∀ c k, g.wr k = some c ↔ WriteHolder a.pc a.granted c k
  waits : ∀ c k rd, (a.pc c).waits = some (k, rd) → (a.tag c).rdlock = rd
    ∧ (a.tag c).needToWait = true ∧ (a.tag c).waitedForLock = false
    ∧ (a.granted c = false → c ∈ g.line k)
  granted : ∀ c, a.granted c = true → (a.pc c).waits ≠ none
  signalled : ∀ c, a.signalled c = true → a.granted c = true ∧ (a.tag c).haveLock = true
  grants : ∀ c d, d ∈ (a.pc c).grants →
    a.granted d = true ∧ a.signalled d = false ∧ (∀ k, d ∉ g.surplus k)
      ∧ ∀ k, (a.pc c).releases = some k → a.src d = some k
  grantsNodup : ∀ c, (a.pc c).grants.Nodup
  granter : ∀ c c' d, d ∈ (a.pc c).grants → d ∈ (a.pc c').grants → c = c'
  hands : ∀ c k, (a.pc c).hands = some k → g.line k ≠ []
  alive : ∀ c, a.pc c ≠ .aborted

/-- **The invariant.** -/
structure Inv (max : K → ℕ) (a : Abs C K ι) (g : Ghost C K) : Prop where
  clients : Clients a g
  shape : ∀ k, Shape (max k) (fun c => (a.tag c).rdlock) (a.w k) (a.r k) (g.surplus k) (g.line k)
    (g.hold k) (g.wr k)

/-! ## Bits -/

section Shape

variable {max : ℕ} {rd : C → Bool} {w : Bool} {r : ℕ} {surplus line hold : List C} {wr : Option C}

/-- A reader takes a lock whose count is not saturated and whose writer bit is
clear. -/
theorem Shape.readTake (h : Shape max rd w r surplus line hold wr) {c : C} (hw : w = false)
    (hr : r ≠ max) (hm : 3 ≤ max) : Shape max rd w (r + 1) surplus line (hold ++ [c]) wr := by
  cases h with
  | free => exact @Shape.readers C max rd _ _ [] _ rfl le_rfl (by omega) (absurd rfl) nofun
  | readers count pos le sat first =>
    refine Shape.readers ?_ (by omega) (by omega) (fun ho => absurd (sat ho) hr) first
    rw [List.length_append, count, List.length_singleton]
    omega
  | writer => cases hw

/-- Somebody queues for a lock whose writer bit is set. -/
theorem Shape.enqueue (h : Shape max rd w r surplus line hold wr) {c : C} (hw : w = true) :
    Shape max rd true (if r = 0 then 1 else r) surplus (line ++ [c]) hold wr := by
  cases h with
  | free => cases hw
  | readers count pos le sat first =>
    obtain ⟨d, line, rfl⟩ := List.exists_cons_of_ne_nil (l := line) (by grind -linarith)
    rw [if_neg (by omega)]
    exact @Shape.readers C max rd _ _ (d :: line ++ [c]) _ count pos le sat first
  | writer =>
    have hne : line ++ [c] ≠ [] := by simp
    have hr : (if (if line = [] then 0 else 1) = 0 then 1 else if line = [] then 0 else 1)
        = if line ++ [c] = [] then 0 else 1 := by
      rw [if_neg hne]
      by_cases hl : line = []
      · rw [if_pos hl, if_pos rfl]
      · rw [if_neg hl, if_neg Nat.one_ne_zero]
    rw [hr]
    exact Shape.writer

/-- A reader past a saturated count is counted in the queue. -/
theorem Shape.readOver (h : Shape max rd w r surplus line hold wr) {c : C} (hw : w = false)
    (hr : r = max) (hm : 3 ≤ max) :
    line = [] ∧ Shape max rd w r (surplus ++ [c]) line (hold ++ [c]) wr := by
  cases h with
  | free => omega
  | readers count pos le sat first =>
    refine ⟨by grind -linarith, Shape.readers ?_ pos le (fun _ => hr) first⟩
    rw [List.length_append, List.length_append, count]
    omega
  | writer => cases hw

/-- A writer takes a free lock. -/
theorem Shape.writeTake (h : Shape max rd w r surplus line hold wr) {c : C} (hw : w = false)
    (hr : r = 0) : hold = [] ∧ wr = none ∧ Shape max rd true r surplus line hold (some c) := by
  cases h with
  | free => exact ⟨rfl, rfl, @Shape.writer C max rd [] _⟩
  | readers count pos le sat first => omega
  | writer => cases hw

/-- A writer queues for a lock that readers have with nobody waiting. -/
theorem Shape.writeEnqueue (h : Shape max rd w r surplus line hold wr) {c : C} (hw : w = false)
    (hr : r ≠ 0) (hc : rd c = false) : Shape max rd true r surplus (line ++ [c]) hold wr := by
  cases h with
  | free => exact absurd rfl hr
  | readers count pos le sat first =>
    obtain rfl : line = [] := by grind -linarith
    refine @Shape.readers C max rd _ _ [c] _ count pos le sat ?_
    intro d hd
    obtain rfl : c = d := Option.some.inj hd
    exact hc
  | writer => cases hw

/-- A lock somebody has for reading. -/
theorem Shape.reading (h : Shape max rd w r surplus line hold wr) {c : C} (hc : c ∈ hold) :
    hold.length = r + surplus.length ∧ 1 ≤ r ∧ r ≤ max ∧ (surplus ≠ [] → r = max)
      ∧ (∀ c, line.head? = some c → rd c = false) ∧ w = !line.isEmpty ∧ wr = none := by
  cases h with
  | free => cases hc
  | readers count pos le sat first => exact ⟨count, pos, le, sat, first, rfl, rfl⟩
  | writer => cases hc

/-- A lock somebody has for writing. -/
theorem Shape.writing (h : Shape max rd w r surplus line hold wr) (hwr : wr ≠ none) :
    surplus = [] ∧ hold = [] ∧ w = true ∧ r = if line = [] then 0 else 1 := by
  cases h with
  | free => exact absurd rfl hwr
  | readers => exact absurd rfl hwr
  | writer => exact ⟨rfl, rfl, rfl, rfl⟩

variable [DecidableEq C]

/-- A reader gives the lock up, not the last one while somebody waits. -/
theorem Shape.readDrop (h : Shape max rd w r surplus line hold wr) {c : C}
    (hc : c ∈ hold) (hr : r ≠ max) (hw : ¬ (w = true ∧ r = 1)) :
    surplus = [] ∧ Shape max rd w (r - 1) surplus line (hold.erase c) wr := by
  obtain ⟨count, pos, le, sat, first, rfl, rfl⟩ := h.reading hc
  have hlen := List.length_erase_of_mem hc
  obtain rfl : surplus = [] := by
    by_contra ho
    exact hr (sat ho)
  refine ⟨rfl, ?_⟩
  rw [List.length_nil, Nat.add_zero] at count
  by_cases h1 : r = 1
  · -- the last one, with nobody waiting
    subst h1
    obtain rfl : line = [] := by grind -linarith
    have hnil : hold.erase c = [] := List.length_eq_zero_iff.mp (by omega)
    rw [hnil]
    exact Shape.free
  · exact Shape.readers (by rw [hlen, List.length_nil]; omega) (by omega) (by omega)
      (absurd rfl) first

/-- A reader gives a lock up whose count stays saturated: one reader less is
counted in the queue. -/
theorem Shape.readOverDrop (h : Shape max rd w r surplus line hold wr) {c : C}
    (surplus' : List C) (hc : c ∈ hold) (hr : r = max) (ho : surplus.length = surplus'.length + 1) :
    Shape max rd w r surplus' line (hold.erase c) wr := by
  obtain ⟨count, pos, le, sat, first, rfl, rfl⟩ := h.reading hc
  have hlen := List.length_erase_of_mem hc
  exact Shape.readers (by omega) pos le (fun _ => hr) first

/-- A reader gives a lock up whose count was saturated. -/
theorem Shape.readSatDrop (h : Shape max rd w r surplus line hold wr) {c : C}
    (hc : c ∈ hold) (hr : r = max) (hm : 3 ≤ max) (ho : surplus = []) :
    Shape max rd w (r - 1) surplus line (hold.erase c) wr := by
  obtain ⟨count, pos, le, sat, first, rfl, rfl⟩ := h.reading hc
  have hlen := List.length_erase_of_mem hc
  subst ho
  rw [List.length_nil, Nat.add_zero] at count
  exact Shape.readers (by rw [hlen, List.length_nil]; omega) (by omega) (by omega)
    (absurd rfl) first

omit [DecidableEq C] in
/-- The last reader hands the lock to the writer that waits. -/
theorem Shape.readHand (h : Shape max rd w r surplus line hold wr) {c f : C} {rest : List C}
    (hc : c ∈ hold) (hr : r = 1) (hm : 3 ≤ max) (hl : surplus ++ line = f :: rest) :
    surplus = [] ∧ hold = [c] ∧ rd f = false
      ∧ Shape max rd w (if rest = [] then 0 else 1) surplus rest [] (some f) := by
  obtain ⟨count, pos, le, sat, first, rfl, rfl⟩ := h.reading hc
  obtain rfl : surplus = [] := by
    by_contra ho
    have := sat ho
    omega
  rw [List.nil_append] at hl
  subst hl
  obtain ⟨d, rfl⟩ := List.length_eq_one_iff.mp (show hold.length = 1 by
    rw [count, hr, List.length_nil])
  obtain rfl := List.mem_singleton.mp hc
  exact ⟨rfl, rfl, first f rfl, Shape.writer⟩

omit [DecidableEq C] in
/-- A writer gives a lock up for which nobody waits. -/
theorem Shape.writeDrop (h : Shape max rd w r surplus line hold wr) (hwr : wr ≠ none) (hr : r = 0) :
    line = [] ∧ Shape max rd false r surplus line hold none := by
  obtain ⟨rfl, rfl, rfl, hr'⟩ := h.writing hwr
  subst hr
  obtain rfl : line = [] := by
    by_contra hne
    rw [if_neg hne] at hr'
    omega
  exact ⟨rfl, Shape.free⟩

omit [DecidableEq C] in
/-- A writer hands the lock to readers, `R` in the count and `O` in the queue. -/
theorem Shape.writeHandReaders {R O rest : List C} (hR : R ≠ []) (hmax : R.length ≤ max)
    (hO : O ≠ [] → R.length = max) (hrest : ∀ c, rest.head? = some c → rd c = false) :
    Shape max rd (!rest.isEmpty) R.length O rest (R ++ O) none :=
  Shape.readers List.length_append (List.length_pos_iff.mpr hR) hmax hO hrest

end Shape

end RwBitlock
