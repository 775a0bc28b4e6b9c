import Lwlock.RwBitlockSafe

/-!
# Readers, writers and the other locks

What the invariant says in the terms of the code: a writer has a lock alone, the
bits and the list together count the readers, and an unlock touches only entries
of its own lock. All of it needs that an unlock finds no waiter of another lock
when it searches the wait list. Two locks with the same range of bits in one wait
list are enough to lose it: the unlock of one hands the other one to a reader
while a writer has it.
-/

namespace RwBitlock

variable {C K ι : Type} {cfg : Config K ι} [DecidableEq C] [DecidableEq K] [DecidableEq ι]

instance (s : State C K ι) (e : Event C K ι) (s' : State C K ι) : Decidable (Unshared cfg s e s') :=
  inferInstanceAs (Decidable (∀ k ∈ searches cfg s e, Alone cfg s k))

/-! ## One lock -/

/-- The waiters of a lock in its wait list. -/
def State.queued (cfg : Config K ι) (s : State C K ι) (k : K) : List C :=
  queueOf cfg s.list s.pc k

/-- Those of them that are readers with the lock, there to be counted. -/
def State.overflow (cfg : Config K ι) (s : State C K ι) (k : K) : List C :=
  (s.queued cfg k).filter fun c => (s.tag c).rdlock && (s.tag c).haveLock

/-- **No writer together with another holder.** -/
structure Exclusive (s : State C K ι) (k : K) : Prop where
  reader : ∀ c d, WriteHolder s.pc s.granted c k → ¬ ReadHolder s.pc s.granted d k
  writer : ∀ c d, WriteHolder s.pc s.granted c k → WriteHolder s.pc s.granted d k → c = d

/-- **What the bits of a lock and its wait list say** about who has it. -/
structure Safe (cfg : Config K ι) (s : State C K ι) (k : K) : Prop where
  exclusive : Exclusive s k
  /-- The readers are counted by the field and the list. -/
  counted : ∃ readers : List C, readers.Nodup
    ∧ (∀ c, c ∈ readers ↔ ReadHolder s.pc s.granted c k)
    ∧ (readers ≠ [] → readers.length = s.r k + (s.overflow cfg k).length)
  /-- Readers are in the list to be counted only if the field is saturated. -/
  saturated : s.overflow cfg k ≠ [] → s.r k = cfg.maxReaders k
  /-- They come before everybody who waits. -/
  first : s.overflow cfg k <+: s.queued cfg k
  /-- With a writer, the fields say whether somebody waits. -/
  writing : ∀ c, WriteHolder s.pc s.granted c k →
    s.w k = true ∧ s.r k = if s.queued cfg k = [] then 0 else 1

omit [DecidableEq C] [DecidableEq ι] in
/-- The readers counted in the list are those of the invariant. -/
theorem overflow_eq {s : State C K ι} {g : Ghost C K} (hc : Clients (s.abs cfg) g) (k : K) :
    s.overflow cfg k = g.surplus k := by
  have hover : (g.surplus k).filter (fun c => (s.tag c).rdlock && (s.tag c).haveLock) = g.surplus k := by
    refine List.filter_eq_self.mpr fun c ho => ?_
    obtain ⟨-, h1, h2, -⟩ := hc.surplus k c ho
    rw [show (s.tag c).rdlock = true from h2, show (s.tag c).haveLock = true from h1]
    rfl
  have hline : (g.line k).filter (fun c => (s.tag c).rdlock && (s.tag c).haveLock) = [] := by
    refine List.filter_eq_nil_iff.mpr fun c hl => ?_
    rw [show (s.tag c).haveLock = false from (hc.line k c hl).2.2.1, Bool.and_false]
    exact Bool.false_ne_true
  have hq : s.queued cfg k = g.surplus k ++ g.line k := hc.queue k
  rw [State.overflow, hq, List.filter_append, hover, hline, List.append_nil]

omit [DecidableEq C] [DecidableEq ι] in
/-- A state that satisfies the invariant is safe. -/
theorem Good.safe {s : State C K ι} (h : Good cfg s) (k : K) : Safe cfg s k := by
  obtain ⟨-, g, hc, hs⟩ := h
  have hq : s.queued cfg k = g.surplus k ++ g.line k := hc.queue k
  have hov := overflow_eq hc k
  have hwriting : ∀ c, WriteHolder s.pc s.granted c k →
      g.surplus k = [] ∧ g.hold k = [] ∧ s.w k = true ∧ s.r k = if g.line k = [] then 0 else 1 := by
    intro c hw
    have hwr : g.wr k = some c := (hc.wr c k).mpr hw
    exact (hs k).writing (by rw [hwr]; nofun)
  constructor
  case exclusive =>
    refine ⟨fun c d hw hr => ?_, fun c d hw hw' => ?_⟩
    · have hd := (hc.hold d k).mpr hr
      rw [(hwriting c hw).2.1] at hd
      cases hd
    · exact Option.some.inj (((hc.wr c k).mpr hw).symm.trans ((hc.wr d k).mpr hw'))
  case counted =>
    refine ⟨g.hold k, hc.holdNodup k, fun c => hc.hold c k, fun hne => ?_⟩
    obtain ⟨c, hmem⟩ := List.exists_mem_of_ne_nil _ hne
    rw [hov]
    exact ((hs k).reading hmem).1
  case saturated =>
    rw [hov]
    intro hne
    obtain ⟨c, hmem⟩ := List.exists_mem_of_ne_nil _ hne
    exact ((hs k).reading (hc.surplus k c hmem).1).2.2.2.1 hne
  case first =>
    rw [hov, hq]
    exact List.prefix_append _ _
  case writing =>
    intro c hw
    obtain ⟨ho, -, hw', hr⟩ := hwriting c hw
    rw [hq, ho, List.nil_append]
    exact ⟨hw', hr⟩

/-- **A reader-writer bitlock is safe** in every state of every run in which an
unlock that searches the wait list finds no waiter of another lock. -/
theorem safe_of_reach (cfg : Config K ι) {s : State C K ι}
    (h : (machine C cfg).Reach (Unshared cfg) s) (k : K) : Safe cfg s k :=
  (good_of_reach h).safe k

omit [DecidableEq C] [DecidableEq K] [DecidableEq ι] in
/-- Locks that differ in their wait list or in their range of bits never share. -/
theorem unshared_of_apart {s : State C K ι} (hrep : Rep cfg s)
    (hap : ∀ j k, cfg.list j = cfg.list k → cfg.startBit j = cfg.startBit k →
      cfg.numBits j = cfg.numBits k → j = k) (e : Event C K ι) (s' : State C K ι) :
    Unshared cfg s e s' := by
  intro k _ d hd
  obtain ⟨hd, hm⟩ := List.mem_filter.mp hd
  rw [isMatch, Bool.and_eq_true, Bool.and_eq_true, decide_eq_true_eq, decide_eq_true_eq] at hm
  obtain ⟨⟨hu, h1⟩, h2⟩ := hm
  rcases hrep.place _ d hd with ⟨-, hu'⟩ | ⟨j, hj, hl, hm'⟩
  · rw [hu] at hu'
    cases hu'
  · rw [isMatch, Bool.and_eq_true, Bool.and_eq_true, decide_eq_true_eq, decide_eq_true_eq] at hm'
    obtain rfl := hap j k hl (hm'.1.2.symm.trans h1) (hm'.2.symm.trans h2)
    exact hj

/-- **Locks that differ in their wait list or in their range of bits are safe** in
every state of every run; one lock alone is a case of it. -/
theorem safe_of_apart (hap : ∀ j k, cfg.list j = cfg.list k → cfg.startBit j = cfg.startBit k →
      cfg.numBits j = cfg.numBits k → j = k) {s : State C K ι}
    (h : (machine C cfg).Reach Machine.anyStep s) (k : K) : Safe cfg s k := by
  refine (h.invariant (I := Good cfg) (fun _ => Start.good) fun s e s' hg he _ => ?_).safe k
  exact step_good hg he (unshared_of_apart hg.1 hap e s')

/-! ## Several locks -/

/-- **The lock that a step unlocks**: of a call, of its section, or while it wakes
up those it took out of the list. -/
def unlocks (s : State C K ι) : Event C K ι → Option K
  | .call c .readunlock => (s.pc c).reads
  | .call c .writeunlock => (s.pc c).writes
  | .move c =>
    match s.pc c with
    | .readUnlockSection k | .writeUnlockSection k | .granting k _ => some k
    | _ => none
  | _ => none

/-- A step takes an entry out of a wait list, marks it or wakes it up. -/
def Touches (s s' : State C K ι) (d : C) : Prop :=
  (∃ i, d ∈ s.list i ∧ d ∉ s'.list i) ∨ s'.tag d ≠ s.tag d ∨ s'.signalled d ≠ s.signalled d
    ∨ s'.granted d ≠ s.granted d

/-- An entry of a lock: its `wait_src` is the lock, or was until `complete_wait`
cleared it, as it does for a reader that goes on with the lock. -/
def EntryOf (s : State C K ι) (k : K) (d : C) : Prop :=
  s.src d = some k ∨ (s.src d = none ∧ (s.pc d).reads = some k)

/-- A state in which the wait lists hold the waiters of one lock only. -/
def State.restrict (s : State C K ι) (k : K) : State C K ι :=
  { s with list := fun i => (s.list i).filter fun c => decide ((s.pc c).lockOf = some k) }

/-- **A step of an unlock leaves the other locks alone**: it touches only entries of
its lock, computes the bits as if there were no others, and changes no other bits. -/
structure Isolated (cfg : Config K ι) (s : State C K ι) (e : Event C K ι) (s' : State C K ι)
    (k : K) : Prop where
  entries : ∀ d, Touches s s' d → EntryOf s k d
  bits : ∃ t, (machine C cfg).step (s.restrict k) e = some t ∧ t.w k = s'.w k ∧ t.r k = s'.r k
  others : ∀ j, j ≠ k → s'.w j = s.w j ∧ s'.r j = s.r j

omit [DecidableEq C] [DecidableEq ι] in
/-- The entries in the queue of a lock are entries of the lock. -/
theorem Clients.entryOf {s : State C K ι} {g : Ghost C K} (hc : Clients (s.abs cfg) g) {k : K}
    {d : C} (hd : d ∈ queueOf cfg s.list s.pc k) : EntryOf s k d := by
  have hd : d ∈ g.surplus k ++ g.line k := hc.queue k ▸ hd
  rcases List.mem_append.mp hd with hd | hd
  · exact (hc.surplus k d hd).2.2.2.2
  · exact .inl (hc.line k d hd).2.2.2.2

omit [DecidableEq C] [DecidableEq ι] in
/-- What is found among the waiters of one lock. -/
theorem found_restrict {s : State C K ι} {k : K} (hrep : Rep cfg s) (halone : Alone cfg s k) :
    (s.restrict k).found cfg k = s.found cfg k := by
  have hf : s.found cfg k = queueOf cfg s.list s.pc k := hrep.found halone
  have hr : (s.restrict k).found cfg k
      = (queueOf cfg s.list s.pc k).filter fun c => isMatch cfg (s.tag c) k := rfl
  rw [hr, hf, List.filter_eq_self]
  intro c hc
  rw [← hf] at hc
  exact (List.mem_filter.mp hc).2

omit [DecidableEq ι] in
/-- A step that changes only bits and program points touches nobody. -/
theorem not_touches {s : State C K ι} {c d : C} {k : K} {w : Bool} {r : ℕ} {p : Pc C K ι} :
    ¬ Touches s ((s.setBits k w r).goto c p) d := by
  rintro (⟨i, h, h'⟩ | h | h | h)
  · exact h' h
  all_goals exact h rfl

omit [DecidableEq K] in
/-- A step that takes an entry out of the list touches it alone. -/
theorem touches_remove {s s' : State C K ι} {i : ι} {f d : C} (h : Touches s s' d)
    (hl : s'.list = (s.remove i [f]).list) (ht : ∀ e, e ≠ f → s'.tag e = s.tag e)
    (hs : s'.signalled = s.signalled) (hg : ∀ e, e ≠ f → s'.granted e = s.granted e) : d = f := by
  by_contra hne
  rcases h with ⟨j, h, h'⟩ | h | h | h
  · rw [hl] at h'
    exact h' (mem_remove.mpr ⟨h, fun _ hd => hne (List.mem_singleton.mp hd)⟩)
  · exact h (ht d hne)
  · exact h (congrFun hs d)
  · exact h (hg d hne)

/-- **Whom the section of `readunlock` touches.** -/
theorem readUnlockSection_touches {s : State C K ι} {c d : C} {k : K}
    (h : Touches s (readUnlockSection cfg s c k) d) :
    (d = c ∧ (s.tag c).inList = true)
      ∨ (leavesWork cfg s k = true ∧ (s.tag c).inList = false ∧ d ∈ s.found cfg k) := by
  have hgoto : ∀ p, ¬ Touches s (s.goto c p) d := by
    rintro p (⟨i, h, h'⟩ | h | h | h)
    · exact h' h
    all_goals exact h rfl
  rw [readUnlockSection] at h
  by_cases hl : leavesWork cfg s k = false
  · rw [if_pos hl] at h
    split at h
    · exact absurd h (hgoto _)
    · exact absurd h not_touches
  rw [if_neg hl] at h
  by_cases hin : (s.tag c).inList = true
  · rw [if_pos hin] at h
    split at h
    · exact .inl ⟨touches_remove h rfl (fun _ he => Function.update_of_ne he _ _) rfl
        fun _ _ => rfl, hin⟩
    · exact absurd h (hgoto _)
  rw [if_neg hin] at h
  refine .inr ⟨Bool.eq_true_of_not_eq_false hl, Bool.eq_false_iff.mpr hin, ?_⟩
  rcases hf : s.found cfg k with - | ⟨f, rest⟩
  · rw [hf] at h
    exact absurd h not_touches
  rw [hf] at h
  dsimp only at h
  split at h
  · rw [touches_remove h rfl (fun _ he => Function.update_of_ne he _ _) rfl fun _ _ => rfl]
    exact List.mem_cons_self
  split at h
  · exact absurd h (hgoto _)
  split at h
  · rw [touches_remove h rfl (fun _ he => Function.update_of_ne he _ _) rfl
      fun _ he => Function.update_of_ne he _ _]
    exact List.mem_cons_self
  · exact absurd h not_touches

/-- **Whom the section of `writeunlock` touches.** -/
theorem writeUnlockSection_touches {s : State C K ι} {c d : C} {k : K}
    (h : Touches s (writeUnlockSection cfg s c k) d) : d ∈ s.found cfg k := by
  have hhand : ∀ R O w r, (∀ e, e ∈ R ∨ e ∈ O → e ∈ s.found cfg k) →
      Touches s (s.handOver cfg c k R O w r) d → d ∈ s.found cfg k := by
    intro R O w r hsub h
    by_contra hne
    have hR : d ∉ R := fun hd => hne (hsub d (.inl hd))
    have hO : d ∉ O := fun hd => hne (hsub d (.inr hd))
    rcases h with ⟨i, h, h'⟩ | h | h | h
    · exact h' (mem_remove.mpr ⟨h, fun _ => hR⟩)
    · exact h (if_neg hO)
    · exact h (if_neg hO)
    · exact h (if_neg (not_or.mpr ⟨hR, hO⟩))
  rcases hf : s.found cfg k with - | ⟨f, m⟩
  · rw [writeUnlockSection, hf] at h
    rcases h with ⟨i, h, h'⟩ | h | h | h
    · exact absurd h h'
    all_goals exact absurd rfl h
  by_cases hrd : (s.tag f).rdlock = true
  · obtain ⟨R, O, rest, hm, -, -, -, -, -, he⟩ := writeUnlockSection_readers (c := c) hf hrd
      (by have := cfg.three_le_maxReaders k; omega)
    rw [he] at h
    rw [← hf]
    refine hhand R O _ _ (fun e he => ?_) h
    rw [hf, hm, List.mem_append, List.mem_append]
    tauto
  · rw [writeUnlockSection_writer hf (Bool.eq_false_iff.mpr hrd)] at h
    rw [← hf]
    refine hhand [f] [] _ _ (fun e he => ?_) h
    rw [hf]
    rcases he with he | he
    · rw [List.mem_singleton.mp he]
      exact List.mem_cons_self
    · cases he

/-- The bits after the section of `readunlock`. -/
theorem readUnlockSection_bits {s t : State C K ι} {c : C} {k : K} (hw : t.w = s.w) (hr : t.r = s.r)
    (ht : t.tag = s.tag) (hf : leavesWork cfg s k = true → (s.tag c).inList = false →
      t.found cfg k = s.found cfg k) :
    (readUnlockSection cfg t c k).w = (readUnlockSection cfg s c k).w
      ∧ (readUnlockSection cfg t c k).r = (readUnlockSection cfg s c k).r := by
  have hlw : leavesWork cfg t k = leavesWork cfg s k := by rw [leavesWork, leavesWork, hw, hr]
  rw [readUnlockSection, readUnlockSection, hlw, ht]
  by_cases hl : leavesWork cfg s k = false
  · rw [if_pos hl, if_pos hl]
    split <;> simp [State.goto, State.setBits, hw, hr]
  rw [if_neg hl, if_neg hl]
  by_cases hin : (s.tag c).inList = true
  · rw [if_pos hin, if_pos hin, hr]
    split <;> simp [State.goto, State.setTag, State.remove, hw, hr]
  rw [if_neg hin, if_neg hin, hf (Bool.eq_true_of_not_eq_false hl) (Bool.eq_false_iff.mpr hin)]
  split
  · simp [State.goto, State.setBits, hw, hr]
  · rw [hr]
    split
    · simp [State.goto, State.setTag, State.remove, hw, hr]
    split
    · simp [State.goto, hw, hr]
    dsimp only
    by_cases h1 : s.r k = 1
    · rw [if_pos h1, if_pos h1]
      simp [State.goto, State.setTag, State.remove, State.setBits, hw, hr]
    · rw [if_neg h1, if_neg h1]
      simp [State.goto, State.setBits, hw, hr]

omit [DecidableEq C] [DecidableEq K] [DecidableEq ι] in
/-- `find_eligible_waiters` looks at tags only. -/
theorem findEligibleWaiters_congr {s t : State C K ι} (ht : t.tag = s.tag) (want : Bool) (max : ℕ)
    (m taken : List C) :
    findEligibleWaiters t want max m taken = findEligibleWaiters s want max m taken := by
  induction m generalizing taken with
  | nil => rfl
  | cons c m ih => rw [findEligibleWaiters, findEligibleWaiters, ht, ih]

omit [DecidableEq C] [DecidableEq K] [DecidableEq ι] in
/-- `wake_eligible_readers` looks at tags only. -/
theorem wakeEligibleReaders_congr {s t : State C K ι} (ht : t.tag = s.tag) (m : List C) :
    wakeEligibleReaders t m = wakeEligibleReaders s m := by
  induction m with
  | nil => rfl
  | cons c m ih => rw [wakeEligibleReaders, wakeEligibleReaders, ht, ih]

/-- The bits after the section of `writeunlock`. -/
theorem writeUnlockSection_bits {s t : State C K ι} {c : C} {k : K} (hw : t.w = s.w) (hr : t.r = s.r)
    (ht : t.tag = s.tag) (hf : t.found cfg k = s.found cfg k) :
    (writeUnlockSection cfg t c k).w = (writeUnlockSection cfg s c k).w
      ∧ (writeUnlockSection cfg t c k).r = (writeUnlockSection cfg s c k).r := by
  rw [writeUnlockSection, writeUnlockSection, hf]
  split
  · simp [State.goto, hw, hr]
  · simp only [ht, findEligibleWaiters_congr ht, wakeEligibleReaders_congr ht, State.goto,
      State.setBits, State.remove, hw, hr, and_self]

/-- The bits of another lock after the section of `readunlock`. -/
theorem readUnlockSection_others {s : State C K ι} {c : C} {j k : K} (hj : j ≠ k) :
    (readUnlockSection cfg s c k).w j = s.w j ∧ (readUnlockSection cfg s c k).r j = s.r j := by
  rw [readUnlockSection]
  repeat' split
  all_goals simp [State.goto, State.setBits, State.setTag, State.remove, Function.update_of_ne hj]

/-- The bits of another lock after the section of `writeunlock`. -/
theorem writeUnlockSection_others {s : State C K ι} {c : C} {j k : K} (hj : j ≠ k) :
    (writeUnlockSection cfg s c k).w j = s.w j ∧ (writeUnlockSection cfg s c k).r j = s.r j := by
  rw [writeUnlockSection]
  split
  all_goals simp [State.goto, State.setBits, State.remove, Function.update_of_ne hj]

omit [DecidableEq K] [DecidableEq ι] in
/-- A step that changes only program points touches nobody. -/
theorem not_touches_goto {s : State C K ι} {c d : C} {p : Pc C K ι} : ¬ Touches s (s.goto c p) d := by
  rintro (⟨i, h, h'⟩ | h | h | h)
  · exact h' h
  all_goals exact h rfl

/-- **`readunlock`** up to its section is isolated. -/
theorem readunlock_isolated {s : State C K ι} {c : C} {k : K} (hp : s.pc c = .reading k) :
    Isolated cfg s (.call c .readunlock) (readunlock cfg s c k) k := by
  refine ⟨fun d hd => ?_, ⟨readunlock cfg (s.restrict k) c k, ?_, ?_⟩, fun j hj => ?_⟩
  · rw [readunlock] at hd
    split at hd
    · exact absurd hd not_touches_goto
    · exact absurd hd not_touches
  · simp only [machine, call]
    rw [show (s.restrict k).pc c = .reading k from hp]
  · have hlw : leavesWork cfg (s.restrict k) k = leavesWork cfg s k := rfl
    rw [readunlock, readunlock, hlw]
    by_cases hl : leavesWork cfg s k = true
    · rw [if_pos hl, if_pos hl]
      exact ⟨rfl, rfl⟩
    · rw [if_neg hl, if_neg hl]
      exact ⟨rfl, rfl⟩
  · rw [readunlock]
    split <;> simp [State.goto, State.setBits, Function.update_of_ne hj]

/-- **`writeunlock`** up to its section is isolated. -/
theorem writeunlock_isolated {s : State C K ι} {c : C} {k : K} (hp : s.pc c = .writing k) :
    Isolated cfg s (.call c .writeunlock) (writeunlock s c k) k := by
  refine ⟨fun d hd => ?_, ⟨writeunlock (s.restrict k) c k, ?_, ?_⟩, fun j hj => ?_⟩
  · rw [writeunlock] at hd
    split at hd
    · exact absurd hd not_touches_goto
    · exact absurd hd not_touches
  · simp only [machine, call]
    rw [show (s.restrict k).pc c = .writing k from hp]
  · rw [writeunlock, writeunlock, show (s.restrict k).r = s.r from rfl]
    by_cases hr : s.r k ≠ 0
    · rw [if_pos hr, if_pos hr]
      exact ⟨rfl, rfl⟩
    · rw [if_neg hr, if_neg hr]
      exact ⟨rfl, rfl⟩
  · rw [writeunlock]
    split <;> simp [State.goto, State.setBits, Function.update_of_ne hj]

/-- **The section of `readunlock`** is isolated, if it finds no waiter of another
lock. -/
theorem readUnlockSection_isolated {s : State C K ι} {c : C} {k : K} (h : Good cfg s)
    (hp : s.pc c = .readUnlockSection k)
    (halone : leavesWork cfg s k = true → (s.tag c).inList = false → Alone cfg s k) :
    Isolated cfg s (.move c) (readUnlockSection cfg s c k) k := by
  obtain ⟨hrep, g, hinv⟩ := h
  refine ⟨fun d hd => ?_, ⟨readUnlockSection cfg (s.restrict k) c k, ?_, ?_⟩,
    fun j hj => readUnlockSection_others hj⟩
  · rcases readUnlockSection_touches hd with ⟨rfl, hin⟩ | ⟨hl, hin, hf⟩
    · have hreads : ((s.abs cfg).pc d).reads = some k := by
        rw [show (s.abs cfg).pc d = .readUnlockSection k from hp]
        rfl
      have ho := hinv.clients.inList d k (.inl hreads) hin
      exact (hinv.clients.surplus k d ho).2.2.2.2
    · rw [hrep.found (halone hl hin)] at hf
      exact hinv.clients.entryOf hf
  · simp only [machine, move]
    rw [show (s.restrict k).pc c = .readUnlockSection k from hp]
  · obtain ⟨h1, h2⟩ := readUnlockSection_bits (s := s) (t := s.restrict k) (c := c)
      (k := k) rfl rfl rfl fun hl hin => found_restrict hrep (halone hl hin)
    rw [h1, h2]
    exact ⟨rfl, rfl⟩

/-- **The section of `writeunlock`** is isolated, if it finds no waiter of another
lock. -/
theorem writeUnlockSection_isolated {s : State C K ι} {c : C} {k : K} (h : Good cfg s)
    (hp : s.pc c = .writeUnlockSection k) (halone : Alone cfg s k) :
    Isolated cfg s (.move c) (writeUnlockSection cfg s c k) k := by
  obtain ⟨hrep, g, hinv⟩ := h
  refine ⟨fun d hd => ?_, ⟨writeUnlockSection cfg (s.restrict k) c k, ?_, ?_⟩,
    fun j hj => writeUnlockSection_others hj⟩
  · have hf := writeUnlockSection_touches hd
    rw [hrep.found halone] at hf
    exact hinv.clients.entryOf hf
  · simp only [machine, move]
    rw [show (s.restrict k).pc c = .writeUnlockSection k from hp]
  · obtain ⟨h1, h2⟩ := writeUnlockSection_bits (s := s) (t := s.restrict k) (c := c)
      (k := k) rfl rfl rfl (found_restrict hrep halone)
    rw [h1, h2]
    exact ⟨rfl, rfl⟩

/-- **Waking up** is isolated. -/
theorem grant_isolated {s s' : State C K ι} {c : C} {k : K} {ds : List C} (h : Good cfg s)
    (hp : s.pc c = .granting k ds) (he : move cfg s c = some s') :
    Isolated cfg s (.move c) s' k := by
  obtain ⟨-, g, hinv⟩ := h
  cases ds with
  | nil =>
    simp only [move, hp, Option.some.injEq] at he
    subst he
    refine ⟨fun d hd => absurd hd not_touches_goto, ⟨(s.restrict k).goto c .idle, ?_, rfl, rfl⟩,
      fun _ _ => ⟨rfl, rfl⟩⟩
    simp only [machine, move]
    rw [show (s.restrict k).pc c = .granting k [] from hp]
  | cons f ds =>
    simp only [move, hp, Option.some.injEq] at he
    subst he
    have hpc : (s.abs cfg).pc c = .granting k (f :: ds) := hp
    have hsrc : s.src f = some k := (hinv.clients.grants c f (by
      rw [hpc]
      exact List.mem_cons_self)).2.2.2 k (by rw [hpc]; rfl)
    refine ⟨fun d hd => .inl ?_,
      ⟨{ (s.restrict k).setTag f { s.tag f with inList := false, haveLock := true } with
        signalled := Function.update s.signalled f true }.goto c (.granting k ds), ?_, rfl, rfl⟩,
      fun _ _ => ⟨rfl, rfl⟩⟩
    · have hdf : d = f := by
        by_contra hne
        rcases hd with ⟨i, h, h'⟩ | h | h | h
        · exact h' h
        · exact h (Function.update_of_ne hne _ _)
        · exact h (Function.update_of_ne hne _ _)
        · exact h rfl
      rw [hdf]
      exact hsrc
    · simp only [machine, move]
      rw [show (s.restrict k).pc c = .granting k (f :: ds) from hp]
      rfl

/-- **Every step of an unlock is isolated**, if it finds no waiter of another lock. -/
theorem Good.isolated {s s' : State C K ι} {e : Event C K ι} {k : K} (h : Good cfg s)
    (he : (machine C cfg).step s e = some s') (hok : Unshared cfg s e s')
    (hk : unlocks s e = some k) : Isolated cfg s e s' k := by
  cases e with
  | join | leave => cases hk
  | call c op =>
    cases op with
    | readlock | writelock => cases hk
    | readunlock =>
      cases hp : s.pc c with
      | reading j =>
        simp only [unlocks, hp, Pc.reads, Option.some.injEq] at hk
        simp only [machine, call, hp, Option.some.injEq] at he
        exact hk ▸ he ▸ readunlock_isolated hp
      | _ => simp [machine, call, hp] at he
    | writeunlock =>
      cases hp : s.pc c with
      | writing j =>
        simp only [unlocks, hp, Pc.writes, Option.some.injEq] at hk
        simp only [machine, call, hp, Option.some.injEq] at he
        exact hk ▸ he ▸ writeunlock_isolated hp
      | _ => simp [machine, call, hp] at he
  | move c =>
    cases hp : s.pc c with
    | readUnlockSection j =>
      simp only [unlocks, hp, Option.some.injEq] at hk
      simp only [machine, move, hp, Option.some.injEq] at he
      refine hk ▸ he ▸ readUnlockSection_isolated h hp fun hl hin => hok j ?_
      simp only [searches, hp]
      rw [if_pos ⟨hl, hin⟩]
      rfl
    | writeUnlockSection j =>
      simp only [unlocks, hp, Option.some.injEq] at hk
      simp only [machine, move, hp, Option.some.injEq] at he
      exact hk ▸ he ▸ writeUnlockSection_isolated h hp (hok j (by simp [searches, hp]))
    | granting j ds =>
      simp only [unlocks, hp, Option.some.injEq] at hk
      exact hk ▸ grant_isolated h hp he
    | _ => simp [unlocks, hp] at hk

/-- **Reader-writer bitlocks that share a wait list do not interfere** as long as an
unlock that searches the list finds no waiter of another lock: then a writer has its
lock alone, and a step of an unlock leaves the other locks alone. -/
theorem isolated_of_reach (cfg : Config K ι) {s : State C K ι}
    (h : (machine C cfg).Reach (Unshared cfg) s) :
    (∀ k, Exclusive s k) ∧ ∀ e s' k, (machine C cfg).step s e = some s' → Unshared cfg s e s' →
      unlocks s e = some k → Isolated cfg s e s' k :=
  ⟨fun k => ((good_of_reach h).safe k).exclusive, fun _ _ _ => (good_of_reach h).isolated⟩

/-! ## Two locks in one wait list -/

/-- Two locks with the same range of bits, one writer bit and two reader bits, that
share the one wait list there is. -/
def sharing : Config Bool Unit where
  list := fun _ => ()
  startBit := fun _ => 0
  numBits := fun _ => 3
  three_le := by decide
  fits := by decide

/-- The two locks at the start. -/
def sharingInit : State (Fin 6) Bool Unit where
  w := fun _ => false
  r := fun _ => 0
  list := fun _ => []
  src := fun _ => none
  tag := fun _ => ⟨0, 0, false, false, false, false, false, false⟩
  signalled := fun _ => false
  granted := fun _ => false
  pc := fun _ => .idle

theorem sharingInit_start : Start sharingInit := by
  constructor <;> intro <;> rfl

/-- Five readers of one lock, two of them counted in the list, and a writer that
waits; one of the readers unlocks and takes the entry of another one. -/
theorem safe_saturated :
    ∃ s : State (Fin 6) Bool Unit, s.r false = 3 ∧ s.list () = [5, 4]
      ∧ s.pc 4 = .waiting false false ∧ Safe sharing s false := by
  obtain ⟨s, hs, hp⟩ := Machine.Reach.exists_of_exec (machine (Fin 6) sharing)
    (Unshared sharing) sharingInit_start
    (p := fun s => decide (s.r false = 3 ∧ s.list () = [5, 4] ∧ s.pc 4 = .waiting false false))
    ([.call 0 (.readlock false false), .call 1 (.readlock false false),
      .call 2 (.readlock false true), .call 3 (.readlock false false), .move 3,
      .call 5 (.readlock false true), .move 5, .call 4 (.writelock false false), .move 4,
      .call 0 .readunlock, .move 0]) (by decide +kernel)
  obtain ⟨h₁, h₂, h₃⟩ := of_decide_eq_true hp
  exact ⟨s, h₁, h₂, h₃, safe_of_reach sharing hs false⟩

/-- Both locks are handed from a writer to a waiter, one after the other. -/
theorem isolated_in_turn :
    ∃ s s' : State (Fin 6) Bool Unit, (machine (Fin 6) sharing).step s (.move 2) = some s'
      ∧ s.list () = [3] ∧ s'.list () = [] ∧ (∀ k, Exclusive s k)
      ∧ Isolated sharing s (.move 2) s' true := by
  obtain ⟨s, hs, hp⟩ := Machine.Reach.exists_of_exec (machine (Fin 6) sharing)
    (Unshared sharing) sharingInit_start
    (p := fun s => decide (s.pc 2 = .writeUnlockSection true ∧ s.list () = [3]
      ∧ (writeUnlockSection sharing s 2 true).list () = []
      ∧ Unshared sharing s (.move 2) s))
    ([.call 0 (.writelock false false), .call 2 (.writelock true false),
      .call 1 (.readlock false false), .move 1, .call 0 .writeunlock, .move 0, .move 0, .move 0,
      .call 3 (.writelock true false), .move 3, .call 2 .writeunlock]) (by decide +kernel)
  obtain ⟨h₁, h₂, h₃, h₄⟩ := of_decide_eq_true hp
  have he : (machine (Fin 6) sharing).step s (.move 2)
      = some (writeUnlockSection sharing s 2 true) := by
    simp only [machine, move, h₁]
  obtain ⟨hex, hiso⟩ := isolated_of_reach sharing hs
  exact ⟨s, _, he, h₂, h₃, hex, hiso _ _ true he h₄ (by simp only [unlocks, h₁])⟩

/-- **An unlock hands over another lock**: thread `0` has the one lock for writing and
thread `1` waits to read it, thread `2` has the other one and thread `3` waits for it.
The unlock of thread `2` finds the waiter of the first lock, takes it out of the list
and wakes it up, and thread `1` reads while thread `0` writes. -/
theorem exists_handed_over :
    (∃ s s' : State (Fin 6) Bool Unit, (machine (Fin 6) sharing).Reach Machine.anyStep s
      ∧ (machine (Fin 6) sharing).step s (.move 2) = some s' ∧ unlocks s (.move 2) = some true
      ∧ s.src 1 = some false ∧ Touches s s' 1)
    ∧ ∃ s : State (Fin 6) Bool Unit, (machine (Fin 6) sharing).Reach Machine.anyStep s
      ∧ WriteHolder s.pc s.granted 0 false ∧ ReadHolder s.pc s.granted 1 false := by
  constructor
  · obtain ⟨s, hs, hp⟩ := Machine.Reach.exists_of_exec (machine (Fin 6) sharing)
      Machine.anyStep sharingInit_start
      (p := fun s => decide (s.pc 2 = .writeUnlockSection true ∧ s.src 1 = some false
        ∧ 1 ∈ s.list () ∧ 1 ∉ (writeUnlockSection sharing s 2 true).list ()))
      ([.call 0 (.writelock false false), .call 1 (.readlock false false), .move 1,
        .call 2 (.writelock true false), .call 3 (.writelock true false), .move 3,
        .call 2 .writeunlock]) (by decide +kernel)
    obtain ⟨h₁, h₂, h₃, h₄⟩ := of_decide_eq_true hp
    refine ⟨s, writeUnlockSection sharing s 2 true, hs, ?_, ?_, h₂, .inl ⟨(), h₃, h₄⟩⟩
    · simp only [machine, move, h₁]
    · simp only [unlocks, h₁]
  · obtain ⟨s, hs, hp⟩ := Machine.Reach.exists_of_exec (machine (Fin 6) sharing)
      Machine.anyStep sharingInit_start
      (p := fun s => decide (s.pc 0 = .writing false ∧ s.pc 1 = .reading false))
      ([.call 0 (.writelock false false), .call 1 (.readlock false false), .move 1,
        .call 2 (.writelock true false), .call 3 (.writelock true false), .move 3,
        .call 2 .writeunlock, .move 2, .move 2, .move 1]) (by decide +kernel)
    obtain ⟨h₁, h₂⟩ := of_decide_eq_true hp
    exact ⟨s, hs, .inl (by rw [h₁]; rfl), .inl (by rw [h₂]; rfl)⟩

end RwBitlock
