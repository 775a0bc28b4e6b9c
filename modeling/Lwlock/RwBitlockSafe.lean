import Lwlock.RwBitlockView

/-!
# Readers and writers exclude each other

Every step of the code is one of the transitions of the abstract reading, as long
as an unlock finds only clients of its own lock when it searches the wait list.
Nothing in the code sees to that: `find_next_matching_waiter` compares a range of
bits and not the lock, so with two locks of the same range in one wait list an
unlock of one of them hands the other one over.
-/

namespace RwBitlock

variable {C K ι : Type} {cfg : Config K ι} [DecidableEq C] [DecidableEq K] [DecidableEq ι]

/-- **The invariant, of a state of the code.** -/
def Good (cfg : Config K ι) (s : State C K ι) : Prop :=
  Rep cfg s ∧ ∃ g, Inv cfg.maxReaders (s.abs cfg) g

omit [DecidableEq K] [DecidableEq ι] in
/-- A count has room for three. -/
theorem Config.three_le_maxReaders (cfg : Config K ι) (k : K) : 3 ≤ cfg.maxReaders k := by
  have h : 2 ^ 2 ≤ 2 ^ (cfg.numBits k - 1) :=
    Nat.pow_le_pow_right Nat.two_pos (Nat.le_sub_of_add_le (cfg.three_le k))
  unfold Config.maxReaders
  omega

/-! ## Steps of the lists -/

omit [DecidableEq ι] in
/-- A client moves, and its tag may change. -/
theorem abs_goto (s : State C K ι) {c : C} {p : Pc C K ι}
    (h : ∀ i, c ∈ s.list i → p.lockOf = (s.pc c).lockOf) :
    (s.goto c p).abs cfg = { s.abs cfg with pc := Function.update s.pc c p } := by
  simp only [State.abs, State.goto, queueOf_update h]

/-- A client is appended. -/
theorem abs_append (s : State C K ι) {c : C} {k : K} {tg : Tag} {p : Pc C K ι}
    (hc : ∀ i, c ∉ s.list i) (hp : p.lockOf = some k) :
    ((s.append cfg c k tg).goto c p).abs cfg = { s.abs cfg with
      queue := Function.update (queueOf cfg s.list s.pc) k (queueOf cfg s.list s.pc k ++ [c])
      src := Function.update s.src c (some k)
      signalled := Function.update s.signalled c false
      granted := Function.update s.granted c false
      tag := Function.update s.tag c tg
      pc := Function.update s.pc c p } := by
  simp only [State.abs, State.goto, State.append, State.setTag, queueOf_append hc hp]

omit [DecidableEq K] [DecidableEq ι] in
/-- A client that is in no list moves. -/
theorem Rep.goto {s : State C K ι} (h : Rep cfg s) {c : C} {p : Pc C K ι}
    (hc : ∀ i, c ∈ s.list i → p.lockOf = (s.pc c).lockOf ∧ ∀ j, s.pc c ≠ .foreign j) :
    Rep cfg (s.goto c p) := by
  refine h.mono (fun i => List.Sublist.refl _) (fun i d hd => ?_) fun _ _ _ => ⟨rfl, fun _ => rfl⟩
  simp only [State.goto]
  by_cases hdc : d = c
  · subst hdc
    rw [Function.update_self]
    exact ⟨(hc i hd).1, fun j hj => absurd hj ((hc i hd).2 j)⟩
  · rw [Function.update_of_ne hdc]
    exact ⟨rfl, fun _ => id⟩

omit [DecidableEq K] [DecidableEq ι] in
/-- The tag of a client that is in no list changes. -/
theorem Rep.setTag {s : State C K ι} (h : Rep cfg s) {c : C} {tg : Tag}
    (hc : ∀ i, c ∉ s.list i) : Rep cfg (s.setTag c tg) := by
  refine h.mono (fun i => List.Sublist.refl _) (fun _ _ _ => ⟨rfl, fun _ => id⟩) fun i d hd => ?_
  have hdc : d ≠ c := fun hdc => hc i (hdc ▸ hd)
  simp only [State.setTag, Function.update_of_ne hdc, implies_true, and_self]

omit [DecidableEq K] in
/-- A client is appended. -/
theorem Rep.append {s : State C K ι} (h : Rep cfg s) {c : C} {k : K} {tg : Tag} {p : Pc C K ι}
    (hc : ∀ i, c ∉ s.list i) (hp : p.lockOf = some k) (htg : isMatch cfg tg k = true) :
    Rep cfg ((s.append cfg c k tg).goto c p) := by
  have hold : ∀ i d, d ∈ s.list i → d ≠ c := fun i d hd hdc => hc i (hdc ▸ hd)
  have hplace : ∀ i d, d ∈ s.list i → (Function.update s.pc c p d = .foreign i
        ∧ (Function.update s.tag c tg d).rwUniq = false)
      ∨ ∃ j, (Function.update s.pc c p d).lockOf = some j ∧ cfg.list j = i
        ∧ isMatch cfg (Function.update s.tag c tg d) j = true := by
    intro i d hd
    simp only [Function.update_of_ne (hold i d hd)]
    exact h.place i d hd
  refine ⟨fun i => ?_, fun i d hd => ?_⟩
  · simp only [State.goto, State.append]
    by_cases hi : i = cfg.list k
    · subst hi
      rw [Function.update_self]
      exact List.nodup_append.mpr ⟨h.nodup _, List.nodup_cons.mpr ⟨nofun, List.nodup_nil⟩, fun x hx y hy =>
        List.mem_singleton.mp hy ▸ hold _ x hx⟩
    · rw [Function.update_of_ne hi]
      exact h.nodup i
  · simp only [State.goto, State.append, State.setTag] at hd ⊢
    by_cases hi : i = cfg.list k
    · subst hi
      rw [Function.update_self] at hd
      rcases List.mem_append.mp hd with hd | hd
      · exact hplace _ d hd
      · obtain rfl := List.mem_singleton.mp hd
        rw [Function.update_self, Function.update_self]
        exact .inr ⟨k, hp, rfl, htg⟩
    · rw [Function.update_of_ne hi] at hd
      exact hplace i d hd

/-! ## Taking a lock and queueing for it -/

/-- A program point at which a client is in no wait list and has nothing to do with
a lock. -/
def Pc.Outside (p : Pc C K ι) : Prop :=
  p.Plain ∧ p.lockOf = none ∧ ∀ i, p ≠ .foreign i

omit [DecidableEq C] [DecidableEq K] [DecidableEq ι] in
/-- Before a call. -/
theorem outside_idle : (Pc.idle : Pc C K ι).Outside :=
  ⟨⟨rfl, rfl, rfl, rfl, rfl, nofun⟩, rfl, nofun⟩

omit [DecidableEq C] [DecidableEq K] [DecidableEq ι] in
/-- Before the section of a read lock. -/
theorem outside_readSection (k : K) (try' : Bool) : (Pc.readSection k try' : Pc C K ι).Outside :=
  ⟨⟨rfl, rfl, rfl, rfl, rfl, nofun⟩, rfl, nofun⟩

omit [DecidableEq C] [DecidableEq K] [DecidableEq ι] in
/-- Before the section of a write lock. -/
theorem outside_writeSection (k : K) : (Pc.writeSection k : Pc C K ι).Outside :=
  ⟨⟨rfl, rfl, rfl, rfl, rfl, nofun⟩, rfl, nofun⟩

omit [DecidableEq ι] in
/-- A client goes on outside. -/
theorem goto_good {s : State C K ι} {c : C} {p : Pc C K ι} (h : Good cfg s)
    (hpc : (s.pc c).Outside) (hp : p.Outside) (hrel : p.releases = none) :
    Good cfg (s.goto c p) := by
  obtain ⟨hrep, g, hinv⟩ := h
  obtain ⟨⟨p1, p2, p3, p4, p5, p6⟩, hlo, hfo⟩ := hpc
  obtain ⟨⟨q1, q2, q3, q4, q5, q6⟩, -, -⟩ := hp
  have hno := hrep.not_mem hlo hfo
  refine ⟨hrep.goto fun i hi => absurd hi (hno i), g, ?_⟩
  rw [abs_goto s fun i hi => absurd hi (hno i)]
  refine hinv.goto (q1.trans p1.symm) (q2.trans p2.symm) (q3.trans p3.symm) (q4.trans p4.symm)
    hrel ?_ q6
  intro k hk
  rw [q5] at hk
  cases hk

omit [DecidableEq ι] in
/-- **A reader is counted.** -/
theorem readTake_good {s : State C K ι} {c : C} {k : K} {try' under : Bool} (h : Good cfg s)
    (hpc : (s.pc c).Outside)
    (hr : s.r k ≠ cfg.maxReaders k ∧ s.w k = false) :
    Good cfg (((setRdlock cfg s k try' under).setTag c (ownTag cfg k true)).goto c
      (.reading k)) := by
  obtain ⟨hrep, g, hinv⟩ := h
  obtain ⟨hplain, hlo, hfo⟩ := hpc
  have hno := hrep.not_mem hlo hfo
  have hset : setRdlock cfg s k try' under = s.setBits k false (s.r k + 1) := by
    rw [setRdlock, if_neg (by rw [hr.2]; nofun), if_neg hr.1]
  rw [hset]
  have hrep' : Rep cfg (s.setBits k false (s.r k + 1)) := ⟨hrep.nodup, hrep.place⟩
  refine ⟨(hrep'.setTag hno).goto fun i hi => absurd hi (hno i), ?_⟩
  rw [abs_goto]
  · exact ⟨_, hinv.readTake (ownTag cfg k true) cfg.three_le_maxReaders hplain rfl hr.2 hr.1⟩
  · exact fun i hi => absurd hi (hno i)

omit [DecidableEq ι] in
/-- **A writer takes a free lock.** -/
theorem writeTake_good {s : State C K ι} {c : C} {k : K} {try' under : Bool} (h : Good cfg s)
    (hpc : (s.pc c).Outside)
    (hr : s.r k = 0 ∧ s.w k = false) :
    Good cfg (((setWrlock s k try' under).setTag c (ownTag cfg k false)).goto c
      (.writing k)) := by
  obtain ⟨hrep, g, hinv⟩ := h
  obtain ⟨hplain, hlo, hfo⟩ := hpc
  have hno := hrep.not_mem hlo hfo
  have hset : setWrlock s k try' under = s.setBits k true (s.r k) := by
    rw [setWrlock, if_neg (by rw [hr.2]; nofun), if_neg (not_not.mpr hr.1)]
  rw [hset]
  have hrep' : Rep cfg (s.setBits k true (s.r k)) := ⟨hrep.nodup, hrep.place⟩
  refine ⟨(hrep'.setTag hno).goto fun i hi => absurd hi (hno i), ?_⟩
  rw [abs_goto]
  · exact ⟨_, hinv.writeTake hplain hr.2 hr.1⟩
  · exact fun i hi => absurd hi (hno i)

/-- **A client queues.** -/
theorem enqueue_good {s : State C K ι} {c : C} {k : K} {rd : Bool} (h : Good cfg s)
    (hpc : (s.pc c).Outside)
    (hr : s.w k = true ∨ (s.r k ≠ 0 ∧ rd = false)) :
    Good cfg (((s.setBits k true (if s.r k = 0 then 1 else s.r k)).append cfg c k
      (waitTag cfg k rd false)).goto c (.waiting k rd)) := by
  obtain ⟨hrep, g, hinv⟩ := h
  obtain ⟨hplain, hlo, hfo⟩ := hpc
  have hno := hrep.not_mem hlo hfo
  have hrep' : Rep cfg (s.setBits k true (if s.r k = 0 then 1 else s.r k)) :=
    ⟨hrep.nodup, hrep.place⟩
  refine ⟨hrep'.append hno rfl (by simp [isMatch, waitTag]), ?_⟩
  rw [abs_append (s.setBits k true (if s.r k = 0 then 1 else s.r k)) hno rfl]
  refine ⟨_, hinv.enqueue (waitTag cfg k rd false) hplain ⟨rfl, rfl, rfl, rfl⟩ ?_⟩
  by_cases hw : s.w k = true
  · exact .inl ⟨hw, rfl⟩
  · obtain ⟨hne, hrd⟩ := hr.resolve_left hw
    exact .inr ⟨Bool.eq_false_iff.mpr hw, hne, hrd, if_neg hne⟩

/-- **A reader past a saturated count** is put in the list. -/
theorem readOver_good {s : State C K ι} {c : C} {k : K} (h : Good cfg s) (hpc : (s.pc c).Outside)
    (hr : s.r k = cfg.maxReaders k) (hw : s.w k = false) :
    Good cfg ((s.append cfg c k (waitTag cfg k true true)).goto c (.reading k)) := by
  obtain ⟨hrep, g, hinv⟩ := h
  obtain ⟨hplain, hlo, hfo⟩ := hpc
  have hno := hrep.not_mem hlo hfo
  refine ⟨hrep.append hno rfl (by simp [isMatch, waitTag]), ?_⟩
  rw [abs_append s hno rfl]
  exact ⟨_, hinv.readOver (waitTag cfg k true true) cfg.three_le_maxReaders hplain
    ⟨rfl, rfl, rfl⟩ hw hr⟩

omit [DecidableEq C] [DecidableEq ι] in
/-- What `set_rdlock` leaves when the lock is not to be had outside of the section. -/
theorem setRdlock_outside {s : State C K ι} {k : K} {try' : Bool}
    (hr : ¬ (s.r k ≠ cfg.maxReaders k ∧ s.w k = false)) : setRdlock cfg s k try' false = s := by
  rw [setRdlock]
  by_cases hw : s.w k = true
  · rw [if_pos hw]
    rfl
  · rw [if_neg hw, if_pos]
    by_contra hne
    exact hr ⟨hne, Bool.eq_false_iff.mpr hw⟩

omit [DecidableEq C] [DecidableEq ι] in
/-- What `set_wrlock` leaves when the lock is not to be had outside of the section. -/
theorem setWrlock_outside {s : State C K ι} {k : K} {try' : Bool}
    (hr : ¬ (s.r k = 0 ∧ s.w k = false)) : setWrlock s k try' false = s := by
  rw [setWrlock]
  by_cases hw : s.w k = true
  · rw [if_pos hw]
    rfl
  · rw [if_neg hw, if_pos fun h0 => hr ⟨h0, Bool.eq_false_iff.mpr hw⟩]
    rfl

omit [DecidableEq C] [DecidableEq ι] in
/-- Storing what is there. -/
theorem setBits_self {s : State C K ι} {k : K} {w : Bool} {r : ℕ} (hw : s.w k = w)
    (hr : s.r k = r) : s.setBits k w r = s := by
  subst hw hr
  rw [State.setBits, Function.update_eq_self, Function.update_eq_self]

omit [DecidableEq C] [DecidableEq ι] in
/-- What `set_rdlock` leaves in the section when the reader has to wait. -/
theorem setRdlock_wait {s : State C K ι} {k : K} (hw : s.w k = true) :
    setRdlock cfg s k false true = s.setBits k true (if s.r k = 0 then 1 else s.r k) := by
  rw [setRdlock, if_pos hw, if_neg (by nofun)]
  by_cases h0 : s.r k = 0
  · rw [if_neg (not_not.mpr h0), if_pos h0, h0]
  · rw [if_pos h0, if_neg h0, setBits_self hw rfl]

omit [DecidableEq C] [DecidableEq ι] in
/-- What `set_wrlock` leaves in the section when the writer has to wait. -/
theorem setWrlock_wait {s : State C K ι} {k : K} (hr : ¬ (s.r k = 0 ∧ s.w k = false)) :
    setWrlock s k false true = s.setBits k true (if s.r k = 0 then 1 else s.r k) := by
  rw [setWrlock]
  by_cases hw : s.w k = true
  · rw [if_pos hw, if_neg (by nofun)]
    by_cases h0 : s.r k = 0
    · rw [if_neg (not_not.mpr h0), if_pos h0, h0]
    · rw [if_pos h0, if_neg h0, setBits_self hw rfl]
  · have h0 : s.r k ≠ 0 := fun h0 => hr ⟨h0, Bool.eq_false_iff.mpr hw⟩
    rw [if_neg hw, if_pos h0, if_neg (by nofun), if_neg h0]

omit [DecidableEq ι] in
/-- **`readlock_async`** up to its section. -/
theorem readlock_good {s : State C K ι} {c : C} {k : K} {try' : Bool} (h : Good cfg s)
    (hpc : (s.pc c).Outside) : Good cfg (readlock cfg s c k try') := by
  rw [readlock]
  by_cases hr : s.r k ≠ cfg.maxReaders k ∧ s.w k = false
  · rw [if_pos hr]
    exact readTake_good h hpc hr
  · rw [if_neg hr, setRdlock_outside hr]
    split
    · exact h
    · exact goto_good h hpc (outside_readSection k try') rfl

/-- **The section of `readlock_async`.** -/
theorem readSection_good {s : State C K ι} {c : C} {k : K} {try' : Bool} (h : Good cfg s)
    (hpc : (s.pc c).Outside) : Good cfg (readSection cfg s c k try') := by
  rw [readSection]
  by_cases hr : s.r k ≠ cfg.maxReaders k ∧ s.w k = false
  · rw [if_pos hr]
    exact readTake_good h hpc hr
  rw [if_neg hr]
  by_cases hw : s.w k = true
  · cases try' with
    | true =>
      have hset : setRdlock cfg s k true true = s := by
        rw [setRdlock, if_pos hw]
        rfl
      rw [if_pos ⟨rfl, hw⟩, hset]
      exact goto_good h hpc outside_idle rfl
    | false =>
      rw [if_neg (by nofun), if_pos hw, setRdlock_wait hw]
      exact enqueue_good h hpc (.inl hw)
  · have hmax : s.r k = cfg.maxReaders k := by
      by_contra hne
      exact hr ⟨hne, Bool.eq_false_iff.mpr hw⟩
    have hset : setRdlock cfg s k try' true = s := by
      rw [setRdlock, if_neg hw, if_pos hmax]
    rw [if_neg (fun hd => hw hd.2), if_neg hw, hset]
    exact readOver_good h hpc hmax (Bool.eq_false_iff.mpr hw)

omit [DecidableEq ι] in
/-- **`writelock_async`** up to its section. -/
theorem writelock_good {s : State C K ι} {c : C} {k : K} {try' : Bool} (h : Good cfg s)
    (hpc : (s.pc c).Outside) : Good cfg (writelock cfg s c k try') := by
  rw [writelock]
  by_cases hr : s.r k = 0 ∧ s.w k = false
  · rw [if_pos hr]
    exact writeTake_good h hpc hr
  · rw [if_neg hr, setWrlock_outside hr]
    split
    · exact h
    · exact goto_good h hpc (outside_writeSection k) rfl

/-- **The section of `writelock_async`.** -/
theorem writeSection_good {s : State C K ι} {c : C} {k : K} (h : Good cfg s)
    (hpc : (s.pc c).Outside) : Good cfg (writeSection cfg s c k) := by
  rw [writeSection]
  by_cases hr : s.r k = 0 ∧ s.w k = false
  · rw [if_pos hr]
    exact writeTake_good h hpc hr
  · rw [if_neg hr, setWrlock_wait hr]
    refine enqueue_good h hpc ?_
    by_cases hw : s.w k = true
    · exact .inl hw
    · exact .inr ⟨fun h0 => hr ⟨h0, Bool.eq_false_iff.mpr hw⟩, rfl⟩

/-! ## Unlocking -/

omit [DecidableEq C] [DecidableEq ι] in
/-- A reader is in no list, if nobody is counted in the queue. -/
theorem not_mem_of_over {s : State C K ι} {g : Ghost C K} {c : C} {k : K} (hrep : Rep cfg s)
    (hc : Clients (s.abs cfg) g) (hpc : (s.pc c).reads = some k) (ho : c ∉ g.surplus k) (i : ι) :
    c ∉ s.list i := by
  have hlo : (s.pc c).lockOf = some k := by
    cases hp : s.pc c <;> rw [hp] at hpc <;> cases hpc <;> rfl
  refine hrep.not_mem_of_queue hlo ?_ i
  have hq : queueOf cfg s.list s.pc k = g.surplus k ++ g.line k := hc.queue k
  rw [hq, List.mem_append, not_or]
  exact ⟨ho, hc.not_line (Pc.reads_only hpc).2.1 k⟩

omit [DecidableEq ι] in
/-- **A reader gives the lock up**, and nobody is counted in the queue. -/
theorem drop_good {s : State C K ι} {g : Ghost C K} {c : C} {k : K} {r : ℕ} (hrep : Rep cfg s)
    (hinv : Inv cfg.maxReaders (s.abs cfg) g) (hpc : (s.pc c).reads = some k)
    (ho : g.surplus k = []) (hk : Shape (cfg.maxReaders k) (fun c => (s.tag c).rdlock) (s.w k) r
      (g.surplus k) (g.line k) ((g.hold k).erase c) (g.wr k)) :
    Good cfg ((s.setBits k (s.w k) r).goto c .idle) := by
  have hno := not_mem_of_over hrep hinv.clients hpc (by rw [ho]; nofun)
  have hrep' : Rep cfg (s.setBits k (s.w k) r) := ⟨hrep.nodup, hrep.place⟩
  refine ⟨hrep'.goto fun i hi => absurd hi (hno i), ?_⟩
  rw [abs_goto]
  · exact ⟨_, hinv.drop hpc ho hk⟩
  · exact fun i hi => absurd hi (hno i)

omit [DecidableEq C] [DecidableEq K] [DecidableEq ι] in
/-- When `clear_rdlock` leaves nothing to do. -/
theorem leavesWork_eq_false {s : State C K ι} {k : K} :
    leavesWork cfg s k = false ↔ s.r k ≠ cfg.maxReaders k ∧ ¬ (s.w k = true ∧ s.r k = 1) := by
  simp [leavesWork]

omit [DecidableEq ι] in
/-- **`clear_rdlock`** without further work. -/
theorem clear_good {s : State C K ι} {c : C} {k : K} (h : Good cfg s)
    (hpc : (s.pc c).reads = some k) (hl : leavesWork cfg s k = false) :
    Good cfg ((s.setBits k (s.w k) (s.r k - 1)).goto c .idle) := by
  obtain ⟨hrep, g, hinv⟩ := h
  obtain ⟨hr, hw⟩ := leavesWork_eq_false.mp hl
  have hch : c ∈ g.hold k := (hinv.clients.hold c k).mpr (.inl hpc)
  obtain ⟨ho, hk⟩ := (hinv.shape k).readDrop hch hr hw
  exact drop_good hrep hinv hpc ho hk

omit [DecidableEq ι] in
/-- **`readunlock`** up to its section. -/
theorem readunlock_good {s : State C K ι} {c : C} {k : K} (h : Good cfg s)
    (hpc : s.pc c = .reading k) : Good cfg (readunlock cfg s c k) := by
  rw [readunlock]
  split
  · obtain ⟨hrep, g, hinv⟩ := h
    have hpc' : (s.abs cfg).pc c = .reading k := hpc
    refine ⟨hrep.goto fun i _ => by rw [hpc]; exact ⟨rfl, nofun⟩, g, ?_⟩
    rw [abs_goto s fun i _ => by rw [hpc]; rfl]
    exact hinv.goto (by rw [hpc']; rfl) (by rw [hpc']; rfl)
      (by rw [hpc']; rfl) (by rw [hpc']; rfl) rfl nofun nofun
  · next hl => exact clear_good h (by rw [hpc]; rfl) (Bool.eq_false_iff.mpr hl)

omit [DecidableEq ι] in
/-- **`writeunlock`** up to its section. -/
theorem writeunlock_good {s : State C K ι} {c : C} {k : K} (h : Good cfg s)
    (hpc : s.pc c = .writing k) : Good cfg (writeunlock s c k) := by
  obtain ⟨hrep, g, hinv⟩ := h
  have hno := hrep.not_mem (c := c) (by rw [hpc]; rfl) (by rw [hpc]; nofun)
  have hpc' : (s.abs cfg).pc c = .writing k := hpc
  have hwrites : ((s.abs cfg).pc c).writes = some k := by rw [hpc']; rfl
  rw [writeunlock]
  by_cases hr : s.r k ≠ 0
  · rw [if_pos hr]
    refine ⟨hrep.goto fun i hi => absurd hi (hno i), g, ?_⟩
    rw [abs_goto s fun i hi => absurd hi (hno i)]
    refine hinv.goto (by rw [hpc']; rfl) (by rw [hpc']; rfl)
      (by rw [hpc']; rfl) (by rw [hpc']; rfl) rfl ?_ nofun
    -- the count of a lock that a writer has says whether somebody waits
    intro j hj
    obtain rfl : k = j := Option.some.inj hj
    have hwr : g.wr k = some c := (hinv.clients.wr c k).mpr (.inl hwrites)
    obtain ⟨-, -, -, hcount⟩ := (hinv.shape k).writing (by rw [hwr]; nofun)
    intro hline
    rw [if_pos hline] at hcount
    exact hr hcount
  · rw [if_neg hr]
    have hrep' : Rep cfg (s.setBits k false (s.r k)) := ⟨hrep.nodup, hrep.place⟩
    refine ⟨hrep'.goto fun i hi => absurd hi (hno i), ?_⟩
    rw [abs_goto]
    · exact ⟨_, hinv.writeDrop hwrites (not_not.mp hr)⟩
    · exact fun i hi => absurd hi (hno i)

omit [DecidableEq C] [DecidableEq K] [DecidableEq ι] in
/-- Tags that differ in nothing that `find_next_matching_waiter` looks at. -/
theorem isMatch_congr {t t' : Tag} (h : t'.rwUniq = t.rwUniq ∧ t'.startBit = t.startBit
    ∧ t'.numBits = t.numBits) (k : K) : isMatch cfg t' k = isMatch cfg t k := by
  rw [isMatch, isMatch, h.1, h.2.1, h.2.2]

omit [DecidableEq K] in
/-- Who is left in a list. -/
theorem mem_remove {s : State C K ι} {i j : ι} {ds : List C} {c : C} :
    c ∈ (s.remove i ds).list j ↔ c ∈ s.list j ∧ (j = i → c ∉ ds) := by
  simp only [State.remove]
  by_cases hj : j = i
  · subst hj
    simp
  · simp [hj]

omit [DecidableEq K] in
/-- **Clients leave a list**, and the tags of others may change. -/
theorem Rep.remove {s s' : State C K ι} (h : Rep cfg s) {i : ι} {ds : List C}
    (hl : s'.list = (s.remove i ds).list) (hpc : s'.pc = s.pc)
    (htag : ∀ c, (s'.tag c).rwUniq = (s.tag c).rwUniq ∧ (s'.tag c).startBit = (s.tag c).startBit
      ∧ (s'.tag c).numBits = (s.tag c).numBits) : Rep cfg s' := by
  refine h.mono (fun j => ?_) (fun _ c _ => ?_)
    fun _ c _ => ⟨(htag c).1, isMatch_congr (htag c)⟩
  · rw [hl]
    simp only [State.remove]
    by_cases hj : j = i
    · subst hj
      rw [Function.update_self]
      exact List.filter_sublist
    · rw [Function.update_of_ne hj]
  · rw [hpc]
    exact ⟨rfl, fun _ => id⟩

/-- Taking one entry out of a list without duplicates. -/
theorem filter_not_mem_singleton {l : List C} (h : l.Nodup) (f : C) :
    l.filter (fun c => decide (c ∉ [f])) = l.erase f := by
  rw [h.erase_eq_filter]
  refine List.filter_congr fun c _ => ?_
  simp [bne, Bool.beq_eq_decide_eq]

/-- **One entry less is counted in the queue.** -/
theorem dropOver_good {s : State C K ι} {g : Ghost C K} {c f : C} {k : K} (hrep : Rep cfg s)
    (hinv : Inv cfg.maxReaders (s.abs cfg) g) (hpc : (s.pc c).reads = some k)
    (hf : f ∈ g.surplus k) (hcf : c ∈ g.surplus k → c = f) :
    Good cfg (((s.remove (cfg.list k) [f]).setTag f { s.tag f with inList := false }).goto c
      .idle) := by
  have hq : queueOf cfg s.list s.pc k = g.surplus k ++ g.line k := hinv.clients.queue k
  have hlo : (s.pc f).lockOf = some k :=
    (mem_queueOf.mp (by
      rw [hq]
      exact List.mem_append_left _ hf : f ∈ queueOf cfg s.list s.pc k)).2
  have hnod : (queueOf cfg s.list s.pc k).Nodup := hinv.clients.nodup k
  have hrep' : Rep cfg ((s.remove (cfg.list k) [f]).setTag f { s.tag f with inList := false }) := by
    refine hrep.remove rfl rfl fun d => ?_
    simp only [State.setTag]
    by_cases hd : d = f
    · subst hd
      rw [Function.update_self]
      exact ⟨rfl, rfl, rfl⟩
    · rw [Function.update_of_ne hd]
      exact ⟨rfl, rfl, rfl⟩
  have hno : ∀ i, c ∉ (s.remove (cfg.list k) [f]).list i := by
    intro i hi
    obtain ⟨hci, hne⟩ := mem_remove.mp hi
    by_cases hc : c ∈ g.surplus k
    · obtain rfl := hcf hc
      rcases hrep.place i c hci with ⟨hp, -⟩ | ⟨j, hj, hji, -⟩
      · rw [hp] at hlo
        cases hlo
      · obtain rfl : j = k := Option.some.inj (hj.symm.trans hlo)
        exact hne hji.symm (List.mem_singleton_self c)
    · exact not_mem_of_over hrep hinv.clients hpc hc i hci
  refine ⟨hrep'.goto fun i hi => absurd hi (hno i), ?_⟩
  rw [abs_goto]
  · have habs : ((s.remove (cfg.list k) [f]).setTag f { s.tag f with inList := false }).abs cfg
        = { s.abs cfg with
          queue := Function.update (s.abs cfg).queue k (((s.abs cfg).queue k).erase f)
          tag := Function.update s.tag f { s.tag f with inList := false } } := by
      have hqueue := queueOf_remove (k := k) cfg s.list [f]
        fun d hd => by rw [List.mem_singleton.mp hd]; exact hlo
      rw [filter_not_mem_singleton hnod] at hqueue
      simp only [State.abs, State.setTag, State.remove, hqueue]
    rw [habs]
    exact ⟨_, hinv.dropOver hpc hf hcf⟩
  · exact fun i hi => absurd hi (hno i)

/-- **The queue after clients were taken out of it**, by somebody in no list. -/
theorem queueOf_take {s : State C K ι} {c : C} {k : K} {ds rest : List C} {p : Pc C K ι}
    (hrep : Rep cfg s) (hq : queueOf cfg s.list s.pc k = ds ++ rest) (hno : ∀ i, c ∉ s.list i) :
    queueOf cfg (s.remove (cfg.list k) ds).list (Function.update s.pc c p)
      = Function.update (queueOf cfg s.list s.pc) k rest := by
  have hds : ∀ d ∈ ds, (s.pc d).lockOf = some k := fun d hd =>
    (mem_queueOf.mp (hq ▸ List.mem_append_left _ hd : d ∈ queueOf cfg s.list s.pc k)).2
  have hnod : (ds ++ rest).Nodup := hq ▸ (hrep.nodup _).filter _
  have hrest : (ds ++ rest).filter (fun d => decide (d ∉ ds)) = rest := by
    rw [List.filter_append, List.filter_eq_nil_iff.mpr fun d hd => by simpa using hd,
      List.nil_append, List.filter_eq_self]
    intro d hd
    exact decide_eq_true fun hd' => (List.nodup_append.mp hnod).2.2 d hd' d hd rfl
  rw [queueOf_update fun i hi => absurd (mem_remove.mp hi).1 (hno i)]
  refine (queueOf_remove _ _ _ hds).trans ?_
  rw [hq, hrest]

omit [DecidableEq C] [DecidableEq ι] in
/-- The queue is what is found, and those counted in it come first. -/
theorem found_eq {s : State C K ι} {g : Ghost C K} {k : K} (hrep : Rep cfg s)
    (hc : Clients (s.abs cfg) g) (halone : Alone cfg s k) :
    s.found cfg k = g.surplus k ++ g.line k :=
  (hrep.found halone).trans (hc.queue k)

/-- **The section of `readunlock`**, with somebody in the list. -/
theorem readUnlockSection_cons_good {s : State C K ι} {g : Ghost C K} {c f : C} {k : K}
    {rest : List C} (hrep : Rep cfg s) (hinv : Inv cfg.maxReaders (s.abs cfg) g)
    (hpc : s.pc c = .readUnlockSection k) (hl : leavesWork cfg s k ≠ false)
    (hin : (s.tag c).inList = false) (halone : Alone cfg s k) (hf : s.found cfg k = f :: rest) :
    Good cfg (readUnlockSection cfg s c k) := by
  have hreads : (s.pc c).reads = some k := by rw [hpc]; rfl
  have hch : c ∈ g.hold k := (hinv.clients.hold c k).mpr (.inl hreads)
  have hco : c ∉ g.surplus k := by
    intro ho
    rw [show (s.tag c).inList = true from (hinv.clients.surplus k c ho).2.2.2.1] at hin
    cases hin
  have hq := found_eq hrep hinv.clients halone
  obtain ⟨count, pos, le, sat, first, hw, hwr⟩ := (hinv.shape k).reading hch
  rw [readUnlockSection, if_neg hl, if_neg (by rw [hin]; nofun), hf]
  dsimp only
  rw [hf] at hq
  by_cases hhave : (s.tag f).haveLock = true
  · -- the first one is counted in the queue
    rw [if_pos hhave]
    have hfo : f ∈ g.surplus k := by
      rcases List.mem_append.mp (hq ▸ List.mem_cons_self : f ∈ g.surplus k ++ g.line k) with h | h
      · exact h
      · rw [show (s.tag f).haveLock = false from (hinv.clients.line k f h).2.2.1] at hhave
        cases hhave
    exact dropOver_good hrep hinv hreads hfo fun ho => absurd ho hco
  rw [if_neg hhave]
  have ho : g.surplus k = [] := by
    rcases ho : g.surplus k with - | ⟨d, o⟩
    · rfl
    · rw [ho] at hq
      obtain rfl : f = d := (List.cons.inj hq).1
      exact absurd (hinv.clients.surplus k f (by rw [ho]; exact List.mem_cons_self)).2.1 hhave
  rw [ho, List.nil_append] at hq
  have hfw : (s.tag f).rdlock = false := first f (by rw [← hq]; rfl)
  rw [if_neg (by rw [hfw]; nofun)]
  have hno := not_mem_of_over hrep hinv.clients hreads hco
  have hmax := cfg.three_le_maxReaders k
  by_cases h1 : s.r k = 1
  · -- the last reader
    have hr : (if rest = [] ∨ s.r k = cfg.maxReaders k then s.r k - 1 else s.r k)
        = if rest = [] then 0 else 1 := by
      rw [h1]
      by_cases hrest : rest = []
      · rw [if_pos (.inl hrest), if_pos hrest]
      · rw [if_neg (by rw [not_or]; exact ⟨hrest, by omega⟩), if_neg hrest]
    rw [if_pos h1, hr]
    have hqueue : queueOf cfg s.list s.pc k = [f] ++ rest := by
      rw [← hrep.found halone, hf]
      rfl
    have hrep' : Rep cfg { (s.remove (cfg.list k) [f]).setTag f { s.tag f with inList := false } with
        granted := Function.update s.granted f true } := by
      refine hrep.remove rfl rfl fun d => ?_
      simp only [State.setTag]
      by_cases hd : d = f
      · subst hd
        rw [Function.update_self]
        exact ⟨rfl, rfl, rfl⟩
      · rw [Function.update_of_ne hd]
        exact ⟨rfl, rfl, rfl⟩
    have hrep₁ : Rep cfg ({ (s.remove (cfg.list k) [f]).setTag f
        { s.tag f with inList := false } with
        granted := Function.update s.granted f true }.setBits k (s.w k)
          (if rest = [] then 0 else 1)) := ⟨hrep'.nodup, hrep'.place⟩
    refine ⟨hrep₁.goto fun i hi => absurd (mem_remove.mp hi).1 (hno i), ?_⟩
    have htake := queueOf_take (p := .granting k [f]) hrep hqueue hno
    simp only [State.remove] at htake
    simp only [State.abs, State.goto, State.setBits, State.setTag, State.remove, htake]
    exact ⟨_, hinv.readHand cfg.three_le_maxReaders hreads h1 hqueue⟩
  · rw [if_neg h1]
    have hsat : s.r k = cfg.maxReaders k := by
      by_contra hne
      exact hl (leavesWork_eq_false.mpr ⟨hne, fun hd => h1 hd.2⟩)
    rw [if_pos (.inr hsat)]
    exact drop_good hrep hinv hreads ho ((hinv.shape k).readSatDrop hch hsat hmax ho)

/-- **The section of `readunlock`.** -/
theorem readUnlockSection_good {s : State C K ι} {c : C} {k : K} (h : Good cfg s)
    (hpc : s.pc c = .readUnlockSection k)
    (halone : leavesWork cfg s k = true → (s.tag c).inList = false → Alone cfg s k) :
    Good cfg (readUnlockSection cfg s c k) := by
  have hgood := h
  obtain ⟨hrep, g, hinv⟩ := h
  have hreads : (s.pc c).reads = some k := by rw [hpc]; rfl
  have hch : c ∈ g.hold k := (hinv.clients.hold c k).mpr (.inl hreads)
  obtain ⟨count, pos, le, sat, first, hw, hwr⟩ := (hinv.shape k).reading hch
  have hover : (s.tag c).inList = true → c ∈ g.surplus k ∧ s.r k = cfg.maxReaders k := by
    intro hin
    have ho := hinv.clients.inList c k (.inl hreads) hin
    exact ⟨ho, sat (List.ne_nil_of_mem ho)⟩
  by_cases hl : leavesWork cfg s k = false
  · have hin : ¬ (s.tag c).inList = true := fun hin =>
      (leavesWork_eq_false.mp hl).1 (hover hin).2
    rw [readUnlockSection, if_pos hl, if_neg hin]
    exact clear_good hgood hreads hl
  by_cases hin : (s.tag c).inList = true
  · rw [readUnlockSection, if_neg hl, if_pos hin, if_pos (hover hin).2]
    exact dropOver_good hrep hinv hreads (hover hin).1 fun _ => rfl
  have hin := Bool.eq_false_iff.mpr hin
  have halone := halone (Bool.eq_true_of_not_eq_false hl) hin
  rcases hf : s.found cfg k with - | ⟨f, rest⟩
  · -- nobody is in the list, so the count was saturated
    have hq := found_eq hrep hinv.clients halone
    rw [hf] at hq
    obtain ⟨ho, hline⟩ := List.append_eq_nil_iff.mp hq.symm
    have hsat : s.r k = cfg.maxReaders k := by
      by_contra hne
      refine hl (leavesWork_eq_false.mpr ⟨hne, fun hd => ?_⟩)
      have hw : s.w k = !(g.line k).isEmpty := hw
      rw [hline] at hw
      rw [hw] at hd
      cases hd.1
    rw [readUnlockSection, if_neg hl, if_neg (by rw [hin]; nofun), hf]
    exact drop_good hrep hinv hreads ho
      ((hinv.shape k).readSatDrop hch hsat (cfg.three_le_maxReaders k) ho)
  · exact readUnlockSection_cons_good hrep hinv hpc hl hin halone hf

/-- **Waiters are taken out of the list**, by a client in no list. -/
theorem handOver_good {s : State C K ι} {g : Ghost C K} {c : C} {k : K} {R O T : List C}
    {w : Bool} {r : ℕ} (hrep : Rep cfg s) (hno : ∀ i, c ∉ s.list i)
    (hq : queueOf cfg s.list s.pc k = R ++ T)
    (hinv : Inv cfg.maxReaders { s.abs cfg with
      w := Function.update s.w k w
      r := Function.update s.r k r
      queue := Function.update (queueOf cfg s.list s.pc) k T
      tag := fun d => if d ∈ O then { s.tag d with haveLock := true } else s.tag d
      signalled := fun d => if d ∈ O then true else s.signalled d
      granted := fun d => if d ∈ R ∨ d ∈ O then true else s.granted d
      pc := Function.update s.pc c (.granting k R) } g) :
    Good cfg (s.handOver cfg c k R O w r) := by
  have hrep' : Rep cfg ({ s.remove (cfg.list k) R with
      tag := fun d => if d ∈ O then { s.tag d with haveLock := true } else s.tag d
      signalled := fun d => if d ∈ O then true else s.signalled d
      granted := fun d => if d ∈ R ∨ d ∈ O then true else s.granted d }.setBits k w r) := by
    refine hrep.remove rfl rfl fun d => ?_
    simp only [State.setBits]
    split <;> exact ⟨rfl, rfl, rfl⟩
  refine ⟨hrep'.goto fun i hi => absurd (mem_remove.mp hi).1 (hno i), g, ?_⟩
  have htake := queueOf_take (p := .granting k R) hrep hq hno
  simp only [State.remove] at htake
  simp only [State.handOver, State.abs, State.goto, State.setBits, State.remove, htake]
  exact hinv

/-- **The section of `writeunlock`.** -/
theorem writeUnlockSection_good {s : State C K ι} {c : C} {k : K} (h : Good cfg s)
    (hpc : s.pc c = .writeUnlockSection k) (halone : Alone cfg s k) :
    Good cfg (writeUnlockSection cfg s c k) := by
  obtain ⟨hrep, g, hinv⟩ := h
  have hwrites : (s.pc c).writes = some k := by rw [hpc]; rfl
  have hno := hrep.not_mem (c := c) (by rw [hpc]; rfl) (by rw [hpc]; nofun)
  have hline : g.line k ≠ [] := hinv.clients.hands c k (by
    show (s.pc c).hands = some k
    rw [hpc]
    rfl)
  have hq := hrep.found halone
  rcases hf : s.found cfg k with - | ⟨f, m⟩
  · rw [found_eq hrep hinv.clients halone] at hf
    exact absurd (List.append_eq_nil_iff.mp hf).2 hline
  rw [hf] at hq
  by_cases hrd : (s.tag f).rdlock = true
  · obtain ⟨R, O, rest, hm, hall, hR, hmax, hO, hrest, he⟩ :=
      writeUnlockSection_readers (c := c) hf hrd (by have := cfg.three_le_maxReaders k; omega)
    rw [he]
    exact handOver_good hrep hno (hq.symm.trans hm)
      (hinv.writeHandReaders hwrites (hq.symm.trans hm) hall hR hmax hO hrest)
  · have hrd := Bool.eq_false_iff.mpr hrd
    rw [writeUnlockSection_writer hf hrd]
    have hhand := hinv.writeHand hwrites hq.symm hrd
    have hgranted : (fun d => if d ∈ [f] ∨ False then true else s.granted d)
        = Function.update s.granted f true := by
      funext d
      by_cases hd : d = f
      · subst hd
        simp
      · simp [hd]
    refine handOver_good (T := m) (g := g.set k (g.surplus k) m [] (some f)) hrep hno hq.symm ?_
    simp only [List.not_mem_nil, if_false, hgranted]
    exact hhand

/-! ## Waking up and going on -/

omit [DecidableEq ι] in
/-- **A client is told** that it was handed a lock. -/
theorem grant_good {s : State C K ι} {c d : C} {k : K} {ds : List C} (h : Good cfg s)
    (hpc : s.pc c = .granting k (d :: ds)) :
    Good cfg ({ s.setTag d { s.tag d with inList := false, haveLock := true } with
      signalled := Function.update s.signalled d true }.goto c (.granting k ds)) := by
  obtain ⟨hrep, g, hinv⟩ := h
  have hno := hrep.not_mem (c := c) (by rw [hpc]; rfl) (by rw [hpc]; nofun)
  have hrep' : Rep cfg { s.setTag d { s.tag d with inList := false, haveLock := true } with
      signalled := Function.update s.signalled d true } := by
    refine hrep.mono (fun _ => List.Sublist.refl _) (fun _ _ _ => ⟨rfl, fun _ => id⟩)
      fun _ e _ => ?_
    have hsame : ((Function.update s.tag d { s.tag d with inList := false, haveLock := true }) e).rwUniq
        = (s.tag e).rwUniq
      ∧ ((Function.update s.tag d { s.tag d with inList := false, haveLock := true }) e).startBit
        = (s.tag e).startBit
      ∧ ((Function.update s.tag d { s.tag d with inList := false, haveLock := true }) e).numBits
        = (s.tag e).numBits := by
      by_cases he : e = d
      · subst he
        rw [Function.update_self]
        exact ⟨rfl, rfl, rfl⟩
      · rw [Function.update_of_ne he]
        exact ⟨rfl, rfl, rfl⟩
    exact ⟨hsame.1, isMatch_congr hsame⟩
  refine ⟨hrep'.goto fun i hi => absurd hi (hno i), g, ?_⟩
  rw [abs_goto]
  · exact hinv.grantNext hpc
  · exact fun i hi => absurd hi (hno i)

omit [DecidableEq ι] in
/-- **`complete_wait`**, once the client was told. -/
theorem finish_good {s : State C K ι} {c : C} {k : K} {rd : Bool} (h : Good cfg s)
    (hpc : s.pc c = .waiting k rd) (hsig : s.signalled c = true) :
    Good cfg ({ s.setTag c { s.tag c with waitedForLock := true } with
      src := Function.update s.src c none
      signalled := Function.update s.signalled c false
      granted := Function.update s.granted c false }.goto c
      (if rd then .reading k else .writing k)) := by
  obtain ⟨hrep, g, hinv⟩ := h
  have hwaits : (s.pc c).waits = some (k, rd) := by rw [hpc]; rfl
  have hlo : (s.pc c).lockOf = some k := by rw [hpc]; rfl
  have hstay : ∀ i, c ∈ s.list i → (if rd then .reading k else .writing k : Pc C K ι).lockOf
      = (s.pc c).lockOf ∧ ∀ j, s.pc c ≠ .foreign j := by
    intro i hi
    rw [hpc]
    refine ⟨?_, nofun⟩
    cases rd with
    | true => rfl
    | false =>
      -- a writer that was handed the lock is in no list any more
      refine absurd hi (hrep.not_mem_of_queue hlo (fun hq => ?_) i)
      have hq : c ∈ g.surplus k ++ g.line k := hinv.clients.queue k ▸ hq
      rcases List.mem_append.mp hq with hq | hq
      · have h1 : (s.tag c).rdlock = true := (hinv.clients.surplus k c hq).2.2.1
        rw [show (s.tag c).rdlock = false from (hinv.clients.waits c k false hwaits).1] at h1
        cases h1
      · have h1 : s.granted c = false := (hinv.clients.line k c hq).2.1
        rw [show s.granted c = true from (hinv.clients.signalled c hsig).1] at h1
        cases h1
  have hrep' : Rep cfg { s.setTag c { s.tag c with waitedForLock := true } with
      src := Function.update s.src c none
      signalled := Function.update s.signalled c false
      granted := Function.update s.granted c false } := by
    refine hrep.mono (fun _ => List.Sublist.refl _) (fun _ _ _ => ⟨rfl, fun _ => id⟩)
      fun _ e _ => ?_
    have hsame : (Function.update s.tag c { s.tag c with waitedForLock := true } e).rwUniq
        = (s.tag e).rwUniq
      ∧ (Function.update s.tag c { s.tag c with waitedForLock := true } e).startBit
        = (s.tag e).startBit
      ∧ (Function.update s.tag c { s.tag c with waitedForLock := true } e).numBits
        = (s.tag e).numBits := by
      by_cases he : e = c
      · subst he
        rw [Function.update_self]
        exact ⟨rfl, rfl, rfl⟩
      · rw [Function.update_of_ne he]
        exact ⟨rfl, rfl, rfl⟩
    exact ⟨hsame.1, isMatch_congr hsame⟩
  refine ⟨hrep'.goto hstay, g, ?_⟩
  rw [abs_goto]
  · exact hinv.finish hpc hsig
  · exact fun i hi => (hstay i hi).1

omit [DecidableEq ι] in
/-- An unlock has nobody left to wake up. -/
theorem granted_good {s : State C K ι} {c : C} {k : K} (h : Good cfg s) (hpc : s.pc c = .granting k []) :
    Good cfg (s.goto c .idle) :=
  goto_good h (by rw [hpc]; exact ⟨⟨rfl, rfl, rfl, rfl, rfl, nofun⟩, rfl, nofun⟩) outside_idle rfl

/-! ## Waiters of other modules -/

/-- Somebody else comes to a list. -/
theorem join_good {s : State C K ι} {c : C} {i : ι} {tg : Tag} (h : Good cfg s)
    (hpc : s.pc c = .idle) (htg : tg.rwUniq = false) :
    Good cfg ({ s.setTag c tg with
      list := Function.update s.list i (s.list i ++ [c]) }.goto c (.foreign i)) := by
  obtain ⟨hrep, g, hinv⟩ := h
  have hout : (s.pc c).Outside := by rw [hpc]; exact outside_idle
  have hno := hrep.not_mem hout.2.1 hout.2.2
  have hold : ∀ j d, d ∈ s.list j → d ≠ c := fun j d hd hdc => hno j (hdc ▸ hd)
  have hqueue : queueOf cfg (Function.update s.list i (s.list i ++ [c]))
      (Function.update s.pc c (.foreign i)) = queueOf cfg s.list s.pc := by
    have hsame : queueOf cfg s.list (Function.update s.pc c (.foreign i)) = queueOf cfg s.list s.pc :=
      queueOf_update fun j hj => absurd hj (hno j)
    refine Eq.trans (funext fun k => ?_) hsame
    rw [queueOf, queueOf]
    by_cases hi : cfg.list k = i
    · rw [hi, Function.update_self, List.filter_append, List.filter_cons_of_neg, List.filter_nil,
        List.append_nil]
      rw [Function.update_self]
      exact of_decide_eq_false rfl
    · rw [Function.update_of_ne hi]
  refine ⟨⟨fun j => ?_, fun j d hd => ?_⟩, g, ?_⟩
  · simp only [State.goto]
    by_cases hj : j = i
    · subst hj
      rw [Function.update_self]
      exact List.nodup_append.mpr ⟨hrep.nodup _, List.nodup_cons.mpr ⟨(by simp), List.nodup_nil⟩,
        fun x hx y hy => List.mem_singleton.mp hy ▸ hold _ x hx⟩
    · rw [Function.update_of_ne hj]
      exact hrep.nodup j
  · simp only [State.goto, State.setTag] at hd ⊢
    by_cases hdc : d = c
    · subst hdc
      have hj : j = i := by
        by_contra hne
        rw [Function.update_of_ne hne] at hd
        exact hno j hd
      subst hj
      rw [Function.update_self, Function.update_self]
      exact .inl ⟨rfl, htg⟩
    · simp only [Function.update_of_ne hdc]
      refine hrep.place j d ?_
      by_cases hj : j = i
      · subst hj
        rw [Function.update_self] at hd
        exact (List.mem_append.mp hd).resolve_right fun hd => hdc (List.mem_singleton.mp hd)
      · rwa [Function.update_of_ne hj] at hd
  · simp only [State.abs, State.goto, State.setTag, hqueue]
    have hpc' : (s.abs cfg).pc c = .idle := hpc
    exact (hinv.retag tg hout.1).goto (by rw [hpc']; rfl) (by rw [hpc']; rfl)
      (by rw [hpc']; rfl) (by rw [hpc']; rfl) rfl (fun _ h => by cases h) (by simp)

/-- Somebody else leaves a list. -/
theorem leave_good {s : State C K ι} {c : C} {i : ι} (h : Good cfg s)
    (hpc : s.pc c = .foreign i) : Good cfg ((s.remove i [c]).goto c .idle) := by
  obtain ⟨hrep, g, hinv⟩ := h
  have hno : ∀ j, c ∉ (s.remove i [c]).list j := by
    intro j hj
    obtain ⟨hj, hne⟩ := mem_remove.mp hj
    rcases hrep.place j c hj with ⟨hp, -⟩ | ⟨k, hk, -⟩
    · rw [hpc] at hp
      exact hne (Pc.foreign.inj hp).symm (List.mem_singleton_self c)
    · rw [hpc] at hk
      cases hk
  have hrep' : Rep cfg (s.remove i [c]) := hrep.remove rfl rfl fun _ => ⟨rfl, rfl, rfl⟩
  have hqueue : queueOf cfg (s.remove i [c]).list s.pc = queueOf cfg s.list s.pc := by
    funext k
    simp only [queueOf, State.remove]
    by_cases hi : cfg.list k = i
    · rw [hi, Function.update_self, List.filter_filter]
      refine List.filter_congr fun d _ => ?_
      by_cases hd : d = c
      · subst hd
        rw [hpc]
        rfl
      · simp [hd]
    · rw [Function.update_of_ne hi]
  refine ⟨hrep'.goto fun j hj => absurd hj (hno j), g, ?_⟩
  rw [abs_goto _ fun j hj => absurd hj (hno j)]
  simp only [State.remove] at hqueue
  simp only [State.abs, State.remove, hqueue]
  have hpc' : (s.abs cfg).pc c = .foreign i := hpc
  exact hinv.goto (p := .idle) (by rw [hpc']; rfl) (by rw [hpc']; rfl) (by rw [hpc']; rfl)
    (by rw [hpc']; rfl) rfl (fun _ h => by cases h) (by simp)

/-! ## Runs -/

/-- **The lock whose waiters a step searches for**, if it is the section of an
unlock that does. -/
def searches (cfg : Config K ι) (s : State C K ι) : Event C K ι → Option K
  | .move c =>
    match s.pc c with
    | .readUnlockSection k =>
      if leavesWork cfg s k = true ∧ (s.tag c).inList = false then some k else none
    | .writeUnlockSection k => some k
    | _ => none
  | _ => none

/-- **A step that searches the wait list finds no waiter of another lock.** -/
def Unshared (cfg : Config K ι) (s : State C K ι) (e : Event C K ι) (_ : State C K ι) : Prop :=
  ∀ k ∈ searches cfg s e, Alone cfg s k

/-- **A further step keeps the invariant.** -/
theorem move_good {s s' : State C K ι} {c : C} (h : Good cfg s) (he : move cfg s c = some s')
    (hok : Unshared cfg s (.move c) s') : Good cfg s' := by
  rw [Unshared, searches] at hok
  rw [move] at he
  cases hp : s.pc c with
  | idle | reading | writing | foreign | aborted => simp [hp] at he
  | readSection k try' =>
    simp only [hp, Option.some.injEq] at he
    exact he ▸ readSection_good h (by rw [hp]; exact outside_readSection k try')
  | writeSection k =>
    simp only [hp, Option.some.injEq] at he
    exact he ▸ writeSection_good h (by rw [hp]; exact outside_writeSection k)
  | waiting k rd =>
    simp only [hp] at he
    by_cases hs : s.signalled c = true
    · obtain ⟨hrep, g, hinv⟩ := h
      -- a client that was told has what `complete_wait` verifies
      have hw : (s.pc c).waits = some (k, rd) := by rw [hp]; rfl
      obtain ⟨-, h2, h3, -⟩ := hinv.clients.waits c k rd hw
      rw [if_pos hs, if_pos ⟨(hinv.clients.signalled c hs).2, h2, h3⟩, Option.some.injEq] at he
      exact he ▸ finish_good ⟨hrep, g, hinv⟩ hp hs
    · rw [if_neg hs] at he
      cases he
  | readUnlockSection k =>
    simp only [hp, Option.some.injEq] at he
    refine he ▸ readUnlockSection_good h hp fun hl hin => hok k ?_
    simp only [hp]
    rw [if_pos ⟨hl, hin⟩]
    rfl
  | writeUnlockSection k =>
    simp only [hp, Option.some.injEq] at he
    refine he ▸ writeUnlockSection_good h hp (hok k ?_)
    simp only [hp]
    rfl
  | granting k ds =>
    cases ds with
    | nil =>
      simp only [hp, Option.some.injEq] at he
      exact he ▸ granted_good h hp
    | cons d ds =>
      simp only [hp, Option.some.injEq] at he
      exact he ▸ grant_good h hp

omit [DecidableEq ι] in
/-- **A call keeps the invariant.** -/
theorem call_good {s s' : State C K ι} {c : C} {op : Op K} (h : Good cfg s)
    (he : call cfg s c op = some s') : Good cfg s' := by
  unfold call at he
  split at he
  · next k try' hp =>
    exact Option.some.inj he ▸ readlock_good h (by rw [hp]; exact outside_idle)
  · next k try' hp =>
    exact Option.some.inj he ▸ writelock_good h (by rw [hp]; exact outside_idle)
  · next k hp => exact Option.some.inj he ▸ readunlock_good h hp
  · next k hp => exact Option.some.inj he ▸ writeunlock_good h hp
  · cases he

/-- **Every step keeps the invariant.** -/
theorem step_good {s s' : State C K ι} {e : Event C K ι} (h : Good cfg s)
    (he : (machine C cfg).step s e = some s') (hok : Unshared cfg s e s') : Good cfg s' := by
  cases e with
  | call c op => exact call_good h he
  | move c => exact move_good h he hok
  | join c i tg =>
    simp only [machine] at he
    split at he
    · next hc => exact Option.some.inj he ▸ join_good h hc.1 hc.2
    · cases he
  | leave c =>
    simp only [machine] at he
    split at he
    · next i hp => exact Option.some.inj he ▸ leave_good h hp
    · cases he

omit [DecidableEq C] [DecidableEq ι] in
/-- The invariant holds initially. -/
theorem Start.good {s : State C K ι} (h : Start s) : Good cfg s := by
  have hq : queueOf cfg s.list s.pc = fun _ => [] := by
    funext k
    rw [queueOf, h.list, List.filter_nil]
  refine ⟨⟨fun i => by rw [h.list]; exact List.nodup_nil, fun i c hc => ?_⟩,
    ⟨fun _ => [], fun _ => [], fun _ => [], fun _ => none⟩, ?_, fun k => ?_⟩
  · rw [h.list] at hc
    cases hc
  · constructor
    all_goals simp [State.abs, hq, h.pc, h.granted, h.signalled, ReadHolder, WriteHolder, Pc.reads,
      Pc.writes, Pc.waits, Pc.grants, Pc.hands]
  · simp only [State.abs, h.w, h.r]
    exact Shape.free

/-- **The invariant holds in every state reached** by steps that find no waiter of
another lock. -/
theorem good_of_reach {s : State C K ι} (h : (machine C cfg).Reach (Unshared cfg) s) :
    Good cfg s :=
  h.invariant (fun _ => Start.good) fun _ _ _ => step_good

end RwBitlock
