import Lwlock.RwBitlockSpec

/-!
# The steps of a reader-writer bitlock keep the invariant

One lemma for each way in which a lock is taken, waited for, given up or handed
over, all about the abstract reading.
-/

namespace RwBitlock

variable {C K ι : Type} [DecidableEq C] [DecidableEq K]

/-! ## Bookkeeping -/

/-- The clients of one lock change. -/
def Ghost.set (g : Ghost C K) (k : K) (surplus line hold : List C) (wr : Option C) : Ghost C K where
  surplus := Function.update g.surplus k surplus
  line := Function.update g.line k line
  hold := Function.update g.hold k hold
  wr := Function.update g.wr k wr

omit [DecidableEq C] [DecidableEq K] in
/-- Only the first one in line matters. -/
theorem Shape.congr {max : ℕ} {rd rd' : C → Bool} {w : Bool} {r : ℕ} {surplus line hold : List C}
    {wr : Option C} (h : Shape max rd w r surplus line hold wr) (hrd : ∀ c ∈ line, rd' c = rd c) :
    Shape max rd' w r surplus line hold wr := by
  cases h with
  | free => exact Shape.free
  | readers count pos le sat first =>
    refine Shape.readers count pos le sat fun c hc => ?_
    rw [hrd c (List.mem_of_head? hc)]
    exact first c hc
  | writer => exact Shape.writer

omit [DecidableEq C] in
/-- **The bits of one lock change**, and nothing of the others. -/
theorem shape_set {max : K → ℕ} {rd : C → Bool} {w : K → Bool} {r : K → ℕ} {g : Ghost C K}
    (h : ∀ k, Shape (max k) rd (w k) (r k) (g.surplus k) (g.line k) (g.hold k) (g.wr k))
    (rd' : C → Bool) {k : K} {w' : Bool} {r' : ℕ} {surplus line hold : List C} {wr : Option C}
    (hrd : ∀ j, j ≠ k → ∀ c ∈ g.line j, rd' c = rd c)
    (hk : Shape (max k) rd' w' r' surplus line hold wr) (j : K) :
    Shape (max j) rd' (Function.update w k w' j) (Function.update r k r' j)
      ((g.set k surplus line hold wr).surplus j) ((g.set k surplus line hold wr).line j)
      ((g.set k surplus line hold wr).hold j) ((g.set k surplus line hold wr).wr j) := by
  simp only [Ghost.set]
  by_cases hj : j = k
  · subst hj
    simp only [Function.update_self]
    exact hk
  · simp only [Function.update_of_ne hj]
    exact (h j).congr (hrd j hj)

/-- A program point at which a client has nothing to do with a lock. -/
def Pc.Plain (p : Pc C K ι) : Prop :=
  p.reads = none ∧ p.writes = none ∧ p.waits = none ∧ p.grants = [] ∧ p.hands = none
    ∧ p ≠ .aborted

omit [DecidableEq C] [DecidableEq K] in
/-- Such a client is in no line. -/
theorem Clients.not_line {a : Abs C K ι} {g : Ghost C K} (h : Clients a g) {c : C}
    (hc : (a.pc c).waits = none) (k : K) : c ∉ g.line k := by
  intro hk
  rw [(h.line k c hk).1] at hc
  cases hc

omit [DecidableEq C] [DecidableEq K] in
/-- Nor is it among the readers, if it does not read. -/
theorem Clients.not_hold {a : Abs C K ι} {g : Ghost C K} (h : Clients a g) {c : C}
    (hc : (a.pc c).waits = none) (hr : (a.pc c).reads = none) (k : K) : c ∉ g.hold k := by
  intro hk
  rcases (h.hold c k).mp hk with hk | ⟨hk, -⟩
  · rw [hr] at hk
    cases hk
  · rw [hc] at hk
    cases hk

/-! ## Taking a lock -/

/-- **A reader is counted.** -/
theorem Inv.readTake {max : K → ℕ} {a : Abs C K ι} {g : Ghost C K} {c : C} {k : K} (tg : Tag)
    (h : Inv max a g) (hm : ∀ k, 3 ≤ max k) (hpc : (a.pc c).Plain) (htg : tg.inList = false)
    (hw : a.w k = false) (hr : a.r k ≠ max k) :
    Inv max { a with
        w := Function.update a.w k false
        r := Function.update a.r k (a.r k + 1)
        tag := Function.update a.tag c tg
        pc := Function.update a.pc c (.reading k) }
      (g.set k (g.surplus k) (g.line k) (g.hold k ++ [c]) (g.wr k)) := by
  obtain ⟨hc, hs⟩ := h
  obtain ⟨p1, p2, p3, p4, p5, p6⟩ := hpc
  have hnl := hc.not_line p3
  have hnh := hc.not_hold p3 p1
  refine ⟨?_, shape_set hs _ ?_ ?_⟩
  · obtain ⟨h1, h2, h3, h4, h5, h6, h7, h8, h9, h10, h11, h12, h13, h14, h15, h16⟩ := hc
    simp only [ReadHolder, WriteHolder] at *
    constructor
    all_goals simp only [Ghost.set, ReadHolder, WriteHolder]
    all_goals first
      | assumption
      | grind -linarith [Function.update_apply, Pc.reads, Pc.writes, Pc.waits, Pc.grants, Pc.releases, Pc.hands]
  · intro j _ d hd
    have hdc : d ≠ c := fun hdc => hnl j (hdc ▸ hd)
    simp only [Function.update_of_ne hdc]
  · have hk := (hs k).readTake (c := c) hw hr (hm k)
    rw [hw] at hk
    refine hk.congr fun d hd => ?_
    have hdc : d ≠ c := fun hdc => hnl k (hdc ▸ hd)
    simp only [Function.update_of_ne hdc]

/-- **A reader past a saturated count** is put in the queue. -/
theorem Inv.readOver {max : K → ℕ} {a : Abs C K ι} {g : Ghost C K} {c : C} {k : K} (tg : Tag)
    (h : Inv max a g) (hm : ∀ k, 3 ≤ max k) (hpc : (a.pc c).Plain)
    (htg : tg.inList = true ∧ tg.haveLock = true ∧ tg.rdlock = true)
    (hw : a.w k = false) (hr : a.r k = max k) :
    Inv max { a with
        queue := Function.update a.queue k (a.queue k ++ [c])
        src := Function.update a.src c (some k)
        signalled := Function.update a.signalled c false
        granted := Function.update a.granted c false
        tag := Function.update a.tag c tg
        pc := Function.update a.pc c (.reading k) }
      (g.set k (g.surplus k ++ [c]) (g.line k) (g.hold k ++ [c]) (g.wr k)) := by
  obtain ⟨hc, hs⟩ := h
  obtain ⟨p1, p2, p3, p4, p5, p6⟩ := hpc
  have hnl := hc.not_line p3
  have hnh := hc.not_hold p3 p1
  have hno : ∀ j, c ∉ g.surplus j := fun j hj => hnh j (hc.surplus j c hj).1
  obtain ⟨hline, hk⟩ := (hs k).readOver (c := c) hw hr (hm k)
  refine ⟨?_, ?_⟩
  · obtain ⟨h1, h2, h3, h4, h5, h6, h7, h8, h9, h10, h11, h12, h13, h14, h15, h16⟩ := hc
    simp only [ReadHolder, WriteHolder] at *
    constructor
    all_goals simp only [Ghost.set, ReadHolder, WriteHolder]
    all_goals first
      | assumption
      | grind -linarith [Function.update_apply, Pc.reads, Pc.writes, Pc.waits, Pc.grants, Pc.releases, Pc.hands]
  · have hset := shape_set hs (fun d => (Function.update a.tag c tg d).rdlock) ?_
      (hk.congr fun d hd => ?_)
    · simpa only [Function.update_eq_self] using hset
    · intro j _ d hd
      have hdc : d ≠ c := fun hdc => hnl j (hdc ▸ hd)
      simp only [Function.update_of_ne hdc]
    · have hdc : d ≠ c := fun hdc => hnl k (hdc ▸ hd)
      simp only [Function.update_of_ne hdc]

/-- **A writer takes a free lock.** -/
theorem Inv.writeTake {max : K → ℕ} {a : Abs C K ι} {g : Ghost C K} {c : C} {k : K} {tg : Tag}
    (h : Inv max a g) (hpc : (a.pc c).Plain) (hw : a.w k = false) (hr : a.r k = 0) :
    Inv max { a with
        w := Function.update a.w k true
        r := Function.update a.r k (a.r k)
        tag := Function.update a.tag c tg
        pc := Function.update a.pc c (.writing k) }
      (g.set k (g.surplus k) (g.line k) (g.hold k) (some c)) := by
  obtain ⟨hc, hs⟩ := h
  obtain ⟨p1, p2, p3, p4, p5, p6⟩ := hpc
  have hnl := hc.not_line p3
  have hnh := hc.not_hold p3 p1
  obtain ⟨hhold, hwr, hk⟩ := (hs k).writeTake (c := c) hw hr
  refine ⟨?_, shape_set hs _ ?_ (hk.congr fun d hd => ?_)⟩
  · obtain ⟨h1, h2, h3, h4, h5, h6, h7, h8, h9, h10, h11, h12, h13, h14, h15, h16⟩ := hc
    simp only [ReadHolder, WriteHolder] at *
    constructor
    all_goals simp only [Ghost.set, ReadHolder, WriteHolder]
    all_goals first
      | assumption
      | grind -linarith [Function.update_apply, Pc.reads, Pc.writes, Pc.waits, Pc.grants, Pc.releases, Pc.hands]
  · intro j _ d hd
    have hdc : d ≠ c := fun hdc => hnl j (hdc ▸ hd)
    simp only [Function.update_of_ne hdc]
  · have hdc : d ≠ c := fun hdc => hnl k (hdc ▸ hd)
    simp only [Function.update_of_ne hdc]

/-- **A client queues** to wait for a lock. -/
theorem Inv.enqueue {max : K → ℕ} {a : Abs C K ι} {g : Ghost C K} {c : C} {k : K} (tg : Tag)
    {r : ℕ} (h : Inv max a g) (hpc : (a.pc c).Plain)
    (htg : tg.haveLock = false ∧ tg.inList = true ∧ tg.needToWait = true
      ∧ tg.waitedForLock = false)
    (hr : (a.w k = true ∧ r = if a.r k = 0 then 1 else a.r k)
      ∨ (a.w k = false ∧ a.r k ≠ 0 ∧ tg.rdlock = false ∧ r = a.r k)) :
    Inv max { a with
        w := Function.update a.w k true
        r := Function.update a.r k r
        queue := Function.update a.queue k (a.queue k ++ [c])
        src := Function.update a.src c (some k)
        signalled := Function.update a.signalled c false
        granted := Function.update a.granted c false
        tag := Function.update a.tag c tg
        pc := Function.update a.pc c (.waiting k tg.rdlock) }
      (g.set k (g.surplus k) (g.line k ++ [c]) (g.hold k) (g.wr k)) := by
  obtain ⟨hc, hs⟩ := h
  obtain ⟨p1, p2, p3, p4, p5, p6⟩ := hpc
  have hnl := hc.not_line p3
  have hnh := hc.not_hold p3 p1
  have hno : ∀ j, c ∉ g.surplus j := fun j hj => hnh j (hc.surplus j c hj).1
  have hself : ∀ j, ∀ d ∈ g.line j, (Function.update a.tag c tg d).rdlock = (a.tag d).rdlock := by
    intro j d hd
    have hdc : d ≠ c := fun hdc => hnl j (hdc ▸ hd)
    simp only [Function.update_of_ne hdc]
  refine ⟨?_, shape_set hs _ (fun j _ => hself j) ?_⟩
  · clear hr
    obtain ⟨h1, h2, h3, h4, h5, h6, h7, h8, h9, h10, h11, h12, h13, h14, h15, h16⟩ := hc
    simp only [ReadHolder, WriteHolder] at *
    constructor
    all_goals simp only [Ghost.set, ReadHolder, WriteHolder]
    all_goals first
      | assumption
      | grind -linarith [Function.update_apply, Pc.reads, Pc.writes, Pc.waits, Pc.grants, Pc.releases, Pc.hands]
  · rcases hr with ⟨hw, rfl⟩ | ⟨hw, hr, hrd, rfl⟩
    · exact ((hs k).congr (hself k)).enqueue hw
    · refine ((hs k).congr (hself k)).writeEnqueue hw hr ?_
      rw [Function.update_self]
      exact hrd

/-! ## Giving a lock up -/

omit [DecidableEq C] [DecidableEq K] in
/-- A client that reads does nothing else. -/
theorem Pc.reads_only {p : Pc C K ι} {k : K} (h : p.reads = some k) :
    p.writes = none ∧ p.waits = none ∧ p.grants = [] ∧ p.hands = none := by
  cases p <;> simp_all [Pc.reads, Pc.writes, Pc.waits, Pc.grants, Pc.hands]

omit [DecidableEq C] [DecidableEq K] in
/-- A client that writes does nothing else. -/
theorem Pc.writes_only {p : Pc C K ι} {k : K} (h : p.writes = some k) :
    p.reads = none ∧ p.waits = none ∧ p.grants = [] ∧ (p.hands = none ∨ p.hands = some k) := by
  cases p <;> simp_all [Pc.reads, Pc.writes, Pc.waits, Pc.grants, Pc.hands]

omit [DecidableEq C] [DecidableEq K] in
/-- A client that waits does nothing else. -/
theorem Pc.waits_only {p : Pc C K ι} {x : K × Bool} (h : p.waits = some x) :
    p.reads = none ∧ p.writes = none ∧ p.grants = [] ∧ p.hands = none := by
  cases p <;> simp_all [Pc.reads, Pc.writes, Pc.waits, Pc.grants, Pc.hands]

omit [DecidableEq C] [DecidableEq K] in
/-- Who hands a lock over has it. -/
theorem Pc.writes_of_hands {p : Pc C K ι} {k : K} (h : p.hands = some k) : p.writes = some k := by
  cases p <;> simp_all [Pc.writes, Pc.hands]

omit [DecidableEq C] [DecidableEq K] in
/-- A client reads one lock. -/
theorem Clients.hold_unique {a : Abs C K ι} {g : Ghost C K} (h : Clients a g) {c : C} {j k : K}
    (hj : c ∈ g.hold j) (hk : c ∈ g.hold k) : j = k := by
  rcases (h.hold c j).mp hj with hj | ⟨hj, -⟩
  · rcases (h.hold c k).mp hk with hk | ⟨hk, -⟩
    · exact Option.some.inj (hj.symm.trans hk)
    · rw [(Pc.reads_only hj).2.1] at hk
      cases hk
  · rcases (h.hold c k).mp hk with hk | ⟨hk, -⟩
    · rw [(Pc.reads_only hk).2.1] at hj
      cases hj
    · exact (Prod.mk.inj (Option.some.inj (hj.symm.trans hk))).1

/-- **A reader gives the lock up**, and nobody is counted in the queue. -/
theorem Inv.drop {max : K → ℕ} {a : Abs C K ι} {g : Ghost C K} {c : C} {k : K} {r : ℕ}
    (h : Inv max a g) (hpc : (a.pc c).reads = some k) (ho : g.surplus k = [])
    (hk : Shape (max k) (fun c => (a.tag c).rdlock) (a.w k) r (g.surplus k) (g.line k)
      ((g.hold k).erase c) (g.wr k)) :
    Inv max { a with
        w := Function.update a.w k (a.w k)
        r := Function.update a.r k r
        pc := Function.update a.pc c .idle }
      (g.set k (g.surplus k) (g.line k) ((g.hold k).erase c) (g.wr k)) := by
  obtain ⟨hc, hs⟩ := h
  obtain ⟨p1, p2, p3, p4⟩ := Pc.reads_only hpc
  have hnl := hc.not_line p2
  refine ⟨?_, shape_set hs _ (fun _ _ _ _ => rfl) hk⟩
  clear hk hs
  obtain ⟨h1, h2, h3, h4, h5, h6, h7, h8, h9, h10, h11, h12, h13, h14, h15, h16⟩ := hc
  have hme : ∀ d, d ∈ (g.hold k).erase c ↔ d ≠ c ∧ d ∈ g.hold k := fun d => (h7 k).mem_erase_iff
  have hen : ((g.hold k).erase c).Nodup := (h7 k).erase c
  generalize (g.hold k).erase c = H at *
  simp only [ReadHolder, WriteHolder] at *
  constructor
  all_goals simp only [Ghost.set, ReadHolder, WriteHolder]
  all_goals first
    | assumption
    | grind -linarith [Function.update_apply, Pc.reads, Pc.writes, Pc.waits, Pc.grants, Pc.releases, Pc.hands]

/-- **A reader gives the lock up** while somebody is counted in the queue: one
entry of the queue is taken out. -/
theorem Inv.dropOver {max : K → ℕ} {a : Abs C K ι} {g : Ghost C K} {c f : C} {k : K}
    (h : Inv max a g) (hpc : (a.pc c).reads = some k) (hf : f ∈ g.surplus k)
    (hcf : c ∈ g.surplus k → c = f) :
    Inv max { a with
        queue := Function.update a.queue k ((a.queue k).erase f)
        tag := Function.update a.tag f { a.tag f with inList := false }
        pc := Function.update a.pc c .idle }
      (g.set k ((g.surplus k).erase f) (g.line k) ((g.hold k).erase c) (g.wr k)) := by
  obtain ⟨hc, hs⟩ := h
  obtain ⟨p1, p2, p3, p4⟩ := Pc.reads_only hpc
  have hnl := hc.not_line p2
  have hch : c ∈ g.hold k := (hc.hold c k).mpr (.inl hpc)
  have hfu : ∀ j, f ∈ g.surplus j → j = k := fun j hj =>
    hc.hold_unique (hc.surplus j f hj).1 (hc.surplus k f hf).1
  have hrd : ∀ d, (Function.update a.tag f { a.tag f with inList := false } d).rdlock
      = (a.tag d).rdlock := by
    intro d
    by_cases hd : d = f
    · rw [hd, Function.update_self]
    · rw [Function.update_of_ne hd]
  refine ⟨?_, ?_⟩
  · clear hs hrd
    obtain ⟨h1, h2, h3, h4, h5, h6, h7, h8, h9, h10, h11, h12, h13, h14, h15, h16⟩ := hc
    have hq : (a.queue k).erase f = (g.surplus k).erase f ++ g.line k := by
      rw [h1 k, List.erase_append_left _ hf]
    have hqn := (h2 k).erase f
    have hon : (g.surplus k).Nodup := (List.nodup_append.mp (h1 k ▸ h2 k)).1
    have hmo : ∀ d, d ∈ (g.surplus k).erase f ↔ d ≠ f ∧ d ∈ g.surplus k := fun d => hon.mem_erase_iff
    have hmh : ∀ d, d ∈ (g.hold k).erase c ↔ d ≠ c ∧ d ∈ g.hold k := fun d => (h7 k).mem_erase_iff
    have hhn : ((g.hold k).erase c).Nodup := (h7 k).erase c
    have hfl : ∀ j, f ∉ g.line j := by
      intro j hj
      have := (h4 k f hf).2.1
      rw [(h3 j f hj).2.2.1] at this
      cases this
    generalize (g.hold k).erase c = H at *
    generalize (g.surplus k).erase f = O at *
    generalize (a.queue k).erase f = Q at *
    simp only [ReadHolder, WriteHolder] at *
    constructor
    all_goals simp only [Ghost.set, ReadHolder, WriteHolder]
    all_goals first
      | assumption
      | grind -linarith [Function.update_apply, Pc.reads, Pc.writes, Pc.waits, Pc.grants, Pc.releases, Pc.hands]
  · have hmax : a.r k = max k := ((hs k).reading hch).2.2.2.1 (List.ne_nil_of_mem hf)
    have hlen := List.length_erase_of_mem hf
    have hpos := List.length_pos_of_mem hf
    have hk := (hs k).readOverDrop ((g.surplus k).erase f) hch hmax (by omega)
    have hset := shape_set hs (fun d => (Function.update a.tag f
      { a.tag f with inList := false } d).rdlock) (fun _ _ d _ => hrd d) (hk.congr fun d _ => hrd d)
    simpa only [Function.update_eq_self] using hset

/-- **A writer gives the lock up**, and nobody waits. -/
theorem Inv.writeDrop {max : K → ℕ} {a : Abs C K ι} {g : Ghost C K} {c : C} {k : K}
    (h : Inv max a g) (hpc : (a.pc c).writes = some k) (hr : a.r k = 0) :
    Inv max { a with
        w := Function.update a.w k false
        r := Function.update a.r k (a.r k)
        pc := Function.update a.pc c .idle }
      (g.set k (g.surplus k) (g.line k) (g.hold k) none) := by
  obtain ⟨hc, hs⟩ := h
  obtain ⟨p1, p2, p3, p4⟩ := Pc.writes_only hpc
  have hwr : g.wr k = some c := (hc.wr c k).mpr (.inl hpc)
  have hne : g.wr k ≠ none := by rw [hwr]; nofun
  have hnl := hc.not_line p2
  have hnh := hc.not_hold p2 p1
  refine ⟨?_, shape_set hs _ (fun _ _ _ _ => rfl) ((hs k).writeDrop hne hr).2⟩
  clear hs
  obtain ⟨h1, h2, h3, h4, h5, h6, h7, h8, h9, h10, h11, h12, h13, h14, h15, h16⟩ := hc
  have huniq : ∀ d, WriteHolder a.pc a.granted d k → d = c := by
    intro d hd
    exact Option.some.inj (((h8 d k).mpr hd).symm.trans hwr)
  simp only [ReadHolder, WriteHolder] at *
  constructor
  all_goals simp only [Ghost.set, ReadHolder, WriteHolder]
  all_goals first
    | assumption
    | grind -linarith [Function.update_apply, Pc.reads, Pc.writes, Pc.waits, Pc.grants, Pc.releases, Pc.hands]

/-! ## Handing a lock over -/

/-- **A lock is handed to a writer** by the only client that has it. -/
theorem Clients.handWriter {a : Abs C K ι} {g : Ghost C K} {c f : C} {k : K} {rest : List C}
    (tg : Tag) {w : K → Bool} {r : K → ℕ} (hc : Clients a g) (hpw : (a.pc c).waits = none)
    (hpg : (a.pc c).grants = []) (hread : ∀ d, ReadHolder a.pc a.granted d k → d = c)
    (hwrite : ∀ d, WriteHolder a.pc a.granted d k → d = c)
    (hhas : (a.pc c).reads = some k ∨ (a.pc c).writes = some k)
    (ho : g.surplus k = []) (hq : a.queue k = f :: rest) (hf : (a.tag f).rdlock = false)
    (htg : tg.rdlock = (a.tag f).rdlock ∧ tg.haveLock = (a.tag f).haveLock
      ∧ tg.needToWait = (a.tag f).needToWait ∧ tg.waitedForLock = (a.tag f).waitedForLock) :
    Clients { a with
        w := w
        r := r
        queue := Function.update a.queue k rest
        tag := Function.update a.tag f tg
        granted := Function.update a.granted f true
        pc := Function.update a.pc c (.granting k [f]) }
      (g.set k (g.surplus k) rest [] (some f)) := by
  have hnl := hc.not_line hpw
  have hother : ∀ j, j ≠ k → (a.pc c).reads ≠ some j ∧ (a.pc c).writes ≠ some j := by
    intro j hj
    rcases hhas with hhas | hhas
    · rw [hhas, (Pc.reads_only hhas).1]
      exact ⟨fun hjk => hj (Option.some.inj hjk).symm, nofun⟩
    · rw [hhas, (Pc.writes_only hhas).1]
      exact ⟨nofun, fun hjk => hj (Option.some.inj hjk).symm⟩
  have hhands : ∀ d, (a.pc d).hands = some k → d = c := fun d hd =>
    hwrite d (.inl (Pc.writes_of_hands hd))
  obtain ⟨h1, h2, h3, h4, h5, h6, h7, h8, h9, h10, h11, h12, h13, h14, h15, h16⟩ := hc
  have hline : g.line k = f :: rest := by rw [← hq, h1 k, ho, List.nil_append]
  have hn := h2 k
  rw [hq] at hn
  obtain ⟨hfr, hrn⟩ := List.nodup_cons.mp hn
  have hfk := h3 k f (by rw [hline]; exact List.mem_cons_self)
  obtain ⟨f1, f2, f3, f4⟩ := Pc.waits_only hfk.1
  have hfs : a.signalled f = false := by
    by_contra hs
    have := (h11 f (by simpa using hs)).1
    rw [hfk.2.1] at this
    cases this
  simp only [ReadHolder, WriteHolder] at *
  constructor
  all_goals simp only [Ghost.set, ReadHolder, WriteHolder]
  all_goals first
    | assumption
    | grind -linarith [Function.update_apply, Pc.reads, Pc.writes, Pc.waits, Pc.grants, Pc.releases, Pc.hands]

/-- **The last reader hands the lock to the writer that waits.** -/
theorem Inv.readHand {max : K → ℕ} {a : Abs C K ι} {g : Ghost C K} {c f : C} {k : K}
    {rest : List C} (h : Inv max a g) (hm : ∀ k, 3 ≤ max k) (hpc : (a.pc c).reads = some k)
    (hr : a.r k = 1) (hq : a.queue k = f :: rest) :
    Inv max { a with
        w := Function.update a.w k (a.w k)
        r := Function.update a.r k (if rest = [] then 0 else 1)
        queue := Function.update a.queue k rest
        tag := Function.update a.tag f { a.tag f with inList := false }
        granted := Function.update a.granted f true
        pc := Function.update a.pc c (.granting k [f]) }
      (g.set k (g.surplus k) rest [] (some f)) := by
  obtain ⟨hc, hs⟩ := h
  obtain ⟨-, p2, p3, -⟩ := Pc.reads_only hpc
  have hch : c ∈ g.hold k := (hc.hold c k).mpr (.inl hpc)
  have hrd : ∀ d, (Function.update a.tag f { a.tag f with inList := false } d).rdlock
      = (a.tag d).rdlock := by
    intro d
    by_cases hd : d = f
    · rw [hd, Function.update_self]
    · rw [Function.update_of_ne hd]
  obtain ⟨ho, hhold, hf, hk⟩ := (hs k).readHand hch hr (hm k) ((hc.queue k).symm.trans hq)
  have hwr : g.wr k = none := ((hs k).reading hch).2.2.2.2.2.2
  refine ⟨hc.handWriter _ p2 p3 ?_ ?_ (.inl hpc) ho hq hf ⟨rfl, rfl, rfl, rfl⟩,
    shape_set hs _ (fun _ _ d _ => hrd d) (hk.congr fun d _ => hrd d)⟩
  · intro d hd
    have hd := (hc.hold d k).mpr hd
    rw [hhold] at hd
    exact List.mem_singleton.mp hd
  · intro d hd
    have hd := (hc.wr d k).mpr hd
    rw [hwr] at hd
    cases hd

/-- **A writer hands the lock to a writer.** -/
theorem Inv.writeHand {max : K → ℕ} {a : Abs C K ι} {g : Ghost C K} {c f : C} {k : K}
    {rest : List C} (h : Inv max a g) (hpc : (a.pc c).writes = some k)
    (hq : a.queue k = f :: rest) (hf : (a.tag f).rdlock = false) :
    Inv max { a with
        w := Function.update a.w k true
        r := Function.update a.r k (if rest = [] then 0 else 1)
        queue := Function.update a.queue k rest
        granted := Function.update a.granted f true
        pc := Function.update a.pc c (.granting k [f]) }
      (g.set k (g.surplus k) rest [] (some f)) := by
  obtain ⟨hc, hs⟩ := h
  obtain ⟨-, p2, p3, -⟩ := Pc.writes_only hpc
  have hwr : g.wr k = some c := (hc.wr c k).mpr (.inl hpc)
  have hne : g.wr k ≠ none := by rw [hwr]; nofun
  obtain ⟨ho, hhold, -, -⟩ := (hs k).writing hne
  have hcl := hc.handWriter (w := Function.update a.w k true)
    (r := Function.update a.r k (if rest = [] then 0 else 1)) (a.tag f)
    p2 p3 ?_ ?_ (.inr hpc) ho hq hf ⟨rfl, rfl, rfl, rfl⟩
  · simp only [Function.update_eq_self] at hcl
    refine ⟨hcl, shape_set hs _ (fun _ _ _ _ => rfl) ?_⟩
    rw [ho]
    exact Shape.writer
  · intro d hd
    have hd := (hc.hold d k).mpr hd
    rw [hhold] at hd
    cases hd
  · intro d hd
    exact Option.some.inj (((hc.wr d k).mpr hd).symm.trans hwr)

/-- **The lock is handed to readers**, `R` in the count and `O` in the queue, by its writer. -/
theorem Clients.handReaders {a : Abs C K ι} {g : Ghost C K} {c : C} {k : K} {R O rest : List C}
    {w : K → Bool} {r : K → ℕ} (hc : Clients a g) (hpc : (a.pc c).writes = some k)
    (ho : g.surplus k = []) (hhold : g.hold k = [])
    (huniq : ∀ d, WriteHolder a.pc a.granted d k → d = c)
    (hq : a.queue k = R ++ (O ++ rest)) (hrd : ∀ d ∈ R ++ O, (a.tag d).rdlock = true) :
    Clients { a with
        w := w
        r := r
        queue := Function.update a.queue k (O ++ rest)
        tag := fun d => if d ∈ O then { a.tag d with haveLock := true } else a.tag d
        signalled := fun d => if d ∈ O then true else a.signalled d
        granted := fun d => if d ∈ R ∨ d ∈ O then true else a.granted d
        pc := Function.update a.pc c (.granting k R) }
      (g.set k O rest (R ++ O) none) := by
  obtain ⟨p1, p2, p3, p4⟩ := Pc.writes_only hpc
  have hnl := hc.not_line p2
  have hhands : ∀ d, (a.pc d).hands = some k → d = c := fun d hd =>
    huniq d (.inl (Pc.writes_of_hands hd))
  have hline : g.line k = R ++ (O ++ rest) := by rw [← hq, hc.queue k, ho, List.nil_append]
  have hmine : ∀ d, d ∈ R ∨ d ∈ O → (a.pc d).waits = some (k, true) ∧ a.granted d = false
      ∧ (a.tag d).inList = true ∧ a.signalled d = false ∧ ∀ j, d ∉ g.surplus j := by
    intro d hd
    have hdl : d ∈ g.line k := by
      rw [hline]
      simp only [List.mem_append]
      tauto
    obtain ⟨hw, hg, -, hi, -⟩ := hc.line k d hdl
    rw [hrd d (List.mem_append.mpr hd)] at hw
    refine ⟨hw, hg, hi, ?_, ?_⟩
    · by_contra hsig
      have := (hc.signalled d (by simpa using hsig)).1
      rw [hg] at this
      cases this
    · intro j hj
      rcases (hc.hold d j).mp (hc.surplus j d hj).1 with hrj | ⟨-, hgd⟩
      · rw [(Pc.waits_only hw).1] at hrj
        cases hrj
      · rw [hg] at hgd
        cases hgd
  have hn := hc.nodup k
  rw [hq] at hn
  obtain ⟨hRn, hOrn, hdis⟩ := List.nodup_append.mp hn
  obtain ⟨hOn, hrn, hdis'⟩ := List.nodup_append.mp hOrn
  have hROn : (R ++ O).Nodup := List.nodup_append.mpr
    ⟨hRn, hOn, fun x hx y hy => hdis x hx y (List.mem_append_left _ hy)⟩
  have hdis₁ : ∀ d ∈ R, d ∉ O := fun d hd hdO => hdis d hd d (List.mem_append_left _ hdO) rfl
  have hdis₂ : ∀ d ∈ R, d ∉ rest := fun d hd hdr => hdis d hd d (List.mem_append_right _ hdr) rfl
  have hdis₃ : ∀ d ∈ O, d ∉ rest := fun d hd hdr => hdis' d hd d hdr rfl
  have hwhere : ∀ d, d ∈ g.line k ↔ d ∈ R ∨ d ∈ O ∨ d ∈ rest := by
    intro d
    rw [hline, List.mem_append, List.mem_append]
  have hROm : ∀ d, d ∈ R ++ O ↔ d ∈ R ∨ d ∈ O := fun d => List.mem_append
  clear hdis hdis' hline hn
  obtain ⟨h1, h2, h3, h4, h5, h6, h7, h8, h9, h10, h11, h12, h13, h14, h15, h16⟩ := hc
  generalize hT : O ++ rest = T at *
  generalize R ++ O = H at *
  simp only [ReadHolder, WriteHolder] at *
  constructor
  case signalled =>
    intro d hd
    simp only at hd ⊢
    by_cases hdO : d ∈ O
    · rw [if_pos (.inr hdO), if_pos hdO]
      exact ⟨rfl, rfl⟩
    · rw [if_neg hdO] at hd
      have hdR : d ∉ R := by
        intro hdR
        rw [(hmine d (.inl hdR)).2.2.2.1] at hd
        cases hd
      rw [if_neg (not_or_intro hdR hdO), if_neg hdO]
      exact h11 d hd
  case granted =>
    intro d hd
    simp only at hd ⊢
    have hwaits : (a.pc d).waits ≠ none := by
      by_cases hdRO : d ∈ R ∨ d ∈ O
      · rw [(hmine d hdRO).1]
        nofun
      · rw [if_neg hdRO] at hd
        exact h10 d hd
    have hdc : d ≠ c := by
      rintro rfl
      exact hwaits p2
    rwa [Function.update_of_ne hdc]
  all_goals simp only [Ghost.set, ReadHolder, WriteHolder]
  all_goals first
    | assumption
    | grind -linarith [Function.update_apply, Pc.reads, Pc.writes, Pc.waits, Pc.grants, Pc.releases,
        Pc.hands]

/-- **A writer hands the lock to readers**, `R` in the count and `O` in the queue. -/
theorem Inv.writeHandReaders {max : K → ℕ} {a : Abs C K ι} {g : Ghost C K} {c : C} {k : K}
    {R O rest : List C} (h : Inv max a g) (hpc : (a.pc c).writes = some k)
    (hq : a.queue k = R ++ (O ++ rest)) (hrd : ∀ d ∈ R ++ O, (a.tag d).rdlock = true)
    (hR : R ≠ []) (hmax : R.length ≤ max k) (hO : O ≠ [] → R.length = max k)
    (hrest : ∀ d, rest.head? = some d → (a.tag d).rdlock = false) :
    Inv max { a with
        w := Function.update a.w k (!rest.isEmpty)
        r := Function.update a.r k R.length
        queue := Function.update a.queue k (O ++ rest)
        tag := fun d => if d ∈ O then { a.tag d with haveLock := true } else a.tag d
        signalled := fun d => if d ∈ O then true else a.signalled d
        granted := fun d => if d ∈ R ∨ d ∈ O then true else a.granted d
        pc := Function.update a.pc c (.granting k R) }
      (g.set k O rest (R ++ O) none) := by
  obtain ⟨hc, hs⟩ := h
  have hwr : g.wr k = some c := (hc.wr c k).mpr (.inl hpc)
  have hne : g.wr k ≠ none := by rw [hwr]; nofun
  obtain ⟨ho, hhold, -, -⟩ := (hs k).writing hne
  have hsame : ∀ d, (if d ∈ O then { a.tag d with haveLock := true } else a.tag d).rdlock
      = (a.tag d).rdlock := by
    intro d
    split <;> rfl
  have huniq : ∀ d, WriteHolder a.pc a.granted d k → d = c := fun d hd =>
    Option.some.inj (((hc.wr d k).mpr hd).symm.trans hwr)
  exact ⟨hc.handReaders hpc ho hhold huniq hq hrd, shape_set hs _ (fun _ _ d _ => hsame d)
    (Shape.writeHandReaders hR hmax hO fun d hd => (hsame d).trans (hrest d hd))⟩

omit [DecidableEq K] in
/-- **A client is told** that it was handed a lock. -/
theorem Inv.grantNext {max : K → ℕ} {a : Abs C K ι} {g : Ghost C K} {c d : C} {k : K} {ds : List C}
    (h : Inv max a g) (hpc : a.pc c = .granting k (d :: ds)) :
    Inv max { a with
        tag := Function.update a.tag d { a.tag d with inList := false, haveLock := true }
        signalled := Function.update a.signalled d true
        pc := Function.update a.pc c (.granting k ds) } g := by
  obtain ⟨hc, hs⟩ := h
  have hg : (a.pc c).grants = d :: ds := by rw [hpc]; rfl
  obtain ⟨hgd, hsd, hod⟩ := hc.grants c d (by rw [hg]; exact List.mem_cons_self)
  obtain ⟨hdd, hdn⟩ := List.nodup_cons.mp (hg ▸ hc.grantsNodup c)
  have hmem : ∀ e ∈ ds, e ∈ (a.pc c).grants := by
    intro e he
    rw [hg]
    exact List.mem_cons_of_mem _ he
  have hdm : d ∈ (a.pc c).grants := by rw [hg]; exact List.mem_cons_self
  have hviews : (a.pc c).reads = none ∧ (a.pc c).writes = none ∧ (a.pc c).waits = none
      ∧ (a.pc c).hands = none ∧ (a.pc c).releases = some k := by
    rw [hpc]
    exact ⟨rfl, rfl, rfl, rfl, rfl⟩
  have hline : ∀ k, d ∉ g.line k := by
    intro k hk
    rw [(hc.line k d hk).2.1] at hgd
    cases hgd
  refine ⟨?_, fun k => (hs k).congr fun e he => ?_⟩
  · clear hs
    obtain ⟨h1, h2, h3, h4, h5, h6, h7, h8, h9, h10, h11, h12, h13, h14, h15, h16⟩ := hc
    have hreads : (a.pc d).reads = none := by
      obtain ⟨x, hx⟩ := Option.ne_none_iff_exists'.mp (h10 d hgd)
      exact (Pc.waits_only hx).1
    clear hg hpc
    simp only [ReadHolder, WriteHolder] at *
    constructor
    all_goals first
      | assumption
      | grind -linarith [Function.update_apply, ReadHolder, WriteHolder, Pc.reads, Pc.writes, Pc.waits,
          Pc.grants, Pc.releases, Pc.hands]
  · have hed : e ≠ d := fun hed => hline k (hed ▸ he)
    simp only [Function.update_of_ne hed]

omit [DecidableEq K] in
/-- **A client that was told goes on** with the lock. -/
theorem Inv.finish {max : K → ℕ} {a : Abs C K ι} {g : Ghost C K} {c : C} {k : K} {rd : Bool}
    (h : Inv max a g) (hpc : a.pc c = .waiting k rd) (hsig : a.signalled c = true) :
    Inv max { a with
        src := Function.update a.src c none
        tag := Function.update a.tag c { a.tag c with waitedForLock := true }
        signalled := Function.update a.signalled c false
        granted := Function.update a.granted c false
        pc := Function.update a.pc c (if rd then .reading k else .writing k) } g := by
  obtain ⟨hc, hs⟩ := h
  obtain ⟨hgc, hhave⟩ := hc.signalled c hsig
  have hw : (a.pc c).waits = some (k, rd) := by rw [hpc]; rfl
  have hnl : ∀ j, c ∉ g.line j := by
    intro j hj
    rw [(hc.line j c hj).2.1] at hgc
    cases hgc
  have hrd := (hc.waits c k rd hw).1
  obtain ⟨p1, p2, p3, p4⟩ := Pc.waits_only hw
  refine ⟨?_, fun j => (hs j).congr fun e he => ?_⟩
  · clear hs hpc
    obtain ⟨h1, h2, h3, h4, h5, h6, h7, h8, h9, h10, h11, h12, h13, h14, h15, h16⟩ := hc
    have hng : ∀ d, c ∉ (a.pc d).grants := by
      intro d hd
      rw [(h12 d c hd).2.1] at hsig
      cases hsig
    simp only [ReadHolder, WriteHolder] at *
    cases rd
    all_goals constructor
    all_goals first
      | assumption
      | grind -linarith [Function.update_apply, ReadHolder, WriteHolder, Pc.reads, Pc.writes, Pc.waits,
          Pc.grants, Pc.releases, Pc.hands]
  · have hec : e ≠ c := fun hec => hnl j (hec ▸ he)
    simp only [Function.update_of_ne hec]

/-! ## Moving on -/

omit [DecidableEq K] in
/-- **A client goes on** with what it has. -/
theorem Inv.goto {max : K → ℕ} {a : Abs C K ι} {g : Ghost C K} {c : C} {p : Pc C K ι}
    (h : Inv max a g) (hreads : p.reads = (a.pc c).reads) (hwrites : p.writes = (a.pc c).writes)
    (hwaits : p.waits = (a.pc c).waits) (hgrants : p.grants = (a.pc c).grants)
    (hrel : p.releases = none) (hhands : ∀ k, p.hands = some k → g.line k ≠ [])
    (hp : p ≠ .aborted) :
    Inv max { a with pc := Function.update a.pc c p } g := by
  obtain ⟨⟨h1, h2, h3, h4, h5, h6, h7, h8, h9, h10, h11, h12, h13, h14, h15, h16⟩, hs⟩ := h
  have hreads' : ∀ d, (Function.update a.pc c p d).reads = (a.pc d).reads := by
    grind -linarith [Function.update_apply]
  have hwrites' : ∀ d, (Function.update a.pc c p d).writes = (a.pc d).writes := by
    grind -linarith [Function.update_apply]
  have hwaits' : ∀ d, (Function.update a.pc c p d).waits = (a.pc d).waits := by
    grind -linarith [Function.update_apply]
  have hgrants' : ∀ d, (Function.update a.pc c p d).grants = (a.pc d).grants := by
    grind -linarith [Function.update_apply]
  refine ⟨?_, hs⟩
  constructor
  all_goals try simp only [ReadHolder, WriteHolder, hreads', hwrites', hwaits', hgrants']
  all_goals first
    | assumption
    | grind -linarith [Function.update_apply]

omit [DecidableEq K] in
/-- **A client that has nothing to do with a lock** may have any tag. -/
theorem Inv.retag {max : K → ℕ} {a : Abs C K ι} {g : Ghost C K} {c : C} (tg : Tag)
    (h : Inv max a g) (hpc : (a.pc c).Plain) :
    Inv max { a with tag := Function.update a.tag c tg } g := by
  obtain ⟨hc, hs⟩ := h
  obtain ⟨p1, p2, p3, p4, p5, p6⟩ := hpc
  have hnl := hc.not_line p3
  have hnh := hc.not_hold p3 p1
  refine ⟨?_, fun j => (hs j).congr fun e he => ?_⟩
  · obtain ⟨h1, h2, h3, h4, h5, h6, h7, h8, h9, h10, h11, h12, h13, h14, h15, h16⟩ := hc
    constructor
    all_goals first
      | assumption
      | grind -linarith [Function.update_apply]
  · have hec : e ≠ c := fun hec => hnl j (hec ▸ he)
    simp only [Function.update_of_ne hec]

end RwBitlock
