import Lwlock.RwLockSort

/-!
# Converting a read-write lock

A writer that turns into a reader, and a reader that turns into a writer. With nobody
waiting the word is all there is to change. Else the thread comes to the old end of the
queue and unlocks: as the oldest waiter it is served next. A reader can be beaten to
that place by another one for an upgrade, and then stays what it was.
-/

namespace RwLock

variable {T : Type} [DecidableEq T]

/-! ## To the old end -/

/-- **A thread comes to the old end of the queue**: who waits, and who has the lock. -/
theorem Clients.append {s s' : State T} {g : Ghost T} {t : T} {p : Pc T} {tg : Tag}
    (h : Clients s g) (ht : (s.pc t).pends = none) (hp : p.pends = some tg)
    (hshares : p.shares = (s.pc t).shares) (howns : p.owns = (s.pc t).owns)
    (hsorts : p.sorts = (s.pc t).sorts) (hwakes : (s.pc t).wakes = false)
    (hpv : p.fair = none ∧ p.leaves = false ∧ p.unfair = false ∧ p.links = false ∧ p ≠ .aborted)
    (htg : tg = .shared → p.shares = false) (hpc : s'.pc = Function.update s.pc t p)
    (hmade : s'.made = Function.update s.made t 0) (hsent : s'.sent = Function.update s.sent t 0)
    (hsig : s'.signalled = s.signalled) (htag : ∀ c, s'.tag c = if c = t then tg else s.tag c)
    (hunf : s'.word.unfair = s.word.unfair)
    (hnext : ∀ c, c ∉ g.lists.pending → s'.next c = s.next c) :
    Clients s' { g with lists := { g.lists with queue := g.lists.queue ++ [t] } } := by
  obtain ⟨p1, p2, p3, p4, p5⟩ := hpv
  obtain ⟨hnp, hnw⟩ := h.not_mem ht
  have hquiet := h.quiet t ht
  have hperm : (Lists.pending { g.lists with queue := g.lists.queue ++ [t] }).Perm
      (t :: g.lists.pending) := by
    simp only [Lists.pending, List.append_assoc]
    exact List.perm_middle
  have hnd : (Lists.pending { g.lists with queue := g.lists.queue ++ [t] }).Nodup :=
    hperm.nodup_iff.mpr (List.nodup_cons.mpr ⟨hnp, h.nodup⟩)
  have hmem : ∀ c, c ∈ Lists.pending { g.lists with queue := g.lists.queue ++ [t] }
      ↔ c = t ∨ c ∈ g.lists.pending := fun c => hperm.mem_iff.trans List.mem_cons
  have hshares' : ∀ c, (Function.update s.pc t p c).shares = (s.pc c).shares := by
    grind -linarith [Function.update_apply]
  have howns' : ∀ c, (Function.update s.pc t p c).owns = (s.pc c).owns := by
    grind -linarith [Function.update_apply]
  have hsorts' : ∀ c, (Function.update s.pc t p c).sorts = (s.pc c).sorts := by
    grind -linarith [Function.update_apply]
  obtain ⟨h1, h2, h3, h4, h5, h6, h7, h8, h9, h10, h11, h12, h13, h14, h15, h16, h17, h18, h19,
    h20, h21, h22⟩ := h
  constructor
  case nodup => exact hnd
  all_goals
    try simp only [hpc, hmade, hsent, hsig, htag, hunf, hmem, hshares', howns', hsorts']
  all_goals first
    | assumption
    | grind -linarith [Function.update_apply]

/-! ## Down -/

omit [DecidableEq T] in
/-- **A writer is alone.** -/
theorem Inv.writer {s : State T} {g : Ghost T} {t : T} (h : Inv s g) (ht : (s.pc t).owns = true) :
    g.own = some t ∧ g.hold = [] ∧ (∀ u, u ≠ t → (s.pc u).shares = false ∧ (s.pc u).owns = false) := by
  have hown : g.own = some t := (h.clients.own t).mpr (.inl ht)
  exact ⟨hown, h.clients.alone t hown, fun u hu => h.clients.apart (.inl ht) hu⟩

/-- **A writer turns into a reader**, and nobody waits. -/
theorem Inv.downgradeFree {s : State T} {g : Ghost T} {t : T} (h : Inv s g) (ht : s.pc t = .writer)
    (hq : s.word.waitq = none) :
    Inv ({ s with word := { s.word with wlocked := false, readers := 1 } }.goto t .reader)
      { g with hold := [t], own := none } := by
  have howns : (s.pc t).owns = true := by rw [ht]; rfl
  obtain ⟨hown, hhold, hapart⟩ := h.writer howns
  have hqueue : g.lists.queue = [] := (h.queue.chain.eq_nil_iff).mpr hq
  obtain ⟨hno, hcut⟩ := h.no_cut hqueue
  obtain ⟨p, hp⟩ : ∃ p : Pc T, p = .reader := ⟨_, rfl⟩
  have htv : (s.pc t).pends = none ∧ (s.pc t).shares = false ∧ (s.pc t).wakes = false
      ∧ (s.pc t).sorts = false ∧ (s.pc t).links = false := by
    rw [ht]
    exact ⟨rfl, rfl, rfl, rfl, rfl⟩
  have hpv : p.pends = none ∧ p.shares = true ∧ p.owns = false ∧ p.sorts = false ∧ p.fair = none
      ∧ p.leaves = false ∧ p.unfair = false ∧ p.links = false ∧ p ≠ .aborted := by
    rw [hp]
    exact ⟨rfl, rfl, rfl, rfl, rfl, rfl, rfl, rfl, nofun⟩
  obtain ⟨t1, t2, t3, t4, t5⟩ := htv
  obtain ⟨p1, p2, p3, p4, p5, p6, p7, p8, p9⟩ := hpv
  have hpends' : ∀ c, (Function.update s.pc t p c).pends = (s.pc c).pends := by
    grind -linarith [Function.update_apply]
  rw [← hp]
  obtain ⟨hc, hqu, hwork⟩ := h
  refine ⟨?_, ?_, fun u => ?_⟩
  · clear ht hp
    obtain ⟨h1, h2, h3, h4, h5, h6, h7, h8, h9, h10, h11, h12, h13, h14, h15, h16, h17, h18, h19,
      h20, h21, h22⟩ := hc
    constructor
    case holdNodup => exact List.nodup_singleton t
    all_goals try simp only [State.goto, hpends']
    all_goals first
      | assumption
      | grind -linarith [Function.update_apply]
  · clear ht hp
    obtain ⟨h1, h2, h3, h4, h5, h6, h7, h8, h9, h10, h11, h12, h13⟩ := hqu
    constructor
    case small =>
      show 1 < readersSize
      rw [readersSize_eq]
      exact Nat.one_lt_two_pow (by decide)
    case wlocked => rfl
    case cutter => exact fun hne => absurd hcut hne
    case sorting => exact fun hne => exists_update_of_not (h7 hne) t4
    all_goals try simp only [State.goto]
    all_goals first
      | assumption
      | grind -linarith [Function.update_apply]
  · show Work s.next s.tag g.lists u (Function.update s.pc t p u)
    by_cases hu : u = t
    · rw [hu, Function.update_self, hp]
      trivial
    · rw [Function.update_of_ne hu]
      exact hwork u

/-- A step to the oldest waiter. -/
theorem Inv.downgradeScan {s : State T} {g : Ghost T} {t w : T} (h : Inv s g)
    (ht : s.pc t = .downgradeScan w) : Inv (downgradeScan s t w) g := by
  have hw := h.work t
  rw [ht] at hw
  have hmem : w ∈ g.lists.queue := hw
  have hmove : ∀ p : Pc T, p.pends = none → p.shares = false → p.owns = true → p.sorts = false →
      p.fair = none ∧ p.leaves = false ∧ p ≠ .aborted → p.unfair = false →
      Work s.next s.tag g.lists t p → Inv (s.goto t p) g := by
    intro p h1 h2 h3 h4 h5 h6 hw
    refine h.step ?_ ?_ ?_ ?_ ?_ h5 (fun hu => ?_) hw
    · rw [ht]; exact h1
    · rw [ht]; exact h2
    · rw [ht]; exact h3
    · rw [ht]; exact h4
    · rw [ht]; exact ⟨rfl, rfl, rfl, rfl⟩
    · rw [h6] at hu
      cases hu
  simp only [RwLock.downgradeScan]
  cases hn : s.next w with
  | some n =>
    exact hmove _ rfl rfl rfl rfl ⟨rfl, rfl, nofun⟩ rfl (h.queue.chain.next_mem hmem hn)
  | none =>
    exact hmove _ rfl rfl rfl rfl ⟨rfl, rfl, nofun⟩ rfl (h.queue.chain.eq_last hmem hn)

/-- **The writer comes to the old end of the queue**, as a reader. -/
theorem Inv.downgradeLink {s : State T} {g : Ghost T} {t w : T} (h : Inv s g)
    (ht : s.pc t = .downgradeLink w) : Inv (downgradeLink s t w)
      { g with lists := { g.lists with queue := g.lists.queue ++ [t] } } := by
  have hw := h.work t
  rw [ht] at hw
  obtain ⟨A, hA⟩ := hw
  have howns : (s.pc t).owns = true := by rw [ht]; rfl
  obtain ⟨hown, hhold, hapart⟩ := h.writer howns
  have hpn : (s.pc t).pends = none := by rw [ht]; rfl
  obtain ⟨hnp, hnw⟩ := h.clients.not_mem hpn
  have hnext : s.next t = none := (h.clients.quiet t hpn).2 (by rw [ht]; rfl)
  have hcut : g.lists.cut = [] := h.cut_nil (.inr howns) (by rw [ht]; rfl)
  have hwq : w ∈ g.lists.queue := by rw [hA]; simp
  have hwp : w ∈ g.lists.pending := Lists.mem_pending.mpr (.inl hwq)
  have htq : t ∉ g.lists.queue := fun hmem => hnp (Lists.mem_pending.mpr (.inl hmem))
  have hnofair : ∀ u, (s.pc u).fair = none := by
    intro u
    cases hf : (s.pc u).fair with
    | none => rfl
    | some e =>
      obtain ⟨f1, f2, -⟩ := Pc.fair_views hf
      by_cases hut : u = t
      · rw [hut, ht] at hf
        cases hf
      · rw [(hapart u hut).1] at f1
        rw [(hapart u hut).2] at f2
        rw [← f2] at f1
        cases f1
  -- with the lock held for itself nobody waits for an upgrade
  have hup : ∀ c ∈ g.lists.queue, s.tag c ≠ .upgrade := by
    intro c hc htc
    have hf := h.queue.upgradeOwn c (.inl hc) htc t hown
    rw [hnofair t] at hf
    cases hf
  have hchain : Chain (Function.update s.next w (some t)) s.word.waitq (g.lists.queue ++ [t]) := by
    have hch := h.queue.chain
    rw [hA] at hch htq ⊢
    exact hch.concat htq hnext
  have hwt : w ≠ t := fun hwt => htq (hwt ▸ hwq)
  have hwpends := (h.clients.pending w).mp hwp
  have hsort := h.queue.sorting
  have htag : ∀ c ∈ g.lists.queue, Function.update s.tag t .shared c = s.tag c :=
    fun c hc => Function.update_of_ne (fun hct : c = t => htq (hct ▸ hc)) _ _
  obtain ⟨p, hp⟩ : ∃ p : Pc T, p = .unlock true .downgrade := ⟨_, rfl⟩
  have hpv : p.pends = some .shared ∧ p.shares = false ∧ p.owns = true ∧ p.sorts = false
      ∧ p.fair = none ∧ p.leaves = false ∧ p.unfair = false ∧ p.links = false ∧ p ≠ .aborted := by
    rw [hp]
    exact ⟨rfl, rfl, rfl, rfl, rfl, rfl, rfl, rfl, nofun⟩
  obtain ⟨p1, p2, p3, p4, p5, p6, p7, p8, p9⟩ := hpv
  have t4 : (s.pc t).sorts = false := by rw [ht]; rfl
  rw [RwLock.downgradeLink, if_pos hnext, ← hp]
  refine ⟨?_, ?_, fun u => ?_⟩
  · refine h.clients.append hpn p1 ?_ ?_ ?_ ?_ ⟨p5, p6, p7, p8, p9⟩ (fun _ => p2) rfl rfl rfl rfl
      (fun c => Function.update_apply _ _ _ _) rfl
      fun c hc => Function.update_of_ne (fun hcw : c = w => hc (hcw ▸ hwp)) _ _
    · rw [p2, ht]; rfl
    · rw [p3, ht]; rfl
    · rw [p4, ht]; rfl
    · rw [ht]; rfl
  · obtain ⟨h1, h2, h3, h4, h5, h6, h7, h8, h9, h10, h11, h12, h13⟩ := h.queue
    constructor
    case readers => exact h1
    case small => exact h2
    case wlocked => exact h3
    case chain => exact hchain
    case free => exact fun _ ho => nomatch hown.symm.trans ho
    case cutter => exact fun hne => absurd hcut hne
    case sorting => exact fun hne => exists_update_of_not (hsort hne) t4
    case upgradeLast =>
      intro c hc htc
      have htc : Function.update s.tag t .shared c = .upgrade := htc
      rcases List.mem_append.mp hc with hc | hc
      · rw [htag c hc] at htc
        exact absurd htc (hup c hc)
      · rw [List.mem_singleton.mp hc, Function.update_self] at htc
        cases htc
    case upgradeCut =>
      intro c hc
      have hc : c ∈ g.lists.cut := hc
      rw [hcut] at hc
      cases hc
    case upgradeSort =>
      intro c hc
      have hct : c ≠ t := fun hct => hnp (hct ▸ Lists.mem_pending.mpr (.inr (.inr hc)))
      show Function.update s.tag t .shared c ≠ .upgrade
      rw [Function.update_of_ne hct]
      exact h10 c hc
    case upgradeOwn =>
      intro c hc htc
      have htc : Function.update s.tag t .shared c = .upgrade := htc
      rcases hc with hc | hc
      · rcases List.mem_append.mp hc with hc | hc
        · rw [htag c hc] at htc
          exact absurd htc (hup c hc)
        · rw [List.mem_singleton.mp hc, Function.update_self] at htc
          cases htc
      · have hc : c ∈ g.lists.cut := hc
        rw [hcut] at hc
        cases hc
    case unfairQueue => exact fun _ ho => nomatch hown.symm.trans ho
    case unfairLast =>
      intro _ u hf
      have hno : (Function.update s.pc t p u).fair = none := by
        by_cases hut : u = t
        · rw [hut, Function.update_self, p5]
        · rw [Function.update_of_ne hut]
          exact hnofair u
      exact absurd hno hf
  · show Work (Function.update s.next w (some t)) (Function.update s.tag t .shared) _ u
      (Function.update s.pc t p u)
    by_cases hu : u = t
    · rw [hu, Function.update_self, hp]
      trivial
    · rw [Function.update_of_ne hu]
      refine (h.work u).apart (hapart u hu).1 (hapart u hu).2 rfl (fun c hc => ?_)
        ⟨fun hl => ?_, Function.update_of_ne hu _ _⟩
      · refine Function.update_of_ne ?_ _ _
        rintro rfl
        have h1 := (h.clients.wake u c hc).2.1
        rw [hwpends.2] at h1
        cases h1
      · refine Function.update_of_ne ?_ _ _
        rintro rfl
        rw [Pc.not_links hwpends.1] at hl
        cases hl

/-! ## Up -/

omit [DecidableEq T] in
/-- **A reader is among the holders**, and nobody has the lock for himself. -/
theorem Inv.reader {s : State T} {g : Ghost T} {t : T} (h : Inv s g) (ht : (s.pc t).shares = true) :
    t ∈ g.hold ∧ g.own = none := by
  have hmem : t ∈ g.hold := (h.clients.hold t).mpr (.inl ht)
  refine ⟨hmem, ?_⟩
  cases ho : g.own with
  | none => rfl
  | some c =>
    rw [h.clients.alone c ho] at hmem
    cases hmem

/-- **The only reader turns into a writer**, and nobody waits. -/
theorem Inv.upgradeFree {s : State T} {g : Ghost T} {t : T} (h : Inv s g) (ht : s.pc t = .reader)
    (hq : s.word.waitq = none) (hr : s.word.readers = 1) : g.hold = [t] ∧
    Inv ({ s with word := { s.word with wlocked := true, readers := 0 } }.goto t .writer)
      { g with hold := [], own := some t } := by
  obtain ⟨hmem, hown⟩ := h.reader (t := t) (by rw [ht]; rfl)
  have hhold : g.hold = [t] := by
    obtain ⟨a, ha⟩ := List.length_eq_one_iff.mp (h.queue.readers.symm.trans hr)
    rw [ha] at hmem ⊢
    rw [List.mem_singleton.mp hmem]
  have hapart : ∀ u, u ≠ t → (s.pc u).shares = false ∧ (s.pc u).owns = false :=
    fun u hu => h.clients.apart (.inr hhold) hu
  have hqueue : g.lists.queue = [] := (h.queue.chain.eq_nil_iff).mpr hq
  obtain ⟨hno, hcut⟩ := h.no_cut hqueue
  obtain ⟨p, hp⟩ : ∃ p : Pc T, p = .writer := ⟨_, rfl⟩
  have htv : (s.pc t).pends = none ∧ (s.pc t).owns = false ∧ (s.pc t).wakes = false
      ∧ (s.pc t).sorts = false ∧ (s.pc t).links = false := by
    rw [ht]
    exact ⟨rfl, rfl, rfl, rfl, rfl⟩
  have hpv : p.pends = none ∧ p.shares = false ∧ p.owns = true ∧ p.sorts = false ∧ p.fair = none
      ∧ p.leaves = false ∧ p.unfair = false ∧ p.links = false ∧ p ≠ .aborted := by
    rw [hp]
    exact ⟨rfl, rfl, rfl, rfl, rfl, rfl, rfl, rfl, nofun⟩
  obtain ⟨t1, t2, t3, t4, t5⟩ := htv
  obtain ⟨p1, p2, p3, p4, p5, p6, p7, p8, p9⟩ := hpv
  have hpends' : ∀ c, (Function.update s.pc t p c).pends = (s.pc c).pends := by
    grind -linarith [Function.update_apply]
  refine ⟨hhold, ?_⟩
  rw [← hp]
  obtain ⟨hc, hqu, hwork⟩ := h
  refine ⟨?_, ?_, fun u => ?_⟩
  · clear ht hp
    obtain ⟨h1, h2, h3, h4, h5, h6, h7, h8, h9, h10, h11, h12, h13, h14, h15, h16, h17, h18, h19,
      h20, h21, h22⟩ := hc
    constructor
    all_goals try simp only [State.goto, hpends']
    all_goals first
      | assumption
      | grind -linarith [Function.update_apply]
  · clear ht hp
    obtain ⟨h1, h2, h3, h4, h5, h6, h7, h8, h9, h10, h11, h12, h13⟩ := hqu
    constructor
    case small => exact Nat.lt_of_le_of_lt (Nat.zero_le _) h2
    case wlocked => rfl
    case cutter => exact fun hne => absurd hcut hne
    case sorting => exact fun hne => exists_update_of_not (h7 hne) t4
    all_goals try simp only [State.goto]
    all_goals first
      | assumption
      | grind -linarith [Function.update_apply]
  · show Work s.next s.tag g.lists u (Function.update s.pc t p u)
    by_cases hu : u = t
    · rw [hu, Function.update_self, hp]
      trivial
    · rw [Function.update_of_ne hu]
      exact hwork u

/-- **A reader waits to be a writer**, and nobody else waits. -/
theorem Inv.upgradeAlone {s : State T} {g : Ghost T} {t : T} (h : Inv s g) (ht : s.pc t = .reader)
    (hq : s.word.waitq = none) (hr : s.word.readers ≠ 1) : g.lists.queue = [] ∧
    g.hold.erase t ≠ [] ∧
    Inv (({ s.setTag t .upgrade with
      word := { s.word.release false with waitq := some t } }.enqueue t).goto t (.waiting .upgrade))
      { g with lists := { g.lists with queue := [t] }, hold := g.hold.erase t } := by
  obtain ⟨hmem, hown⟩ := h.reader (t := t) (by rw [ht]; rfl)
  have hpn : (s.pc t).pends = none := by rw [ht]; rfl
  obtain ⟨hnp, hnw⟩ := h.clients.not_mem hpn
  have hquiet := h.clients.quiet t hpn
  have hnext : s.next t = none := hquiet.2 (by rw [ht]; rfl)
  have hqueue : g.lists.queue = [] := (h.queue.chain.eq_nil_iff).mpr hq
  obtain ⟨hno, hcut⟩ := h.no_cut hqueue
  have hrel := release_shared h hmem
  have hlen : (g.hold.erase t).length + 1 = g.hold.length := List.length_erase_add_one hmem
  have hpos : g.hold.erase t ≠ [] := by
    intro hnil
    rw [hnil, List.length_nil] at hlen
    exact hr (h.queue.readers.trans hlen.symm)
  have herase : ∀ c, c ∈ g.hold.erase t ↔ c ≠ t ∧ c ∈ g.hold :=
    fun c => h.clients.holdNodup.mem_erase_iff
  have hmp := @Lists.mem_pending T g.lists
  have hpend : Lists.pending { g.lists with queue := [t] } = t :: g.lists.pending := by
    simp [Lists.pending, hqueue]
  have hnd : (t :: g.lists.pending).Nodup := List.nodup_cons.mpr ⟨hnp, h.clients.nodup⟩
  have htag : ∀ c ∈ g.lists.pending, Function.update s.tag t .upgrade c = s.tag c :=
    fun c hc => Function.update_of_ne (fun hct : c = t => hnp (hct ▸ hc)) _ _
  obtain ⟨p, hp⟩ : ∃ p : Pc T, p = .waiting .upgrade := ⟨_, rfl⟩
  have htv : (s.pc t).shares = true ∧ (s.pc t).owns = false ∧ (s.pc t).wakes = false
      ∧ (s.pc t).sorts = false ∧ (s.pc t).links = false := by
    rw [ht]
    exact ⟨rfl, rfl, rfl, rfl, rfl⟩
  have hpv : p.pends = some .upgrade ∧ p.shares = false ∧ p.owns = false ∧ p.sorts = false
      ∧ p.fair = none ∧ p.leaves = false ∧ p.unfair = false ∧ p.links = false ∧ p ≠ .aborted
      ∧ p.wakes = false := by
    rw [hp]
    exact ⟨rfl, rfl, rfl, rfl, rfl, rfl, rfl, rfl, (by simp), rfl⟩
  obtain ⟨t1, t2, t3, t4, t5⟩ := htv
  obtain ⟨p1, p2, p3, p4, p5, p6, p7, p8, p9, p10⟩ := hpv
  refine ⟨hqueue, hpos, ?_⟩
  rw [← hp]
  obtain ⟨hc, hqu, hwork⟩ := h
  refine ⟨?_, ?_, fun u => ?_⟩
  · clear ht hp
    obtain ⟨h1, h2, h3, h4, h5, h6, h7, h8, h9, h10, h11, h12, h13, h14, h15, h16, h17, h18, h19,
      h20, h21, h22⟩ := hc
    constructor
    case nodup => exact hpend ▸ hnd
    case holdNodup => exact h13.erase t
    all_goals try simp only [State.goto, State.enqueue, State.setTag, hpend, List.mem_cons]
    all_goals first
      | assumption
      | grind -linarith [Function.update_apply, Word.release]
  · clear ht hp
    obtain ⟨h1, h2, h3, h4, h5, h6, h7, h8, h9, h10, h11, h12, h13⟩ := hqu
    constructor
    case readers =>
      show (s.word.release false).readers = (g.hold.erase t).length
      omega
    case small =>
      show (g.hold.erase t).length < readersSize
      omega
    case chain => exact ⟨rfl, hnext⟩
    case free => exact fun hh => absurd hh hpos
    case cutter => exact fun hne => absurd hcut hne
    case sorting => exact fun hne => exists_update_of_not (h7 hne) t4
    case upgradeLast =>
      intro c hc _
      rw [List.mem_singleton.mp hc]
      exact ⟨rfl, hcut⟩
    case unfairQueue =>
      intro _ _ c hc
      show Function.update s.tag t .upgrade c ≠ .shared
      rw [List.mem_singleton.mp hc, Function.update_self]
      simp
    all_goals try simp only [State.goto, State.enqueue, State.setTag]
    all_goals first
      | assumption
      | grind -linarith [Function.update_apply, Word.release]
  · show Work s.next (Function.update s.tag t .upgrade) _ u (Function.update s.pc t p u)
    by_cases hu : u = t
    · rw [hu, Function.update_self, hp]
      trivial
    · rw [Function.update_of_ne hu]
      have hcongr : Work s.next (Function.update s.tag t .upgrade) g.lists u (s.pc u) :=
        (hwork u).congr (fun _ _ => rfl) (fun _ _ => rfl) htag
          ⟨fun _ => rfl, Function.update_of_ne hu _ _⟩
      have hpush := hcongr.push t
      rw [hqueue] at hpush
      exact hpush

/-- **A reader that finds somebody waiting** goes for the old end of the queue. -/
theorem Inv.upgradeQueue {s : State T} {g : Ghost T} {t : T} (h : Inv s g) (ht : s.pc t = .reader)
    (hq : s.word.waitq ≠ none) : Inv ((s.setTag t .upgrade).goto t .upgradeStart) g := by
  have hpn : (s.pc t).pends = none := by rw [ht]; rfl
  have hnext : s.next t = none := (h.clients.quiet t hpn).2 (by rw [ht]; rfl)
  have heq : s.setTag t .upgrade = (s.setNext t none).setTag t .upgrade := by
    have hself : Function.update s.next t none = s.next := by
      rw [← hnext, Function.update_eq_self]
    rw [State.setNext, hself]
  rw [heq]
  refine h.write hpn ⟨?_, ?_, ?_, ?_, ?_, ?_, ?_, ?_, (fun hf => by cases hf),
    (fun hl => by cases hl), (fun hu => by cases hu), fun hf => absurd rfl hf,
    (fun ha => by cases ha)⟩ (.inr rfl)
    ⟨Function.update_self _ _ _, fun hnil => hq ((h.queue.chain.eq_nil_iff).mp hnil)⟩
  · rw [ht]; rfl
  · rw [ht]; rfl
  · rw [ht]; rfl
  · exact .inr (h.clients.wakes t (by rw [ht]; rfl))
  · exact .inr (by rw [ht]; rfl)
  · rw [ht]; rfl
  · rw [ht]
    exact fun hc => by cases hc
  · rw [ht]
    exact fun hc => by cases hc

/-- The oldest waiter is searched. -/
theorem Inv.upgradeStart {s : State T} {g : Ghost T} {t : T} (h : Inv s g)
    (ht : s.pc t = .upgradeStart) : Inv (upgradeStart s t) g := by
  have hw := h.work t
  rw [ht] at hw
  obtain ⟨htag, hne⟩ := hw
  simp only [RwLock.upgradeStart]
  cases hwq : s.word.waitq with
  | none => exact absurd ((h.queue.chain.eq_nil_iff).mpr hwq) hne
  | some w =>
    refine h.step ?_ ?_ ?_ ?_ ?_ ⟨rfl, rfl, nofun⟩ nofun ⟨htag, ?_⟩
    · rw [ht]; rfl
    · rw [ht]; rfl
    · rw [ht]; rfl
    · rw [ht]; rfl
    · rw [ht]; exact ⟨rfl, rfl, rfl, rfl⟩
    · have hch := h.queue.chain.head_eq
      rw [hwq] at hch
      exact List.mem_of_mem_head? hch.symm

/-- **A step of a reader for an upgrade** that writes nothing. -/
theorem Inv.upgradeMove {s : State T} {g : Ghost T} {t : T} {p : Pc T} (h : Inv s g)
    (ht : (∃ w, s.pc t = .upgradeScan w) ∨ ∃ w, s.pc t = .upgradeSwap w) (hpends : p.pends = none)
    (hshares : p.shares = true) (howns : p.owns = false) (hsorts : p.sorts = false)
    (hp : p.fair = none ∧ p.leaves = false ∧ p ≠ .aborted) (hunfair : p.unfair = false)
    (hw : Work s.next s.tag g.lists t p) : Inv (s.goto t p) g := by
  refine h.step ?_ ?_ ?_ ?_ ?_ hp (fun hu => ?_) hw
  · rw [hpends]; rcases ht with ⟨w, ht⟩ | ⟨w, ht⟩ <;> rw [ht] <;> rfl
  · rw [hshares]; rcases ht with ⟨w, ht⟩ | ⟨w, ht⟩ <;> rw [ht] <;> rfl
  · rw [howns]; rcases ht with ⟨w, ht⟩ | ⟨w, ht⟩ <;> rw [ht] <;> rfl
  · rw [hsorts]; rcases ht with ⟨w, ht⟩ | ⟨w, ht⟩ <;> rw [ht] <;> rfl
  · rcases ht with ⟨w, ht⟩ | ⟨w, ht⟩ <;> rw [ht] <;> exact ⟨rfl, rfl, rfl, rfl⟩
  · rw [hunfair] at hu
    cases hu

/-- **A step to the oldest waiter.** -/
theorem Inv.upgradeScan {s : State T} {g : Ghost T} {t w : T} (h : Inv s g)
    (ht : s.pc t = .upgradeScan w) : Inv (upgradeScan s t w) g := by
  have hw := h.work t
  rw [ht] at hw
  obtain ⟨htag, hmem⟩ := hw
  simp only [RwLock.upgradeScan]
  cases hn : s.next w with
  | some n =>
    exact h.upgradeMove (.inl ⟨w, ht⟩) rfl rfl rfl rfl ⟨rfl, rfl, nofun⟩ rfl ⟨htag, h.queue.chain.next_mem hmem hn⟩
  | none =>
    dsimp only
    split
    · exact h.upgradeMove (.inl ⟨w, ht⟩) rfl rfl rfl rfl ⟨rfl, rfl, nofun⟩ rfl trivial
    · next hne => exact h.upgradeMove (.inl ⟨w, ht⟩) rfl rfl rfl rfl ⟨rfl, rfl, nofun⟩ rfl ⟨htag, hmem, hne⟩

/-- **The reader comes to the old end of the queue**, behind a waiter that is still the
last one. -/
theorem Inv.upgradeLink {s : State T} {g : Ghost T} {t w : T} (h : Inv s g)
    (ht : s.pc t = .upgradeSwap w) (hn : s.next w = none) :
    Inv (((s.setNext w (some t)).enqueue t).goto t (.unlock false .upgrade))
      { g with lists := { g.lists with queue := g.lists.queue ++ [t] } } := by
  have hw := h.work t
  rw [ht] at hw
  obtain ⟨htag, hwq, hwtag⟩ := hw
  have hshares : (s.pc t).shares = true := by rw [ht]; rfl
  obtain ⟨hmem, hown⟩ := h.reader hshares
  have hpn : (s.pc t).pends = none := by rw [ht]; rfl
  obtain ⟨hnp, hnw⟩ := h.clients.not_mem hpn
  have hnext : s.next t = none := (h.clients.quiet t hpn).2 (by rw [ht]; rfl)
  have hcut : g.lists.cut = [] := h.cut_nil (.inl hshares) (by rw [ht]; rfl)
  obtain ⟨A, hA⟩ := h.queue.chain.eq_last hwq hn
  have hwp : w ∈ g.lists.pending := Lists.mem_pending.mpr (.inl hwq)
  have htq : t ∉ g.lists.queue := fun hm => hnp (Lists.mem_pending.mpr (.inl hm))
  have hnofair : ∀ u, (s.pc u).fair = none := by
    intro u
    cases hf : (s.pc u).fair with
    | none => rfl
    | some e =>
      by_cases hut : u = t
      · rw [hut, ht] at hf
        cases hf
      · rw [(h.clients.apart (h.clients.fair_apart hf) (Ne.symm hut)).1] at hshares
        cases hshares
  have hup : ∀ c ∈ g.lists.queue, s.tag c ≠ .upgrade := by
    intro c hc htc
    have hl := (h.queue.upgradeLast c hc htc).1
    rw [hA, List.getLast?_concat] at hl
    rw [← Option.some.inj hl] at htc
    exact hwtag htc
  have hchain : Chain (Function.update s.next w (some t)) s.word.waitq (g.lists.queue ++ [t]) := by
    have hch := h.queue.chain
    rw [hA] at hch htq ⊢
    exact hch.concat htq hnext
  have hwpends := (h.clients.pending w).mp hwp
  have hno : ∀ u, (s.pc u).owns = false := by
    intro u
    refine Bool.eq_false_iff.mpr fun ho => ?_
    cases hown.symm.trans ((h.clients.own u).mpr (.inl ho))
  obtain ⟨p, hp⟩ : ∃ p : Pc T, p = .unlock false .upgrade := ⟨_, rfl⟩
  have hpv : p.pends = some .upgrade ∧ p.shares = true ∧ p.owns = false ∧ p.sorts = false
      ∧ p.fair = none ∧ p.leaves = false ∧ p.unfair = false ∧ p.links = false ∧ p ≠ .aborted := by
    rw [hp]
    exact ⟨rfl, rfl, rfl, rfl, rfl, rfl, rfl, rfl, nofun⟩
  obtain ⟨p1, p2, p3, p4, p5, p6, p7, p8, p9⟩ := hpv
  have t4 : (s.pc t).sorts = false := by rw [ht]; rfl
  rw [← hp]
  refine ⟨?_, ?_, fun u => ?_⟩
  · refine h.clients.append hpn p1 ?_ ?_ ?_ ?_ ⟨p5, p6, p7, p8, p9⟩ nofun rfl rfl rfl rfl
      (fun c => ?_) rfl fun c hc => Function.update_of_ne (fun hcw : c = w => hc (hcw ▸ hwp)) _ _
    · rw [p2, hshares]
    · rw [p3, hno t]
    · rw [p4, t4]
    · rw [ht]; rfl
    · by_cases hct : c = t
      · rw [if_pos hct, hct]
        exact htag
      · rw [if_neg hct]
        rfl
  · obtain ⟨h1, h2, h3, h4, h5, h6, h7, h8, h9, h10, h11, h12, h13⟩ := h.queue
    constructor
    case readers => exact h1
    case small => exact h2
    case wlocked => exact h3
    case chain => exact hchain
    case free =>
      intro hh
      rw [show g.hold = [] from hh] at hmem
      cases hmem
    case cutter => exact fun hne => absurd hcut hne
    case sorting => exact fun hne => exists_update_of_not (h7 hne) t4
    case upgradeLast =>
      intro c hc htc
      rcases List.mem_append.mp hc with hc | hc
      · exact absurd htc (hup c hc)
      · rw [List.mem_singleton.mp hc]
        exact ⟨List.getLast?_concat, hcut⟩
    case upgradeCut =>
      intro c hc
      have hc : c ∈ g.lists.cut := hc
      rw [hcut] at hc
      cases hc
    case upgradeSort => exact h10
    case upgradeOwn =>
      intro c _ _ v hv
      cases hown.symm.trans hv
    case unfairQueue =>
      intro hu _ c hc
      rcases List.mem_append.mp hc with hc | hc
      · exact h12 hu hown c hc
      · show s.tag c ≠ .shared
        rw [List.mem_singleton.mp hc, htag]
        nofun
    case unfairLast =>
      intro _ v hf
      have hno' : (Function.update s.pc t p v).fair = none := by
        by_cases hvt : v = t
        · rw [hvt, Function.update_self, p5]
        · rw [Function.update_of_ne hvt]
          exact hnofair v
      exact absurd hno' hf
  · show Work (Function.update s.next w (some t)) s.tag _ u (Function.update s.pc t p u)
    by_cases hu : u = t
    · rw [hu, Function.update_self, hp]
      trivial
    · rw [Function.update_of_ne hu]
      cases hs : (s.pc u).sorts with
      | true => exact (h.work u).append hs h.clients.nodup hA hwtag htag
      | false =>
        have hwalks : (s.pc u).walks = false := by
          have hf := hnofair u
          have ho := hno u
          cases hpu : s.pc u <;> rw [hpu] at hs hf ho <;>
            first
              | rfl
              | (cases hs; done)
              | (cases hf; done)
              | cases ho
        refine (h.work u).grow hwalks (fun c hc => List.mem_append_left _ hc) rfl (fun c hc => ?_)
          (fun _ _ => rfl) ⟨fun hl => ?_, rfl⟩
        · refine Function.update_of_ne ?_ _ _
          rintro rfl
          have h1 := (h.clients.wake u c hc).2.1
          rw [hwpends.2] at h1
          cases h1
        · refine Function.update_of_ne ?_ _ _
          rintro rfl
          rw [Pc.not_links hwpends.1] at hl
          cases hl

/-- **Somebody was faster**: another reader for an upgrade, or the walk starts again. -/
theorem Inv.upgradeRetry {s : State T} {g : Ghost T} {t w n : T} (h : Inv s g)
    (ht : s.pc t = .upgradeSwap w) (hn : s.next w = some n) : Inv (upgradeSwap s t w) g := by
  have hw := h.work t
  rw [ht] at hw
  obtain ⟨htag, hmem, -⟩ := hw
  simp only [RwLock.upgradeSwap, hn]
  split
  · exact h.upgradeMove (.inr ⟨w, ht⟩) rfl rfl rfl rfl ⟨rfl, rfl, nofun⟩ rfl trivial
  · exact h.upgradeMove (.inr ⟨w, ht⟩) rfl rfl rfl rfl ⟨rfl, rfl, nofun⟩ rfl ⟨htag, List.ne_nil_of_mem hmem⟩

end RwLock
