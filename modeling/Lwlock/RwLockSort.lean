import Lwlock.RwLockHand

/-!
# Unlocking an unfair read-write lock

A writer that finds a reader waiting longest takes the queue and keeps the lock open
with a share of its own. The queue goes from one list into two, the readers and the
writers of it, while other writers push themselves on the word and one waiter for an
upgrade may come to the end of what they build up there. The writers are linked in
front of that waiter, or behind the last one; when they are linked in behind another
waiter they are in the queue before the swap that lets the readers in.
-/

namespace RwLock

variable {T : Type} [DecidableEq T]

/-! ## Before the queue is taken -/

/-- **A step that writes nothing**, outside of the fair hand-over. -/
theorem Inv.step {s : State T} {g : Ghost T} {t : T} {p : Pc T} (h : Inv s g)
    (hpends : p.pends = (s.pc t).pends) (hshares : p.shares = (s.pc t).shares)
    (howns : p.owns = (s.pc t).owns) (hsorts : p.sorts = (s.pc t).sorts)
    (ht : (s.pc t).wakes = false ∧ (s.pc t).links = false ∧ (s.pc t).cuts = false
      ∧ (s.pc t).fair = none)
    (hp : p.fair = none ∧ p.leaves = false ∧ p ≠ .aborted)
    (hunfair : p.unfair = true → s.word.unfair = true) (hw : Work s.next s.tag g.lists t p) :
    Inv (s.goto t p) g := by
  obtain ⟨t1, t2, t3, t4⟩ := ht
  obtain ⟨p1, p2, p3⟩ := hp
  refine h.move ⟨hpends, hshares, howns, .inr (h.clients.wakes t t1), .inr t2, hsorts,
    fun hx => ?_, fun hx => ?_, fun hx => ?_, fun hx => ?_, hunfair, fun hx => absurd p1 hx, p3⟩ hw
  · rw [t3] at hx
    cases hx
  · rw [t4] at hx
    cases hx
  · rw [p1] at hx
    cases hx
  · rw [p2] at hx
    cases hx

/-- The oldest waiter is searched. -/
theorem Inv.unfairStart {s : State T} {g : Ghost T} {t : T} {k : After} (h : Inv s g)
    (ht : s.pc t = .unfairStart k) : Inv (unfairStart s t k) g := by
  have hw := h.work t
  rw [ht] at hw
  have hne : g.lists.queue ≠ [] := hw
  have hunf : s.word.unfair = true := h.clients.unfair t (by rw [ht]; rfl)
  simp only [RwLock.unfairStart]
  cases hwq : s.word.waitq with
  | none => exact absurd ((h.queue.chain.eq_nil_iff).mpr hwq) hne
  | some w =>
    refine h.step ?_ ?_ ?_ ?_ ?_ ⟨rfl, rfl, nofun⟩ (fun _ => hunf) ?_
    · rw [ht]; rfl
    · rw [ht]; rfl
    · rw [ht]; rfl
    · rw [ht]; rfl
    · rw [ht]; exact ⟨rfl, rfl, rfl, rfl⟩
    · show w ∈ g.lists.queue
      have hch := h.queue.chain.head_eq
      rw [hwq] at hch
      exact List.mem_of_mem_head? hch.symm

/-- A step to the oldest waiter. -/
theorem Inv.unfairScan {s : State T} {g : Ghost T} {t w : T} {k : After} (h : Inv s g)
    (ht : s.pc t = .unfairScan k w) : Inv (unfairScan s t k w) g := by
  have hw := h.work t
  rw [ht] at hw
  have hmem : w ∈ g.lists.queue := hw
  have hunf : s.word.unfair = true := h.clients.unfair t (by rw [ht]; rfl)
  have hcut : g.lists.cut = [] := h.cut_nil (.inr (by rw [ht]; rfl)) (by rw [ht]; rfl)
  simp only [RwLock.unfairScan]
  cases hn : s.next w with
  | some n =>
    refine h.step ?_ ?_ ?_ ?_ ?_ ⟨rfl, rfl, nofun⟩ (fun _ => hunf) (h.queue.chain.next_mem hmem hn)
    · rw [ht]; rfl
    · rw [ht]; rfl
    · rw [ht]; rfl
    · rw [ht]; rfl
    · rw [ht]; exact ⟨rfl, rfl, rfl, rfl⟩
  | none =>
    obtain ⟨A, hA⟩ := h.queue.chain.eq_last hmem hn
    dsimp only
    split
    · next htag =>
      refine h.move ⟨?_, ?_, ?_, .inr (h.clients.wakes t (by rw [ht]; rfl)), .inr (by rw [ht]; rfl),
        ?_, fun hx => ?_, fun _ => rfl, nofun, nofun, nofun, fun _ _ a ha => ?_, nofun⟩ ?_
      · rw [ht]; rfl
      · rw [ht]; rfl
      · rw [ht]; rfl
      · rw [ht]; rfl
      · rw [ht] at hx
        cases hx
      · rw [hcut, List.append_nil, hA, List.getLast?_concat] at ha
        rwa [← Option.some.inj ha]
      · exact List.ne_nil_of_mem hmem
    · next htag =>
      refine h.step ?_ ?_ ?_ ?_ ?_ ⟨rfl, rfl, nofun⟩ (fun _ => hunf) ⟨A, w, hA, not_not.mp htag⟩
      · rw [ht]; rfl
      · rw [ht]; rfl
      · rw [ht]; rfl
      · rw [ht]; rfl
      · rw [ht]; exact ⟨rfl, rfl, rfl, rfl⟩

/-! ## The queue is taken -/

/-- **The writer turns into a reader** and takes the queue. -/
theorem Inv.downgradeList {s : State T} {g : Ghost T} {t : T} {k : After} (h : Inv s g)
    (ht : s.pc t = .downgradeList k) : g.own = some t ∧ Inv (downgradeList s t k)
      ⟨{ g.lists with queue := [], rest := g.lists.queue }, [t], none⟩ := by
  have hw := h.work t
  rw [ht] at hw
  obtain ⟨A, a, hq, htag⟩ := hw
  have howns : (s.pc t).owns = true := by rw [ht]; rfl
  have hown : g.own = some t := (h.clients.own t).mpr (.inl howns)
  have hhold : g.hold = [] := h.clients.alone t hown
  have hcut : g.lists.cut = [] := h.cut_nil (.inr howns) (by rw [ht]; rfl)
  have hunf : s.word.unfair = true := h.clients.unfair t (by rw [ht]; rfl)
  have hapart : ∀ u, u ≠ t → (s.pc u).shares = false ∧ (s.pc u).owns = false :=
    fun u hu => h.clients.apart (.inl howns) hu
  have hbusy := h.clients.busy t (.inr howns)
  have hnosort : ∀ u, (s.pc u).sorts = false := by
    intro u
    refine Bool.eq_false_iff.mpr fun hs => ?_
    by_cases hut : u = t
    · rw [hut, ht] at hs
      cases hs
    · have hshares : (s.pc u).shares = true := by
        cases hp : s.pc u <;> rw [hp] at hs <;> first | rfl | cases hs
      rw [(hapart u hut).1] at hshares
      cases hshares
  have hsort : g.lists.rest = [] ∧ g.lists.rds = [] ∧ g.lists.wrs = [] := by
    have hno : ¬ (g.lists.rest ≠ [] ∨ g.lists.rds ≠ [] ∨ g.lists.wrs ≠ []) := by
      intro hne
      obtain ⟨u, hu⟩ := h.queue.sorting hne
      rw [hnosort u] at hu
      cases hu
    simpa only [not_or, not_not] using hno
  obtain ⟨hrest, hrds, hwrs⟩ := hsort
  -- with a reader at the end there is no waiter for an upgrade
  have hup : ∀ c ∈ g.lists.queue, s.tag c ≠ .upgrade := by
    intro c hc htc
    have hl := (h.queue.upgradeLast c hc htc).1
    rw [hq, List.getLast?_concat] at hl
    rw [← Option.some.inj hl, htag] at htc
    cases htc
  have hpend : Lists.pending { g.lists with queue := [], rest := g.lists.queue }
      = g.lists.pending := by
    simp [Lists.pending, hcut, hrest, hrds, hwrs]
  obtain ⟨p, hp⟩ : ∃ p : Pc T, p = .separate k ⟨none, 0, none, none⟩ s.word.waitq := ⟨_, rfl⟩
  have htv : (s.pc t).pends = k.tag ∧ (s.pc t).shares = false ∧ (s.pc t).wakes = false
      ∧ (s.pc t).fair = none ∧ (s.pc t).links = false := by
    rw [ht]
    exact ⟨rfl, rfl, rfl, rfl, rfl⟩
  have hpv : p.pends = k.tag ∧ p.shares = true ∧ p.owns = false ∧ p.sorts = true ∧ p.fair = none
      ∧ p.leaves = false ∧ p.links = false ∧ p ≠ .aborted := by
    rw [hp]
    exact ⟨rfl, rfl, rfl, rfl, rfl, rfl, rfl, (by simp)⟩
  obtain ⟨t1, t2, t3, t4, t5⟩ := htv
  obtain ⟨p1, p2, p3, p4, p5, p6, p7, p8⟩ := hpv
  have hpends' : ∀ c, (Function.update s.pc t p c).pends = (s.pc c).pends := by
    grind -linarith [Function.update_apply]
  refine ⟨hown, ?_⟩
  rw [RwLock.downgradeList, ← hp]
  obtain ⟨hc, hqu, hwork⟩ := h
  refine ⟨?_, ?_, fun u => ?_⟩
  · clear ht hp
    obtain ⟨h1, h2, h3, h4, h5, h6, h7, h8, h9, h10, h11, h12, h13, h14, h15, h16, h17, h18, h19,
      h20, h21, h22⟩ := hc
    constructor
    case holdNodup => exact List.nodup_singleton t
    all_goals try simp only [State.goto, hpends', hpend]
    all_goals first
      | assumption
      | grind -linarith [Function.update_apply]
  · clear ht
    obtain ⟨h1, h2, h3, h4, h5, h6, h7, h8, h9, h10, h11, h12, h13⟩ := hqu
    constructor
    case small =>
      show 1 < readersSize
      rw [readersSize_eq]
      exact Nat.one_lt_two_pow (by decide)
    case chain => exact rfl
    case sorting =>
      intro _
      refine ⟨t, ?_⟩
      show (Function.update s.pc t p t).sorts = true
      rw [Function.update_self, p4]
    case cutter => exact fun hne => absurd hcut hne
    clear hp
    all_goals try simp only [State.goto]
    all_goals first
      | assumption
      | grind -linarith [Function.update_apply]
  · show Work s.next s.tag _ u (Function.update s.pc t p u)
    by_cases hu : u = t
    · rw [hu, Function.update_self, hp]
      refine ⟨⟨⟨?_, ?_, ?_, ?_, ?_, ?_⟩, .inr ⟨a, ?_, htag⟩, fun _ => rfl⟩, hqu.chain⟩
      · rw [hrds]; rfl
      · rw [hrds]; rfl
      · rw [hrds]; simp
      · rw [hwrs]; rfl
      · rw [hwrs]; simp
      · rw [hwrs]; exact fun hne => absurd rfl hne
      · rw [hq]; simp
    · rw [Function.update_of_ne hu]
      exact (hwork u).apart (hapart u hu).1 (hapart u hu).2 rfl (fun _ _ => rfl) ⟨fun _ => rfl, rfl⟩

/-! ## The queue is sorted -/

omit [DecidableEq T] in
/-- What it means to sort the queue. -/
theorem Pc.sorts_views {p : Pc T} (h : p.sorts = true) : p.shares = true ∧ p.owns = false
    ∧ p.wakes = false ∧ p.cuts = false ∧ p.fair = none ∧ p.leaves = false ∧ p.unfair = true
    ∧ p.links = false ∧ p ≠ .aborted := by
  cases p <;> cases h <;> simp [Pc.shares, Pc.owns, Pc.wakes, Pc.cuts, Pc.fair, Pc.leaves,
    Pc.unfair, Pc.links, Pc.sorts]

omit [DecidableEq T] in
/-- **Whoever sorts the queue has a share**, so nobody has the lock for himself or has cut
waiters off. -/
theorem Inv.sorter {s : State T} {g : Ghost T} {t : T} (h : Inv s g) (ht : (s.pc t).sorts = true) :
    t ∈ g.hold ∧ g.own = none ∧ g.lists.cut = [] ∧ s.word.unfair = true := by
  obtain ⟨t1, t2, t3, t4, t5, t6, t7, t8, t9⟩ := Pc.sorts_views ht
  have hmem : t ∈ g.hold := (h.clients.hold t).mpr (.inl t1)
  refine ⟨hmem, ?_, h.cut_nil (.inl t1) t4, h.clients.unfair t t7⟩
  cases ho : g.own with
  | none => rfl
  | some c =>
    rw [h.clients.alone c ho] at hmem
    cases hmem

omit [DecidableEq T] in
theorem Pc.not_links {p : Pc T} (h : p.pends ≠ none) : p.links = false := by
  cases p <;> first | rfl | exact absurd rfl h

/-- **A step of the one that sorts**: it arranges the lists anew and writes to waiters that
were not served, and only writers come back to the queue. -/
theorem Inv.sort {s : State T} {g : Ghost T} {t : T} {p : Pc T} {l : Lists T}
    {next' : T → Option T} (h : Inv s g) (ht : (s.pc t).sorts = true) (hp : p.sorts = true)
    (hpends : p.pends = (s.pc t).pends) (hperm : l.pending.Perm g.lists.pending)
    (hwake : l.wake = g.lists.wake) (hcut : l.cut = [])
    (hnext : ∀ c, c ∉ g.lists.pending → next' c = s.next c)
    (hchain : Chain next' s.word.waitq l.queue) (hsub : ∀ c ∈ g.lists.queue, c ∈ l.queue)
    (hback : ∀ c ∈ l.queue, c ∈ g.lists.queue ∨ s.tag c = .exclusive)
    (hlast : ∀ c ∈ l.queue, s.tag c = .upgrade → l.queue.getLast? = some c)
    (hsort : ∀ c, c ∈ l.rest ∨ c ∈ l.rds ∨ c ∈ l.wrs → s.tag c ≠ .upgrade)
    (hw : Work next' s.tag l t p) :
    Inv ({ s with next := next' }.goto t p) { g with lists := l } := by
  obtain ⟨t1, t2, t3, t4, t5, t6, t7, t8, t9⟩ := Pc.sorts_views ht
  obtain ⟨p1, p2, p3, p4, p5, p6, p7, p8, p9⟩ := Pc.sorts_views hp
  obtain ⟨hhold, hown, hcutg, hunf⟩ := h.sorter ht
  have hwk : ∀ u c, c ∈ g.lists.wake u → c ∉ g.lists.pending := by
    intro u c hc hcp
    have h1 := (h.clients.wake u c hc).2.1
    rw [((h.clients.pending c).mp hcp).2] at h1
    cases h1
  have hlinks : ∀ u, (s.pc u).links = true → u ∉ g.lists.pending := by
    intro u hl hup
    rw [Pc.not_links ((h.clients.pending u).mp hup).1] at hl
    cases hl
  refine ⟨?_, ?_, fun u => ?_⟩
  · refine h.clients.relist (p := p) ⟨hpends, p1.trans t1.symm, p2.trans t2.symm,
      .inr (h.clients.wakes t t3), .inr t8, hp.trans ht.symm, fun hx => ?_, fun hx => ?_,
      fun hx => ?_, fun hx => ?_, fun _ => hunf, fun hx => absurd p5 hx, p9⟩ rfl rfl rfl rfl rfl rfl
      hperm hwake fun c hc hn => (hnext c hc).trans hn
    · rw [t4] at hx
      cases hx
    · rw [t5] at hx
      cases hx
    · rw [p5] at hx
      cases hx
    · rw [p6] at hx
      cases hx
  · obtain ⟨h1, h2, h3, h4, h5, h6, h7, h8, h9, h10, h11, h12, h13⟩ := h.queue
    constructor
    case readers => exact h1
    case small => exact h2
    case wlocked => exact h3
    case chain => exact hchain
    case free =>
      intro hh
      rw [show g.hold = [] from hh] at hhold
      cases hhold
    case cutter => exact fun hne => absurd hcut hne
    case sorting => exact fun _ => ⟨t, by
      show (Function.update s.pc t p t).sorts = true
      rw [Function.update_self, hp]⟩
    case upgradeLast => exact fun c hc htc => ⟨hlast c hc htc, hcut⟩
    case upgradeCut =>
      intro c hc
      rw [show c ∈ l.cut ↔ c ∈ ([] : List T) by rw [hcut]] at hc
      cases hc
    case upgradeSort => exact hsort
    case upgradeOwn =>
      intro c _ _ u hu
      cases hown.symm.trans hu
    case unfairQueue =>
      intro _ _ c hc
      rcases hback c hc with hcq | hce
      · exact h12 hunf hown c hcq
      · show s.tag c ≠ .shared
        rw [hce]
        nofun
    case unfairLast =>
      intro _ u hf
      have hno : (Function.update s.pc t p u).fair = none := by
        by_cases hut : u = t
        · rw [hut, Function.update_self, p5]
        · rw [Function.update_of_ne hut]
          cases hfu : (s.pc u).fair with
          | none => rfl
          | some e =>
            have hap := h.clients.apart (h.clients.fair_apart hfu) (Ne.symm hut)
            rw [hap.1] at t1
            cases t1
      exact absurd hno hf
  · show Work next' s.tag l u (Function.update s.pc t p u)
    by_cases hu : u = t
    · rw [hu, Function.update_self]
      exact hw
    · rw [Function.update_of_ne hu]
      exact (h.work u).grow (h.clients.not_walks ht hu) hsub (congrFun hwake u)
        (fun c hc => hnext c (hwk u c hc)) (fun _ _ => rfl) ⟨fun hl => hnext u (hlinks u hl), rfl⟩

omit [DecidableEq T] in
/-- **The lists have no waiter in common.** -/
theorem Lists.disjoint {l : Lists T} (h : l.pending.Nodup) :
    (∀ c ∈ l.rest, c ∉ l.queue ∧ c ∉ l.rds ∧ c ∉ l.wrs)
      ∧ (∀ c ∈ l.wrs, c ∉ l.queue ∧ c ∉ l.rds) ∧ (∀ c ∈ l.rds, c ∉ l.queue)
      ∧ l.rest.Nodup ∧ l.wrs.Nodup := by
  simp only [Lists.pending, List.nodup_append, List.mem_append] at h
  obtain ⟨⟨⟨-, hr, h1⟩, -, h2⟩, hw, h3⟩ := h
  refine ⟨fun c hc => ⟨fun hq => ?_, fun hq => ?_, fun hq => ?_⟩, fun c hc => ⟨fun hq => ?_,
    fun hq => ?_⟩, fun c hc hq => ?_, hr, hw⟩
  · exact h1 c (.inl hq) c hc rfl
  · exact h2 c (.inr hc) c hq rfl
  · exact h3 c (.inl (.inr hc)) c hq rfl
  · exact h3 c (.inl (.inl (.inl hq))) c hc rfl
  · exact h3 c (.inr hq) c hc rfl
  · exact h2 c (.inl (.inl hq)) c hc rfl

/-- A write to a waiter that was not sorted yet, or is in the queue. -/
theorem Unfair.Sorted.update {next : T → Option T} {tag : T → Tag} {l : Lists T} {u : Unfair T}
    {e : Option T} (h : u.Sorted next tag l e) {a : T} (hr : a ∉ l.rds) (hw : a ∉ l.wrs)
    (v : Option T) : u.Sorted (Function.update next a v) tag l e :=
  ⟨h.readers.update hr v, h.count, h.shared, h.writers.update hw v, h.exclusive, h.oldest⟩

/-- **A step of the one that sorts** that writes nothing. -/
theorem Inv.sortMove {s : State T} {g : Ghost T} {t : T} {p : Pc T} (h : Inv s g)
    (ht : (s.pc t).sorts = true) (hp : p.sorts = true) (hpends : p.pends = (s.pc t).pends)
    (hw : Work s.next s.tag g.lists t p) : Inv (s.goto t p) g :=
  h.sort ht hp hpends (List.Perm.refl _) rfl (h.sorter ht).2.2.1 (fun _ _ => rfl) h.queue.chain
    (fun _ hc => hc) (fun _ hc => .inl hc) (fun c hc htc => (h.queue.upgradeLast c hc htc).1)
    h.queue.upgradeSort hw

/-- **The loop that sorts**, at a waiter. -/
theorem Inv.separate {s : State T} {g : Ghost T} {t w : T} {k : After} {u : Unfair T}
    (h : Inv s g) (ht : s.pc t = .separate k u (some w)) :
    Inv (separate s t k u (some w)) g := by
  have hw := h.work t
  rw [ht] at hw
  obtain ⟨hs, hch⟩ := hw
  obtain ⟨L, hL⟩ : ∃ L, g.lists.rest = w :: L := by
    cases hr : g.lists.rest with
    | nil =>
      rw [hr] at hch
      cases hch
    | cons a L =>
      rw [hr] at hch
      exact ⟨L, by rw [Option.some.inj hch.1]⟩
  rw [hL] at hch
  exact h.sortMove (by rw [ht]; rfl) rfl (by rw [ht]; rfl) ⟨hs, L, hL, hch.2⟩

/-- **A waiter is taken**; the first writer is sorted with that. -/
theorem Inv.separateClear {s : State T} {g : Ghost T} {t w : T} {k : After} {u : Unfair T}
    {list : Option T} (h : Inv s g) (ht : s.pc t = .separateClear k u w list) :
    ∃ L, g.lists.rest = w :: L ∧ (Inv (separateClear s t k u w list) g
      ∨ (s.tag w = .exclusive ∧ Inv (separateClear s t k u w list)
        { g with lists := { g.lists with rest := L, wrs := g.lists.wrs ++ [w] } })) := by
  have hw := h.work t
  rw [ht] at hw
  obtain ⟨hs, L, hL, hch⟩ := hw
  have hsorts : (s.pc t).sorts = true := by rw [ht]; rfl
  obtain ⟨hdr, hdw, hdd, hrn, hwn⟩ := Lists.disjoint h.clients.nodup
  have hwr : w ∈ g.lists.rest := hL ▸ List.mem_cons_self
  obtain ⟨hwq, hwrd, hww⟩ := hdr w hwr
  have hwL : w ∉ L := by
    rw [hL] at hrn
    exact (List.nodup_cons.mp hrn).1
  have hwp : w ∈ g.lists.pending := Lists.mem_pending.mpr (.inr (.inr (.inl hwr)))
  have hcut := (h.sorter hsorts).2.2.1
  have hnext : ∀ c, c ∉ g.lists.pending → Function.update s.next w none c = s.next c :=
    fun c hc => Function.update_of_ne (fun hcw : c = w => hc (hcw ▸ hwp)) _ _
  have hup : ∀ c ∈ g.lists.queue, s.tag c = .upgrade → g.lists.queue.getLast? = some c :=
    fun c hc htc => (h.queue.upgradeLast c hc htc).1
  have hsorting : u.Sorting (Function.update s.next w none) s.tag g.lists :=
    ⟨hs.sorted.update hwrd hww none, hs.some, hs.none⟩
  refine ⟨L, hL, ?_⟩
  rw [RwLock.separateClear]
  split
  · next htag =>
    exact .inl (h.sort hsorts rfl (by rw [ht]; rfl) (List.Perm.refl _) rfl hcut hnext
      (h.queue.chain.update hwq none) (fun _ hc => hc) (fun _ hc => .inl hc) hup
      h.queue.upgradeSort ⟨hsorting, htag, L, hL, hch.update hwL none⟩)
  · next htag =>
    have hexcl : s.tag w = .exclusive := by
      have hnu := h.queue.upgradeSort w (.inl hwr)
      cases hx : s.tag w with
      | shared => exact absurd hx htag
      | exclusive => rfl
      | upgrade => exact absurd hx hnu
    split
    · next hold =>
      have hwrs : g.lists.wrs = [] := by
        by_contra hne
        have hl := hs.sorted.oldest hne
        rw [hold] at hl
        exact hne (List.getLast?_eq_none_iff.mp hl.symm)
      refine .inr ⟨hexcl, h.sort hsorts rfl (by rw [ht]; rfl) ?_ rfl hcut hnext
        (h.queue.chain.update hwq none) (fun _ hc => hc) (fun _ hc => .inl hc) hup (fun c hc => ?_)
        ⟨⟨⟨hsorting.sorted.readers, hs.sorted.count, hs.sorted.shared, ?_, ?_, ?_⟩, ?_, ?_⟩, ?_⟩⟩
      · show (g.lists.queue ++ g.lists.cut ++ L ++ g.lists.rds ++ (g.lists.wrs ++ [w])).Perm _
        rw [Lists.pending, hL, hwrs]
        simp only [List.append_assoc, List.nil_append, List.append_nil, List.cons_append]
        refine (List.Perm.refl _).append ((List.Perm.refl _).append ?_)
        rw [← List.append_assoc]
        exact List.perm_append_singleton w (L ++ g.lists.rds)
      · rcases hc with hc | hc | hc
        · exact h.queue.upgradeSort c (.inl (hL ▸ List.mem_cons_of_mem w hc))
        · exact h.queue.upgradeSort c (.inr (.inl hc))
        · have hc : c ∈ g.lists.wrs ++ [w] := hc
          rw [hwrs] at hc
          rw [List.mem_singleton.mp hc, hexcl]
          simp
      · show Segment _ (some w) (g.lists.wrs ++ [w]) none
        rw [hwrs]
        exact ⟨rfl, Function.update_self _ _ _⟩
      · show ∀ c ∈ g.lists.wrs ++ [w], s.tag c = .exclusive
        rw [hwrs]
        intro c hc
        rw [List.mem_singleton.mp hc, hexcl]
      · intro _
        show some w = (g.lists.wrs ++ [w]).getLast?
        rw [List.getLast?_concat]
      · refine hs.some.imp_right ?_
        rintro ⟨c, hc, htc⟩
        rw [hL] at hc
        rcases List.mem_cons.mp hc with rfl | hc
        · exact absurd htc htag
        · exact ⟨c, hc, htc⟩
      · exact fun hne => absurd hne (by simp)
      · exact hch.update hwL none
    · next hold =>
      exact .inl (h.sort hsorts rfl (by rw [ht]; rfl) (List.Perm.refl _) rfl hcut hnext
        (h.queue.chain.update hwq none) (fun _ hc => hc) (fun _ hc => .inl hc) hup
        h.queue.upgradeSort ⟨hsorting, htag, fun hwrs => hold (hs.none hwrs),
        Function.update_self _ _ _, L, hL, hch.update hwL none⟩)

/-- **A reader** comes to the others. -/
theorem Inv.separateReader {s : State T} {g : Ghost T} {t w : T} {k : After} {u : Unfair T}
    {list : Option T} (h : Inv s g) (ht : s.pc t = .separateReader k u w list) :
    ∃ L, g.lists.rest = w :: L ∧ s.tag w = .shared ∧ Inv (separateReader s t k u w list)
      { g with lists := { g.lists with rest := L, rds := w :: g.lists.rds } } := by
  have hw := h.work t
  rw [ht] at hw
  obtain ⟨hs, htag, L, hL, hch⟩ := hw
  have hsorts : (s.pc t).sorts = true := by rw [ht]; rfl
  obtain ⟨hdr, hdw, hdd, hrn, hwn⟩ := Lists.disjoint h.clients.nodup
  have hwr : w ∈ g.lists.rest := hL ▸ List.mem_cons_self
  obtain ⟨hwq, hwrd, hww⟩ := hdr w hwr
  have hwL : w ∉ L := by
    rw [hL] at hrn
    exact (List.nodup_cons.mp hrn).1
  have hwp : w ∈ g.lists.pending := Lists.mem_pending.mpr (.inr (.inr (.inl hwr)))
  have hsorted := hs.sorted.update hwrd hww u.readers
  refine ⟨L, hL, htag, h.sort hsorts rfl (by rw [ht]; rfl) ?_ rfl (h.sorter hsorts).2.2.1
    (fun c hc => Function.update_of_ne (fun hcw : c = w => hc (hcw ▸ hwp)) _ _)
    (h.queue.chain.update hwq _) (fun _ hc => hc) (fun _ hc => .inl hc)
    (fun c hc htc => (h.queue.upgradeLast c hc htc).1) (fun c hc => ?_)
    ⟨⟨⟨hsorted.readers.push (Function.update_self _ _ _), ?_, ?_, hsorted.writers,
      hs.sorted.exclusive, hs.sorted.oldest⟩, .inl (List.cons_ne_nil _ _), hs.none⟩,
      hch.update hwL _⟩⟩
  · show (g.lists.queue ++ g.lists.cut ++ L ++ w :: g.lists.rds ++ g.lists.wrs).Perm _
    rw [Lists.pending, hL]
    simp only [List.append_assoc, List.cons_append]
    exact (List.Perm.refl _).append ((List.Perm.refl _).append List.perm_middle)
  · rcases hc with hc | hc | hc
    · exact h.queue.upgradeSort c (.inl (hL ▸ List.mem_cons_of_mem w hc))
    · rcases List.mem_cons.mp hc with rfl | hc
      · rw [htag]
        simp
      · exact h.queue.upgradeSort c (.inr (.inl hc))
    · exact h.queue.upgradeSort c (.inr (.inr hc))
  · show u.count + 1 = (w :: g.lists.rds).length
    rw [hs.sorted.count, List.length_cons]
  · intro c hc
    rcases List.mem_cons.mp hc with rfl | hc
    · exact htag
    · exact hs.sorted.shared c hc

/-- **A further writer** comes behind the oldest one. -/
theorem Inv.separateWriter {s : State T} {g : Ghost T} {t w : T} {k : After} {u : Unfair T}
    {list : Option T} (h : Inv s g) (ht : s.pc t = .separateWriter k u w list) :
    ∃ L, g.lists.rest = w :: L ∧ s.tag w = .exclusive ∧ Inv (separateWriter s t k u w list)
      { g with lists := { g.lists with rest := L, wrs := g.lists.wrs ++ [w] } } := by
  have hw := h.work t
  rw [ht] at hw
  obtain ⟨hs, htag, hne, hnone, L, hL, hch⟩ := hw
  have hsorts : (s.pc t).sorts = true := by rw [ht]; rfl
  obtain ⟨hdr, hdw, hdd, hrn, hwn⟩ := Lists.disjoint h.clients.nodup
  have hwr : w ∈ g.lists.rest := hL ▸ List.mem_cons_self
  obtain ⟨hwq, hwrd, hww⟩ := hdr w hwr
  have hexcl : s.tag w = .exclusive := by
    have hnu := h.queue.upgradeSort w (.inl hwr)
    cases hx : s.tag w with
    | shared => exact absurd hx htag
    | exclusive => rfl
    | upgrade => exact absurd hx hnu
  obtain ⟨o, ho⟩ := Option.ne_none_iff_exists'.mp (mt List.getLast?_eq_none_iff.mp hne)
  obtain ⟨M, hM⟩ := List.getLast?_eq_some_iff.mp ho
  have how : o ∈ g.lists.wrs := List.mem_of_getLast? ho
  obtain ⟨hoq, hord⟩ := hdw o how
  have hoL : o ∉ L := fun hmem => (hdr o (hL ▸ List.mem_cons_of_mem w hmem)).2.2 how
  have hop : o ∈ g.lists.pending := Lists.mem_pending.mpr (.inr (.inr (.inr (.inr how))))
  have hold : u.oldest = some o := (hs.sorted.oldest hne).trans ho
  refine ⟨L, hL, hexcl, ?_⟩
  simp only [RwLock.separateWriter, hold]
  refine h.sort hsorts rfl (by rw [ht]; rfl) ?_ rfl (h.sorter hsorts).2.2.1
    (fun c hc => Function.update_of_ne (fun hcw : c = o => hc (hcw ▸ hop)) _ _)
    (h.queue.chain.update hoq _) (fun _ hc => hc) (fun _ hc => .inl hc)
    (fun c hc htc => (h.queue.upgradeLast c hc htc).1) (fun c hc => ?_)
    ⟨⟨⟨hs.sorted.readers.update hord _, hs.sorted.count, hs.sorted.shared, ?_, ?_, ?_⟩, ?_, ?_⟩,
      hch.update hoL _⟩
  · show (g.lists.queue ++ g.lists.cut ++ L ++ g.lists.rds ++ (g.lists.wrs ++ [w])).Perm _
    rw [Lists.pending, hL]
    simp only [List.append_assoc, List.cons_append]
    refine (List.Perm.refl _).append ((List.Perm.refl _).append ?_)
    rw [← List.append_assoc, ← List.append_assoc, ← List.append_assoc]
    exact List.perm_append_singleton w (L ++ g.lists.rds ++ g.lists.wrs)
  · rcases hc with hc | hc | hc
    · exact h.queue.upgradeSort c (.inl (hL ▸ List.mem_cons_of_mem w hc))
    · exact h.queue.upgradeSort c (.inr (.inl hc))
    · rcases List.mem_append.mp hc with hc | hc
      · exact h.queue.upgradeSort c (.inr (.inr hc))
      · rw [List.mem_singleton.mp hc, hexcl]
        simp
  · show Segment _ u.writers (g.lists.wrs ++ [w]) none
    have hp := hs.sorted.writers
    rw [hM] at hp hww ⊢
    exact Chain.concat hp hww hnone
  · intro c hc
    rcases List.mem_append.mp hc with hc | hc
    · exact hs.sorted.exclusive c hc
    · rw [List.mem_singleton.mp hc, hexcl]
  · intro _
    show some w = (g.lists.wrs ++ [w]).getLast?
    rw [List.getLast?_concat]
  · refine hs.some.imp_right ?_
    rintro ⟨c, hc, htc⟩
    rw [hL] at hc
    rcases List.mem_cons.mp hc with rfl | hc
    · exact absurd htc htag
    · exact ⟨c, hc, htc⟩
  · exact fun hx => absurd hx (by simp)

/-! ## The writers are put back -/

/-- **What is known when a round begins**: the queue is sorted, and the writers arrive at
the end or at a waiter for an upgrade. -/
def Unfair.Ready (next : T → Option T) (tag : T → Tag) (l : Lists T) (u : Unfair T) : Prop :=
  l.rest = [] ∧ l.rds ≠ [] ∧ ((l.wrs = [] ∧ u.writers = none ∧ u.Sorted next tag l none)
    ∨ (l.wrs ≠ [] ∧ ∃ e, u.Sorted next tag l e ∧ Behind tag l e))

omit [DecidableEq T] in
/-- The queue is sorted. -/
theorem Unfair.Sorting.ready {next : T → Option T} {tag : T → Tag} {l : Lists T} {u : Unfair T}
    (h : u.Sorting next tag l) (hr : l.rest = []) : u.Ready next tag l := by
  refine ⟨hr, ?_, ?_⟩
  · refine h.some.resolve_right ?_
    rintro ⟨c, hc, -⟩
    rw [hr] at hc
    cases hc
  · by_cases hw : l.wrs = []
    · have hp := h.sorted.writers
      rw [hw] at hp
      exact .inl ⟨hw, hp, h.sorted⟩
    · exact .inr ⟨hw, Option.none, h.sorted, nofun⟩

/-- **A round begins.** -/
theorem Inv.unfairLoop {s : State T} {g : Ghost T} {t : T} {k : After} {u : Unfair T} (h : Inv s g)
    (hsorts : (s.pc t).sorts = true) (hpends : (s.pc t).pends = k.tag)
    (hu : u.Ready s.next s.tag g.lists) : Inv (unfairLoop s t k u) g := by
  obtain ⟨hrest, hrds, hcase⟩ := hu
  simp only [RwLock.unfairLoop]
  rcases hcase with ⟨hwrs, hnone, hs⟩ | ⟨hwrs, e, hs, he⟩
  · rw [if_pos hnone]
    exact h.sortMove hsorts rfl hpends.symm ⟨hrest, hrds, .inl ⟨hwrs, hnone, hs, rfl⟩⟩
  · have hsome : u.writers ≠ none := by
      intro hn
      have hp := hs.writers
      rw [hn] at hp
      cases hl : g.lists.wrs with
      | nil => exact hwrs hl
      | cons a L =>
        rw [hl] at hp
        cases hp.1
    rw [if_neg hsome]
    cases hwq : s.word.waitq with
    | none =>
      have hq : g.lists.queue = [] := (h.queue.chain.eq_nil_iff).mpr hwq
      have hnone : e = none := by
        cases hee : e with
        | none => rfl
        | some c =>
          have hl := (he c hee).1
          rw [hq] at hl
          cases hl
      rw [hnone] at hs
      refine h.sortMove hsorts rfl hpends.symm ⟨hrest, hrds, .inr ⟨hwrs, ?_, ?_, rfl⟩⟩
      · rw [hwq]
        exact hs
      · rw [hwq]
        nofun
    | some c =>
      have hmem : c ∈ g.lists.queue := by
        have hh := h.queue.chain.head_eq
        rw [hwq] at hh
        exact List.mem_of_mem_head? hh.symm
      exact h.sortMove hsorts rfl hpends.symm ⟨⟨hrest, hrds, hwrs, ⟨e, hs, he⟩, c, hmem, hwq⟩, hmem, fun _ => hwq⟩

/-- **A step of the walk to the old end.** -/
theorem Inv.reinsert {s : State T} {g : Ghost T} {t c : T} {k : After} {u : Unfair T}
    {old : Word T} (h : Inv s g) (ht : s.pc t = .reinsert k u old c) :
    Inv (reinsert s t k u old c) g := by
  have hw := h.work t
  rw [ht] at hw
  obtain ⟨hb, hc, hhead⟩ := hw
  have hsorts : (s.pc t).sorts = true := by rw [ht]; rfl
  have hpends : (s.pc t).pends = k.tag := by rw [ht]; rfl
  simp only [RwLock.reinsert]
  cases hn : s.next c with
  | some n =>
    have hnq : n ∈ g.lists.queue := h.queue.chain.next_mem hc hn
    dsimp only
    split
    · next htag =>
      refine h.sortMove hsorts rfl hpends.symm ⟨hb, ?_⟩
      obtain ⟨A, hA⟩ := List.getLast?_eq_some_iff.mp (h.queue.upgradeLast n hnq htag).1
      -- the waiter before the last one is the one that leads to it
      obtain ⟨X, Y, hX⟩ := List.append_of_mem hc
      have hch := h.queue.chain
      rw [hX] at hch
      obtain ⟨r, -, -, hY⟩ := chain_append.mp hch
      rw [hn] at hY
      have hnd := h.queue.chain.nodup
      cases Y with
      | nil => cases hY
      | cons y Y =>
        obtain rfl : n = y := Option.some.inj hY.1
        have hYnil : Y = [] := by
          by_contra hne
          have hl : g.lists.queue.getLast? = Y.getLast? := by
            rw [hX, List.getLast?_append_of_ne_nil _ (List.cons_ne_nil _ _), List.getLast?_cons_cons,
              getLast?_cons_of_ne hne]
          rw [hA, List.getLast?_concat] at hl
          have hmem := List.mem_of_getLast? hl.symm
          rw [hX] at hnd
          have hnd := (List.nodup_cons.mp (List.nodup_append.mp hnd).2.1).2
          exact (List.nodup_cons.mp hnd).1 hmem
        exact ⟨X, by rw [hX, hYnil], htag⟩
    · next htag => exact h.sortMove hsorts rfl hpends.symm ⟨hb, hnq, fun htn => absurd htn htag⟩
  | none =>
    obtain ⟨A, hA⟩ := h.queue.chain.eq_last hc hn
    dsimp only
    split
    · next htag =>
      rw [if_pos (hhead htag)]
      exact h.sortMove hsorts rfl hpends.symm ⟨hb, hhead htag, htag, by rw [hA, List.getLast?_concat]⟩
    · next htag => exact h.sortMove hsorts rfl hpends.symm ⟨hb, htag, A, .inl hA⟩

/-- The waiter for an upgrade is the last one. -/
theorem Inv.reinsertVerify {s : State T} {g : Ghost T} {t c n : T} {k : After} {u : Unfair T}
    {old : Word T} (h : Inv s g) (ht : s.pc t = .reinsertVerify k u old c n) :
    Inv (reinsertVerify s t k u old c n) g := by
  have hw := h.work t
  rw [ht] at hw
  obtain ⟨hb, A, hA, htag⟩ := hw
  have hlast : s.next n = none := by
    have hch := h.queue.chain
    rw [hA, show A ++ [c, n] = A ++ [c] ++ [n] by simp] at hch
    exact hch.next_last
  rw [RwLock.reinsertVerify, if_pos hlast]
  exact h.sortMove (by rw [ht]; rfl) rfl (by rw [ht]; rfl) ⟨hb, A, hA, htag⟩

omit [DecidableEq T] in
/-- The oldest writer. -/
theorem Unfair.Sorted.last {next : T → Option T} {tag : T → Tag} {l : Lists T} {u : Unfair T}
    {e : Option T} (h : u.Sorted next tag l e) (hne : l.wrs ≠ []) :
    ∃ M o, l.wrs = M ++ [o] ∧ u.oldest = some o := by
  obtain ⟨o, ho⟩ := Option.ne_none_iff_exists'.mp (mt List.getLast?_eq_none_iff.mp hne)
  obtain ⟨M, hM⟩ := List.getLast?_eq_some_iff.mp ho
  exact ⟨M, o, hM, (h.oldest hne).trans ho⟩

/-- **The oldest writer is linked** to where the writers will be. -/
theorem Unfair.Sorted.redirect {next : T → Option T} {tag : T → Tag} {l : Lists T} {u : Unfair T}
    {e : Option T} {M : List T} {o : T} (h : u.Sorted next tag l e) (hnd : l.pending.Nodup)
    (hM : l.wrs = M ++ [o]) (v : Option T) : u.Sorted (Function.update next o v) tag l v := by
  obtain ⟨-, hdw, -, -, hwn⟩ := Lists.disjoint hnd
  have hor : o ∉ l.rds := (hdw o (by rw [hM]; simp)).2
  have hp := h.writers
  rw [hM] at hp hwn
  refine ⟨h.readers.update hor v, h.count, h.shared, ?_, h.exclusive, h.oldest⟩
  rw [hM]
  refine Segment.redirect hp (fun hmem => ?_) v
  exact (List.nodup_append.mp hwn).2.2 o hmem o (List.mem_singleton_self o) rfl

/-- **The oldest writer is linked** to the waiter for an upgrade. -/
theorem Inv.reinsertOldest {s : State T} {g : Ghost T} {t c n : T} {k : After} {u : Unfair T}
    {old : Word T} (h : Inv s g) (ht : s.pc t = .reinsertOldest k u old c n) :
    Inv (reinsertOldest s t k u old c n) g := by
  have hw := h.work t
  rw [ht] at hw
  obtain ⟨hb, A, hA, htag⟩ := hw
  have hsorts : (s.pc t).sorts = true := by rw [ht]; rfl
  obtain ⟨e, hs, -⟩ := hb.sorted
  obtain ⟨M, o, hM, ho⟩ := hs.last hb.wrs
  obtain ⟨-, hdw, -, -, -⟩ := Lists.disjoint h.clients.nodup
  have how : o ∈ g.lists.wrs := by rw [hM]; simp
  have hop : o ∈ g.lists.pending := Lists.mem_pending.mpr (.inr (.inr (.inr (.inr how))))
  have hs' := hs.redirect h.clients.nodup hM (some n)
  have hlast : g.lists.queue.getLast? = some n := by rw [hA]; simp
  have hbehind : Behind s.tag g.lists (some n) := by
    rintro d ⟨rfl⟩
    exact ⟨hlast, htag⟩
  simp only [RwLock.reinsertOldest, ho]
  exact h.sort hsorts rfl (by rw [ht]; rfl) (List.Perm.refl _) rfl (h.sorter hsorts).2.2.1
    (fun d hd => Function.update_of_ne (fun hdo : d = o => hd (hdo ▸ hop)) _ _)
    (h.queue.chain.update (hdw o how).1 _) (fun _ hc => hc) (fun _ hc => .inl hc)
    (fun c hc htc => (h.queue.upgradeLast c hc htc).1) h.queue.upgradeSort
    ⟨⟨hb.rest, hb.rds, hb.wrs, ⟨some n, hs', hbehind⟩, hb.head⟩, A, n, hA, htag, hs'⟩

/-- **The oldest writer is linked** to a waiter for an upgrade that is alone. -/
theorem Inv.reinsertHead {s : State T} {g : Ghost T} {t c : T} {k : After} {u : Unfair T}
    {old : Word T} (h : Inv s g) (ht : s.pc t = .reinsertHead k u old c) :
    Inv (reinsertHead s t k u old c) g := by
  have hw := h.work t
  rw [ht] at hw
  obtain ⟨hb, hold, htag, hlast⟩ := hw
  have hsorts : (s.pc t).sorts = true := by rw [ht]; rfl
  obtain ⟨e, hs, -⟩ := hb.sorted
  obtain ⟨M, o, hM, ho⟩ := hs.last hb.wrs
  obtain ⟨-, hdw, -, -, -⟩ := Lists.disjoint h.clients.nodup
  have how : o ∈ g.lists.wrs := by rw [hM]; simp
  have hop : o ∈ g.lists.pending := Lists.mem_pending.mpr (.inr (.inr (.inr (.inr how))))
  have hs' := hs.redirect h.clients.nodup hM (some c)
  have hbehind : Behind s.tag g.lists (some c) := by
    rintro d ⟨rfl⟩
    exact ⟨hlast, htag⟩
  have hsettle : u.settle { old.letIn u.count with waitq := u.writers } = u := by
    rw [Unfair.settle, if_neg (not_not.mpr rfl)]
  simp only [RwLock.reinsertHead, ho, hsettle]
  refine h.sort hsorts rfl (by rw [ht]; rfl) (List.Perm.refl _) rfl (h.sorter hsorts).2.2.1
    (fun d hd => Function.update_of_ne (fun hdo : d = o => hd (hdo ▸ hop)) _ _)
    (h.queue.chain.update (hdw o how).1 _) (fun _ hc => hc) (fun _ hc => .inl hc)
    (fun c hc htc => (h.queue.upgradeLast c hc htc).1) h.queue.upgradeSort
    ⟨hb.rest, hb.rds, .inr ⟨hb.wrs, ?_, ?_, rfl⟩⟩
  · rw [hold]
    exact hs'
  · rw [hold]
    exact hbehind

/-- **The writers are linked in** behind a waiter of the queue. -/
theorem Inv.splice {s : State T} {g : Ghost T} {t c : T} {k : After} {u : Unfair T} {old : Word T}
    {A B : List T} (h : Inv s g) (hsorts : (s.pc t).sorts = true) (hpends : (s.pc t).pends = k.tag)
    (hb : u.Back s.next s.tag g.lists old) (hq : g.lists.queue = A ++ [c] ++ B)
    (hs : u.Sorted s.next s.tag g.lists B.head?) (htag : B = [] → s.tag c ≠ .upgrade) :
    Inv ((s.setNext c u.writers).goto t
        (.unfairSwap k (u.settle (old.letIn u.count)) old (old.letIn u.count)))
      { g with lists := { g.lists with queue := A ++ [c] ++ g.lists.wrs ++ B, wrs := [] } } := by
  have hcq : c ∈ g.lists.queue := by rw [hq]; simp
  have hcp : c ∈ g.lists.pending := Lists.mem_pending.mpr (.inl hcq)
  obtain ⟨-, hdw, hdr, -, -⟩ := Lists.disjoint h.clients.nodup
  have hcr : c ∉ g.lists.rds := fun hmem => hdr c hmem hcq
  have hcw : c ∉ g.lists.wrs := fun hmem => (hdw c hmem).1 hcq
  have hnd := h.queue.chain.nodup
  have hch := h.queue.chain
  rw [hq] at hnd hch
  obtain ⟨hndA, -, hdAB⟩ := List.nodup_append.mp hnd
  have hcA : c ∉ A := fun hmem =>
    (List.nodup_append.mp hndA).2.2 c hmem c (List.mem_singleton_self c) rfl
  have hcB : c ∉ B := fun hmem => hdAB c (by simp) c hmem rfl
  -- the chain, through the writers
  have hchain : Chain (Function.update s.next c u.writers) s.word.waitq
      (A ++ [c] ++ g.lists.wrs ++ B) := by
    obtain ⟨r, hA, hB⟩ := chain_append.mp hch
    have hr : r = B.head? := hB.head_eq
    rw [List.append_assoc]
    refine segment_append.mpr ⟨u.writers, Segment.redirect hA hcA _, segment_append.mpr ⟨r, ?_, ?_⟩⟩
    · rw [hr]
      exact hs.writers.update hcw _
    · exact hB.update hcB _
  -- who is last does not change
  have hlast : (A ++ [c] ++ g.lists.wrs ++ B).getLast? = g.lists.queue.getLast?
      ∨ B = [] ∧ (A ++ [c] ++ g.lists.wrs ++ B).getLast? = g.lists.wrs.getLast? := by
    by_cases hB : B = []
    · rw [hB, List.append_nil, getLast?_append_of_ne hb.wrs]
      exact .inr ⟨rfl, rfl⟩
    · rw [hq, getLast?_append_of_ne hB, getLast?_append_of_ne hB]
      exact .inl rfl
  have hsettle : u.settle (old.letIn u.count) = { u with writers := none } := by
    obtain ⟨q, hqq, hold⟩ := hb.head
    rw [Unfair.settle, if_pos]
    intro heq
    have heq : some q = u.writers := hold.symm.trans heq
    have hw := hs.writers
    cases hl : g.lists.wrs with
    | nil => exact hb.wrs hl
    | cons a L =>
      rw [hl, ← heq] at hw
      obtain rfl : q = a := Option.some.inj hw.1
      exact (hdw q (by rw [hl]; exact List.mem_cons_self)).1 hqq
  rw [hsettle]
  refine h.sort hsorts rfl hpends.symm ?_ rfl (h.sorter hsorts).2.2.1
    (fun d hd => Function.update_of_ne (fun hdc : d = c => hd (hdc ▸ hcp)) _ _) hchain
    (fun d hd => ?_) (fun d hd => ?_) (fun d hd htd => ?_) (fun d hd => ?_)
    ⟨hb.rest, hb.rds, .inl ⟨rfl, rfl, ⟨hs.readers.update hcr _, hs.count, hs.shared, rfl, nofun,
      fun hne => absurd rfl hne⟩, rfl⟩⟩
  · show (A ++ [c] ++ g.lists.wrs ++ B ++ g.lists.cut ++ g.lists.rest ++ g.lists.rds ++ []).Perm _
    rw [Lists.pending, hq, List.append_nil]
    simp only [List.append_assoc]
    refine (List.Perm.refl A).append ((List.Perm.refl [c]).append ?_)
    refine List.perm_append_comm.trans ?_
    simp only [List.append_assoc]
    exact List.Perm.refl _
  · rw [hq] at hd
    show d ∈ A ++ [c] ++ g.lists.wrs ++ B
    rw [List.mem_append] at hd ⊢
    exact hd.imp_left (List.mem_append_left _)
  · have hd : d ∈ A ++ [c] ++ g.lists.wrs ++ B := hd
    rw [List.mem_append, List.mem_append] at hd
    rw [hq, List.mem_append]
    rcases hd with (hd | hd) | hd
    · exact .inl (.inl hd)
    · exact .inr (hs.exclusive d hd)
    · exact .inl (.inr hd)
  · show (A ++ [c] ++ g.lists.wrs ++ B).getLast? = some d
    have hdq : d ∈ g.lists.queue := by
      have hd : d ∈ A ++ [c] ++ g.lists.wrs ++ B := hd
      rw [List.mem_append, List.mem_append] at hd
      rw [hq, List.mem_append]
      rcases hd with (hd | hd) | hd
      · exact .inl hd
      · rw [hs.exclusive d hd] at htd
        cases htd
      · exact .inr hd
    have hl := (h.queue.upgradeLast d hdq htd).1
    rcases hlast with hlast | ⟨hB, -⟩
    · rw [hlast, hl]
    · rw [hq, hB, List.append_nil, List.getLast?_concat] at hl
      exact absurd (Option.some.inj hl ▸ htd) (htag hB)
  · rcases hd with hd | hd | hd
    · exact h.queue.upgradeSort d (.inl hd)
    · exact h.queue.upgradeSort d (.inr (.inl hd))
    · cases hd

/-- **In front of a waiter for an upgrade.** -/
theorem Inv.reinsertCurr {s : State T} {g : Ghost T} {t c : T} {k : After} {u : Unfair T}
    {old : Word T} (h : Inv s g) (ht : s.pc t = .reinsertCurr k u old c) :
    ∃ A B, g.lists.queue = A ++ B ∧ (∃ n, B = [n] ∧ s.tag n = .upgrade)
      ∧ Inv (reinsertCurr s t k u old c)
        { g with lists := { g.lists with queue := A ++ g.lists.wrs ++ B, wrs := [] } } := by
  have hw := h.work t
  rw [ht] at hw
  obtain ⟨hb, A, n, hA, htag, hs⟩ := hw
  have hq : g.lists.queue = A ++ [c] ++ [n] := by simp [hA]
  exact ⟨A ++ [c], [n], hq, ⟨n, rfl, htag⟩,
    h.splice (by rw [ht]; rfl) (by rw [ht]; rfl) hb hq hs nofun⟩

/-- **Behind the last waiter**, or a waiter for an upgrade was faster. -/
theorem Inv.reinsertLast {s : State T} {g : Ghost T} {t c : T} {k : After} {u : Unfair T}
    {old : Word T} (h : Inv s g) (ht : s.pc t = .reinsertLast k u old c) :
    Inv (reinsertLast s t k u old c) g
      ∨ ((∀ a ∈ g.lists.queue, s.tag a ≠ .upgrade) ∧ Inv (reinsertLast s t k u old c)
        { g with lists := { g.lists with queue := g.lists.queue ++ g.lists.wrs, wrs := [] } }) := by
  have hw := h.work t
  rw [ht] at hw
  obtain ⟨hb, htag, A, hA⟩ := hw
  have hsorts : (s.pc t).sorts = true := by rw [ht]; rfl
  have hpends : (s.pc t).pends = k.tag := by rw [ht]; rfl
  have hch := h.queue.chain
  rcases hA with hA | ⟨n, hA, htagn⟩
  · right
    rw [hA] at hch
    have hnone : s.next c = none := hch.next_last
    have hlast : g.lists.queue.getLast? = some c := by rw [hA, List.getLast?_concat]
    obtain ⟨e, hs, he⟩ := hb.sorted
    have hee : e = none := by
      cases hec : e with
      | none => rfl
      | some d =>
        obtain ⟨hl, htd⟩ := he d hec
        rw [← Option.some.inj (hlast.symm.trans hl)] at htd
        exact absurd htd htag
    rw [hee] at hs
    refine ⟨fun a ha hta => ?_, ?_⟩
    · have hl := (h.queue.upgradeLast a ha hta).1
      rw [← Option.some.inj (hlast.symm.trans hl)] at hta
      exact htag hta
    · have hspl := h.splice (A := A) (B := []) hsorts hpends hb (by rw [hA, List.append_nil]) hs
        fun _ => htag
      rw [List.append_nil, ← hA] at hspl
      simp only [RwLock.reinsertLast, hnone]
      exact hspl
  · left
    rw [hA, show A ++ [c, n] = A ++ ([c] ++ [n]) by simp] at hch
    obtain ⟨r, -, hcn⟩ := chain_append.mp hch
    have hnext : s.next c = some n := hcn.2.1
    simp only [RwLock.reinsertLast, hnext]
    exact h.sortMove hsorts rfl hpends.symm ⟨hb, A, hA, htagn⟩

/-! ## The readers are let in -/

/-- **The swap fails**, and the next round begins. -/
theorem Inv.unfairRetry {s : State T} {g : Ghost T} {t : T} {k : After} {u : Unfair T}
    {old new : Word T} (h : Inv s g) (ht : s.pc t = .unfairSwap k u old new) :
    Inv (RwLock.unfairLoop s t k u) g := by
  have hw := h.work t
  rw [ht] at hw
  obtain ⟨hrest, hrds, hcase⟩ := hw
  refine h.unfairLoop (by rw [ht]; rfl) (by rw [ht]; rfl) ⟨hrest, hrds, hcase.imp ?_ ?_⟩
  · exact fun ⟨hwrs, hu, hs, _⟩ => ⟨hwrs, hu, hs⟩
  · exact fun ⟨hwrs, hs, hb, _⟩ => ⟨hwrs, old.waitq, hs, hb⟩

/-- A reader of the queue has not got a share, other than as the one that sorts. -/
theorem Clients.letIn_nodup {s : State T} {g : Ghost T} {t : T} (h : Clients s g)
    (ht : (s.pc t).sorts = true) (hshared : ∀ c ∈ g.lists.rds, s.tag c = .shared) :
    (∀ c ∈ g.lists.rds, s.made c = 0 ∧ (s.pc c).pends = some .shared)
      ∧ (g.hold.erase t ++ g.lists.rds).Nodup := by
  have hsub : ∀ c ∈ g.lists.rds, s.made c = 0 ∧ (s.pc c).pends = some .shared := by
    intro c hc
    obtain ⟨hpc, hm⟩ := (h.pending c).mp (Lists.mem_pending.mpr (.inr (.inr (.inr (.inl hc)))))
    refine ⟨hm, ?_⟩
    obtain ⟨tg, htg⟩ := Option.ne_none_iff_exists'.mp hpc
    rw [htg, ← h.tag c tg htg, hshared c hc]
  have hrdn : g.lists.rds.Nodup := by
    have hnd := h.nodup
    rw [Lists.pending] at hnd
    exact (List.nodup_append.mp (List.nodup_append.mp hnd).1).2.1
  refine ⟨hsub, List.nodup_append.mpr ⟨h.holdNodup.erase t, hrdn, ?_⟩⟩
  rintro a ha b hb rfl
  obtain ⟨hat, hah⟩ := h.holdNodup.mem_erase_iff.mp ha
  obtain ⟨hm, hpa⟩ := hsub a hb
  rcases (h.hold a).mp hah with hsh | ⟨-, hm'⟩
  · exact hat (h.sorter a t (h.kind a hsh hpa) ht)
  · rw [hm] at hm'
    cases hm'

/-- **The readers are served**: who waits, and who has the lock. -/
theorem Clients.letIn {s : State T} {g : Ghost T} {t : T} {p : Pc T} {w : Word T}
    (h : Clients s g) (ht : (s.pc t).sorts = true) (hpends : p.pends = (s.pc t).pends)
    (hp : p.wakes = true) (hown : g.own = none) (hunf : s.word.unfair = true)
    (hrest : g.lists.rest = []) (hshared : ∀ c ∈ g.lists.rds, s.tag c = .shared)
    (hunfair : w.unfair = s.word.unfair) :
    Clients (({ s with word := w }.make g.lists.rds).goto t p)
      ⟨{ g.lists with
        queue := g.lists.wrs ++ g.lists.queue, rds := [], wrs := [],
        wake := Function.update g.lists.wake t g.lists.rds },
        g.hold.erase t ++ g.lists.rds, none⟩ := by
  obtain ⟨t1, t2, t3, t4, t5, t6, t7, t8, t9⟩ := Pc.sorts_views ht
  obtain ⟨p1, p2, p3, p4, p5, p6, p7, p8, p9⟩ := Pc.wakes_views hp
  have hwaket : g.lists.wake t = [] := h.wakes t t3
  have hbusy := h.busy t (.inl t1)
  have hmp := @Lists.mem_pending T g.lists
  have hwake' : ∀ u, Function.update g.lists.wake t g.lists.rds u
      = if u = t then g.lists.rds else g.lists.wake u := fun u => Function.update_apply _ _ _ _
  have hpends' : ∀ c, (Function.update s.pc t p c).pends = (s.pc c).pends := by
    grind -linarith [Function.update_apply]
  have herase : ∀ c, c ∈ g.hold.erase t ↔ c ≠ t ∧ c ∈ g.hold :=
    fun c => h.holdNodup.mem_erase_iff
  obtain ⟨hsub, hholdn⟩ := h.letIn_nodup ht hshared
  obtain ⟨-, hdw, hdr, -, -⟩ := Lists.disjoint h.nodup
  have hlists : (Lists.pending { g.lists with
      queue := g.lists.wrs ++ g.lists.queue, rds := [], wrs := [],
      wake := Function.update g.lists.wake t g.lists.rds } ++ g.lists.rds).Perm g.lists.pending := by
    simp only [Lists.pending, hrest, List.append_nil, List.append_assoc]
    refine List.perm_append_comm.trans ?_
    simp only [List.append_assoc]
    exact List.Perm.refl _
  obtain ⟨hnd, -, hdisj⟩ := List.nodup_append.mp (hlists.nodup_iff.mpr h.nodup)
  have hpend : ∀ c, c ∈ g.lists.pending ↔ c ∈ Lists.pending { g.lists with
      queue := g.lists.wrs ++ g.lists.queue, rds := [], wrs := [],
      wake := Function.update g.lists.wake t g.lists.rds } ∨ c ∈ g.lists.rds :=
    fun c => (hlists.mem_iff.symm.trans List.mem_append)
  generalize hP : Lists.pending { g.lists with
      queue := g.lists.wrs ++ g.lists.queue, rds := [], wrs := [],
      wake := Function.update g.lists.wake t g.lists.rds } = P at hnd hdisj hpend
  have hsortsp : p.sorts = false := p3
  obtain ⟨h1, h2, h3, h4, h5, h6, h7, h8, h9, h10, h11, h12, h13, h14, h15, h16, h17, h18, h19,
    h20, h21, h22⟩ := h
  constructor
  case nodup => exact hP ▸ hnd
  case holdNodup => exact hholdn
  case hold =>
    intro c
    simp only [State.goto, State.make, hpends', List.mem_append, herase]
    by_cases hct : c = t
    · rw [hct, Function.update_self]
      grind -linarith
    · rw [Function.update_of_ne hct]
      grind -linarith
  case own =>
    intro c
    simp only [State.goto, State.make, hpends']
    refine ⟨(by simp), ?_⟩
    rintro (ho | ⟨hpc, hps, hm⟩)
    · by_cases hct : c = t
      · rw [hct, Function.update_self, p2] at ho
        cases ho
      · rw [Function.update_of_ne hct] at ho
        exact absurd (hown.symm.trans ((h14 c).mpr (.inl ho))) (by simp)
    · by_cases hcr : c ∈ g.lists.rds
      · exact absurd (hsub c hcr).2 hps
      · rw [if_neg hcr] at hm
        exact absurd (hown.symm.trans ((h14 c).mpr (.inr ⟨hpc, hps, hm⟩))) (by simp)
  case busy =>
    intro c hc hpc
    simp only [State.goto, State.make, hpends'] at hc hpc ⊢
    by_cases hct : c = t
    · rw [hct, Function.update_self, p1, p2] at hc
      exact hc.elim (by simp) (by simp)
    · rw [Function.update_of_ne hct] at hc
      have hcr : c ∉ g.lists.rds := by
        intro hcr
        have hsh : (s.pc c).shares = true := hc.resolve_right fun ho =>
          absurd (hown.symm.trans ((h14 c).mpr (.inl ho))) (by simp)
        exact hct (h19 c t (h21 c hsh (hsub c hcr).2) ht)
      rw [if_neg hcr]
      exact h20 c hc hpc
  all_goals try simp only [State.goto, State.make, hwake', hunfair, hpends', hP]
  all_goals first
    | assumption
    | grind -linarith [Function.update_apply]

/-- **The swap succeeds**: the readers have the lock, and the writers are in the queue. -/
theorem Inv.unfairSwap {s : State T} {g : Ghost T} {t : T} {k : After} {u : Unfair T}
    {new : Word T} (h : Inv s g) (ht : s.pc t = .unfairSwap k u s.word new)
    (hfit : s.word.readers + u.count ≤ readersSize) :
    g.lists.rds ≠ [] ∧ (∀ c ∈ g.lists.rds, s.tag c = .shared)
      ∧ (g.lists.wrs ≠ [] → Behind s.tag g.lists g.lists.queue.head?)
      ∧ Inv (unfairSwap s t k u s.word new) ⟨{ g.lists with
        queue := g.lists.wrs ++ g.lists.queue, rds := [], wrs := [],
        wake := Function.update g.lists.wake t g.lists.rds },
        g.hold.erase t ++ g.lists.rds, none⟩ := by
  have hw := h.work t
  rw [ht] at hw
  obtain ⟨hrest, hrds, hcase⟩ := hw
  have hsorts : (s.pc t).sorts = true := by rw [ht]; rfl
  obtain ⟨hmem, hown, hcut, hunf⟩ := h.sorter hsorts
  have hch := h.queue.chain
  obtain ⟨e, hs, hnew, hqueue⟩ : ∃ e, u.Sorted s.next s.tag g.lists e
      ∧ (∃ q, new = { s.word.letIn u.count with waitq := q }
        ∧ Chain s.next q (g.lists.wrs ++ g.lists.queue))
      ∧ (g.lists.wrs ≠ [] → Behind s.tag g.lists g.lists.queue.head?) := by
    rcases hcase with ⟨hwrs, hu, hs, hnew⟩ | ⟨hwrs, hs, hb, hnew⟩
    · refine ⟨none, hs, ⟨s.word.waitq, hnew, ?_⟩, fun hne => absurd hwrs hne⟩
      rw [hwrs]
      exact hch
    · refine ⟨s.word.waitq, hs, ⟨u.writers, hnew, segment_append.mpr ⟨s.word.waitq, hs.writers, hch⟩⟩,
        fun _ => ?_⟩
      rw [← hch.head_eq]
      exact hb
  obtain ⟨q, hnew, hchain⟩ := hnew
  have hcount : u.count = g.lists.rds.length := hs.count
  have hpos : 0 < g.hold.length := List.length_pos_of_mem hmem
  have hlen : (g.hold.erase t ++ g.lists.rds).length + 1 = s.word.readers + u.count := by
    rw [List.length_append, List.length_erase_of_mem hmem, h.queue.readers, hcount]
    omega
  have hwalk : walk s.next u.readers u.count = g.lists.rds := by
    rw [hcount]
    exact walk_eq hs.readers
  refine ⟨hrds, hs.shared, hqueue, ?_⟩
  simp only [RwLock.unfairSwap, if_true, hwalk]
  have hlast : ∀ c ∈ g.lists.wrs ++ g.lists.queue, s.tag c = .upgrade →
      (g.lists.wrs ++ g.lists.queue).getLast? = some c := by
    intro c hc htc
    rcases List.mem_append.mp hc with hc | hc
    · rw [hs.exclusive c hc] at htc
      cases htc
    · rw [getLast?_append_of_ne (List.ne_nil_of_mem hc)]
      exact (h.queue.upgradeLast c hc htc).1
  have hwk : ∀ c, c ∈ g.lists.wrs ++ g.lists.queue → s.tag c ≠ .shared := by
    intro c hc
    rcases List.mem_append.mp hc with hc | hc
    · rw [hs.exclusive c hc]
      nofun
    · exact h.queue.unfairQueue hunf hown c hc
  refine ⟨?_, ?_, fun v => ?_⟩
  · exact h.clients.letIn hsorts (by rw [ht]; rfl) rfl hown hunf hrest hs.shared
      (by rw [hnew]; rfl)
  · constructor
    case readers =>
      show new.readers = (g.hold.erase t ++ g.lists.rds).length
      rw [hnew]
      show (s.word.readers + (u.count + (readersSize - 1))) % readersSize = _
      have hsize : 0 < readersSize := Nat.lt_of_le_of_lt (Nat.zero_le _) h.queue.small
      rw [show s.word.readers + (u.count + (readersSize - 1))
        = (g.hold.erase t ++ g.lists.rds).length + readersSize by omega, Nat.add_mod_right,
        Nat.mod_eq_of_lt (by omega)]
    case small =>
      show (g.hold.erase t ++ g.lists.rds).length < readersSize
      omega
    case wlocked =>
      show new.wlocked = false
      rw [hnew]
      show s.word.wlocked = false
      rw [h.queue.wlocked, hown]
      rfl
    case chain =>
      show Chain s.next new.waitq _
      rw [hnew]
      exact hchain
    case free => exact fun hh => absurd hh (by simp [hrds])
    case cutter => exact fun hne => absurd hcut hne
    case sorting =>
      intro hne
      rcases hne with hne | hne | hne
      · exact absurd hrest hne
      · exact absurd rfl hne
      · exact absurd rfl hne
    case upgradeLast => exact fun c hc htc => ⟨hlast c hc htc, hcut⟩
    case upgradeCut =>
      intro c hc
      have hc : c ∈ g.lists.cut := hc
      rw [hcut] at hc
      cases hc
    case upgradeSort =>
      intro c hc
      rcases hc with hc | hc | hc
      · have hc : c ∈ g.lists.rest := hc
        rw [hrest] at hc
        cases hc
      · cases hc
      · cases hc
    case upgradeOwn => exact fun c _ _ v hv => nomatch hv
    case unfairQueue => exact fun _ _ => hwk
    case unfairLast =>
      intro _ v _ a ha
      have ha : (g.lists.wrs ++ g.lists.queue ++ g.lists.cut).getLast? = some a := ha
      rw [hcut, List.append_nil] at ha
      exact hwk a (List.mem_of_getLast? ha)
  · show Work s.next s.tag _ v (Function.update s.pc t _ v)
    by_cases hv : v = t
    · rw [hv, Function.update_self]
      show Chain s.next u.readers (Function.update g.lists.wake t g.lists.rds t)
      rw [Function.update_self]
      exact hs.readers
    · rw [Function.update_of_ne hv]
      exact (h.work v).grow (h.clients.not_walks hsorts hv) (fun c hc => List.mem_append_right _ hc)
        (Function.update_of_ne hv _ _) (fun _ _ => rfl) (fun _ _ => rfl) ⟨fun _ => rfl, rfl⟩

end RwLock
