import Lwlock.RwLockStep

/-!
# Unlocking a read-write lock

A thread gives its share up, or hands the lock over to the waiters at the old end of
the queue. While it walks there it has the lock for itself, so the others can only
push themselves at the head: what it has found stays at the end, and when the swap
succeeds nobody has come in between.
-/

namespace RwLock

variable {T : Type} [DecidableEq T]

/-! ## Giving a share up -/

omit [DecidableEq T] in
/-- The word without the share of a reader. -/
theorem release_shared {s : State T} {g : Ghost T} {t : T} (h : Inv s g) (ht : t ∈ g.hold) :
    (s.word.release false).readers + 1 = g.hold.length := by
  have hpos : 0 < g.hold.length := List.length_pos_of_mem ht
  have hlt := h.queue.small
  have hr := h.queue.readers
  show (s.word.readers + (readersSize - 1)) % readersSize + 1 = g.hold.length
  rw [hr, show g.hold.length + (readersSize - 1) = g.hold.length - 1 + readersSize by omega,
    Nat.add_mod_right, Nat.mod_eq_of_lt (by omega)]
  omega

omit [DecidableEq T] in
theorem After.pc_views (k : After) : (k.pc : Pc T).pends = k.tag ∧ (k.pc : Pc T).shares = false
    ∧ (k.pc : Pc T).owns = false ∧ (k.pc : Pc T).wakes = false ∧ (k.pc : Pc T).sorts = false
    ∧ (k.pc : Pc T).cuts = false ∧ (k.pc : Pc T).fair = none ∧ (k.pc : Pc T).leaves = false
    ∧ (k.pc : Pc T).unfair = false ∧ (k.pc : Pc T).links = false ∧ (k.pc : Pc T) ≠ .aborted := by
  cases k <;> simp [After.pc, After.tag, Pc.pends, Pc.shares, Pc.owns, Pc.wakes, Pc.sorts, Pc.cuts,
    Pc.fair, Pc.leaves, Pc.unfair, Pc.links]

/-- **A reader leaves**, and it is not the last one with somebody waiting. -/
theorem Inv.releaseShared {s : State T} {g : Ghost T} {t : T} {k : After} (h : Inv s g)
    (hshares : (s.pc t).shares = true) (hpends : (s.pc t).pends = k.tag)
    (hsorts : (s.pc t).sorts = false) (hfair : (s.pc t).fair = none)
    (hcuts : (s.pc t).cuts = false) (hlinks : (s.pc t).links = false)
    (hwakes : (s.pc t).wakes = false)
    (hno : (s.word.release false).locked = false → s.word.waitq = none) :
    Inv ({ s with word := s.word.release false }.goto t k.pc)
      { g with hold := g.hold.erase t } := by
  have hmem : t ∈ g.hold := (h.clients.hold t).mpr (.inl hshares)
  have hrel := release_shared h hmem
  have hlen : (g.hold.erase t).length + 1 = g.hold.length :=
    List.length_erase_add_one hmem
  have howns : (s.pc t).owns = false := by
    refine Bool.eq_false_iff.mpr fun ho => ?_
    have hnil := h.clients.alone t ((h.clients.own t).mpr (.inl ho))
    rw [hnil] at hmem
    cases hmem
  have hown : g.own = none := by
    cases ho : g.own with
    | none => rfl
    | some c =>
      rw [h.clients.alone c ho] at hmem
      cases hmem
  have herase : ∀ c, c ∈ g.hold.erase t ↔ c ≠ t ∧ c ∈ g.hold := fun c =>
    h.clients.holdNodup.mem_erase_iff
  have hfree : g.hold.erase t = [] → g.lists.queue = [] := by
    intro hnil
    have hr : (s.word.release false).readers = 0 := by
      rw [hnil, List.length_nil] at hlen
      omega
    refine (h.queue.chain.eq_nil_iff).mpr (hno ?_)
    have hwl : s.word.wlocked = false := by rw [h.queue.wlocked, hown]; rfl
    rw [Word.locked, hr]
    show (s.word.wlocked || _) = false
    rw [hwl]
    rfl
  obtain ⟨p1, p2, p3, p4, p5, p6, p7, p8, p9, p10, p11⟩ := k.pc_views (T := T)
  have hbusy := h.clients.busy t (.inl hshares)
  have hkind := h.clients.kind t hshares
  obtain ⟨hc, hq, hwork⟩ := h
  refine ⟨?_, ?_, fun u => ?_⟩
  · obtain ⟨h1, h2, h3, h4, h5, h6, h7, h8, h9, h10, h11, h12, h13, h14, h15, h16, h17, h18, h19,
      h20, h21, h22⟩ := hc
    constructor
    case holdNodup => exact h13.erase t
    case solo =>
      intro c hf
      have hct : c ≠ t := by
        rintro rfl
        have hf : (Function.update s.pc c k.pc c).fair = some false := hf
        rw [Function.update_self, p7] at hf
        cases hf
      have hf : (Function.update s.pc t k.pc c).fair = some false := hf
      rw [Function.update_of_ne hct] at hf
      have hh := (h16 c hf).2
      rw [hh] at hmem
      exact absurd (List.mem_singleton.mp hmem) (Ne.symm hct)
    case last =>
      intro c hf hu
      have hct : c ≠ t := by
        rintro rfl
        have hf : (Function.update s.pc c k.pc c).leaves = true := hf
        rw [Function.update_self, p8] at hf
        cases hf
      have hf : (Function.update s.pc t k.pc c).leaves = true := hf
      rw [Function.update_of_ne hct] at hf
      have hh := h17 c hf hu
      rw [hh] at hmem
      exact absurd (List.mem_singleton.mp hmem) (Ne.symm hct)
    all_goals try simp only [State.goto, Word.release, Bool.false_eq_true, if_false]
    all_goals first
      | assumption
      | grind -linarith [Function.update_apply]
  · obtain ⟨h1, h2, h3, h4, h5, h6, h7, h8, h9, h10, h11, h12, h13⟩ := hq
    constructor
    case readers =>
      show (s.word.release false).readers = (g.hold.erase t).length
      omega
    case small =>
      show (g.hold.erase t).length < readersSize
      omega
    case cutter => exact fun hne => exists_update_of_not (h6 hne) hcuts
    case sorting => exact fun hne => exists_update_of_not (h7 hne) hsorts
    all_goals try simp only [State.goto, Word.release, Bool.false_eq_true, if_false]
    all_goals first
      | assumption
      | grind -linarith [Function.update_apply]
  · show Work s.next s.tag g.lists u (Function.update s.pc t k.pc u)
    by_cases hu : u = t
    · rw [hu, Function.update_self]
      cases k <;> trivial
    · rw [Function.update_of_ne hu]
      exact hwork u

/-- **A writer leaves**, and nobody waits. -/
theorem Inv.releaseExclusive {s : State T} {g : Ghost T} {t : T} {k : After} (h : Inv s g)
    (howns : (s.pc t).owns = true) (hpends : (s.pc t).pends = k.tag) (hsorts : (s.pc t).sorts = false)
    (hcuts : (s.pc t).cuts = false) (hlinks : (s.pc t).links = false)
    (hwakes : (s.pc t).wakes = false) (hno : s.word.waitq = none) :
    Inv ({ s with word := s.word.release true }.goto t k.pc) { g with own := none } := by
  have hown : g.own = some t := (h.clients.own t).mpr (.inl howns)
  have hnil := h.clients.alone t hown
  have hqueue : g.lists.queue = [] := (h.queue.chain.eq_nil_iff).mpr hno
  obtain ⟨hnone, hcut⟩ := h.no_cut hqueue
  obtain ⟨p1, p2, p3, p4, p5, p6, p7, p8, p9, p10, p11⟩ := k.pc_views (T := T)
  have hbusy := h.clients.busy t (.inr howns)
  obtain ⟨hc, hq, hwork⟩ := h
  refine ⟨?_, ?_, fun u => ?_⟩
  · obtain ⟨h1, h2, h3, h4, h5, h6, h7, h8, h9, h10, h11, h12, h13, h14, h15, h16, h17, h18, h19,
      h20, h21, h22⟩ := hc
    constructor
    all_goals try simp only [State.goto, Word.release, if_true]
    all_goals first
      | assumption
      | grind -linarith [Function.update_apply]
  · obtain ⟨h1, h2, h3, h4, h5, h6, h7, h8, h9, h10, h11, h12, h13⟩ := hq
    constructor
    case wlocked => rfl
    case cutter => exact fun hne => exists_update_of_not (h6 hne) hcuts
    case sorting => exact fun hne => exists_update_of_not (h7 hne) hsorts
    all_goals try simp only [State.goto, Word.release, if_true]
    all_goals first
      | assumption
      | grind -linarith [Function.update_apply]
  · show Work s.next s.tag g.lists u (Function.update s.pc t k.pc u)
    by_cases hu : u = t
    · rw [hu, Function.update_self]
      cases k <;> trivial
    · rw [Function.update_of_ne hu]
      exact hwork u

/-! ## The last reader of an unfair lock -/

omit [DecidableEq T] in
/-- What a thread does that has cut waiters off. -/
theorem Inv.cut_nil {s : State T} {g : Ghost T} {t : T} (h : Inv s g)
    (ht : (s.pc t).shares = true ∨ (s.pc t).owns = true) (hcuts : (s.pc t).cuts = false) :
    g.lists.cut = [] := by
  by_contra hne
  obtain ⟨u, hu⟩ := h.queue.cutter hne
  have hfair : ∃ excl, (s.pc u).fair = some excl := by
    cases hp : s.pc u <;> rw [hp] at hu <;> first | exact ⟨_, rfl⟩ | cases hu
  obtain ⟨excl, hf⟩ := hfair
  have htu : t ≠ u := by
    rintro rfl
    rw [hcuts] at hu
    cases hu
  obtain ⟨h1, h2⟩ := h.clients.apart (h.clients.fair_apart hf) htu
  rcases ht with ht | ht
  · rw [h1] at ht
    cases ht
  · rw [h2] at ht
    cases ht

/-- **The last reader turns into a writer** for the time of the hand-over. -/
theorem Inv.placeholder {s : State T} {g : Ghost T} {t : T} {k : After} (h : Inv s g)
    (ht : s.pc t = .upgradeOrRelease k) (hr : (s.word.release false).readers = 0) :
    Inv ({ s with word := { s.word.release false with wlocked := true } }.goto t (.fairStart true k))
      { g with hold := [], own := some t } := by
  have hshares : (s.pc t).shares = true := by rw [ht]; rfl
  have hmem : t ∈ g.hold := (h.clients.hold t).mpr (.inl hshares)
  have hhold : g.hold = [t] := by
    have hrel := release_shared h hmem
    rw [hr] at hrel
    obtain ⟨a, ha⟩ := List.length_eq_one_iff.mp hrel.symm
    rw [ha] at hmem ⊢
    rw [List.mem_singleton.mp hmem]
  have hown : g.own = none := by
    cases ho : g.own with
    | none => rfl
    | some c =>
      rw [h.clients.alone c ho] at hhold
      cases hhold
  have hcut : g.lists.cut = [] := h.cut_nil (.inl hshares) (by rw [ht]; rfl)
  have hqueue : g.lists.queue ≠ [] := by
    have hw := h.work t
    rw [ht] at hw
    exact hw
  have hunf : s.word.unfair = true := h.clients.unfair t (by rw [ht]; rfl)
  have hlast : ∀ a, (g.lists.queue ++ g.lists.cut).getLast? = some a → s.tag a ≠ .shared := by
    intro a ha
    rw [hcut, List.append_nil] at ha
    exact h.queue.unfairQueue hunf hown a (List.mem_of_getLast? ha)
  have hno : ∀ c, c ≠ t → (s.pc c).shares = false ∧ (s.pc c).owns = false :=
    fun c hct => h.clients.apart (.inr hhold) hct
  have hbusy := h.clients.busy t (.inl hshares)
  have hkind := h.clients.kind t hshares
  obtain ⟨p, hp⟩ : ∃ p : Pc T, p = .fairStart true k := ⟨_, rfl⟩
  have htv : (s.pc t).pends = k.tag ∧ (s.pc t).owns = false ∧ (s.pc t).wakes = false
      ∧ (s.pc t).sorts = false ∧ (s.pc t).cuts = false ∧ (s.pc t).fair = none
      ∧ (s.pc t).links = false := by
    rw [ht]
    simp [Pc.pends, Pc.owns, Pc.wakes, Pc.sorts, Pc.cuts, Pc.fair, Pc.links]
  have hpv : p.pends = k.tag ∧ p.shares = false ∧ p.owns = true ∧ p.wakes = false
      ∧ p.sorts = false ∧ p.cuts = false ∧ p.fair = some true ∧ p.leaves = false
      ∧ p.unfair = false ∧ p.links = false ∧ p ≠ .aborted := by
    rw [hp]
    simp [Pc.pends, Pc.shares, Pc.owns, Pc.wakes, Pc.sorts, Pc.cuts, Pc.fair, Pc.leaves, Pc.unfair,
      Pc.links]
  obtain ⟨t1, t2, t3, t4, t5, t6, t7⟩ := htv
  obtain ⟨p1, p2, p3, p4, p5, p6, p7, p8, p9, p10, p11⟩ := hpv
  rw [← hp]
  obtain ⟨hc, hq, hwork⟩ := h
  refine ⟨?_, ?_, fun u => ?_⟩
  · clear ht hp
    obtain ⟨h1, h2, h3, h4, h5, h6, h7, h8, h9, h10, h11, h12, h13, h14, h15, h16, h17, h18, h19,
      h20, h21, h22⟩ := hc
    constructor
    all_goals try simp only [State.goto, Word.release, Bool.false_eq_true, if_false]
    all_goals first
      | assumption
      | grind -linarith [Function.update_apply]
  · obtain ⟨h1, h2, h3, h4, h5, h6, h7, h8, h9, h10, h11, h12, h13⟩ := hq
    constructor
    case readers => exact hr
    case small => exact Nat.lt_of_le_of_lt (Nat.zero_le _) h2
    case wlocked => rfl
    case cutter => exact fun hne => exists_update_of_not (h6 hne) t5
    case sorting => exact fun hne => exists_update_of_not (h7 hne) t4
    all_goals try simp only [State.goto, Word.release, Bool.false_eq_true, if_false]
    all_goals first
      | assumption
      | grind -linarith [Function.update_apply]
  · show Work s.next s.tag g.lists u (Function.update s.pc t p u)
    by_cases hu : u = t
    · rw [hu, Function.update_self, hp]
      exact hqueue
    · rw [Function.update_of_ne hu]
      exact hwork u

/-! ## The fair hand-over -/

omit [DecidableEq T] in
/-- What it means to be in the fair hand-over. -/
theorem Pc.fair_views {p : Pc T} {excl : Bool} (h : p.fair = some excl) : p.shares = !excl
    ∧ p.owns = excl ∧ p.wakes = false ∧ p.sorts = false ∧ p.leaves = false ∧ p.unfair = false
    ∧ p.links = false ∧ p ≠ .aborted := by
  cases p <;> cases h <;> simp [Pc.shares, Pc.owns, Pc.wakes, Pc.sorts, Pc.leaves, Pc.unfair,
    Pc.links]

/-- **A step inside of the hand-over** that writes nothing. -/
theorem Inv.fairMove {s : State T} {g : Ghost T} {t : T} {p : Pc T} {excl : Bool} (h : Inv s g)
    (ht : (s.pc t).fair = some excl) (hp : p.fair = some excl) (hpends : p.pends = (s.pc t).pends)
    (hcuts : (s.pc t).cuts = true → p.cuts = true) (hw : Work s.next s.tag g.lists t p) :
    Inv (s.goto t p) g := by
  obtain ⟨t1, t2, t3, t4, t5, t6, t7, t8⟩ := Pc.fair_views ht
  obtain ⟨p1, p2, p3, p4, p5, p6, p7, p8⟩ := Pc.fair_views hp
  refine h.move ⟨hpends, by rw [p1, t1], by rw [p2, t2], .inr (h.clients.wakes t t3), .inr t7,
    by rw [p4, t4], hcuts, fun _ => ?_, fun hf => ?_, fun hl => ?_, fun hu => ?_, fun _ hu => ?_,
    p8⟩ hw
  · rwa [hp, ← ht]
  · exact h.clients.solo t (by rw [ht, ← hp, hf])
  · rw [p5] at hl
    cases hl
  · rw [p6] at hu
    cases hu
  · exact h.queue.unfairLast hu t (by rw [ht]; nofun)

omit [DecidableEq T] in
/-- **The word without the share** of a thread that hands the lock over. -/
theorem Inv.release_fair {s : State T} {g : Ghost T} {t : T} {excl : Bool} (h : Inv s g)
    (ht : (s.pc t).fair = some excl) : (s.word.release excl).readers = 0
      ∧ (s.word.release excl).wlocked = false ∧ (excl = true → g.own = some t ∧ g.hold = [])
      ∧ (excl = false → g.own = none ∧ g.hold = [t] ∧ s.word.unfair = false) := by
  obtain ⟨t1, t2, -⟩ := Pc.fair_views ht
  cases excl with
  | true =>
    have hown : g.own = some t := (h.clients.own t).mpr (.inl t2)
    have hnil := h.clients.alone t hown
    refine ⟨?_, rfl, fun _ => ⟨hown, hnil⟩, nofun⟩
    show s.word.readers = 0
    rw [h.queue.readers, hnil, List.length_nil]
  | false =>
    obtain ⟨hu, hh⟩ := h.clients.solo t ht
    have hown : g.own = none := by
      cases ho : g.own with
      | none => rfl
      | some c =>
        rw [h.clients.alone c ho] at hh
        cases hh
    refine ⟨?_, ?_, nofun, fun _ => ⟨hown, hh, hu⟩⟩
    · have hrel := release_shared h (t := t) (by rw [hh]; exact List.mem_singleton_self t)
      rw [hh, List.length_singleton] at hrel
      omega
    · show s.word.wlocked = false
      rw [h.queue.wlocked, hown]
      rfl

omit [DecidableEq T] in
theorem getLast?_append_of_ne {P K : List T} (h : K ≠ []) : (P ++ K).getLast? = K.getLast? := by
  rw [List.getLast?_append_of_ne_nil P h]

omit [DecidableEq T] in
theorem Word.release_waitq (w : Word T) (excl : Bool) : (w.release excl).waitq = w.waitq := by
  cases excl <;> rfl

omit [DecidableEq T] in
/-- **The first waiter** of a walk. -/
theorem serves_singleton {tag : T → Tag} {K : List T} {a : T}
    (h : ∀ y, K.getLast? = some y → tag y ≠ .shared ∨ tag a ≠ .shared) : Serves tag K [a] := by
  by_cases ha : tag a = .shared
  · refine .inr ⟨List.cons_ne_nil a [], fun x hx => by rwa [List.mem_singleton.mp hx], fun y hy => ?_⟩
    exact (h y hy).resolve_right fun hne => hne ha
  · exact .inl ⟨a, rfl, ha⟩

/-- **A round of the hand-over** begins. -/
theorem Inv.fairLoop {s : State T} {g : Ghost T} {t : T} {excl : Bool} {k : After} {f : Fair T}
    (h : Inv s g) (ht : (s.pc t).fair = some excl) (hk : (s.pc t).pends = k.tag)
    (hf : (s.pc t = .fairStart excl k ∧ f.kept = false)
      ∨ ∃ old new, s.pc t = .fairSwap excl k old new f) :
    Inv (fairLoop s t excl k f) g := by
  obtain ⟨hr, hwl, -⟩ := h.release_fair ht
  have hlocked : (s.word.release excl).locked = false := by
    rw [Word.locked, hr, hwl]
    rfl
  have hqueue : g.lists.queue ≠ [] := (h.work t).queue_ne_nil (.inl (by rw [ht]; simp))
  rw [RwLock.fairLoop]
  simp only [hlocked, Bool.false_eq_true, if_false]
  by_cases hkept : f.kept = true
  · -- the run was cut off before; only the word is read again
    rw [if_pos hkept]
    obtain ⟨old, new, hpc⟩ : ∃ old new, s.pc t = .fairSwap excl k old new f := by
      refine hf.resolve_left fun hs => ?_
      rw [hs.2] at hkept
      cases hkept
    have hw := h.work t
    rw [hpc] at hw
    rcases hw with ⟨hn, -⟩ | ⟨-, P, K, hq, hK, -, hcut, hs, hfound⟩
    · rw [hn] at hkept
      cases hkept
    · refine h.fairMove ht rfl hk.symm (fun _ => hkept) (.inr ⟨hkept, [], g.lists.queue, rfl, hqueue,
        h.queue.chain, hcut, ?_, hfound.waiter, hfound.count, hfound.list, ?_⟩)
      · refine hs.imp_right fun hs => ⟨hs.1, hs.2.1, fun y hy => hs.2.2 y ?_⟩
        rw [← hy, hq, getLast?_append_of_ne hK]
      · rw [hfound.waiter, hfound.count]
        cases excl <;> rfl
  · rw [if_neg hkept, Word.release_waitq]
    have hcuts : (s.pc t).cuts = false := by
      rcases hf with ⟨hs, -⟩ | ⟨old, new, hs⟩
      · rw [hs]
        rfl
      · rw [hs]
        exact Bool.not_eq_true _ ▸ hkept
    cases hwq : s.word.waitq with
    | none => exact absurd ((h.queue.chain.eq_nil_iff).mpr hwq) hqueue
    | some w =>
      obtain ⟨B, hB⟩ : ∃ B, g.lists.queue = w :: B := by
        cases hq : g.lists.queue with
        | nil => exact absurd hq hqueue
        | cons a B =>
          have hch := h.queue.chain
          rw [hq, hwq] at hch
          exact ⟨B, by rw [Option.some.inj hch.1]⟩
      refine h.fairMove ht rfl hk.symm (fun hc => by rw [hcuts] at hc; cases hc)
        ⟨[], [], [w], B, hB, ?_, serves_singleton (by simp), rfl, rfl, rfl⟩
      have hch := h.queue.chain
      rw [hB] at hch
      exact hch

omit [DecidableEq T] in
/-- **One waiter more** at the young end of the rest: it belongs to the run, or it begins
a new one. -/
theorem Serves.next {tag : T → Tag} {K R : List T} {w n : T} (h : Serves tag K R)
    (hw : R.getLast? = some w) :
    (tag w ≠ .shared ∨ tag n ≠ .shared → Serves tag (K ++ R) [n])
      ∧ (¬ (tag w ≠ .shared ∨ tag n ≠ .shared) → Serves tag K (R ++ [n])) := by
  constructor
  · intro hne
    refine serves_singleton fun y hy => ?_
    rw [getLast?_append_of_ne (by rintro rfl; cases hw), hw] at hy
    rwa [← Option.some.inj hy]
  · intro hboth
    rw [not_or, not_not, not_not] at hboth
    rcases h with ⟨x, rfl, hx⟩ | ⟨hne, hall, hlast⟩
    · obtain rfl : x = w := Option.some.inj hw
      exact absurd hboth.1 hx
    · refine .inr ⟨by simp, fun x hx => ?_, hlast⟩
      rcases List.mem_append.mp hx with hx | hx
      · exact hall x hx
      · rw [List.mem_singleton.mp hx]
        exact hboth.2

/-- **A step of the walk.** -/
theorem Inv.fairScan {s : State T} {g : Ghost T} {t w : T} {excl : Bool} {k : After}
    {old : Word T} {link : Option T} {count : ℕ} (h : Inv s g)
    (ht : s.pc t = .fairScan excl k old w link count) :
    Inv (fairScan s t excl k old w link count) g := by
  have hfair : (s.pc t).fair = some excl := by rw [ht]; rfl
  have hpend : (s.pc t).pends = k.tag := by rw [ht]; rfl
  have hcuts : ∀ p : Pc T, (s.pc t).cuts = true → p.cuts = true := by
    intro p hc
    rw [ht] at hc
    cases hc
  have hw := h.work t
  rw [ht] at hw
  obtain ⟨P, K, R, B, hq, hch, hs, hRw, rfl, rfl⟩ := hw
  have hR : R ≠ [] := by
    rintro rfl
    cases hRw
  have hB : Chain s.next (s.next w) B := by
    rw [← List.append_assoc] at hch
    exact hch.behind (by rw [getLast?_append_of_ne hR, hRw])
  simp only [RwLock.fairScan]
  cases hn : s.next w with
  | some n =>
    obtain ⟨B', rfl⟩ : ∃ B', B = n :: B' := by
      rw [hn] at hB
      cases B with
      | nil => cases hB
      | cons b B' => exact ⟨B', by rw [Option.some.inj hB.1]⟩
    have hnext := hs.next (n := n) hRw
    dsimp only
    by_cases hc : s.tag w ≠ .shared ∨ s.tag n ≠ .shared
    · rw [if_pos hc]
      refine h.fairMove hfair rfl hpend.symm (hcuts _) ⟨P, K ++ R, [n], B', ?_, ?_, hnext.1 hc, rfl,
        ?_, rfl⟩
      · simpa using hq
      · simpa using hch
      · rw [getLast?_append_of_ne hR, hRw]
    · rw [if_neg hc]
      refine h.fairMove hfair rfl hpend.symm (hcuts _) ⟨P, K, R ++ [n], B', ?_, ?_, hnext.2 hc, ?_,
        rfl, ?_⟩
      · simpa using hq
      · simpa using hch
      · rw [List.getLast?_concat]
      · rw [List.length_append, List.length_singleton]
  | none =>
    obtain rfl : B = [] := (hB.eq_nil_iff).mpr hn
    rw [List.append_nil] at hq hch
    dsimp only
    cases hK : K.getLast? with
    | none =>
      -- the whole queue is served
      obtain rfl : K = [] := List.getLast?_eq_none_iff.mp hK
      rw [List.nil_append] at hq hch
      refine h.fairMove hfair rfl hpend.symm (hcuts _) (.inl ⟨rfl, P, R, hq, hch, hs, hRw.symm, rfl,
        hch.head_eq, ?_⟩)
      rw [hRw]
    | some c =>
      exact h.fairMove hfair rfl hpend.symm (hcuts _) ⟨P, K, R, hq, hch, hs, hRw, hK, rfl⟩

/-- The read of the link that is to be cut. -/
theorem Inv.fairTake {s : State T} {g : Ghost T} {t w c : T} {excl : Bool} {k : After}
    {old : Word T} {count : ℕ} (h : Inv s g) (ht : s.pc t = .fairTake excl k old w c count) :
    Inv (s.goto t (.fairCut excl k old w c count (s.next c))) g := by
  have hw := h.work t
  rw [ht] at hw
  obtain ⟨P, K, R, hq, hch, hs, hRw, hK, rfl⟩ := hw
  have hfair : (s.pc t).fair = some excl := by rw [ht]; rfl
  refine h.fairMove hfair rfl (by rw [ht]; rfl) (fun hc => ?_)
    ⟨P, K, R, hq, hch, hs, hRw, hK, rfl, (hch.behind hK).head_eq⟩
  rw [ht] at hc
  cases hc

/-- **The cut.** -/
theorem Inv.fairCut {s : State T} {g : Ghost T} {t w c : T} {excl : Bool} {k : After}
    {old : Word T} {count : ℕ} {list : Option T} (h : Inv s g)
    (ht : s.pc t = .fairCut excl k old w c count list) :
    ∃ Q R, g.lists.queue = Q ++ R ∧ Inv (fairCut s t excl k old w c count list)
      { g with lists := { g.lists with queue := Q, cut := R } } := by
  have hfair : (s.pc t).fair = some excl := by rw [ht]; rfl
  obtain ⟨t1, t2, t3, t4, t5, t6, t7, t8⟩ := Pc.fair_views hfair
  have tp : (s.pc t).pends = k.tag := by rw [ht]; rfl
  have hcut : g.lists.cut = [] := by
    refine h.cut_nil ?_ (by rw [ht]; rfl)
    cases excl
    · exact .inl t1
    · exact .inr t2
  have hapart : ∀ u, u ≠ t → (s.pc u).shares = false ∧ (s.pc u).owns = false :=
    fun u hu => h.clients.apart (h.clients.fair_apart hfair) hu
  have hw := h.work t
  rw [ht] at hw
  obtain ⟨P, K, R, hq, hch, hs, hRw, hK, rfl, rfl⟩ := hw
  have hR : R ≠ [] := by
    rintro rfl
    cases hRw
  have hKne : K ≠ [] := by
    rintro rfl
    cases hK
  have hcq : c ∈ g.lists.queue := by
    rw [hq]
    exact List.mem_append_right _ (List.mem_append_left _ (List.mem_of_getLast? hK))
  obtain ⟨K', rfl⟩ := List.getLast?_eq_some_iff.mp hK
  have hcR : c ∉ R := by
    have hnd := hch.nodup
    rw [List.append_assoc] at hnd
    have hnd := (List.nodup_append.mp hnd).2.1
    exact (List.nodup_cons.mp hnd).1
  have hpend : (Lists.pending { g.lists with queue := P ++ (K' ++ [c]), cut := R })
      = g.lists.pending := by
    simp [Lists.pending, hq, hcut]
  have hmp := @Lists.mem_pending T g.lists
  have hwk : ∀ u, c ∉ g.lists.wake u := by
    intro u hu
    have h1 := (h.clients.wake u c hu).2.1
    have h2 := ((h.clients.pending c).mp (hmp.mpr (.inl hcq))).2
    rw [h1] at h2
    cases h2
  have hcnp := (h.clients.pending c).mp (hmp.mpr (.inl hcq))
  -- the chain, and what is cut off it
  have hchain : Chain (Function.update s.next c none) s.word.waitq (P ++ (K' ++ [c])) := by
    have hch' := h.queue.chain
    rw [hq, ← List.append_assoc] at hch'
    obtain ⟨r, hpath, -⟩ := chain_append.mp hch'
    rw [← List.append_assoc] at hpath ⊢
    refine Segment.redirect hpath ?_ none
    have hnd := hch'.nodup
    rw [← List.append_assoc, List.nodup_append, List.nodup_append] at hnd
    exact fun hmem => hnd.1.2.2 c hmem c (List.mem_singleton_self c) rfl
  have hchainK : Chain (Function.update s.next c none) old.waitq (K' ++ [c]) := by
    obtain ⟨r, hpath, -⟩ := chain_append.mp hch
    refine Segment.redirect hpath ?_ none
    have hnd := hch.nodup
    rw [List.nodup_append, List.nodup_append] at hnd
    exact fun hmem => hnd.1.2.2 c hmem c (List.mem_singleton_self c) rfl
  have hchainR : Chain (Function.update s.next c none) R.head? R := by
    have hb := hch.behind hK
    rw [hb.head_eq] at hb
    exact hb.update hcR none
  -- a waiter for an upgrade is the last one, and so among those that are cut off
  have hup : ∀ x ∈ P ++ (K' ++ [c]), s.tag x ≠ .upgrade := by
    intro x hx htx
    have hxq : x ∈ g.lists.queue := by
      rw [hq, ← List.append_assoc]
      exact List.mem_append_left _ hx
    have hl := (h.queue.upgradeLast x hxq htx).1
    rw [hq, ← List.append_assoc, getLast?_append_of_ne hR] at hl
    have hnd := h.queue.chain.nodup
    rw [hq, ← List.append_assoc] at hnd
    exact (List.nodup_append.mp hnd).2.2 x hx x (List.mem_of_getLast? hl) rfl
  have hupR : ∀ x ∈ R, s.tag x = .upgrade → R = [x] := by
    intro x hx htx
    rcases hs with ⟨y, rfl, -⟩ | ⟨-, hall, -⟩
    · rw [List.mem_singleton.mp hx]
    · rw [hall x hx] at htx
      cases htx
  refine ⟨P ++ (K' ++ [c]), R, by rw [hq, List.append_assoc P], ?_⟩
  obtain ⟨f, hf⟩ : ∃ f : Fair T, f = ⟨some w, R.length, R.head?, true⟩ := ⟨_, rfl⟩
  obtain ⟨p, hp⟩ : ∃ p : Pc T, p = .fairSwap excl k old
      (handOver s.tag (old.release excl) (some w) R.length) f := ⟨_, rfl⟩
  have hpf : p.fair = some excl := by rw [hp]; rfl
  obtain ⟨p1, p2, p3, p4, p5, p6, p7, p8⟩ := Pc.fair_views hpf
  have pp : p.pends = k.tag := by rw [hp]; rfl
  have pc : p.cuts = true := by rw [hp, hf]; rfl
  rw [RwLock.fairCut, ← hf, ← hp]
  have hqueue : ∀ x, x ∈ P ++ (K' ++ [c]) ∨ x ∈ R ↔ x ∈ g.lists.queue ∨ x ∈ g.lists.cut := by
    intro x
    simp [hcut, hq, or_assoc]
  have hlast : (P ++ (K' ++ [c]) ++ R).getLast? = (g.lists.queue ++ g.lists.cut).getLast? := by
    rw [hcut, hq, List.append_nil, List.append_assoc P]
  have hsub : ∀ x ∈ P ++ (K' ++ [c]), x ∈ g.lists.queue := by
    intro x hx
    rw [hq, ← List.append_assoc]
    exact List.mem_append_left _ hx
  have hfree : g.hold = [] → g.own = none → False := by
    intro hh ho
    have hq0 := h.queue.free hh ho
    rw [hq0] at hcq
    cases hcq
  obtain ⟨hc, hqu, hwork⟩ := h
  refine ⟨?_, ?_, fun u => ?_⟩
  · refine hc.relist (p := p) ⟨?_, ?_, ?_, ?_, ?_, ?_, ?_, ?_, ?_, ?_, ?_, ?_, p8⟩ rfl rfl rfl rfl rfl
      rfl (by rw [hpend]) rfl fun x hx hn => ?_
    · rw [pp, tp]
    · rw [p1, t1]
    · rw [p2, t2]
    · exact .inr (hc.wakes t t3)
    · exact .inr t7
    · rw [p4, t4]
    · exact fun _ => pc
    · exact fun hf => hpf.trans (hfair.symm.trans hf)
    · exact fun hf => hc.solo t (hfair.trans (hpf.symm.trans hf))
    · exact fun hl => by rw [p5] at hl; cases hl
    · exact fun hu => by rw [p6] at hu; cases hu
    · exact fun _ hu => hqu.unfairLast hu t (by rw [hfair]; simp)
    · exact (Function.update_of_ne (fun hxc : x = c => hx (hxc ▸ hmp.mpr (.inl hcq))) _ _).trans hn
  · clear ht hp
    obtain ⟨h1, h2, h3, h4, h5, h6, h7, h8, h9, h10, h11, h12, h13⟩ := hqu
    constructor
    case chain => exact hchain
    case free => exact fun hh ho => (hfree hh ho).elim
    case cutter =>
      intro _
      refine ⟨t, ?_⟩
      show (Function.update s.pc t p t).cuts = true
      rw [Function.update_self, pc]
    case sorting => exact fun hne => exists_update_of_not (h7 hne) t4
    case upgradeLast => exact fun x hx htx => absurd htx (hup x hx)
    case upgradeCut => exact hupR
    case upgradeOwn =>
      intro x hx htx u hu
      have hux := h11 x ((hqueue x).mp hx) htx u hu
      show (Function.update s.pc t p u).fair = some true
      grind -linarith [Function.update_apply]
    case unfairLast =>
      intro hu u hfu a ha
      rw [hlast] at ha
      exact h13 hu t (by rw [hfair]; simp) a ha
    all_goals try simp only [State.goto, State.setNext]
    all_goals first
      | assumption
      | grind -linarith [Function.update_apply]
  · show Work (Function.update s.next c none) s.tag _ u (Function.update s.pc t p u)
    by_cases hu : u = t
    · rw [hu, Function.update_self, hp, hf]
      refine .inr ⟨rfl, P, K' ++ [c], rfl, by simp, hchainK, hchainR, hs, hRw.symm, rfl, rfl, ?_⟩
      rw [hRw]
      cases excl <;> rfl
    · rw [Function.update_of_ne hu]
      refine (hwork u).apart (hapart u hu).1 (hapart u hu).2 rfl (fun x hx => ?_)
        ⟨fun hl => ?_, rfl⟩
      · exact Function.update_of_ne (fun hxc : x = c => hwk u (hxc ▸ hx)) _ _
      · have huc : u ≠ c := by
          rintro rfl
          have : (s.pc u).pends = none := by
            cases hpu : s.pc u <;> rw [hpu] at hl <;> first | rfl | cases hl
          exact hcnp.1 this
        exact Function.update_of_ne huc _ _

omit [DecidableEq T] in
/-- While a thread has the lock for itself nobody sorts the queue. -/
theorem Inv.sort_nil {s : State T} {g : Ghost T} {t : T} {excl : Bool} (h : Inv s g)
    (ht : (s.pc t).fair = some excl) :
    g.lists.rest = [] ∧ g.lists.rds = [] ∧ g.lists.wrs = [] := by
  have hno : ¬ (g.lists.rest ≠ [] ∨ g.lists.rds ≠ [] ∨ g.lists.wrs ≠ []) := by
    intro hne
    obtain ⟨u, hu⟩ := h.queue.sorting hne
    have hshares : (s.pc u).shares = true := by
      cases hp : s.pc u <;> rw [hp] at hu <;> first | rfl | cases hu
    have hut : u ≠ t := by
      rintro rfl
      rw [(Pc.fair_views ht).2.2.2.1] at hu
      cases hu
    rw [(h.clients.apart (h.clients.fair_apart ht) hut).1] at hshares
    cases hshares
  simpa only [not_or, not_not] using hno

omit [DecidableEq T] in
/-- **What is handed over** when the swap succeeds: the oldest waiters, and the others stay
in the queue. -/
theorem Inv.fairFound {s : State T} {g : Ghost T} {t : T} {excl : Bool} {k : After} {new : Word T}
    {f : Fair T} (h : Inv s g) (ht : s.pc t = .fairSwap excl k s.word new f) :
    ∃ Q R W, g.lists.queue ++ g.lists.cut = Q ++ R ∧ Serves s.tag Q R ∧ Chain s.next f.list R
      ∧ Chain s.next W Q ∧ f.Found s.tag R s.word new excl W := by
  have hw := h.work t
  rw [ht] at hw
  rcases hw with ⟨hk, P, R, hq, hch, hs, hf⟩ | ⟨hk, P, K, hq, hne, hch, hcut, hs, hf⟩
  · have hnil : g.lists.cut = [] := by
      refine h.cut_nil ?_ (by rw [ht]; exact hk)
      rw [ht]
      cases excl
      · exact .inl rfl
      · exact .inr rfl
    refine ⟨[], R, none, ?_, hs, ?_, rfl, hf⟩
    · rw [hnil, List.append_nil, List.nil_append]
      exact h.queue.chain.unique hch
    · rw [hf.list, ← hch.head_eq]
      exact hch
  · have hqK : g.lists.queue = K := h.queue.chain.unique hch
    exact ⟨K, g.lists.cut, s.word.waitq, by rw [hqK], hs, hcut, hch, hf⟩

/-- **Waiters are served**: who waits, and who has the lock. -/
theorem Clients.serve {s : State T} {g : Ghost T} {t : T} {p : Pc T} {w : Word T}
    {Q R H : List T} {O : Option T} (h : Clients s g) (hpends : p.pends = (s.pc t).pends)
    (hp : p.wakes = true ∧ p.leaves = false ∧ p.unfair = false ∧ p ≠ .aborted ∧ p.sorts = false)
    (hshares : ∀ c, (Function.update s.pc t p c).shares = false)
    (howns : ∀ c, (Function.update s.pc t p c).owns = false) (hwakes : (s.pc t).wakes = false)
    (hlinks : (s.pc t).links = false)
    (hheld : (∀ c ∈ g.hold, c = t) ∧ ∀ c, g.own = some c → c = t)
    (hbusy : (s.pc t).pends ≠ none → s.made t = 0)
    (hmp : ∀ c, c ∈ g.lists.pending ↔ c ∈ Q ∨ c ∈ R) (hdisj : ∀ c, c ∈ Q → c ∉ R) (hQ : Q.Nodup)
    (hR : R.Nodup) (hsort : g.lists.rest = [] ∧ g.lists.rds = [] ∧ g.lists.wrs = [])
    (hH : ∀ c, c ∈ H ↔ c ∈ R ∧ s.tag c = .shared) (hHn : H.Nodup)
    (hO : ∀ c, O = some c ↔ c ∈ R ∧ s.tag c ≠ .shared) (hOH : ∀ c, O = some c → H = [])
    (hunfair : w.unfair = s.word.unfair) :
    Clients (({ s with word := w }.make R).goto t p)
      ⟨{ g.lists with queue := Q, cut := [], wake := Function.update g.lists.wake t R }, H, O⟩ := by
  obtain ⟨p1, p2, p3, p4, p5⟩ := hp
  obtain ⟨hrest, hrds, hwrs⟩ := hsort
  obtain ⟨hheld, howned⟩ := hheld
  have hwaket : g.lists.wake t = [] := h.wakes t hwakes
  have hsub : ∀ c, c ∈ R → s.made c = 0 ∧ (s.pc c).pends = some (s.tag c) := by
    intro c hc
    obtain ⟨hpc, hm⟩ := (h.pending c).mp ((hmp c).mpr (.inr hc))
    refine ⟨hm, ?_⟩
    obtain ⟨tg, htg⟩ := Option.ne_none_iff_exists'.mp hpc
    rw [htg, h.tag c tg htg]
  have hpends' : ∀ c, (Function.update s.pc t p c).pends = (s.pc c).pends := by
    grind -linarith [Function.update_apply]
  have hnofair : ∀ c, (Function.update s.pc t p c).fair = none := by
    intro c
    cases hf : (Function.update s.pc t p c).fair with
    | none => rfl
    | some e =>
      obtain ⟨f1, f2, -⟩ := Pc.fair_views hf
      rw [hshares c] at f1
      rw [howns c] at f2
      rw [← f2] at f1
      cases f1
  have hmp' : ∀ c, c ∈ Lists.pending { g.lists with
      queue := Q, cut := [], wake := Function.update g.lists.wake t R } ↔ c ∈ Q := by
    intro c
    simp [Lists.pending, hrest, hrds, hwrs]
  have hwake' : ∀ u, Function.update g.lists.wake t R u = if u = t then R else g.lists.wake u :=
    fun u => Function.update_apply _ _ _ _
  obtain ⟨h1, h2, h3, h4, h5, h6, h7, h8, h9, h10, h11, h12, h13, h14, h15, h16, h17, h18, h19,
    h20, h21, h22⟩ := h
  constructor
  case nodup => simpa [Lists.pending, hrest, hrds, hwrs] using hQ
  case pending =>
    intro c
    rw [hmp' c]
    simp only [State.goto, State.make, hpends']
    grind -linarith
  case solo =>
    intro c hf
    cases (hnofair c).symm.trans hf
  all_goals
    try simp only [State.goto, State.make, hwake', hunfair, hpends', hshares, howns]
  all_goals first
    | assumption
    | grind -linarith [Function.update_apply]

/-- **Waiters are served.** -/
theorem Inv.serve {s : State T} {g : Ghost T} {t : T} {excl : Bool} {k : After} {p : Pc T}
    {w : Word T} {Q R H : List T} {O : Option T} (h : Inv s g) (hfair : (s.pc t).fair = some excl)
    (hpends : (s.pc t).pends = k.tag) (hline : g.lists.queue ++ g.lists.cut = Q ++ R)
    (hp : (∃ id, p = .wakeAll k id) ∨ ∃ x id, p = .wakeSignal k x id)
    (hR : R ≠ []) (hsome : H ≠ [] ∨ O ≠ none)
    (hH : ∀ c, c ∈ H ↔ c ∈ R ∧ s.tag c = .shared) (hHn : H.Nodup)
    (hO : ∀ c, O = some c ↔ c ∈ R ∧ s.tag c ≠ .shared) (hOH : ∀ c, O = some c → H = [])
    (hunfair : w.unfair = s.word.unfair) (hreaders : w.readers = H.length)
    (hsmall : H.length < readersSize) (hwlocked : w.wlocked = O.isSome)
    (hchain : Chain s.next w.waitq Q)
    (hwork : ∀ l : Lists T, l.wake t = R → Work s.next s.tag l t p)
    (hshared : s.word.unfair = true → O = none → ∀ c ∈ Q, s.tag c ≠ .shared) :
    Inv (({ s with word := w }.make R).goto t p)
      ⟨{ g.lists with queue := Q, cut := [], wake := Function.update g.lists.wake t R }, H, O⟩ := by
  obtain ⟨t1, t2, t3, t4, t5, t6, t7, t8⟩ := Pc.fair_views hfair
  have hpv : p.pends = k.tag ∧ p.shares = false ∧ p.owns = false ∧ p.wakes = true
      ∧ p.sorts = false ∧ p.cuts = false ∧ p.fair = none ∧ p.leaves = false
      ∧ p.unfair = false ∧ p ≠ .aborted := by
    rcases hp with ⟨id, rfl⟩ | ⟨x, id, rfl⟩ <;> simp [Pc.pends, Pc.shares, Pc.owns, Pc.wakes,
      Pc.sorts, Pc.cuts, Pc.fair, Pc.leaves, Pc.unfair]
  obtain ⟨p1, p2, p3, p4, p5, p6, p7, p8, p9, p10⟩ := hpv
  have hapart : ∀ u, u ≠ t → (s.pc u).shares = false ∧ (s.pc u).owns = false :=
    fun u hu => h.clients.apart (h.clients.fair_apart hfair) hu
  have hshares : ∀ c, (Function.update s.pc t p c).shares = false := by
    grind -linarith [Function.update_apply]
  have howns : ∀ c, (Function.update s.pc t p c).owns = false := by
    grind -linarith [Function.update_apply]
  obtain ⟨hrest, hrds, hwrs⟩ := h.sort_nil hfair
  have hmp : ∀ c, c ∈ g.lists.pending ↔ c ∈ Q ∨ c ∈ R := by
    intro c
    rw [Lists.pending, hline, hrest, hrds, hwrs]
    simp
  have hnd : (Q ++ R).Nodup := by
    have hnd := h.clients.nodup
    rw [Lists.pending, hline, hrest, hrds, hwrs] at hnd
    simpa using hnd
  obtain ⟨hQn, hRn, hQR⟩ := List.nodup_append.mp hnd
  have hdisj : ∀ c, c ∈ Q → c ∉ R := fun c hcQ hcR => hQR c hcQ c hcR rfl
  have hheld : (∀ c ∈ g.hold, c = t) ∧ ∀ c, g.own = some c → c = t := by
    obtain ⟨-, -, htrue, hfalse⟩ := h.release_fair hfair
    cases excl with
    | true =>
      obtain ⟨ho, hh⟩ := htrue rfl
      rw [ho, hh]
      exact ⟨(by simp), fun c hc => (Option.some.inj hc).symm⟩
    | false =>
      obtain ⟨ho, hh, -⟩ := hfalse rfl
      rw [ho, hh]
      exact ⟨fun c hc => List.mem_singleton.mp hc, (by simp)⟩
  have hbusy : (s.pc t).pends ≠ none → s.made t = 0 := by
    refine h.clients.busy t ?_
    cases excl
    · exact .inl t1
    · exact .inr t2
  -- a waiter for an upgrade is the oldest one
  have hup : ∀ x ∈ Q, s.tag x ≠ .upgrade := by
    intro x hx htx
    obtain ⟨r, hr⟩ := Option.ne_none_iff_exists'.mp (mt List.getLast?_eq_none_iff.mp hR)
    have hl : (g.lists.queue ++ g.lists.cut).getLast? = some r := by
      rw [hline, getLast?_append_of_ne hR, hr]
    have hrR : r ∈ R := List.mem_of_getLast? hr
    have hx' : x ∈ g.lists.queue ++ g.lists.cut := by
      rw [hline]
      exact List.mem_append_left _ hx
    rcases List.mem_append.mp hx' with hxq | hxc
    · obtain ⟨hxl, hcut⟩ := h.queue.upgradeLast x hxq htx
      rw [hcut, List.append_nil, hxl] at hl
      exact hdisj x hx (Option.some.inj hl ▸ hrR)
    · rw [h.queue.upgradeCut x hxc htx, List.getLast?_concat] at hl
      exact hdisj x hx (Option.some.inj hl ▸ hrR)
  obtain ⟨hc, hq, hwk⟩ := h
  refine ⟨?_, ?_, fun u => ?_⟩
  · exact hc.serve (p1.trans hpends.symm) ⟨p4, p8, p9, p10, p5⟩ hshares howns t3 t7 hheld hbusy
      hmp hdisj hQn hRn ⟨hrest, hrds, hwrs⟩ hH hHn hO hOH hunfair
  · constructor
    case readers => exact hreaders
    case small => exact hsmall
    case wlocked => exact hwlocked
    case chain => exact hchain
    case free => exact fun hh ho => hsome.elim (absurd hh) (absurd ho)
    case cutter => exact fun hne => absurd rfl hne
    case sorting => exact fun hne => exists_update_of_not (hq.sorting hne) t4
    case upgradeLast => exact fun x hx htx => absurd htx (hup x hx)
    case upgradeCut => exact by simp
    case upgradeSort => exact hq.upgradeSort
    case upgradeOwn => exact fun x hx htx => absurd htx (hup x (hx.resolve_right (by simp)))
    case unfairQueue => exact fun hu ho => hshared (hunfair ▸ hu) ho
    case unfairLast =>
      intro _ c hf
      cases hfc : (Function.update s.pc t p c).fair with
      | none => exact absurd hfc hf
      | some e =>
        obtain ⟨f1, f2, -⟩ := Pc.fair_views hfc
        rw [hshares c] at f1
        rw [howns c] at f2
        rw [← f2] at f1
        cases f1
  · show Work s.next s.tag _ u (Function.update s.pc t p u)
    by_cases hu : u = t
    · rw [hu, Function.update_self]
      exact hwork _ (Function.update_self _ _ _)
    · rw [Function.update_of_ne hu]
      exact (hwk u).apart (hapart u hu).1 (hapart u hu).2 (Function.update_of_ne hu _ _)
        (fun _ _ => rfl) ⟨fun _ => rfl, rfl⟩

/-- **Who has the lock** once the waiters `R` are served. -/
def Granted (tag : T → Tag) (R H : List T) (O : Option T) : Prop :=
  (∃ x, R = [x] ∧ tag x ≠ .shared ∧ H = [] ∧ O = some x)
    ∨ (R ≠ [] ∧ (∀ x ∈ R, tag x = .shared) ∧ H = R ∧ O = none)

omit [DecidableEq T] in
/-- The nodes a chain visits are read off by following it. -/
theorem walk_eq {next : T → Option T} {p : Option T} {L : List T} (h : Chain next p L) :
    walk next p L.length = L := by
  induction L generalizing p with
  | nil => cases p <;> rfl
  | cons a L ih =>
    obtain ⟨rfl, h⟩ := h
    show a :: walk next (next a) L.length = a :: L
    rw [ih h]

/-- **The swap succeeds.** -/
theorem Inv.fairSwap {s : State T} {g : Ghost T} {t : T} {excl : Bool} {k : After} {new : Word T}
    {f : Fair T} (h : Inv s g) (ht : s.pc t = .fairSwap excl k s.word new f)
    (hfit : new.wlocked = false → f.count < readersSize) :
    ∃ Q R H O, g.lists.queue ++ g.lists.cut = Q ++ R ∧ Serves s.tag Q R ∧ Granted s.tag R H O
      ∧ Inv (fairSwap s t excl k s.word new f) ⟨{ g.lists with
        queue := Q, cut := [], wake := Function.update g.lists.wake t R }, H, O⟩ := by
  have hfair : (s.pc t).fair = some excl := by rw [ht]; rfl
  have hpends : (s.pc t).pends = k.tag := by rw [ht]; rfl
  obtain ⟨Q, R, W, hline, hs, hchR, hchQ, hf⟩ := h.fairFound ht
  obtain ⟨hr, hwl, -⟩ := h.release_fair hfair
  have hR : R ≠ [] := by
    rcases hs with ⟨x, rfl, -⟩ | ⟨hne, -⟩
    · exact List.cons_ne_nil _ _
    · exact hne
  have hlist : f.list ≠ none := fun hn => hR ((hchR.eq_nil_iff).mpr hn)
  obtain ⟨r, hlast⟩ := Option.ne_none_iff_exists'.mp (mt List.getLast?_eq_none_iff.mp hR)
  have hunf : (s.word.release excl).unfair = s.word.unfair := by cases excl <;> rfl
  have hnd := h.clients.nodup
  have hline' : (g.lists.queue ++ g.lists.cut).Nodup := by
    rw [Lists.pending, List.append_assoc, List.append_assoc] at hnd
    exact (List.nodup_append.mp hnd).1
  rw [hline] at hline'
  simp only [RwLock.fairSwap, if_true, if_neg hlist]
  rcases hs with ⟨x, rfl, hx⟩ | ⟨-, hall, hy⟩
  · -- one that wants the lock for itself
    have hnew : new = { s.word.release excl with waitq := W, wlocked := true } := by
      rw [hf.new, handOver, if_neg]
      intro htag
      exact hx (Option.some.inj htag)
    have hw : f.waiter = some x := hf.waiter
    have hnext : s.next x = none := hchR.2
    rw [hnew, hw]
    refine ⟨Q, [x], [], some x, hline, .inl ⟨x, rfl, hx⟩, .inl ⟨x, rfl, hx, rfl, rfl⟩, ?_⟩
    refine h.serve hfair hpends hline (.inr ⟨x, none, rfl⟩) hR (.inr (by simp)) (fun c => ?_)
      List.nodup_nil (fun c => ?_) (fun _ _ => rfl) hunf hr ?_ rfl hchQ (fun l hl => ?_) (by simp)
    · refine iff_of_false (by simp) ?_
      rintro ⟨hc, htag⟩
      rw [List.mem_singleton.mp hc] at htag
      exact hx htag
    · constructor
      · rintro ⟨rfl⟩
        exact ⟨List.mem_singleton_self x, hx⟩
      · rintro ⟨hc, -⟩
        rw [List.mem_singleton.mp hc]
    · rw [readersSize_eq]
      exact Nat.two_pow_pos 14
    · exact ⟨[], hl, rfl, hnext⟩
  · have htag : s.tag r = .shared := hall r (List.mem_of_getLast? hlast)
    have hnew : new = { s.word.release excl with waitq := W, readers := R.length % readersSize } := by
      rw [hf.new, handOver, hlast, if_pos (by rw [Option.map_some, htag])]
    have hwl' : new.wlocked = false := by
      rw [hnew]
      exact hwl
    have hcount : R.length < readersSize := hf.count ▸ hfit hwl'
    rw [Nat.mod_eq_of_lt hcount] at hnew
    have hwalk : walk s.next f.list f.count = R := by
      rw [hf.count]
      exact walk_eq hchR
    rw [hwl', hwalk, hnew]
    refine ⟨Q, R, R, none, hline, .inr ⟨hR, hall, hy⟩, .inr ⟨hR, hall, rfl, rfl⟩, ?_⟩
    refine h.serve hfair hpends hline (.inl ⟨f.list, rfl⟩) hR (.inl hR) (fun c => ?_)
      (List.nodup_append.mp hline').2.1 (fun c => ?_) (by simp) hunf rfl hcount hwl hchQ
      (fun l hl => ?_) (fun hu _ c hc => ?_)
    · exact ⟨fun hc => ⟨hc, hall c hc⟩, fun hc => hc.1⟩
    · refine iff_of_false (by simp) ?_
      rintro ⟨hc, hne⟩
      exact hne (hall c hc)
    · show Chain s.next f.list (l.wake t)
      rw [hl]
      exact hchR
    · -- in an unfair lock the oldest waiter is none that shares
      refine absurd htag (h.queue.unfairLast hu t (by rw [hfair]; simp) r ?_)
      rw [hline, getLast?_append_of_ne hR, hlast]

/-! ## Waking up -/

omit [DecidableEq T] in
/-- What it means to wake waiters up. -/
theorem Pc.wakes_views {p : Pc T} (h : p.wakes = true) : p.shares = false ∧ p.owns = false
    ∧ p.sorts = false ∧ p.cuts = false ∧ p.fair = none ∧ p.leaves = false ∧ p.unfair = false
    ∧ p.links = false ∧ p ≠ .aborted := by
  cases p <;> cases h <;> simp [Pc.shares, Pc.owns, Pc.sorts, Pc.cuts, Pc.fair, Pc.leaves,
    Pc.unfair, Pc.links]

/-- **`lw_waiter_wake_all`** goes to the next waiter, or ends. -/
theorem Inv.wakeAll {s : State T} {g : Ghost T} {t : T} {k : After} {id : Option T} (h : Inv s g)
    (ht : s.pc t = .wakeAll k id) : Inv (wakeAll s t k id) g := by
  have hw := h.work t
  rw [ht] at hw
  have hw : Chain s.next id (g.lists.wake t) := hw
  obtain ⟨t1, t2, t3, t4, t5, t6, t7, t8, t9⟩ := Pc.wakes_views (p := s.pc t) (by rw [ht]; rfl)
  have hpends : (s.pc t).pends = k.tag := by rw [ht]; rfl
  have hcuts : ∀ p : Pc T, (s.pc t).cuts = true → p.cuts = true := by
    intro p hc
    rw [t4] at hc
    cases hc
  have hown : ∀ p : Pc T, (s.pc t).fair = some true → p.fair = some true := by
    intro p hc
    rw [t5] at hc
    cases hc
  cases id with
  | none =>
    have hnil : g.lists.wake t = [] := (hw.eq_nil_iff).mpr rfl
    obtain ⟨p1, p2, p3, p4, p5, p6, p7, p8, p9, p10, p11⟩ := k.pc_views (T := T)
    refine h.move ⟨p1.trans hpends.symm, p2.trans t1.symm, p3.trans t2.symm, .inr hnil, .inr t8,
      p5.trans t3.symm, hcuts _, hown _, fun hf => ?_, fun hf => ?_, fun hf => ?_,
      fun hf => absurd p7 hf, p11⟩ ?_
    · rw [p7] at hf
      cases hf
    · rw [p8] at hf
      cases hf
    · rw [p9] at hf
      cases hf
    · cases k <;> trivial
  | some w =>
    obtain ⟨L, hL⟩ : ∃ L, g.lists.wake t = w :: L := by
      cases hwk : g.lists.wake t with
      | nil =>
        rw [hwk] at hw
        cases hw
      | cons a L =>
        rw [hwk] at hw
        exact ⟨L, by rw [Option.some.inj hw.1]⟩
    rw [hL] at hw
    exact h.move ⟨hpends.symm, t1.symm, t2.symm, .inl rfl, .inr t8, t3.symm, hcuts _, hown _, nofun,
      nofun, nofun, fun hf => absurd rfl hf, nofun⟩ ⟨L, hL, hw.2⟩

/-- **The `next` of a waiter is cleared** before it is signalled. -/
theorem Inv.wakeClear {s : State T} {g : Ghost T} {t w : T} {k : After} {id : Option T}
    (h : Inv s g) (ht : s.pc t = .wakeClear k w id) :
    Inv ((s.setNext w none).goto t (.wakeSignal k w id)) g := by
  have hw := h.work t
  rw [ht] at hw
  obtain ⟨L, hL, hch⟩ := hw
  obtain ⟨p, hp⟩ : ∃ p : Pc T, p = .wakeSignal k w id := ⟨_, rfl⟩
  obtain ⟨t1, t2, t3, t4, t5, t6, t7, t8, t9⟩ := Pc.wakes_views (p := s.pc t) (by rw [ht]; rfl)
  obtain ⟨p1, p2, p3, p4, p5, p6, p7, p8, p9⟩ := Pc.wakes_views (p := p) (by rw [hp]; rfl)
  have hpends : p.pends = (s.pc t).pends := by rw [hp, ht]; rfl
  have pw : p.wakes = true := by rw [hp]; rfl
  have hmem : w ∈ g.lists.wake t := hL ▸ List.mem_cons_self
  have hwn : w ∉ g.lists.pending := by
    intro hwp
    have h1 := (h.clients.wake t w hmem).2.1
    rw [((h.clients.pending w).mp hwp).2] at h1
    cases h1
  have hmp := @Lists.mem_pending T g.lists
  have hnd := h.clients.wakeNodup t
  rw [hL] at hnd
  have hwL : w ∉ L := (List.nodup_cons.mp hnd).1
  have hne : ∀ c ∈ g.lists.pending, Function.update s.next w none c = s.next c :=
    fun c hc => Function.update_of_ne (fun hcw : c = w => hwn (hcw ▸ hc)) _ _
  have hnone : ∀ c, s.next c = none → Function.update s.next w none c = none := by
    intro c hcn
    rw [Function.update_apply, hcn, ite_self]
  have hwp : (s.pc w).pends ≠ none := (h.clients.wake t w hmem).1
  have hwaker : ∀ u, u ≠ t → w ∉ g.lists.wake u :=
    fun u hu hm => hu (h.clients.waker u t w hm hmem)
  rw [← hp]
  obtain ⟨hc, hq, hwork⟩ := h
  refine ⟨?_, ?_, fun u => ?_⟩
  · refine hc.relist (p := p) ⟨hpends, p1.trans t1.symm, p2.trans t2.symm, .inl pw, .inr t8,
      p3.trans t3.symm, fun hx => ?_, fun hx => ?_, fun hx => ?_, fun hx => ?_, fun hx => ?_,
      fun hx => absurd p5 hx, p9⟩ rfl rfl rfl rfl rfl rfl (List.Perm.refl _) rfl
      fun c _ => hnone c
    · rw [t4] at hx
      cases hx
    · rw [t5] at hx
      cases hx
    · rw [p5] at hx
      cases hx
    · rw [p6] at hx
      cases hx
    · rw [p7] at hx
      cases hx
  · clear ht hp
    obtain ⟨h1, h2, h3, h4, h5, h6, h7, h8, h9, h10, h11, h12, h13⟩ := hq
    constructor
    case chain => exact h4.congr fun c hc => hne c (hmp.mpr (.inl hc))
    case cutter => exact fun hx => exists_update_of_not (h6 hx) t4
    case sorting => exact fun hx => exists_update_of_not (h7 hx) t3
    all_goals try simp only [State.goto, State.setNext]
    all_goals first
      | assumption
      | grind -linarith [Function.update_apply]
  · show Work (Function.update s.next w none) s.tag g.lists u (Function.update s.pc t p u)
    by_cases hu : u = t
    · rw [hu, Function.update_self, hp]
      exact ⟨L, hL, hch.update hwL none, Function.update_self _ _ _⟩
    · rw [Function.update_of_ne hu]
      refine (hwork u).congr hne (fun c hc => ?_) (fun _ _ => rfl) ⟨fun hl => ?_, rfl⟩
      · exact Function.update_of_ne (fun hcw : c = w => hwaker u hu (hcw ▸ hc)) _ _
      · refine Function.update_of_ne ?_ _ _
        rintro rfl
        refine hwp ?_
        cases hpu : s.pc u <;> rw [hpu] at hl <;> first | rfl | cases hl

/-- **The signal**, once for every waiter that was served. -/
theorem Inv.wakeSignal {s : State T} {g : Ghost T} {t w : T} {k : After} {id : Option T}
    (h : Inv s g) (ht : s.pc t = .wakeSignal k w id) :
    ∃ L, Inv (wakeSignal s t k w id)
      { g with lists := { g.lists with wake := Function.update g.lists.wake t L } } := by
  have hw := h.work t
  rw [ht] at hw
  obtain ⟨L, hL, hch, hn⟩ := hw
  refine ⟨L, ?_⟩
  obtain ⟨p, hp⟩ : ∃ p : Pc T, p = .wakeAll k id := ⟨_, rfl⟩
  obtain ⟨t1, t2, t3, t4, t5, t6, t7, t8, t9⟩ := Pc.wakes_views (p := s.pc t) (by rw [ht]; rfl)
  obtain ⟨p1, p2, p3, p4, p5, p6, p7, p8, p9⟩ := Pc.wakes_views (p := p) (by rw [hp]; rfl)
  have hpends : p.pends = (s.pc t).pends := by rw [hp, ht]; rfl
  have pw : p.wakes = true := by rw [hp]; rfl
  have hmem : w ∈ g.lists.wake t := hL ▸ List.mem_cons_self
  obtain ⟨hwp, hwm, hws⟩ := h.clients.wake t w hmem
  have hnd := h.clients.wakeNodup t
  rw [hL] at hnd
  obtain ⟨hwL, hLn⟩ := List.nodup_cons.mp hnd
  have hwaket : ∀ c, c ∈ g.lists.wake t ↔ c = w ∨ c ∈ L := by
    intro c
    rw [hL, List.mem_cons]
  have hwake' : ∀ u, Function.update g.lists.wake t L u = if u = t then L else g.lists.wake u :=
    fun u => Function.update_apply _ _ _ _
  have hpends' : ∀ c, (Function.update s.pc t p c).pends = (s.pc c).pends := by
    grind -linarith [Function.update_apply]
  have hshares' : ∀ c, (Function.update s.pc t p c).shares = (s.pc c).shares := by
    grind -linarith [Function.update_apply]
  have howns' : ∀ c, (Function.update s.pc t p c).owns = (s.pc c).owns := by
    grind -linarith [Function.update_apply]
  have hsorts' : ∀ c, (Function.update s.pc t p c).sorts = (s.pc c).sorts := by
    grind -linarith [Function.update_apply]
  have hsig : ∀ c, c ≠ w → Function.update s.signalled w true c = s.signalled c
      ∧ Function.update s.sent w (s.sent w + 1) c = s.sent c :=
    fun c hc => ⟨Function.update_of_ne hc _ _, Function.update_of_ne hc _ _⟩
  have hsigw : Function.update s.signalled w true w = true
      ∧ Function.update s.sent w (s.sent w + 1) w = 1 := by
    rw [Function.update_self, Function.update_self, hws]
    exact ⟨rfl, rfl⟩
  have hpend : Lists.pending { g.lists with wake := Function.update g.lists.wake t L }
      = g.lists.pending := rfl
  rw [RwLock.wakeSignal, ← hp]
  obtain ⟨hc, hq, hwork⟩ := h
  refine ⟨?_, ?_, fun u => ?_⟩
  · clear ht hp hch hL
    obtain ⟨h1, h2, h3, h4, h5, h6, h7, h8, h9, h10, h11, h12, h13, h14, h15, h16, h17, h18, h19,
      h20, h21, h22⟩ := hc
    constructor
    case told =>
      intro c hcp hcm
      rw [show ((_ : State T).pc c).pends = (s.pc c).pends from hpends' c] at hcp
      by_cases hcw : c = w
      · exact .inr ⟨hcw ▸ hsigw.2, hcw ▸ hsigw.1, hcw ▸ hn⟩
      · obtain ⟨hs1, hs2⟩ := hsig c hcw
        refine (h6 c hcp hcm).imp ?_ ?_
        · rintro ⟨a, b, u, hu⟩
          refine ⟨hs2.trans a, hs1.trans b, u, ?_⟩
          show c ∈ Function.update g.lists.wake t L u
          rw [hwake']
          split
          · next hut => exact ((hwaket c).mp (hut ▸ hu)).resolve_left hcw
          · exact hu
        · rintro ⟨a, b, d⟩
          exact ⟨hs2.trans a, hs1.trans b, d⟩
    all_goals
      try simp only [State.goto, hwake', hpends', hshares', howns', hsorts', hpend]
    all_goals first
      | assumption
      | grind -linarith [Function.update_apply]
  · clear ht hp
    obtain ⟨h1, h2, h3, h4, h5, h6, h7, h8, h9, h10, h11, h12, h13⟩ := hq
    constructor
    case cutter => exact fun hx => exists_update_of_not (h6 hx) t4
    case sorting => exact fun hx => exists_update_of_not (h7 hx) t3
    all_goals try simp only [State.goto]
    all_goals first
      | assumption
      | grind -linarith [Function.update_apply]
  · show Work s.next s.tag _ u (Function.update s.pc t p u)
    by_cases hu : u = t
    · rw [hu, Function.update_self, hp]
      show Chain s.next id (Function.update g.lists.wake t L t)
      rw [Function.update_self]
      exact hch
    · rw [Function.update_of_ne hu]
      exact (hwork u).rewake (Function.update_of_ne hu _ _)

end RwLock
