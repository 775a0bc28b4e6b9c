import Lwlock.MutexInv

/-!
# The steps of a mutex keep the invariant

One lemma for each kind of step. A thread that works on the waiters of a mutex does so
alone, so what it writes disturbs neither the other mutexes nor the other threads.
-/

namespace Mutex

variable {T M : Type} [DecidableEq T] [DecidableEq M]

/-! ## The others -/

omit [DecidableEq T] [DecidableEq M] in
/-- **The others go on knowing what they know**: nothing changes for the mutexes the
thread does not work on. -/
theorem Inv.others {s : State T M} {g g' : Ghost T M} {next' prev' : T → Option T} {t u : T}
    (h : Inv s g) (hut : u ≠ t)
    (hg : ∀ m, (s.pc t).works ≠ some m → g'.queue m = g.queue m ∧ g'.rest m = g.rest m)
    (hn : ∀ m x, s.waits x = some m → (s.pc t).works ≠ some m →
      next' x = s.next x ∧ prev' x = s.prev x) : Work next' prev' g' (s.pc u) := by
  cases hm : (s.pc u).works with
  | none => exact work_of_not_works hm
  | some m =>
    have ht : (s.pc t).works ≠ some m := fun ht => hut (h.clients.works_unique hm ht)
    refine (h.work u).congr hm (hg m ht).1 (hg m ht).2 (fun x hx => ?_) fun w hw => ?_
    · exact hn m x (h.clients.queued m x hx).1 ht
    · exact hn m w (h.clients.hands u m w hw).2.1 ht

omit [DecidableEq M] in
/-- A thread moves, and nothing else. -/
theorem Inv.work_goto {s : State T M} {g : Ghost T M} {t : T} {p : Pc T M} (h : Inv s g)
    (hp : Work s.next s.prev g p) (u : T) :
    Work s.next s.prev g (Function.update s.pc t p u) := by
  by_cases hu : u = t
  · subst hu
    rwa [Function.update_self]
  · rw [Function.update_of_ne hu]
    exact h.work u

/-- What a program point says, all together. -/
def Pc.Views (p : Pc T M) (locks : Option M) (linking : Bool) (linked : Option (Option T))
    (awaits unlocks : Option M) (oldOwner readOwner : Option (Option T)) (hands : Option (M × T)) :
    Prop :=
  p.locks = locks ∧ p.linking = linking ∧ p.linked = linked ∧ p.awaits = awaits
    ∧ p.unlocks = unlocks ∧ p.oldOwner = oldOwner ∧ p.readOwner = readOwner ∧ p.hands = hands
    ∧ p ≠ .aborted

omit [DecidableEq T] [DecidableEq M] in
theorem views_idle : (Pc.idle : Pc T M).Views none false none none none none none none :=
  ⟨rfl, rfl, rfl, rfl, rfl, rfl, rfl, rfl, nofun⟩

omit [DecidableEq T] [DecidableEq M] in
theorem views_lockCas (m : M) (sync : Bool) (old : Word T) :
    (Pc.lockCas m sync old).Views (some m) true
      (some (if old.owner = none then none else old.waitq)) none none none (some old.owner) none :=
  ⟨rfl, rfl, rfl, rfl, rfl, rfl, rfl, rfl, nofun⟩

omit [DecidableEq T] [DecidableEq M] in
theorem views_waiting (m : M) :
    (Pc.waiting m : Pc T M).Views none false none (some m) none none none none :=
  ⟨rfl, rfl, rfl, rfl, rfl, rfl, rfl, rfl, nofun⟩

omit [DecidableEq T] [DecidableEq M] in
theorem views_unlockScan (m : M) (old : Word T) (w : T) :
    (Pc.unlockScan m old w).Views none false none none (some m) (some old.owner) none none :=
  ⟨rfl, rfl, rfl, rfl, rfl, rfl, rfl, rfl, nofun⟩

omit [DecidableEq T] [DecidableEq M] in
theorem views_unlinkNext (m : M) (w : T) :
    (Pc.unlinkNext m w).Views none false none none none none none (some (m, w)) :=
  ⟨rfl, rfl, rfl, rfl, rfl, rfl, rfl, rfl, nofun⟩

omit [DecidableEq T] [DecidableEq M] in
theorem views_clearPrev (m : M) (w : T) :
    (Pc.clearPrev m w).Views none false none none none none none (some (m, w)) :=
  ⟨rfl, rfl, rfl, rfl, rfl, rfl, rfl, rfl, nofun⟩

omit [DecidableEq T] [DecidableEq M] in
theorem views_clearNext (m : M) (w : T) :
    (Pc.clearNext m w).Views none false none none none none none (some (m, w)) :=
  ⟨rfl, rfl, rfl, rfl, rfl, rfl, rfl, rfl, nofun⟩

omit [DecidableEq T] [DecidableEq M] in
theorem views_wakeup (m : M) (w : T) :
    (Pc.wakeup m w).Views none false none none none none none (some (m, w)) :=
  ⟨rfl, rfl, rfl, rfl, rfl, rfl, rfl, rfl, nofun⟩

/-! ## Moving on -/

omit [DecidableEq M] in
/-- **A thread goes on** with what it has. -/
theorem Inv.goto {s : State T M} {g : Ghost T M} {t : T} {p : Pc T M} (h : Inv s g)
    (hlocks : ∀ m, p.locks = some m → s.waits t = none ∧ (s.word m).owner ≠ some t)
    (hlinking : (s.pc t).linking = true → p.linking = true) (hlinked : p.linked = none)
    (hawaits : ∀ m, p.awaits = some m → s.waits t = some m)
    (hunlocks : ∀ m, p.unlocks = some m → (s.word m).owner = some t ∧ s.waits t ≠ some m)
    (hold : ∀ o, p.oldOwner = some o → o = some t)
    (hread : ∀ o, p.readOwner = some o → o ≠ some t) (hhands : p.hands = (s.pc t).hands)
    (halive : p ≠ .aborted) (hwork : Work s.next s.prev g p) : Inv (s.goto t p) g := by
  refine ⟨?_, h.chain, h.prevOk, h.work_goto hwork⟩
  have hc := h.clients
  clear hwork h
  unfold State.goto
  constructor
  all_goals grind -linarith [Function.update_apply]

/-! ## Locking -/

omit [DecidableEq M] in
/-- **A thread sets its `next`** for the swap. -/
theorem Inv.link {s : State T M} {g : Ghost T M} {t : T} {m : M} {sync : Bool} {old : Word T}
    (h : Inv s g) (hpc : s.pc t = .lockTry m sync old) :
    Inv ((s.setNext t (if old.owner = none then none else old.waitq)).goto t
      (.lockCas m sync old)) g := by
  have hlt : (s.pc t).locks = some m := by rw [hpc]; rfl
  obtain ⟨hwt, hot⟩ := h.clients.locks t m hlt
  have hmem : ∀ j, t ∉ g.queue j ++ g.rest j := by
    intro j hj
    rcases List.mem_append.mp hj with hj | hj
    · rw [(h.clients.queued j t hj).1] at hwt
      cases hwt
    · rw [(h.clients.rest j t hj).2.2.1] at hwt
      cases hwt
  have hne : ∀ (j : M) (x : T), s.waits x = some j → x ≠ t := by
    rintro j x hx rfl
    rw [hwt] at hx
    cases hx
  refine ⟨?_, fun j => (h.chain j).update (hmem j) _, h.prevOk, fun u => ?_⟩
  · have hhands : (s.pc t).hands = none := by rw [hpc]; rfl
    have hread := h.clients.readOwner t old.owner (by rw [hpc]; rfl)
    obtain ⟨v1, v2, v3, v4, v5, v6, v7, v8, v9⟩ := views_lockCas (T := T) m sync old
    have hc := h.clients
    unfold State.goto State.setNext
    generalize Pc.lockCas m sync old = p at *
    clear hpc h
    constructor
    all_goals grind -linarith [Function.update_apply]
  · simp only [State.goto, State.setNext]
    by_cases hu : u = t
    · subst hu
      rw [Function.update_self]
      trivial
    · rw [Function.update_of_ne hu]
      refine h.others hu (fun _ _ => ⟨rfl, rfl⟩) fun j x hx _ => ?_
      rw [Function.update_of_ne (hne j x hx)]
      exact ⟨rfl, rfl⟩

/-- **A thread takes a free mutex.** -/
theorem Inv.acquire {s : State T M} {g : Ghost T M} {t : T} {m : M} {waitq : Option T}
    (h : Inv s g) (hw : (s.word m).owner = none) (hq : waitq = (s.word m).waitq)
    (hpc : (s.pc t).locks = some m ∧ (s.pc t).linked = some none
      ∨ (s.pc t).linking = false ∧ (s.pc t).hands = none) :
    Inv ((s.setWord m ⟨some t, waitq⟩).goto t .idle) g := by
  have hempty := h.clients.free m hw
  have hrest : g.rest m = [] := by
    refine List.eq_nil_iff_forall_not_mem.mpr fun x hx => ?_
    rw [(h.clients.rest m x hx).2.1] at hw
    cases hw
  have hhands : (s.pc t).hands = none := by
    rcases hpc with ⟨hpc, -⟩ | ⟨-, hpc⟩
    · revert hpc
      cases s.pc t <;> simp [Pc.locks, Pc.hands]
    · exact hpc
  refine ⟨?_, fun j => ?_, h.prevOk, h.work_goto trivial⟩
  · obtain ⟨v1, v2, v3, v4, v5, v6, v7, v8, v9⟩ := views_idle (T := T) (M := M)
    have hc := h.clients
    unfold State.goto State.setWord
    generalize Pc.idle = p at *
    clear h
    constructor
    all_goals grind -linarith [Function.update_apply]
  · have hj := h.chain j
    simp only [State.goto, State.setWord]
    by_cases hjm : j = m
    · subst hjm
      rw [Function.update_self, hq]
      exact hj
    · rw [Function.update_of_ne hjm]
      exact hj

/-- **A thread queues.** -/
theorem Inv.enqueue {s : State T M} {g : Ghost T M} {t o : T} {m : M} {p : Pc T M}
    {sync : Bool} {old : Word T} (h : Inv s g) (hw : s.word m = old) (ho : old.owner = some o)
    (hpc : s.pc t = .lockCas m sync old) (hp : p = .waiting m ∨ p = .idle) :
    Inv ({ s.setWord m ⟨old.owner, some t⟩ with
        waits := Function.update s.waits t (some m)
        made := Function.update s.made t 0
        sent := Function.update s.sent t 0 }.goto t p)
      { g with queue := Function.update g.queue m (t :: g.queue m) } := by
  have hlt : (s.pc t).locks = some m := by rw [hpc]; rfl
  have hld : (s.pc t).linked = some old.waitq := by
    rw [hpc]
    simp only [Pc.linked, ho, reduceCtorEq, if_false]
  have hhands : (s.pc t).hands = none := by rw [hpc]; rfl
  have hworks : (s.pc t).works = none := by rw [hpc]; rfl
  obtain ⟨hwt, hot⟩ := h.clients.locks t m hlt
  obtain ⟨-, hprev, -⟩ := h.clients.quiet t hwt
  have hnext := h.clients.linked t _ hld
  have hv : p.Views none false none (if p = .waiting m then some m else none) none none none none := by
    rcases hp with rfl | rfl
    · rw [if_pos rfl]
      exact views_waiting m
    · exact views_idle
  have hwork : ∀ next prev (g : Ghost T M), Work next prev g p := by
    rcases hp with rfl | rfl <;> exact fun _ _ _ => trivial
  refine ⟨?_, fun j => ?_, fun j => ?_, fun u => ?_⟩
  · obtain ⟨v1, v2, v3, v4, v5, v6, v7, v8, v9⟩ := hv
    have hc := h.clients
    have hwo : (s.word m).owner = some o := hw ▸ ho
    have hmem : ∀ j, t ∉ g.queue j := by grind -linarith
    have hgive : ∀ j x, s.waits x = some j → x ∉ g.queue j → s.sent x = 0 → g.giver x ≠ t := by
      grind -linarith
    clear h hp hpc hwork
    unfold State.goto State.setWord
    constructor
    all_goals grind -linarith [Function.update_apply]
  · have hj := h.chain j
    simp only [State.goto, State.setWord]
    by_cases hjm : j = m
    · subst hjm
      rw [Function.update_self, Function.update_self]
      refine Chain.push hj ?_
      rw [hnext, hw]
    · rw [Function.update_of_ne hjm, Function.update_of_ne hjm]
      exact hj
  · have hj := h.prevOk j
    simp only [State.goto, State.setWord]
    by_cases hjm : j = m
    · subst hjm
      rw [Function.update_self]
      exact ⟨.inl hprev, hj.weaken⟩
    · rw [Function.update_of_ne hjm]
      exact hj
  · simp only [State.goto, State.setWord]
    by_cases hu : u = t
    · subst hu
      rw [Function.update_self]
      exact hwork _ _ _
    · rw [Function.update_of_ne hu]
      cases hm : (s.pc u).works with
      | none => exact work_of_not_works hm
      | some j =>
        by_cases hjm : j = m
        · subst hjm
          exact (h.work u).enqueue hm (Function.update_self _ _ _) rfl
        · exact (h.work u).congr hm (Function.update_of_ne hjm _ _) rfl
            (fun _ _ => ⟨rfl, rfl⟩) fun _ _ => ⟨rfl, rfl⟩

omit [DecidableEq M] in
/-- **A thread that was signalled has the mutex.** -/
theorem Inv.completeWait {s : State T M} {g : Ghost T M} {t : T} {m : M} (h : Inv s g)
    (hpc : s.pc t = .waiting m) (hsig : s.signalled t = true) :
    (s.word m).owner = some t ∧ Inv ({ s with
      signalled := Function.update s.signalled t false
      waits := Function.update s.waits t none }.goto t .idle) g := by
  have hwt := h.clients.awaits t m (by rw [hpc]; rfl)
  have hhands : (s.pc t).hands = none := by rw [hpc]; rfl
  have hnot : ∀ j, t ∉ g.queue j := by
    intro j hj
    rw [(h.clients.queued j t hj).2.2.2.1] at hsig
    cases hsig
  obtain ⟨howner, hmade, hsent⟩ := h.clients.handed m t hwt (hnot m)
  have hlinks : s.next t = none ∧ s.prev t = none := by
    rcases hsent with ⟨-, hs, -⟩ | ⟨-, -, h1, h2⟩
    · rw [hs] at hsig
      cases hsig
    · exact ⟨h1, h2⟩
  refine ⟨howner, ?_, h.chain, h.prevOk, h.work_goto trivial⟩
  obtain ⟨v1, v2, v3, v4, v5, v6, v7, v8, v9⟩ := views_idle (T := T) (M := M)
  have hc := h.clients
  unfold State.goto
  generalize Pc.idle = p at *
  clear h
  constructor
  all_goals grind -linarith [Function.update_apply]

/-! ## Walking to the oldest waiter -/

omit [DecidableEq T] [DecidableEq M] in
/-- The owner who was woken up finds no other one at the end of the queue. -/
theorem Clients.rest_eq_nil {s : State T M} {g : Ghost T M} (h : Clients s g) {t : T} {m : M}
    (ho : (s.word m).owner = some t) (hw : s.waits t ≠ some m) : g.rest m = [] := by
  refine List.eq_nil_iff_forall_not_mem.mpr fun x hx => ?_
  obtain ⟨-, hox, hwx, -, -⟩ := h.rest m x hx
  obtain rfl := Option.some.inj (ho.symm.trans hox)
  exact hw hwx

omit [DecidableEq M] in
/-- **An owner starts the walk** at the youngest waiter. -/
theorem Inv.startScan {s : State T M} {g : Ghost T M} {t : T} {m : M} (h : Inv s g)
    (hlinking : (s.pc t).linking = false) (hhands : (s.pc t).hands = none)
    (ho : (s.word m).owner = some t) (hw : s.waits t ≠ some m) :
    Inv (startScan s t m (s.word m)) g := by
  have hchain := h.chain m
  rw [h.clients.rest_eq_nil ho hw, List.append_nil] at hchain
  have hgo : ∀ p : Pc T M, p.locks = none → p.linked = none → p.awaits = none →
      p.unlocks = some m → p.oldOwner = some (s.word m).owner → p.readOwner = none →
      p.hands = none → p ≠ .aborted → Work s.next s.prev g p → Inv (s.goto t p) g := by
    intro p h1 h2 h3 h4 h5 h6 h7 h8 h9
    refine h.goto ?_ ?_ h2 ?_ ?_ ?_ ?_ (h7.trans hhands.symm) h8 h9
    · intro j hj
      rw [h1] at hj
      cases hj
    · intro hl
      rw [hlinking] at hl
      cases hl
    · intro j hj
      rw [h3] at hj
      cases hj
    · intro j hj
      rw [h4] at hj
      obtain rfl := Option.some.inj hj
      exact ⟨ho, hw⟩
    · intro o hoo
      rw [h5] at hoo
      exact (Option.some.inj hoo).symm.trans ho
    · intro o hoo
      rw [h6] at hoo
      cases hoo
  unfold Mutex.startScan
  cases hq : (s.word m).waitq with
  | none => exact hgo _ rfl rfl rfl rfl rfl rfl rfl nofun hq
  | some w =>
    refine hgo _ rfl rfl rfl rfl rfl rfl rfl nofun ?_
    cases hL : g.queue m with
    | nil =>
      rw [hL, hq] at hchain
      cases hchain
    | cons x B =>
      rw [hL, hq] at hchain
      obtain rfl := Option.some.inj hchain.1
      have hp := h.prevOk m
      rw [hL] at hp
      exact ⟨[], [], B, hL, hq, hp.1.elim id id, rfl⟩

/-- **An iteration of the walk**, behind which the `prev` fields are set. -/
theorem Inv.unlockScan {s : State T M} {g : Ghost T M} {t w : T} {m : M} {old : Word T}
    (h : Inv s g) (hpc : s.pc t = .unlockScan m old w) : Inv (unlockScan s t m old w) g := by
  obtain ⟨ho, hw⟩ := h.clients.unlocks t m (by rw [hpc]; rfl)
  have hold := h.clients.oldOwner t old.owner (by rw [hpc]; rfl)
  obtain ⟨P, A, B, hq, hL⟩ : Work s.next s.prev g (.unlockScan m old w) := hpc ▸ h.work t
  have hchain := h.chain m
  rw [h.clients.rest_eq_nil ho hw, List.append_nil, hq, ← List.append_assoc] at hchain
  unfold Mutex.unlockScan
  cases hn : s.next w with
  | none =>
    have hB : B = [] := by
      obtain ⟨r, -, -, hB⟩ := chain_append.mp hchain
      rw [hn] at hB
      exact (Chain.eq_nil_iff hB).mpr rfl
    subst hB
    refine h.goto nofun ?_ rfl nofun ?_ ?_ nofun ?_ nofun ⟨P, A, hq, hn ▸ hL⟩
    · rw [hpc]
      nofun
    · rintro j ⟨⟩
      exact ⟨ho, hw⟩
    · rintro o ⟨⟩
      exact hold
    · rw [hpc]
      rfl
  | some n =>
    obtain ⟨r, -, -, hB⟩ := chain_append.mp hchain
    rw [hn] at hB
    obtain _ | ⟨b, B⟩ := B
    · cases hB
    obtain rfl := Option.some.inj hB.1
    have hnd : (P ++ (A ++ w :: n :: B)).Nodup := hq ▸ h.clients.nodup m
    have hnq : n ∈ g.queue m := by
      rw [hq]
      simp
    have hwn := (h.clients.queued m n hnq).1
    change Inv ((s.setPrev n (some w)).goto t (.unlockScan m old n)) g
    refine ⟨?_, h.chain, fun j => ?_, fun u => ?_⟩
    · have hc := h.clients
      have hwork : (s.pc t).hands = none := by rw [hpc]; rfl
      have hlin : (s.pc t).linking = false := by rw [hpc]; rfl
      obtain ⟨v1, v2, v3, v4, v5, v6, v7, v8, v9⟩ := views_unlockScan m old n
      unfold State.goto State.setPrev
      generalize Pc.unlockScan m old n = p at *
      clear h hpc hL hchain hB hq hnd
      constructor
      all_goals grind -linarith [Function.update_apply]
    · simp only [State.goto, State.setPrev]
      have hj := h.prevOk j
      by_cases hjm : j = m
      · subst hjm
        rw [hq, ← List.append_assoc] at hj ⊢
        exact hj.set (by rwa [List.append_assoc])
      · refine hj.congr fun x hx => ?_
        have hxn : x ≠ n := by
          rintro rfl
          exact hjm (Option.some.inj ((h.clients.queued j x hx).1.symm.trans hwn))
        rw [Function.update_of_ne hxn]
    · simp only [State.goto, State.setPrev]
      by_cases hu : u = t
      · subst hu
        rw [Function.update_self]
        refine ⟨P, A ++ [w], B, by rw [hq]; simp, ?_⟩
        have hnA : n ∉ A ++ [w] := by
          have hd : (A ++ [w] ++ n :: B).Nodup := by
            simpa using (List.nodup_append.mp hnd).2.1
          exact fun hx => List.disjoint_of_nodup_append hd hx List.mem_cons_self
        rw [List.append_assoc, List.singleton_append, linked_append_cons]
        rw [hn] at hL
        have hL' : Linked s.next (Function.update s.prev n (some w)) none old.waitq (A ++ [w])
          (some n) := hL.congr (fun _ _ => rfl) fun x hx => Function.update_of_ne (ne_of_mem_of_not_mem hx hnA) _ _
        exact ⟨hn.symm ▸ hL', hn, Function.update_self _ _ _, rfl⟩
      · rw [Function.update_of_ne hu]
        refine h.others hu (fun _ _ => ⟨rfl, rfl⟩) fun j x hx hj => ⟨rfl, ?_⟩
        have hxn : x ≠ n := by
          rintro rfl
          rw [hpc] at hj
          exact hj (hwn.symm.trans hx)
        rw [Function.update_of_ne hxn]

/-! ## Handing over -/

/-- **A mutex nobody waits for is let go.** -/
theorem Inv.release {s : State T M} {g : Ghost T M} {t : T} {m : M} {old : Word T}
    (h : Inv s g) (hpc : s.pc t = .unlockCas m old none) (hw : s.word m = old) :
    g.queue m = [] ∧ Inv ((s.setWord m ⟨none, old.waitq⟩).goto t .idle) g := by
  obtain ⟨ho, hwt⟩ := h.clients.unlocks t m (by rw [hpc]; rfl)
  have hnone : old.waitq = none := by
    have := h.work t
    rwa [hpc] at this
  have hchain := h.chain m
  have hrest := h.clients.rest_eq_nil ho hwt
  have hq : g.queue m = [] := by
    rw [hw, hnone, hrest, List.append_nil] at hchain
    exact (hchain.eq_nil_iff).mpr rfl
  refine ⟨hq, ?_, fun j => ?_, h.prevOk, h.work_goto trivial⟩
  · have hhands : (s.pc t).hands = none := by rw [hpc]; rfl
    have hlin : (s.pc t).linking = false := by rw [hpc]; rfl
    obtain ⟨v1, v2, v3, v4, v5, v6, v7, v8, v9⟩ := views_idle (T := T) (M := M)
    have hc := h.clients
    unfold State.goto State.setWord
    generalize Pc.idle = p at *
    clear h hpc hchain
    constructor
    all_goals grind -linarith [Function.update_apply]
  · have hj := h.chain j
    simp only [State.goto, State.setWord]
    by_cases hjm : j = m
    · subst hjm
      rw [Function.update_self, hq, hrest]
      exact hnone
    · rw [Function.update_of_ne hjm]
      exact hj

/-- What changes of who waits where a mutex is handed to its oldest waiter. -/
def Ghost.pass (g : Ghost T M) (t : T) (m : M) (w : T) (A : List T) : Ghost T M where
  queue := Function.update g.queue m A
  rest := Function.update g.rest m (if A = [] then [] else [w])
  giver := Function.update g.giver w t

/-- **The mutex is handed to the oldest waiter**, who is not out of the queue yet. -/
theorem Inv.pass {s : State T M} {g : Ghost T M} {t w : T} {m : M} {old : Word T}
    (h : Inv s g) (hpc : s.pc t = .unlockCas m old (some w)) (hword : s.word m = old) :
    ∃ A, g.queue m = A ++ [w] ∧ Inv ({
      s.setWord m ⟨some w, if old.waitq = some w then none else old.waitq⟩ with
        made := Function.update s.made w (s.made w + 1) }.goto t (.unlinkNext m w))
      (g.pass t m w A) := by
  obtain ⟨ho, hwt⟩ := h.clients.unlocks t m (by rw [hpc]; rfl)
  obtain ⟨P, A, hq, hL⟩ : Work s.next s.prev g (.unlockCas m old (some w)) := hpc ▸ h.work t
  have hchain := h.chain m
  rw [hword, h.clients.rest_eq_nil ho hwt, List.append_nil] at hchain
  have hq : g.queue m = A ++ [w] := hchain.unique hL.segment
  rw [hq] at hchain
  have hnd := h.clients.nodup m
  rw [hq] at hnd
  have hwA : w ∉ A := fun hx => List.disjoint_of_nodup_append hnd hx (List.mem_singleton_self w)
  have hwq : w ∈ g.queue m := by
    rw [hq]
    simp
  obtain ⟨hww, hmade, hsent, hsig, how⟩ := h.clients.queued m w hwq
  have hnext : s.next w = none := hL.next_last
  have hA : A = [] ∨ ∃ X p, A = X ++ [p] := by
    cases A using List.reverseRecOn with
    | nil => exact .inl rfl
    | append_singleton X p => exact .inr ⟨X, p, rfl⟩
  refine ⟨A, hq, ?_, fun j => ?_, fun j => ?_, fun u => ?_⟩
  · have hhands : (s.pc t).hands = none := by rw [hpc]; rfl
    have hlin : (s.pc t).linking = false := by rw [hpc]; rfl
    have hnone : ∀ x, (s.pc x).hands ≠ some (m, w) := by
      intro x hx
      exact (h.clients.hands x m w hx).2.2.1 hwq
    have hgive : ∀ j x, s.waits x = some j → x ∉ g.queue j → s.sent x = 0 → g.giver x ≠ t := by
      have hc := h.clients
      clear h hpc hchain hL
      grind -linarith
    have hndA : A.Nodup := (List.nodup_append.mp hnd).1
    have hmemq : ∀ x, x ∈ g.queue m ↔ x ∈ A ∨ x = w := by
      intro x
      rw [hq]
      simp
    obtain ⟨v1, v2, v3, v4, v5, v6, v7, v8, v9⟩ := views_unlinkNext m w
    have hc := h.clients
    have hnot : ∀ j x, x ≠ w → x ∉ Function.update g.queue m A j → x ∉ g.queue j := by
      grind -linarith [Function.update_apply]
    have hR : (if A = [] then [] else [w]) = [] ∨ (if A = [] then [] else [w]) = [w] := by
      split <;> simp
    have hmade' : s.made w + 1 = 1 := by rw [hmade]
    unfold State.goto State.setWord Ghost.pass
    rw [hmade']
    generalize Pc.unlinkNext m w = p at *
    generalize (if A = [] then [] else [w]) = R at *
    generalize (if old.waitq = some w then none else old.waitq) = v at *
    clear h hpc hchain hL hA hnd hword hq hmade hmade'
    clear hq
    constructor
    all_goals grind -linarith [Function.update_apply]
  · have hj := h.chain j
    simp only [State.goto, State.setWord, Ghost.pass]
    by_cases hjm : j = m
    · subst hjm
      rw [Function.update_self, Function.update_self, Function.update_self]
      rcases hA with rfl | ⟨X, p, rfl⟩
      · rw [if_pos hchain.1, if_pos rfl]
        rfl
      · have hne : old.waitq ≠ some w := by
          intro hx
          cases X with
          | nil => exact hwA (by simpa using (Option.some.inj (hx.symm.trans hchain.1)))
          | cons y X =>
            obtain rfl := Option.some.inj (hx.symm.trans hchain.1)
            exact hwA (by simp)
        rw [if_neg hne, if_neg (by simp)]
        exact hchain
    · rw [Function.update_of_ne hjm, Function.update_of_ne hjm, Function.update_of_ne hjm]
      exact hj
  · have hj := h.prevOk j
    simp only [State.goto, State.setWord, Ghost.pass]
    by_cases hjm : j = m
    · subst hjm
      rw [Function.update_self]
      rw [hq] at hj
      exact hj.prefix
    · rw [Function.update_of_ne hjm]
      exact hj
  · simp only [State.goto, State.setWord]
    by_cases hu : u = t
    · subst hu
      rw [Function.update_self]
      refine ⟨hnext, ?_⟩
      simp only [Ghost.pass, Function.update_self]
      rcases hA with rfl | ⟨X, p, rfl⟩
      · exact .inl ⟨if_pos rfl, hL.2.1⟩
      · refine .inr ⟨if_neg (by simp), X, p, rfl, ?_⟩
        rw [List.append_assoc] at hL
        exact hL.prev_eq
    · rw [Function.update_of_ne hu]
      refine h.others hu (fun j hj => ?_) fun _ _ _ _ => ⟨rfl, rfl⟩
      have hjm : j ≠ m := by
        rintro rfl
        rw [hpc] at hj
        exact hj rfl
      exact ⟨Function.update_of_ne hjm _ _, Function.update_of_ne hjm _ _⟩

/-! ## Taking the new owner out of the queue -/

omit [DecidableEq M] in
/-- The new owner is nobody's next waiter, so there is nothing to write behind it. -/
theorem Inv.unlinkNext {s : State T M} {g : Ghost T M} {t w : T} {m : M} (h : Inv s g)
    (hpc : s.pc t = .unlinkNext m w) : Inv (unlinkNext s t m w) g := by
  obtain ⟨hn, hr⟩ : Work s.next s.prev g (.unlinkNext m w) := hpc ▸ h.work t
  unfold Mutex.unlinkNext
  rw [hn]
  refine h.goto nofun ?_ rfl nofun nofun nofun nofun (by rw [hpc]; rfl) nofun ?_
  · rw [hpc]
    nofun
  · rcases hr with ⟨hr, hp⟩ | ⟨hr, X, p, hX, hp⟩
    · rw [hp]
      exact ⟨hn, hr⟩
    · rw [hp]
      exact ⟨hn, hr, X, hX⟩

/-- **The new owner is taken out of the queue.** -/
theorem Inv.unlinkPrev {s : State T M} {g : Ghost T M} {t w : T} {m : M} {prev : Option T}
    (h : Inv s g) (hpc : s.pc t = .unlinkPrev m w prev) :
    ∃ r, Inv (unlinkPrev s t m w prev) { g with rest := r } := by
  cases prev with
  | none =>
    obtain ⟨hn, hr⟩ : Work s.next s.prev g (.unlinkPrev m w none) := hpc ▸ h.work t
    refine ⟨g.rest, h.goto nofun ?_ rfl nofun nofun nofun nofun (by rw [hpc]; rfl) nofun ⟨hn, hr⟩⟩
    rw [hpc]
    nofun
  | some p =>
    obtain ⟨hn, hr, X, hX⟩ : Work s.next s.prev g (.unlinkPrev m w (some p)) := hpc ▸ h.work t
    have hnd := h.clients.nodup m
    rw [hX] at hnd
    have hpX : p ∉ X := fun hx => List.disjoint_of_nodup_append hnd hx (List.mem_singleton_self p)
    have hpq : p ∈ g.queue m := by
      rw [hX]
      simp
    have hpm := (h.clients.queued m p hpq).1
    have hworks : (s.pc t).works = some m := by rw [hpc]; rfl
    obtain ⟨how, hww, hwq, -⟩ := h.clients.hands t m w (by rw [hpc]; rfl)
    have hwp : w ≠ p := fun hx => hwq (hx ▸ hpq)
    refine ⟨Function.update g.rest m [], ?_, fun j => ?_, h.prevOk, fun u => ?_⟩
    · have hhands : (s.pc t).hands = some (m, w) := by rw [hpc]; rfl
      have hlin : (s.pc t).linking = false := by rw [hpc]; rfl
      have hpl : (s.pc p).locks = none := by
        cases hx : (s.pc p).locks with
        | none => rfl
        | some j => exact absurd (hpm.symm.trans (h.clients.locks p j hx).1) nofun
      have hplk : ∀ v, (s.pc p).linked ≠ some v := by
        intro v hv
        revert hpl hv
        cases s.pc p <;> simp [Pc.locks, Pc.linked]
      obtain ⟨v1, v2, v3, v4, v5, v6, v7, v8, v9⟩ := views_clearPrev m w
      have hc := h.clients
      change Clients ((s.setNext p (s.next w)).goto t (.clearPrev m w)) _
      unfold State.goto State.setNext
      generalize Pc.clearPrev m w = q at *
      clear h hpc hX hnd
      constructor
      all_goals grind -linarith [Function.update_apply]
    · have hj := h.chain j
      change Chain (Function.update s.next p (s.next w)) _ (g.queue j ++ Function.update g.rest m [] j)
      by_cases hjm : j = m
      · subst hjm
        rw [Function.update_self, List.append_nil, hX, hn]
        rw [hr, hX] at hj
        obtain ⟨r, hL, -⟩ := chain_append.mp hj
        exact hL.redirect hpX none
      · rw [Function.update_of_ne hjm]
        refine hj.update (fun hx => ?_) _
        rcases List.mem_append.mp hx with hx | hx
        · exact hjm (Option.some.inj ((h.clients.queued j p hx).1.symm.trans hpm))
        · exact hjm (Option.some.inj ((h.clients.rest j p hx).2.2.1.symm.trans hpm))
    · change Work (Function.update s.next p (s.next w)) s.prev _ (Function.update s.pc t _ u)
      by_cases hu : u = t
      · subst hu
        rw [Function.update_self]
        refine ⟨?_, Function.update_self _ _ _⟩
        rw [Function.update_of_ne hwp, hn]
      · rw [Function.update_of_ne hu]
        refine h.others hu (fun j hj => ?_) fun j x hx hj => ?_
        · have hjm : j ≠ m := fun hjm => hj (hjm ▸ hworks)
          exact ⟨rfl, Function.update_of_ne hjm _ _⟩
        · have hxp : x ≠ p := by
            rintro rfl
            exact hj (hworks.trans (hpm.symm.trans hx))
          exact ⟨Function.update_of_ne hxp _ _, rfl⟩

omit [DecidableEq T] [DecidableEq M] in
/-- What a thread that hands a mutex over may write to: the new owner is on no chain. -/
theorem Inv.not_mem {s : State T M} {g : Ghost T M} {t w : T} {m : M} (h : Inv s g)
    (hhands : (s.pc t).hands = some (m, w)) (hr : g.rest m = []) (j : M) :
    w ∉ g.queue j ++ g.rest j := by
  obtain ⟨-, hww, hwq, -⟩ := h.clients.hands t m w hhands
  intro hx
  rcases List.mem_append.mp hx with hx | hx
  · obtain rfl := Option.some.inj ((h.clients.queued j w hx).1.symm.trans hww)
    exact hwq hx
  · obtain rfl := Option.some.inj ((h.clients.rest j w hx).2.2.1.symm.trans hww)
    rw [hr] at hx
    cases hx

omit [DecidableEq M] in
theorem Inv.clearPrev {s : State T M} {g : Ghost T M} {t w : T} {m : M} (h : Inv s g)
    (hpc : s.pc t = .clearPrev m w) : Inv ((s.setPrev w none).goto t (.clearNext m w)) g := by
  obtain ⟨hn, hr⟩ : Work s.next s.prev g (.clearPrev m w) := hpc ▸ h.work t
  have hhands : (s.pc t).hands = some (m, w) := by rw [hpc]; rfl
  have hworks : (s.pc t).works = some m := by rw [hpc]; rfl
  obtain ⟨-, hww, -⟩ := h.clients.hands t m w hhands
  refine ⟨?_, h.chain, fun j => ?_, fun u => ?_⟩
  · have hlin : (s.pc t).linking = false := by rw [hpc]; rfl
    obtain ⟨v1, v2, v3, v4, v5, v6, v7, v8, v9⟩ := views_clearNext m w
    have hc := h.clients
    unfold State.goto State.setPrev
    generalize Pc.clearNext m w = q at *
    clear h hpc
    constructor
    all_goals grind -linarith [Function.update_apply]
  · refine (h.prevOk j).congr fun x hx => ?_
    have hxw : x ≠ w := by
      rintro rfl
      exact h.not_mem hhands hr j (List.mem_append_left _ hx)
    exact Function.update_of_ne hxw _ _
  · change Work s.next (Function.update s.prev w none) g (Function.update s.pc t _ u)
    by_cases hu : u = t
    · subst hu
      rw [Function.update_self]
      exact ⟨Function.update_self _ _ _, hr⟩
    · rw [Function.update_of_ne hu]
      refine h.others hu (fun _ _ => ⟨rfl, rfl⟩) fun j x hx hj => ⟨rfl, ?_⟩
      have hxw : x ≠ w := by
        rintro rfl
        exact hj (hworks.trans (hww.symm.trans hx))
      exact Function.update_of_ne hxw _ _

omit [DecidableEq M] in
theorem Inv.clearNext {s : State T M} {g : Ghost T M} {t w : T} {m : M} (h : Inv s g)
    (hpc : s.pc t = .clearNext m w) : Inv ((s.setNext w none).goto t (.wakeup m w)) g := by
  obtain ⟨hp, hr⟩ : Work s.next s.prev g (.clearNext m w) := hpc ▸ h.work t
  have hhands : (s.pc t).hands = some (m, w) := by rw [hpc]; rfl
  have hworks : (s.pc t).works = some m := by rw [hpc]; rfl
  obtain ⟨-, hww, -⟩ := h.clients.hands t m w hhands
  refine ⟨?_, fun j => (h.chain j).update (h.not_mem hhands hr j) _, h.prevOk, fun u => ?_⟩
  · have hlin : (s.pc t).linking = false := by rw [hpc]; rfl
    have hpl : (s.pc w).locks = none := by
      cases hx : (s.pc w).locks with
      | none => rfl
      | some j => exact absurd (hww.symm.trans (h.clients.locks w j hx).1) nofun
    have hplk : ∀ v, (s.pc w).linked ≠ some v := by
      intro v hv
      revert hpl hv
      cases s.pc w <;> simp [Pc.locks, Pc.linked]
    obtain ⟨v1, v2, v3, v4, v5, v6, v7, v8, v9⟩ := views_wakeup m w
    have hc := h.clients
    unfold State.goto State.setNext
    generalize Pc.wakeup m w = q at *
    clear h hpc
    constructor
    all_goals grind -linarith [Function.update_apply]
  · change Work (Function.update s.next w none) s.prev g (Function.update s.pc t _ u)
    by_cases hu : u = t
    · subst hu
      rw [Function.update_self]
      exact ⟨Function.update_self _ _ _, hp, hr⟩
    · rw [Function.update_of_ne hu]
      refine h.others hu (fun _ _ => ⟨rfl, rfl⟩) fun j x hx hj => ⟨?_, rfl⟩
      have hxw : x ≠ w := by
        rintro rfl
        exact hj (hworks.trans (hww.symm.trans hx))
      exact Function.update_of_ne hxw _ _

omit [DecidableEq M] in
/-- **The new owner is woken up**, with `next` and `prev` cleared. -/
theorem Inv.wakeup {s : State T M} {g : Ghost T M} {t w : T} {m : M} (h : Inv s g)
    (hpc : s.pc t = .wakeup m w) : Inv (wakeup s t w) g := by
  obtain ⟨hn, hp, hr⟩ : Work s.next s.prev g (.wakeup m w) := hpc ▸ h.work t
  refine ⟨?_, h.chain, h.prevOk, h.work_goto trivial⟩
  have hhands : (s.pc t).hands = some (m, w) := by rw [hpc]; rfl
  have hlin : (s.pc t).linking = false := by rw [hpc]; rfl
  obtain ⟨how, hww, hwq, hmade, hsent, hsig, hgw⟩ := h.clients.hands t m w hhands
  have hone : s.sent w + 1 = 1 := by rw [hsent]
  obtain ⟨v1, v2, v3, v4, v5, v6, v7, v8, v9⟩ := views_idle (T := T) (M := M)
  have hc := h.clients
  unfold Mutex.wakeup State.goto
  rw [hone]
  generalize Pc.idle = q at *
  clear h hpc hone
  constructor
  all_goals grind -linarith [Function.update_apply]

end Mutex
