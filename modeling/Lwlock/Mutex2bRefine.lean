import Lwlock.Mutex2bInv

/-!
# The mutex of two bytes is handed over in order

A state stands for mutexes that are handed over in order: the owner and the queue are what
the invariant says. The swap by which an owner hands its mutex over changes nothing in the
memory, and is answered by the handover all the same.
-/

namespace Mutex2b

variable {T M : Type}

/-- **What a state stands for.** -/
def handoff (g : Ghost T M) (m : M) : Handoff T := ⟨g.owner m, (g.queue m).reverse⟩

/-- The relation of the simulation. -/
def Refines (s : State T M) (a : M → Handoff T) : Prop := ∃ g, Inv s g ∧ a = handoff g

/-- Nobody is there. -/
def Ghost.empty : Ghost T M where
  owner := fun _ => none
  queue := fun _ => []
  giver := id

theorem inv_init : Inv (init : State T M) Ghost.empty := by
  refine ⟨?_, nofun, fun _ => trivial⟩
  constructor <;> simp [init, Ghost.empty, Pc.locks, Pc.linked, Pc.awaits, Pc.unlocks, Pc.hands]

variable [DecidableEq T] [DecidableEq M]

/-- A step and its answer. -/
def Answered (s s' : State T M) (g : Ghost T M) (t : T) : Prop :=
  ∃ g', Inv s' g' ∧ Machine.Answer Handoff.Steps (label s (.move t)) (handoff g) (handoff g')

omit [DecidableEq M] in
/-- A silent step. -/
theorem Answered.silent {s s' : State T M} {g : Ghost T M} {t : T} (h : Inv s' g)
    (hl : label s (.move t) = none) : Answered s s' g t := by
  refine ⟨g, h, ?_⟩
  rw [hl]
  rfl

omit [DecidableEq M] in
/-- A step with a label. -/
theorem Answered.visible {s s' : State T M} {g g' : Ghost T M} {t : T} {l : M × Handoff.Act T}
    (h : Inv s' g') (hl : label s (.move t) = some l)
    (ha : Handoff.Steps (handoff g) l (handoff g')) : Answered s s' g t := by
  refine ⟨g', h, ?_⟩
  rw [hl]
  exact ha

/-! ## Moving on -/

omit [DecidableEq M] in
/-- What the other threads know does not change. -/
theorem Inv.work_update {s : State T M} {g g' : Ghost T M} {next' : T → Option T} {t : T}
    {p : Pc T M} (h : Inv s g) (hp : Work next' g' t p)
    (hq : ∀ u m, u ≠ t → (s.pc u).unlocks = some m → ∃ L, g'.queue m = L ++ g.queue m)
    (hn : ∀ u m w, u ≠ t → (s.pc u).hands = some (m, w) → s.next w = none → next' w = none)
    (u : T) : Work next' g' u (Function.update s.pc t p u) := by
  by_cases hu : u = t
  · subst hu
    rwa [Function.update_self]
  · rw [Function.update_of_ne hu]
    exact (h.work u).grow (fun m => hq u m hu) fun m w => hn u m w hu

omit [DecidableEq M] in
/-- **A thread goes on** with what it has. -/
theorem Inv.goto {s : State T M} {g : Ghost T M} {t : T} {p : Pc T M} (h : Inv s g)
    (hlocks : ∀ m, p.locks = some m → s.holds t m = false) (hlinked : p.linked = none)
    (hawaits : p.awaits = (s.pc t).awaits) (hunlocks : ∀ m, p.unlocks = some m → s.holds t m = true)
    (hhands : p.hands = (s.pc t).hands) (halive : p ≠ .aborted) (hwork : Work s.next g t p) :
    Inv (s.goto t p) g := by
  refine ⟨?_, h.path, h.work_update hwork (fun _ _ _ _ => ⟨[], rfl⟩) fun _ _ _ _ _ => id⟩
  have hc := h.clients
  clear hwork h
  unfold State.goto
  constructor
  all_goals grind -linarith [Function.update_apply]

omit [DecidableEq T] [DecidableEq M] in
/-- Nobody is handed to who waits for nothing. -/
theorem Inv.giver_ne {s : State T M} {g : Ghost T M} (h : Inv s g) {t : T}
    (hh : (s.pc t).hands = none) (m : M) (x : T) (hx : (s.pc x).awaits = some m)
    (hq : x ∉ g.queue m) (hsent : s.sent x = 0) : g.giver x ≠ t := by
  have hc := h.clients
  grind -linarith

/-! ## Locking -/

omit [DecidableEq M] in
/-- **A thread sets its `next`** for the swap. -/
theorem Inv.link {s : State T M} {g : Ghost T M} {t : T} {m : M} {old : Option T} (h : Inv s g)
    (hpc : s.pc t = .lockLink m old) : Inv ((s.setNext t old).goto t (.lockCas m old)) g := by
  have hlocks : (s.pc t).locks = some m := by rw [hpc]; rfl
  have haw : (s.pc t).awaits = none := by rw [hpc]; rfl
  have hun : (s.pc t).unlocks = none := by rw [hpc]; rfl
  have hhands : (s.pc t).hands = none := by rw [hpc]; rfl
  have hnq : ∀ j, t ∉ g.queue j := by
    intro j hj
    rw [(h.clients.queued j t hj).1] at haw
    cases haw
  refine ⟨?_, fun j o ho => (h.path j o ho).update (hnq j) _, ?_⟩
  · obtain ⟨v1, v2, v3, v4, v5, v6⟩ : (Pc.lockCas m old).Views (some m) (some old) none none none :=
      ⟨rfl, rfl, rfl, rfl, rfl, nofun⟩
    have hc := h.clients
    simp only [State.goto, State.setNext]
    generalize Pc.lockCas m old = p at *
    clear h hpc
    constructor
    all_goals grind -linarith [Function.update_apply]
  · refine h.work_update trivial (fun _ _ _ _ => ⟨[], rfl⟩) fun u j w _ hu hw => ?_
    have hwt : w ≠ t := by
      rintro rfl
      rw [(h.clients.hands u j w hu).2.1] at haw
      cases haw
    change Function.update s.next t old w = none
    rwa [Function.update_of_ne hwt]

/-- **A thread takes a free mutex.** -/
theorem Inv.acquire {s : State T M} {g : Ghost T M} {t : T} {m : M} (h : Inv s g)
    (hw : s.word m = none) (haw : (s.pc t).awaits = none)
    (hhands : (s.pc t).hands = none) :
    (g.owner m = none ∧ g.queue m = []) ∧
    Inv (((s.setWord m (some t)).setHolds t m true).goto t .idle)
      { g with owner := Function.update g.owner m (some t) } := by
  have ho : g.owner m = none := by
    cases ho : g.owner m with
    | none => rfl
    | some o =>
      obtain ⟨w, hw', -⟩ := h.exists_word ho (by rw [hw]; nofun)
      rw [hw] at hw'
      cases hw'
  have hq := (h.clients.free m ho).1
  refine ⟨⟨ho, hq⟩, ?_, fun j o hj => ?_, ?_⟩
  · obtain ⟨v1, v2, v3, v4, v5, v6⟩ : (Pc.idle : Pc T M).Views none none none none none :=
      ⟨rfl, rfl, rfl, rfl, rfl, nofun⟩
    have hgive := h.giver_ne hhands
    have hc := h.clients
    simp only [State.goto, State.setHolds, State.setWord]
    generalize Pc.idle = p at *
    clear h
    constructor
    all_goals grind -linarith [Function.update_apply]
  · simp only [State.goto, State.setHolds, State.setWord] at hj ⊢
    by_cases hjm : j = m
    · subst hjm
      rw [Function.update_self] at hj ⊢
      rw [hq]
      exact hj
    · rw [Function.update_of_ne hjm] at hj ⊢
      exact h.path j o hj
  · exact h.work_update trivial (fun _ _ _ _ => ⟨[], rfl⟩) fun _ _ _ _ _ => id

/-- **Who is where**, once a thread has queued. -/
theorem Clients.enqueue {s : State T M} {g : Ghost T M} {t : T} {m : M} {o : T} {p : Pc T M}
    (h : Clients s g) (hp : p.Views none none (some m) none none)
    (haw : (s.pc t).awaits = none) (hholds : s.holds t m = false) (hg : g.owner m = some o)
    (hto : t ≠ o) (hnq : ∀ j, t ∉ g.queue j)
    (hgive : ∀ m x, (s.pc x).awaits = some m → x ∉ g.queue m → s.sent x = 0 → g.giver x ≠ t) :
    Clients ({ s.setWord m (some t) with
        made := Function.update s.made t 0
        sent := Function.update s.sent t 0 }.goto t p)
      { g with queue := Function.update g.queue m (t :: g.queue m) } := by
  obtain ⟨v1, v2, v3, v4, v5, v6⟩ := hp
  have hmem : ∀ j u, u ∈ Function.update g.queue m (t :: g.queue m) j
      ↔ (j = m ∧ u = t) ∨ u ∈ g.queue j := by
    intro j u
    by_cases hj : j = m
    · rw [hj, Function.update_self, List.mem_cons]
      exact or_congr_left ⟨fun hu => ⟨rfl, hu⟩, And.right⟩
    · rw [Function.update_of_ne hj]
      exact ⟨.inr, fun hu => hu.resolve_left fun hjm => hj hjm.1⟩
  have hpcs : ∀ u, u = t ∧ Function.update s.pc t p u = p
      ∨ u ≠ t ∧ Function.update s.pc t p u = s.pc u := by
    intro u
    by_cases hu : u = t
    · exact .inl ⟨hu, by rw [hu, Function.update_self]⟩
    · exact .inr ⟨hu, Function.update_of_ne hu _ _⟩
  simp only [State.goto, State.setWord]
  constructor
  all_goals dsimp only
  case queued =>
    intro j u hu
    rcases (hmem j u).mp hu with ⟨rfl, rfl⟩ | hu
    · rw [Function.update_self, Function.update_self, Function.update_self]
      refine ⟨v3, rfl, rfl, h.quiet u haw, fun ho => hto ?_⟩
      exact Option.some.inj (ho.symm.trans hg)
    · have hut : u ≠ t := fun hut => hnq j (hut ▸ hu)
      simp only [Function.update_of_ne hut]
      exact h.queued j u hu
  case handed =>
    intro j u hu hq
    have hq' : ¬(j = m ∧ u = t) ∧ u ∉ g.queue j := not_or.mp fun hm => hq ((hmem j u).mpr hm)
    rcases hpcs u with ⟨rfl, hpu⟩ | ⟨hut, hpu⟩ <;> rw [hpu] at hu
    · rw [v3] at hu
      exact absurd ⟨(Option.some.inj hu).symm, rfl⟩ hq'.1
    · simp only [Function.update_of_ne hut]
      obtain ⟨ho, hm, hs⟩ := h.handed j u hu hq'.2
      refine ⟨ho, hm, hs.imp_left fun hs => ?_⟩
      rw [Function.update_of_ne (hgive j u hu hq'.2 hs.1)]
      exact hs
  case quiet =>
    intro u hu
    rcases hpcs u with ⟨rfl, hpu⟩ | ⟨-, hpu⟩ <;> rw [hpu] at hu
    · exact h.quiet u haw
    · exact h.quiet u hu
  case free =>
    intro j hj
    have hjm : j ≠ m := by
      rintro rfl
      rw [hg] at hj
      cases hj
    rw [Function.update_of_ne hjm, Function.update_of_ne hjm]
    exact h.free j hj
  case nodup =>
    intro j
    by_cases hj : j = m
    · rw [hj, Function.update_self]
      exact List.nodup_cons.mpr ⟨hnq m, h.nodup m⟩
    · rw [Function.update_of_ne hj]
      exact h.nodup j
  case holds =>
    intro u j hu
    refine ⟨(h.holds u j hu).1, fun ha => ?_⟩
    rcases hpcs u with ⟨rfl, hpu⟩ | ⟨-, hpu⟩ <;> rw [hpu] at ha
    · rw [v3, Option.some.injEq] at ha
      rw [← ha, hholds] at hu
      cases hu
    · exact (h.holds u j hu).2 ha
  case owner =>
    intro u j hu
    rcases hpcs u with ⟨rfl, -⟩ | ⟨-, hpu⟩
    · refine (h.owner u j hu).imp_right fun ha => ?_
      rw [haw] at ha
      cases ha
    · rw [hpu]
      exact h.owner u j hu
  case locks =>
    intro u j hu
    rcases hpcs u with ⟨-, hpu⟩ | ⟨-, hpu⟩ <;> rw [hpu] at hu
    · rw [v1] at hu
      cases hu
    · exact h.locks u j hu
  case linked =>
    intro u v hu
    rcases hpcs u with ⟨-, hpu⟩ | ⟨-, hpu⟩ <;> rw [hpu] at hu
    · rw [v2] at hu
      cases hu
    · exact h.linked u v hu
  case unlocks =>
    intro u j hu
    rcases hpcs u with ⟨-, hpu⟩ | ⟨-, hpu⟩ <;> rw [hpu] at hu
    · rw [v4] at hu
      cases hu
    · exact h.unlocks u j hu
  case hands =>
    intro u j w hu
    rcases hpcs u with ⟨-, hpu⟩ | ⟨-, hpu⟩ <;> rw [hpu] at hu
    · rw [v5] at hu
      cases hu
    · obtain ⟨ho, hw, hq, hm, hs⟩ := h.hands u j w hu
      have hwt : w ≠ t := by
        rintro rfl
        rw [haw] at hw
        cases hw
      simp only [Function.update_of_ne hwt]
      exact ⟨ho, hw, fun hm => ((hmem j w).mp hm).elim (fun hj => hwt hj.2) hq, hm, hs⟩
  case alive =>
    intro u
    rcases hpcs u with ⟨-, hpu⟩ | ⟨-, hpu⟩ <;> rw [hpu]
    · exact v6
    · exact h.alive u

/-- **A thread queues.** -/
theorem Inv.enqueue {s : State T M} {g : Ghost T M} {t : T} {m : M} {old : Option T}
    (h : Inv s g) (hw : s.word m = old) (ho : old ≠ none) (hpc : s.pc t = .lockCas m old) :
    (∃ o, g.owner m = some o ∧ t ≠ o ∧ t ∉ g.queue m) ∧
    Inv ({ s.setWord m (some t) with
        made := Function.update s.made t 0
        sent := Function.update s.sent t 0 }.goto t (.waiting m))
      { g with queue := Function.update g.queue m (t :: g.queue m) } := by
  have haw : (s.pc t).awaits = none := by rw [hpc]; rfl
  have hun : (s.pc t).unlocks = none := by rw [hpc]; rfl
  have hhands : (s.pc t).hands = none := by rw [hpc]; rfl
  have hnext := h.clients.linked t old (by rw [hpc]; rfl)
  have hholds := h.clients.locks t m (by rw [hpc]; rfl)
  have hnq : ∀ j, t ∉ g.queue j := by
    intro j hj
    rw [(h.clients.queued j t hj).1] at haw
    cases haw
  have hown : ∃ o, g.owner m = some o := by
    cases hg : g.owner m with
    | none => exact absurd (hw.symm.trans (h.clients.free m hg).2) ho
    | some o => exact ⟨o, rfl⟩
  obtain ⟨o, hg⟩ := hown
  have hto : t ≠ o := by
    rintro rfl
    rcases h.clients.owner t m hg with hx | hx
    · rw [hholds] at hx
      cases hx
    · rw [haw] at hx
      cases hx
  refine ⟨⟨o, hg, hto, hnq m⟩, ?_, fun j u hj => ?_, ?_⟩
  · exact h.clients.enqueue ⟨rfl, rfl, rfl, rfl, rfl, nofun⟩ haw hholds hg hto hnq
      (h.giver_ne hhands)
  · have hp := h.path j u hj
    simp only [State.goto, State.setWord]
    by_cases hjm : j = m
    · subst hjm
      rw [Function.update_self, Function.update_self]
      refine ⟨rfl, ?_⟩
      rw [hnext, ← hw]
      exact hp
    · rw [Function.update_of_ne hjm, Function.update_of_ne hjm]
      exact hp
  · refine h.work_update trivial (fun u j _ _ => ?_) fun _ _ _ _ _ => id
    by_cases hjm : j = m
    · subst hjm
      exact ⟨[t], Function.update_self _ _ _⟩
    · exact ⟨[], Function.update_of_ne hjm _ _⟩

/-- **A thread that was signalled returns** with the mutex. -/
theorem Inv.completeWait {s : State T M} {g : Ghost T M} {t : T} {m : M} (h : Inv s g)
    (hpc : s.pc t = .waiting m) (hsig : s.signalled t = true) :
    Inv (completeWait s t m) g := by
  have haw : (s.pc t).awaits = some m := by rw [hpc]; rfl
  have hun : (s.pc t).unlocks = none := by rw [hpc]; rfl
  have hhands : (s.pc t).hands = none := by rw [hpc]; rfl
  have hnq : ∀ j, t ∉ g.queue j := by
    intro j hj
    rw [(h.clients.queued j t hj).2.2.2.1] at hsig
    cases hsig
  have ho := (h.clients.handed m t haw (hnq m)).1
  refine ⟨?_, h.path, h.work_update trivial (fun _ _ _ _ => ⟨[], rfl⟩) fun _ _ _ _ _ => id⟩
  obtain ⟨v1, v2, v3, v4, v5, v6⟩ : (Pc.idle : Pc T M).Views none none none none none :=
    ⟨rfl, rfl, rfl, rfl, rfl, nofun⟩
  have hgive := h.giver_ne hhands
  have hc := h.clients
  unfold Mutex2b.completeWait State.goto State.setHolds
  generalize Pc.idle = p at *
  clear h hpc
  constructor
  all_goals grind -linarith [Function.update_apply]

/-! ## Unlocking -/

omit [DecidableEq M] in
/-- **An iteration of the unlock** up to the walk. -/
theorem Inv.unlockRead {s : State T M} {g : Ghost T M} {t : T} {m : M} {wake : Option T}
    (h : Inv s g) (haw : (s.pc t).awaits = none) (hhands : (s.pc t).hands = none)
    (hh : s.holds t m = true) (hwake : Work s.next g t (.unlockRead m wake)) :
    Inv (unlockRead s t m wake) g := by
  have ho := (h.clients.holds t m hh).1
  have hgo : ∀ p : Pc T M, p.locks = none → p.linked = none → p.awaits = none →
      p.unlocks = some m → p.hands = none → p ≠ .aborted → Work s.next g t p →
      Inv (s.goto t p) g := by
    intro p h1 h2 h3 h4 h5 h6 h7
    refine h.goto ?_ h2 (h3.trans haw.symm) ?_ (h5.trans hhands.symm) h6 h7
    · intro j hj
      rw [h1] at hj
      cases hj
    · intro j hj
      rw [h4] at hj
      obtain rfl := Option.some.inj hj
      exact hh
  unfold Mutex2b.unlockRead
  by_cases hw : s.word m = some t
  · rw [if_pos hw]
    refine hgo _ rfl rfl rfl rfl rfl nofun ?_
    cases wake with
    | none => exact ⟨hw, rfl⟩
    | some w =>
      obtain ⟨A, hA⟩ := hwake
      rw [h.queue_eq_nil ho hw] at hA
      exact absurd hA.symm (by simp)
  · obtain ⟨w, hw', hwq⟩ := h.exists_word ho hw
    rw [if_neg hw, hw']
    cases wake with
    | none => exact hgo _ rfl rfl rfl rfl rfl nofun hwq
    | some x => exact hgo _ rfl rfl rfl rfl rfl nofun ⟨rfl, hwake⟩

omit [DecidableEq M] in
/-- **An iteration of the walk**, which does not miss the oldest waiter. -/
theorem Inv.unlockFind {s : State T M} {g : Ghost T M} {t w : T} {m : M} {old : Option T}
    (h : Inv s g) (hpc : s.pc t = .unlockFind m old w) : Inv (unlockFind s t m old w) g := by
  have hh := h.clients.unlocks t m (by rw [hpc]; rfl)
  have ho := (h.clients.holds t m hh).1
  have hw : Work s.next g t (.unlockFind m old w) := hpc ▸ h.work t
  unfold Mutex2b.unlockFind
  rcases h.next_waiter ho hw with ⟨hn, hA⟩ | ⟨n, hn, hnt, hq⟩
  · rw [if_pos hn]
    refine h.goto nofun rfl (by rw [hpc]; rfl) ?_ (by rw [hpc]; rfl) nofun ⟨rfl, hA⟩
    rintro j ⟨⟩
    exact hh
  · rw [hn, if_neg fun hx => hnt (Option.some.inj hx)]
    refine h.goto nofun rfl (by rw [hpc]; rfl) ?_ (by rw [hpc]; rfl) nofun hq
    rintro j ⟨⟩
    exact hh

/-- **A mutex nobody waits for is let go.** -/
theorem Inv.release {s : State T M} {g : Ghost T M} {t : T} {m : M} {old new : Option T}
    (h : Inv s g) (hpc : s.pc t = .unlockCas m old new none) (hword : s.word m = old) :
    (old = some t ∧ new = none) ∧ (g.owner m = some t ∧ g.queue m = []) ∧
    Inv (((s.setWord m new).setHolds t m false).goto t .idle)
      { g with owner := Function.update g.owner m none } := by
  have haw : (s.pc t).awaits = none := by rw [hpc]; rfl
  have hhands : (s.pc t).hands = none := by rw [hpc]; rfl
  have hun : (s.pc t).unlocks = some m := by rw [hpc]; rfl
  have hh := h.clients.unlocks t m hun
  have ho := (h.clients.holds t m hh).1
  obtain ⟨hold, rfl⟩ : Work s.next g t (.unlockCas m old new none) := hpc ▸ h.work t
  have hq := h.queue_eq_nil ho (hword.trans hold)
  refine ⟨⟨hold, rfl⟩, ⟨ho, hq⟩, ?_, fun j o hj => ?_, ?_⟩
  · obtain ⟨v1, v2, v3, v4, v5, v6⟩ : (Pc.idle : Pc T M).Views none none none none none :=
      ⟨rfl, rfl, rfl, rfl, rfl, nofun⟩
    have hgive := h.giver_ne hhands
    have hc := h.clients
    simp only [State.goto, State.setHolds, State.setWord]
    generalize Pc.idle = p at *
    clear h hpc
    constructor
    all_goals grind -linarith [Function.update_apply]
  · simp only [State.goto, State.setHolds, State.setWord] at hj ⊢
    by_cases hjm : j = m
    · subst hjm
      rw [Function.update_self] at hj
      cases hj
    · rw [Function.update_of_ne hjm] at hj ⊢
      exact h.path j o hj
  · exact h.work_update trivial (fun _ _ _ _ => ⟨[], rfl⟩) fun _ _ _ _ _ => id

/-- **The mutex is handed to the oldest waiter**, and nothing in the memory changes. -/
theorem Inv.pass {s : State T M} {g : Ghost T M} {t w : T} {m : M} {old new : Option T}
    (h : Inv s g) (hpc : s.pc t = .unlockCas m old new (some w)) (hword : s.word m = old) :
    g.owner m = some t ∧ ∃ A, g.queue m = A ++ [w] ∧
    Inv ({ (s.setWord m new).setHolds t m false with
        made := Function.update s.made w (s.made w + 1) }.goto t (.clearNext m w))
      { owner := Function.update g.owner m (some w)
        queue := Function.update g.queue m A
        giver := Function.update g.giver w t } := by
  have haw : (s.pc t).awaits = none := by rw [hpc]; rfl
  have hhands : (s.pc t).hands = none := by rw [hpc]; rfl
  have hun : (s.pc t).unlocks = some m := by rw [hpc]; rfl
  have hh := h.clients.unlocks t m hun
  have ho := (h.clients.holds t m hh).1
  obtain ⟨rfl, A, hq⟩ : Work s.next g t (.unlockCas m old new (some w)) := hpc ▸ h.work t
  have hwq : w ∈ g.queue m := by
    rw [hq]
    simp
  obtain ⟨hww, hmade, hsent, hsig, how⟩ := h.clients.queued m w hwq
  have hnd := h.clients.nodup m
  rw [hq] at hnd
  have hwA : w ∉ A := fun hx => List.disjoint_of_nodup_append hnd hx (List.mem_singleton_self w)
  refine ⟨ho, A, hq, ?_, fun j o hj => ?_, ?_⟩
  · obtain ⟨v1, v2, v3, v4, v5, v6⟩ :
        (Pc.clearNext m w).Views none none none none (some (m, w)) :=
      ⟨rfl, rfl, rfl, rfl, rfl, nofun⟩
    have hgive := h.giver_ne hhands
    have hndA : A.Nodup := (List.nodup_append.mp hnd).1
    have hmemq : ∀ x, x ∈ g.queue m ↔ x ∈ A ∨ x = w := by
      intro x
      rw [hq]
      simp
    have hnot : ∀ j x, x ≠ w → x ∉ Function.update g.queue m A j → x ∉ g.queue j := by
      grind -linarith [Function.update_apply]
    have hnone : ∀ x, (s.pc x).hands ≠ some (m, w) := by
      intro x hx
      exact (h.clients.hands x m w hx).2.2.1 hwq
    have hone : s.made w + 1 = 1 := by rw [hmade]
    have hc := h.clients
    simp only [State.goto, State.setHolds, State.setWord, hone]
    generalize Pc.clearNext m w = p at *
    clear h hpc hnd hone hmade hq
    constructor
    case hands =>
      intro u j x hux
      dsimp only at hux ⊢
      by_cases hu : u = t
      · subst hu
        rw [Function.update_self, v5] at hux
        cases hux
        grind -linarith [Function.update_apply]
      · rw [Function.update_of_ne hu] at hux
        obtain ⟨h1, h2, h3, h4, h5, h6, h7⟩ := hc.hands u j x hux
        have hxw : x ≠ w := by
          rintro rfl
          obtain rfl := Option.some.inj (hww.symm.trans h2)
          exact hnone u hux
        have hjm : j ≠ m := by
          rintro rfl
          obtain rfl := Option.some.inj (h1.symm.trans ho)
          rw [haw] at h2
          cases h2
        have hxt : x ≠ t := by
          rintro rfl
          rw [haw] at h2
          cases h2
        simp only [Function.update_of_ne hjm, Function.update_of_ne hxw, Function.update_of_ne hxt]
        exact ⟨h1, h2, h3, h4, h5, h6, h7⟩
    case handed =>
      intro j x hx hxq
      dsimp only at hx hxq ⊢
      have hxt : x ≠ t := by
        rintro rfl
        rw [Function.update_self, v3] at hx
        cases hx
      rw [Function.update_of_ne hxt] at hx
      by_cases hxw : x = w
      · subst hxw
        obtain rfl := Option.some.inj (hww.symm.trans hx)
        simp only [Function.update_self]
        exact ⟨trivial, trivial, .inl ⟨hsent, hsig, v5⟩⟩
      · obtain ⟨h1, h2, h3⟩ := hc.handed j x hx (hnot j x hxw hxq)
        have hjm : j ≠ m := by
          rintro rfl
          exact hxt (Option.some.inj (h1.symm.trans ho))
        simp only [Function.update_of_ne hjm, Function.update_of_ne hxw]
        refine ⟨h1, h2, h3.imp_left ?_⟩
        rintro ⟨h4, h5, h6⟩
        refine ⟨h4, h5, ?_⟩
        rwa [Function.update_of_ne (hgive j x hx (hnot j x hxw hxq) h4)]
    all_goals clear hgive hnone hnot
    all_goals grind -linarith [Function.update_apply]
  · simp only [State.goto, State.setHolds, State.setWord, ← hword, Function.update_eq_self] at hj ⊢
    by_cases hjm : j = m
    · subst hjm
      rw [Function.update_self] at hj ⊢
      have hp := h.path j t ho
      rw [hq] at hp
      obtain ⟨r, hA, hr, -⟩ := segment_append.mp hp
      exact hj ▸ hr ▸ hA
    · rw [Function.update_of_ne hjm] at hj ⊢
      exact h.path j o hj
  · refine h.work_update trivial (fun u j hu hj => ?_) fun _ _ _ _ _ => id
    have hjm : j ≠ m := by
      rintro rfl
      exact hu (h.clients.unlocks_unique hj hun)
    exact ⟨[], Function.update_of_ne hjm _ _⟩

omit [DecidableEq M] in
/-- **The `next` of the new owner is cleared**, behind the path of those who still wait. -/
theorem Inv.clearNext {s : State T M} {g : Ghost T M} {t w : T} {m : M} (h : Inv s g)
    (hpc : s.pc t = .clearNext m w) : Inv ((s.setNext w none).goto t (.wakeup m w)) g := by
  have haw : (s.pc t).awaits = none := by rw [hpc]; rfl
  have hhands : (s.pc t).hands = some (m, w) := by rw [hpc]; rfl
  obtain ⟨how, hww, hwq, -⟩ := h.clients.hands t m w hhands
  have hnq : ∀ j, w ∉ g.queue j := by
    intro j hj
    obtain rfl := Option.some.inj ((h.clients.queued j w hj).1.symm.trans hww)
    exact hwq hj
  refine ⟨?_, fun j o ho => (h.path j o ho).update (hnq j) _, ?_⟩
  · have hplk : ∀ v, (s.pc w).linked ≠ some v := by
      intro v hv
      revert hww hv
      cases s.pc w <;> simp [Pc.awaits, Pc.linked]
    obtain ⟨v1, v2, v3, v4, v5, v6⟩ :
        (Pc.wakeup m w).Views none none none none (some (m, w)) :=
      ⟨rfl, rfl, rfl, rfl, rfl, nofun⟩
    have hc := h.clients
    simp only [State.goto, State.setNext]
    generalize Pc.wakeup m w = p at *
    clear h hpc
    constructor
    all_goals grind -linarith [Function.update_apply]
  · refine h.work_update (Function.update_self _ _ _) (fun _ _ _ _ => ⟨[], rfl⟩)
      fun u j x _ _ hx => ?_
    change Function.update s.next w none x = none
    by_cases hxw : x = w
    · rw [hxw, Function.update_self]
    · rwa [Function.update_of_ne hxw]

omit [DecidableEq M] in
/-- **The new owner is woken up**, with its `next` cleared. -/
theorem Inv.wakeup {s : State T M} {g : Ghost T M} {t w : T} {m : M} (h : Inv s g)
    (hpc : s.pc t = .wakeup m w) : Inv (wakeup s t w) g := by
  have haw : (s.pc t).awaits = none := by rw [hpc]; rfl
  have hhands : (s.pc t).hands = some (m, w) := by rw [hpc]; rfl
  have hn : Work s.next g t (.wakeup m w) := hpc ▸ h.work t
  obtain ⟨how, hww, hwq, hmade, hsent, hsig, hgw⟩ := h.clients.hands t m w hhands
  have hone : s.sent w + 1 = 1 := by rw [hsent]
  have hn : s.next w = none := hn
  refine ⟨?_, h.path, h.work_update trivial (fun _ _ _ _ => ⟨[], rfl⟩) fun _ _ _ _ _ => id⟩
  obtain ⟨v1, v2, v3, v4, v5, v6⟩ : (Pc.idle : Pc T M).Views none none none none none :=
    ⟨rfl, rfl, rfl, rfl, rfl, nofun⟩
  have hc := h.clients
  unfold Mutex2b.wakeup State.goto
  rw [hone]
  generalize Pc.idle = p at *
  clear h hpc hone
  constructor
  all_goals grind -linarith [Function.update_apply]

/-! ## What a further step is answered by -/

/-- The swap of a lock function that finds the mutex free. -/
theorem Answered.acquire {s : State T M} {g : Ghost T M} {t : T} {m : M} (h : Inv s g)
    (hw : s.word m = none) (haw : (s.pc t).awaits = none) (hhands : (s.pc t).hands = none)
    (hl : label s (.move t) = some (m, .acquire t)) :
    Answered s (((s.setWord m (some t)).setHolds t m true).goto t .idle) g t := by
  obtain ⟨⟨ho, hq⟩, hI⟩ := h.acquire hw haw hhands
  refine .visible hI hl ⟨?_, fun j hj => ?_⟩
  · simp only [handoff, ho, hq, Function.update_self, List.reverse_nil]
    exact .acquire
  · simp only [handoff, Function.update_of_ne hj]

/-- **The swap of `lw_mutex2b_lock_with_waiter`**: it takes the mutex, or a place at the end
of the queue. -/
theorem Inv.lockCas {s : State T M} {g : Ghost T M} {t : T} {m : M} {old : Option T}
    (h : Inv s g) (hpc : s.pc t = .lockCas m old) : Answered s (lockCas s t m old) g t := by
  have haw : (s.pc t).awaits = none := by rw [hpc]; rfl
  have hhands : (s.pc t).hands = none := by rw [hpc]; rfl
  unfold Mutex2b.lockCas
  by_cases hold : s.word m = old
  · have hl : label s (.move t) = some (m, if old = none then .acquire t else .enqueue t) := by
      simp only [label, hpc, if_pos hold]
    rw [if_pos hold]
    by_cases hn : old = none
    · rw [if_pos hn] at hl ⊢
      exact .acquire h (hold.trans hn) haw hhands hl
    · rw [if_neg hn] at hl ⊢
      obtain ⟨⟨o, ho, hto, hq⟩, hI⟩ := h.enqueue hold hn hpc
      refine .visible hI hl ⟨?_, fun j hj => ?_⟩
      · simp only [handoff, ho, Function.update_self, List.reverse_cons]
        exact .enqueue hto fun hx => hq (List.mem_reverse.mp hx)
      · simp only [handoff, Function.update_of_ne hj]
  · rw [if_neg hold]
    refine .silent (h.goto ?_ rfl haw.symm nofun hhands.symm nofun trivial) ?_
    · rintro j ⟨⟩
      exact h.clients.locks t m (by rw [hpc]; rfl)
    · simp only [label, hpc, if_neg hold]

/-- **The swap of `lw_mutex2b_trylock`.** -/
theorem Inv.tryCas {s : State T M} {g : Ghost T M} {t : T} {m : M} (h : Inv s g)
    (hpc : s.pc t = .tryCas m) : Answered s (tryCas s t m) g t := by
  have haw : (s.pc t).awaits = none := by rw [hpc]; rfl
  have hhands : (s.pc t).hands = none := by rw [hpc]; rfl
  unfold Mutex2b.tryCas
  by_cases hw : s.word m = none
  · rw [if_pos hw]
    exact .acquire h hw haw hhands (by simp only [label, hpc, if_pos hw])
  · rw [if_neg hw]
    refine .silent (h.goto nofun rfl haw.symm nofun hhands.symm nofun trivial) ?_
    simp only [label, hpc, if_neg hw]

/-- **The swap of `lw_mutex2b_unlock_with_waiter`**: it frees the mutex, or hands it to the
first in the queue, and its last check does not fail. -/
theorem Inv.unlockCas {s : State T M} {g : Ghost T M} {t : T} {m : M} {old new wake : Option T}
    (h : Inv s g) (hpc : s.pc t = .unlockCas m old new wake) :
    Answered s (unlockCas s t m old new wake) g t := by
  unfold Mutex2b.unlockCas
  by_cases hold : s.word m = old
  · rw [if_pos hold]
    cases wake with
    | none =>
      obtain ⟨hlast, ⟨ho, hq⟩, hI⟩ := h.release hpc hold
      rw [if_pos hlast]
      refine .visible hI (by simp only [label, hpc, if_pos hold]; rfl) ⟨?_, fun j hj => ?_⟩
      · simp only [handoff, Function.update_self, hq, ho, List.reverse_nil]
        exact .release
      · simp only [handoff, Function.update_of_ne hj]
    | some w =>
      obtain ⟨ho, A, hq, hI⟩ := h.pass hpc hold
      refine .visible hI (by simp only [label, hpc, if_pos hold]; rfl) ⟨?_, fun j hj => ?_⟩
      · simp only [handoff, Function.update_self, hq, ho, List.reverse_append,
          List.reverse_singleton, List.singleton_append]
        exact .pass
      · simp only [handoff, Function.update_of_ne hj]
  · rw [if_neg hold]
    refine .silent (h.goto nofun rfl (by rw [hpc]; rfl) ?_ (by rw [hpc]; rfl) nofun ?_) ?_
    · rintro j ⟨⟩
      exact h.clients.unlocks t m (by rw [hpc]; rfl)
    · cases wake with
      | none => trivial
      | some w =>
        have hw : Work s.next g t (.unlockCas m old new (some w)) := hpc ▸ h.work t
        exact hw.2
    · simp only [label, hpc, if_neg hold]

/-- **A further step is silent or answered.** -/
theorem Inv.move {s s' : State T M} {g : Ghost T M} {t : T} (h : Inv s g)
    (he : move s t = some s') : Answered s s' g t := by
  cases hpc : s.pc t with
  | idle | aborted => simp [Mutex2b.move, hpc] at he
  | lockRead m =>
    simp only [Mutex2b.move, hpc, Option.some.injEq] at he
    subst he
    refine .silent (h.goto ?_ rfl (by rw [hpc]; rfl) nofun (by rw [hpc]; rfl) nofun trivial)
      (by simp only [label, hpc])
    rintro j ⟨⟩
    exact h.clients.locks t m (by rw [hpc]; rfl)
  | lockLink m old =>
    simp only [Mutex2b.move, hpc, Option.some.injEq] at he
    exact he ▸ .silent (h.link hpc) (by simp only [label, hpc])
  | lockCas m old =>
    simp only [Mutex2b.move, hpc, Option.some.injEq] at he
    exact he ▸ h.lockCas hpc
  | waiting m =>
    simp only [Mutex2b.move, hpc] at he
    obtain ⟨hsig, he⟩ := Option.ite_none_right_eq_some.mp he
    cases he
    exact .silent (h.completeWait hpc hsig) (by simp only [label, hpc])
  | tryCas m =>
    simp only [Mutex2b.move, hpc, Option.some.injEq] at he
    exact he ▸ h.tryCas hpc
  | unlockRead m wake =>
    simp only [Mutex2b.move, hpc, Option.some.injEq] at he
    refine he ▸ .silent (h.unlockRead (by rw [hpc]; rfl) (by rw [hpc]; rfl) ?_ ?_)
      (by simp only [label, hpc])
    · exact h.clients.unlocks t m (by rw [hpc]; rfl)
    · exact hpc ▸ h.work t
  | unlockFind m old w =>
    simp only [Mutex2b.move, hpc, Option.some.injEq] at he
    exact he ▸ .silent (h.unlockFind hpc) (by simp only [label, hpc])
  | unlockCas m old new wake =>
    simp only [Mutex2b.move, hpc, Option.some.injEq] at he
    exact he ▸ h.unlockCas hpc
  | clearNext m w =>
    simp only [Mutex2b.move, hpc, Option.some.injEq] at he
    exact he ▸ .silent (h.clearNext hpc) (by simp only [label, hpc])
  | wakeup m w =>
    simp only [Mutex2b.move, hpc, Option.some.injEq] at he
    exact he ▸ .silent (h.wakeup hpc) (by simp only [label, hpc])

/-- **The calls are silent.** -/
theorem Inv.call {s s' : State T M} {g : Ghost T M} {t : T} {op : Op M} (h : Inv s g)
    (he : call s t op = some s') : Inv s' g := by
  unfold Mutex2b.call at he
  split at he
  case isFalse => cases he
  rename_i hidle
  have haw : (s.pc t).awaits = none := by rw [hidle]; rfl
  have hhands : (s.pc t).hands = none := by rw [hidle]; rfl
  cases op with
  | lock m =>
    obtain ⟨hh, he⟩ := Option.ite_none_right_eq_some.mp he
    cases he
    refine h.goto ?_ rfl haw.symm nofun hhands.symm nofun trivial
    rintro j ⟨⟩
    exact hh
  | trylock m =>
    dsimp only at he
    split at he
    · cases he
      exact h.goto nofun rfl haw.symm nofun hhands.symm nofun trivial
    · cases he
      exact h
  | unlock m =>
    obtain ⟨hh, he⟩ := Option.ite_none_right_eq_some.mp he
    cases he
    exact h.unlockRead haw hhands hh trivial

/-! ## The refinement -/

/-- **The mutex of two bytes refines one that is handed over in order.** -/
theorem simulates : (machine T M).Simulates label Handoff.Steps Refines := by
  refine .of_answer fun {s s' e a} hR he => ?_
  obtain ⟨g, h, rfl⟩ := hR
  cases e with
  | call t op => exact ⟨_, rfl, g, h.call he, rfl⟩
  | move t =>
    obtain ⟨g', hI, ha⟩ := h.move he
    exact ⟨_, ha, g', hI, rfl⟩

/-- **What is exact of a state** that stands for mutexes `a`. The word says whether a mutex
is free, and the path from it visits who waits, youngest first, and arrives at the owner,
who has the mutex or is about to return with it. Who waits in a queue was neither made owner
nor signalled; whoever waits and is in no queue was made owner once, and either was signalled
once, with `next` cleared, or is about to be by the thread that made it owner. -/
structure Exact (s : State T M) (a : M → Handoff T) : Prop where
  free : ∀ m, s.word m = none ↔ (a m).owner = none
  path : ∀ m o, (a m).owner = some o → Segment s.next (s.word m) (a m).queue.reverse (some o)
  holds : ∀ t m, s.holds t m = true → (a m).owner = some t
  owner : ∀ t m, (a m).owner = some t → s.holds t m = true
    ∨ (s.pc t = .waiting m ∧ t ∉ (a m).queue)
  queued : ∀ m t, t ∈ (a m).queue →
    s.pc t = .waiting m ∧ s.made t = 0 ∧ s.sent t = 0 ∧ s.signalled t = false
  handed : ∀ m t, s.pc t = .waiting m → t ∉ (a m).queue → (a m).owner = some t ∧ s.made t = 1
    ∧ ((s.sent t = 0 ∧ s.signalled t = false ∧ ∃ u, (s.pc u).hands = some (m, t))
      ∨ (s.sent t = 1 ∧ s.signalled t = true ∧ s.next t = none))
  signalled : ∀ t, s.signalled t = true → ∃ m, s.pc t = .waiting m ∧ t ∉ (a m).queue
  alive : ∀ t, s.pc t ≠ .aborted

omit [DecidableEq T] [DecidableEq M] in
theorem Pc.awaits_iff {p : Pc T M} {m : M} : p.awaits = some m ↔ p = .waiting m := by
  cases p <;> simp [Pc.awaits]

omit [DecidableEq T] [DecidableEq M] in
theorem Refines.exact {s : State T M} {a : M → Handoff T} (h : Refines s a) : Exact s a := by
  obtain ⟨g, h, rfl⟩ := h
  have hmem : ∀ m t, t ∈ (handoff g m).queue ↔ t ∈ g.queue m := fun m t => List.mem_reverse
  have hc := h.clients
  refine ⟨fun m => ⟨fun hw => ?_, fun ho => (hc.free m ho).2⟩, fun m o ho => ?_,
    fun t m hh => (hc.holds t m hh).1, fun t m ho => ?_, fun m t ht => ?_, fun m t hw ht => ?_,
    fun t ht => ?_, hc.alive⟩
  · cases ho : g.owner m with
    | none => exact ho
    | some o =>
      obtain ⟨w, hw', -⟩ := h.exists_word ho (by rw [hw]; nofun)
      rw [hw] at hw'
      cases hw'
  · simp only [handoff, List.reverse_reverse]
    exact h.path m o ho
  · refine (hc.owner t m ho).imp_right fun hw => ⟨Pc.awaits_iff.mp hw, fun hx => ?_⟩
    exact (hc.queued m t ((hmem m t).mp hx)).2.2.2.2 ho
  · obtain ⟨h1, h2, h3, h4, -⟩ := hc.queued m t ((hmem m t).mp ht)
    exact ⟨Pc.awaits_iff.mp h1, h2, h3, h4⟩
  · obtain ⟨h1, h2, h3⟩ := hc.handed m t (Pc.awaits_iff.mpr hw) fun hx => ht ((hmem m t).mpr hx)
    refine ⟨h1, h2, h3.imp_left ?_⟩
    rintro ⟨h4, h5, h6⟩
    exact ⟨h4, h5, _, h6⟩
  · cases hw : (s.pc t).awaits with
    | none =>
      rw [hc.quiet t hw] at ht
      cases ht
    | some m =>
      refine ⟨m, Pc.awaits_iff.mp hw, fun hx => ?_⟩
      rw [(hc.queued m t ((hmem m t).mp hx)).2.2.2.1] at ht
      cases ht

/-- **The mutex of two bytes is handed over in order, and to each waiter once.** Every trace
is one of mutexes that are handed over in order, and the state reached is exact. -/
theorem handed_in_order {s : State T M} {ls : List (M × Handoff.Act T)}
    (h : (machine T M).Trace label init ls s) :
    ∃ a : M → Handoff T, Machine.Accepts Handoff.Steps (fun _ => Handoff.free) ls a ∧ Exact s a
      ∧ ∀ m, (a m).Sound ∧ Handoff.enqueued (Handoff.actsOf m ls)
        = Handoff.passed (Handoff.actsOf m ls) ++ (a m).queue := by
  obtain ⟨a, hacc, hR⟩ := h.refines simulates
    (⟨Ghost.empty, inv_init, rfl⟩ : Refines init fun _ => Handoff.free)
  refine ⟨a, hacc, hR.exact, fun m => ⟨?_, ?_⟩⟩
  · exact hacc.invariant (I := fun a => ∀ m, (a m).Sound) (fun _ _ _ ha hs => hs.sound ha)
      (fun _ => Handoff.sound_free) m
  · exact Handoff.fifo (Handoff.accepts_actsOf hacc m)

/-- A thread with two mutexes hands one of them over to the first of two who queued. -/
def passRun : List (Event (Fin 3) Bool) :=
  [.call 0 (.lock true), .move 0, .move 0, .call 0 (.lock false), .move 0, .move 0,
    .call 1 (.lock false), .move 1, .move 1, .call 2 (.lock false), .move 2, .move 2,
    .call 0 (.unlock false)] ++ List.replicate 5 (.move 0)

theorem handed_in_order_passRun : ∃ (s : State (Fin 3) Bool)
    (ls : List (Bool × Handoff.Act (Fin 3))),
    ((false, Handoff.Act.pass 0 1) ∈ ls ∧ s.holds 0 true = true ∧ s.signalled 1 = true)
    ∧ ∃ a : Bool → Handoff (Fin 3),
      Machine.Accepts Handoff.Steps (fun _ => Handoff.free) ls a ∧ Exact s a
      ∧ ∀ m, (a m).Sound ∧ Handoff.enqueued (Handoff.actsOf m ls)
        = Handoff.passed (Handoff.actsOf m ls) ++ (a m).queue := by
  obtain ⟨ls, s, hls, hp⟩ := Machine.Trace.exists_of_exec (M := machine (Fin 3) Bool)
    (p := fun p => decide ((false, Handoff.Act.pass 0 1) ∈ p.1 ∧ p.2.holds 0 true = true
      ∧ p.2.signalled 1 = true)) passRun
    (by decide +kernel : ((machine (Fin 3) Bool).execTrace label init passRun).any _ = true)
  exact ⟨s, ls, of_decide_eq_true hp, handed_in_order hls⟩

end Mutex2b
