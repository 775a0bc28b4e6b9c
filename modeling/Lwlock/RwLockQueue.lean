import Lwlock.RwLockSafe

/-!
# No waiter of a read-write lock is lost

A thread that waits is on the chain that starts in the word, or in a list of the one
thread that hands the lock over, and there once. A thread that was served was served
once; it is in the list of one thread that will wake it up, or was woken up once, and
then its `next` is the end marker. The lists are read off the variables of the threads
at their program points: what was cut off the queue, what is left to be sorted, and
the readers and the writers that were found.

Nobody is left alone either: as long as somebody waits, somebody holds the lock or is
about to wake a waiter up, and that thread is not one of those who sleep.
-/

namespace RwLock

variable {T : Type}

/-- **A thread that waits**: it has queued, or goes on to wait once it has unlocked, and
the lock was not handed to it. -/
def Waits (s : State T) (c : T) : Prop := (s.pc c).pends ≠ none ∧ s.made c = 0

/-- What the variables of `lw_rwlock_unlock_unfair_contention` reach: the readers, and the
writers up to the oldest of them. -/
def Unfair.Reaches (next : T → Option T) (u : Unfair T) (R W : List T) : Prop :=
  Chain next u.readers R ∧ (∃ e, Segment next u.writers W e) ∧ (W ≠ [] → u.oldest = W.getLast?)

/-- **The waiters that a thread has taken out of the queue**, through its variables. -/
def Pc.Holds (next : T → Option T) (L : List T) : Pc T → Prop
  | .fairSwap _ _ _ _ f => if f.kept then Chain next f.list L else L = []
  | .separate _ u list => ∃ A R W, Chain next list A ∧ u.Reaches next R W ∧ L = A ++ R ++ W
  | .separateClear _ u w list | .separateReader _ u w list | .separateWriter _ u w list =>
    ∃ A R W, Chain next list A ∧ u.Reaches next R W ∧ L = w :: A ++ R ++ W
  | .reinsert _ u _ _ | .reinsertVerify _ u _ _ _ | .reinsertOldest _ u _ _ _
  | .reinsertCurr _ u _ _ | .reinsertHead _ u _ _ | .reinsertLast _ u _ _ | .unfairSwap _ u _ _ =>
    ∃ R W, u.Reaches next R W ∧ L = R ++ W
  | _ => L = []

/-- **The waiters that a thread is about to wake up.** -/
def Pc.Wakes (next : T → Option T) (L : List T) : Pc T → Prop
  | .wakeAll _ id => Chain next id L
  | .wakeClear _ w id | .wakeSignal _ w id => ∃ M, Chain next id M ∧ L = w :: M
  | _ => L = []

/-- **Where the waiters are.** -/
structure Placed (s : State T) : Prop where
  /-- Who waits is in the queue or with the thread that hands the lock over, and there once. -/
  place : ∃ Q H, Chain s.next s.word.waitq Q ∧ (Q ++ H).Nodup ∧ (∀ c, c ∈ Q ++ H ↔ Waits s c)
    ∧ ((H = [] ∧ ∀ c, (s.pc c).Holds s.next [])
      ∨ ∃ h, (s.pc h).Holds s.next H ∧ ∀ c, c ≠ h → (s.pc c).Holds s.next [])
  /-- It was not signalled. -/
  quiet : ∀ c, Waits s c → s.sent c = 0 ∧ s.signalled c = false
  /-- Who was served was served once, and is woken up by one thread, once. -/
  served : ∀ c, (s.pc c).pends ≠ none → ¬ Waits s c → s.made c = 1
    ∧ ((s.sent c = 0 ∧ s.signalled c = false
        ∧ ∃ h L, (s.pc h).Wakes s.next L ∧ L.Nodup ∧ c ∈ L
          ∧ ∀ h' L', (s.pc h').Wakes s.next L' → c ∈ L' → h' = h)
      ∨ (s.sent c = 1 ∧ s.signalled c = true ∧ s.next c = none))
  /-- Who does not wait has no signal left over. -/
  silent : ∀ c, (s.pc c).pends = none → s.signalled c = false
  /-- A queue belongs to a lock that is held. -/
  held : s.word.waitq ≠ none → s.word.locked = true ∧ ∃ c, SharedHolder s c ∨ ExclusiveHolder s c
  /-- No `lw_verify` fails. -/
  alive : ∀ c, s.pc c ≠ .aborted

/-! ## What the variables reach -/

/-- The lists of a thread, as its program point says. -/
def Lists.heldBy (l : Lists T) (p : Pc T) : List T :=
  if p.cuts then l.cut else if p.sorts then l.rest ++ l.rds ++ l.wrs else []

theorem Unfair.Sorted.reaches {next : T → Option T} {tag : T → Tag} {l : Lists T} {u : Unfair T}
    {e : Option T} (h : u.Sorted next tag l e) : u.Reaches next l.rds l.wrs :=
  ⟨h.readers, ⟨e, h.writers⟩, h.oldest⟩

theorem Unfair.Back.reaches {next : T → Option T} {tag : T → Tag} {l : Lists T} {u : Unfair T}
    {old : Word T} (h : u.Back next tag l old) : u.Reaches next l.rds l.wrs := by
  obtain ⟨e, hs, -⟩ := h.sorted
  exact hs.reaches

/-- What a thread knows says what its variables reach. -/
theorem Work.holds {next : T → Option T} {tag : T → Tag} {l : Lists T} {t : T} {p : Pc T}
    (h : Work next tag l t p) : p.Holds next (l.heldBy p) := by
  cases p with
  | fairSwap excl k old new f =>
    rcases h with ⟨hk, -⟩ | ⟨hk, P, K, -, -, -, hcut, -⟩
    · simp [Pc.Holds, Lists.heldBy, Pc.cuts, Pc.sorts, hk]
    · simp only [Pc.Holds, Lists.heldBy, Pc.cuts, hk, if_true]
      exact hcut
  | separate k u list => exact ⟨l.rest, l.rds, l.wrs, h.2, h.1.sorted.reaches, rfl⟩
  | separateClear k u w list =>
    obtain ⟨hs, L, hL, hch⟩ := h
    exact ⟨L, l.rds, l.wrs, hch, hs.sorted.reaches, by rw [← hL]; rfl⟩
  | separateReader k u w list =>
    obtain ⟨hs, -, L, hL, hch⟩ := h
    exact ⟨L, l.rds, l.wrs, hch, hs.sorted.reaches, by rw [← hL]; rfl⟩
  | separateWriter k u w list =>
    obtain ⟨hs, -, -, -, L, hL, hch⟩ := h
    exact ⟨L, l.rds, l.wrs, hch, hs.sorted.reaches, by rw [← hL]; rfl⟩
  | reinsert k u old c =>
    exact ⟨l.rds, l.wrs, h.1.reaches, by rw [Lists.heldBy, h.1.rest]; rfl⟩
  | reinsertVerify k u old c n =>
    exact ⟨l.rds, l.wrs, h.1.reaches, by rw [Lists.heldBy, h.1.rest]; rfl⟩
  | reinsertOldest k u old c n =>
    exact ⟨l.rds, l.wrs, h.1.reaches, by rw [Lists.heldBy, h.1.rest]; rfl⟩
  | reinsertCurr k u old c =>
    exact ⟨l.rds, l.wrs, h.1.reaches, by rw [Lists.heldBy, h.1.rest]; rfl⟩
  | reinsertHead k u old c =>
    exact ⟨l.rds, l.wrs, h.1.reaches, by rw [Lists.heldBy, h.1.rest]; rfl⟩
  | reinsertLast k u old c =>
    exact ⟨l.rds, l.wrs, h.1.reaches, by rw [Lists.heldBy, h.1.rest]; rfl⟩
  | unfairSwap k u old new =>
    obtain ⟨hrest, -, hcase⟩ := h
    refine ⟨l.rds, l.wrs, ?_, by rw [Lists.heldBy, hrest]; rfl⟩
    rcases hcase with ⟨-, -, hs, -⟩ | ⟨-, hs, -⟩
    · exact hs.reaches
    · exact hs.reaches
  | _ => rfl

/-- Who neither cuts nor sorts holds nothing. -/
theorem Pc.holds_nil {next : T → Option T} {p : Pc T} (hc : p.cuts = false)
    (hs : p.sorts = false) : p.Holds next [] := by
  cases p with
  | fairSwap excl k old new f =>
    have hk : f.kept = false := hc
    simp [Pc.Holds, hk]
  | separate | separateClear | separateReader | separateWriter | reinsert | reinsertVerify
  | reinsertOldest | reinsertCurr | reinsertHead | reinsertLast | unfairSwap => cases hs
  | _ => rfl

/-- What a thread wakes up. -/
theorem Work.wakes {next : T → Option T} {tag : T → Tag} {l : Lists T} {t : T} {p : Pc T}
    (h : Work next tag l t p) (hw : p.wakes = false → l.wake t = []) :
    p.Wakes next (l.wake t) := by
  cases p with
  | wakeAll k id => exact h
  | wakeClear k w id =>
    obtain ⟨L, hL, hch⟩ := h
    exact ⟨L, hch, hL⟩
  | wakeSignal k w id =>
    obtain ⟨L, hL, hch, -⟩ := h
    exact ⟨L, hch, hL⟩
  | _ => exact hw rfl

/-- It is the only list its variables reach. -/
theorem Pc.Wakes.unique {next : T → Option T} {p : Pc T} {L L' : List T} (h : p.Wakes next L)
    (h' : p.Wakes next L') : L = L' := by
  cases p with
  | wakeAll k id => exact Chain.unique h h'
  | wakeClear k w id | wakeSignal k w id =>
    obtain ⟨M, hM, rfl⟩ := h
    obtain ⟨M', hM', rfl⟩ := h'
    rw [hM.unique hM']
  | _ => exact Eq.trans h (Eq.symm h')

/-! ## The one who hands the lock over -/

/-- Who cuts a run off holds the lock alone. -/
theorem Inv.cutter_alone {s : State T} {g : Ghost T} {h : T} (hs : Inv s g)
    (hc : (s.pc h).cuts = true) : (s.pc h).owns = true
      ∨ ((s.pc h).shares = true ∧ g.hold = [h] ∧ s.word.unfair = false) := by
  obtain ⟨q, hq⟩ : ∃ q, s.pc h = q := ⟨_, rfl⟩
  rw [hq] at hc ⊢
  cases q with
  | fairSwap excl k old new f =>
    cases excl with
    | true => exact .inl rfl
    | false =>
      obtain ⟨hu, hhold⟩ := hs.clients.solo h (by rw [hq]; rfl)
      exact .inr ⟨rfl, hhold, hu⟩
  | _ => cases hc

/-- **At most one thread** has taken waiters out of the queue. -/
theorem Inv.single {s : State T} {g : Ghost T} {h c : T} (hs : Inv s g)
    (hh : (s.pc h).cuts = true ∨ (s.pc h).sorts = true)
    (hc : (s.pc c).cuts = true ∨ (s.pc c).sorts = true) : c = h := by
  -- a thread that cuts and another one that cuts or sorts
  have hcut : ∀ {a b}, (s.pc a).cuts = true → (s.pc b).sorts = true → False := by
    intro a b ha hb
    obtain ⟨hshares, -, -, -, -, -, hunfair, -⟩ := Pc.sorts_views hb
    rcases hs.cutter_alone ha with ho | ⟨-, -, hu⟩
    · have hmem : b ∈ g.hold := (hs.clients.hold b).mpr (.inl hshares)
      rw [hs.clients.alone a ((hs.clients.own a).mpr (.inl ho))] at hmem
      cases hmem
    · rw [hs.clients.unfair b hunfair] at hu
      cases hu
  rcases hh with hh | hh <;> rcases hc with hc | hc
  · rcases hs.cutter_alone hh with hoh | ⟨-, hhold, -⟩ <;>
      rcases hs.cutter_alone hc with hoc | ⟨-, hhold', -⟩
    · have h₁ := (hs.clients.own h).mpr (.inl hoh)
      rw [(hs.clients.own c).mpr (.inl hoc)] at h₁
      exact Option.some.inj h₁
    · rw [hs.clients.alone h ((hs.clients.own h).mpr (.inl hoh))] at hhold'
      cases hhold'
    · rw [hs.clients.alone c ((hs.clients.own c).mpr (.inl hoc))] at hhold
      cases hhold
    · rw [hhold'] at hhold
      exact (List.cons.inj hhold).1
  · exact (hcut hh hc).elim
  · exact (hcut hc hh).elim
  · exact hs.clients.sorter c h hc hh

/-- What is not in the queue is in the lists of one thread. -/
theorem Inv.handing {s : State T} {g : Ghost T} (hs : Inv s g) :
    ∃ H, (g.lists.queue ++ H).Perm g.lists.pending
      ∧ ((H = [] ∧ ∀ c, (s.pc c).Holds s.next [])
        ∨ ∃ h, (s.pc h).Holds s.next H ∧ ∀ c, c ≠ h → (s.pc c).Holds s.next []) := by
  have hfree : (∀ h, (s.pc h).cuts = false) → g.lists.cut = [] := by
    intro hno
    by_contra hne
    obtain ⟨h, hh⟩ := hs.queue.cutter hne
    rw [hno h] at hh
    cases hh
  have hidle : (∀ h, (s.pc h).sorts = false) →
      g.lists.rest = [] ∧ g.lists.rds = [] ∧ g.lists.wrs = [] := by
    intro hno
    by_contra hne
    have hsome : g.lists.rest ≠ [] ∨ g.lists.rds ≠ [] ∨ g.lists.wrs ≠ [] := by
      by_contra hall
      rw [not_or, not_or, not_not, not_not, not_not] at hall
      exact hne hall
    obtain ⟨h, hh⟩ := hs.queue.sorting hsome
    rw [hno h] at hh
    cases hh
  have hpend : g.lists.pending
      = g.lists.queue ++ (g.lists.cut ++ (g.lists.rest ++ g.lists.rds ++ g.lists.wrs)) := by
    simp only [Lists.pending, List.append_assoc]
  rw [hpend]
  by_cases hx : ∃ h, (s.pc h).cuts = true ∨ (s.pc h).sorts = true
  · obtain ⟨h, hh⟩ := hx
    have hother : ∀ c, c ≠ h → (s.pc c).cuts = false ∧ (s.pc c).sorts = false := by
      intro c hc
      rw [← Bool.not_eq_true, ← Bool.not_eq_true]
      exact ⟨fun hcc => hc (hs.single hh (.inl hcc)), fun hcs => hc (hs.single hh (.inr hcs))⟩
    refine ⟨g.lists.heldBy (s.pc h), ?_, .inr ⟨h, (hs.work h).holds, fun c hc =>
      Pc.holds_nil (hother c hc).1 (hother c hc).2⟩⟩
    by_cases hcut : (s.pc h).cuts = true
    · have hns : ∀ a, (s.pc a).sorts = false := by
        intro a
        by_cases ha : a = h
        · rw [ha, ← Bool.not_eq_true]
          intro hsort
          rw [(Pc.sorts_views hsort).2.2.2.1] at hcut
          cases hcut
        · exact (hother a ha).2
      obtain ⟨h₁, h₂, h₃⟩ := hidle hns
      rw [Lists.heldBy, if_pos hcut, h₁, h₂, h₃, List.append_nil, List.append_nil, List.append_nil]
    · have hsort : (s.pc h).sorts = true := hh.resolve_left hcut
      have hnc : ∀ a, (s.pc a).cuts = false := by
        intro a
        by_cases ha : a = h
        · rw [ha]
          exact Bool.not_eq_true _ ▸ hcut
        · exact (hother a ha).1
      rw [Lists.heldBy, if_neg hcut, if_pos hsort, hfree hnc, List.nil_append]
  · have hno : ∀ c, (s.pc c).cuts = false ∧ (s.pc c).sorts = false := by
      intro c
      rw [← Bool.not_eq_true, ← Bool.not_eq_true]
      exact ⟨fun hc => hx ⟨c, .inl hc⟩, fun hc => hx ⟨c, .inr hc⟩⟩
    obtain ⟨h₁, h₂, h₃⟩ := hidle fun c => (hno c).2
    refine ⟨[], ?_, .inl ⟨rfl, fun c => Pc.holds_nil (hno c).1 (hno c).2⟩⟩
    rw [hfree fun c => (hno c).1, h₁, h₂, h₃]
    rfl

/-- Somebody holds a lock that others queue for. -/
theorem Inv.exists_holder {s : State T} {g : Ghost T} (h : Inv s g) (hq : g.lists.queue ≠ []) :
    ∃ c, c ∈ g.hold ∨ g.own = some c := by
  by_contra hno
  refine hq (h.queue.free ?_ ?_)
  · exact List.eq_nil_iff_forall_not_mem.mpr fun c hc => hno ⟨c, .inl hc⟩
  · exact Option.eq_none_iff_forall_not_mem.mpr fun c hc => hno ⟨c, .inr hc⟩

/-- The invariant says where the waiters are. -/
theorem Inv.placed {s : State T} {g : Ghost T} (h : Inv s g) : Placed s := by
  have hcounted := h.counted
  refine ⟨?_, fun c hc => h.clients.waits c hc.1 hc.2, fun c hp hw => ?_,
    fun c hc => (h.clients.quiet c hc).1, fun hq => ?_, h.clients.alive⟩
  · obtain ⟨H, hperm, hH⟩ := h.handing
    exact ⟨g.lists.queue, H, h.queue.chain, hperm.nodup_iff.mpr h.clients.nodup,
      fun c => hperm.mem_iff.trans (h.clients.pending c), hH⟩
  · have hmade : s.made c = 1 := by
      have hle := h.clients.once c hp
      have hne : s.made c ≠ 0 := fun h0 => hw ⟨hp, h0⟩
      omega
    refine ⟨hmade, (h.clients.told c hp hmade).imp_left ?_⟩
    rintro ⟨hsent, hsig, a, ha⟩
    have hwakes : ∀ b, (s.pc b).Wakes s.next (g.lists.wake b) := fun b =>
      (h.work b).wakes (h.clients.wakes b)
    refine ⟨hsent, hsig, a, g.lists.wake a, hwakes a, h.clients.wakeNodup a, ha, ?_⟩
    intro b L hL hmem
    rw [hL.unique (hwakes b)] at hmem
    exact h.clients.waker b a c hmem ha
  · have hne : g.lists.queue ≠ [] := fun hnil => hq ((h.queue.chain.eq_nil_iff).mp hnil)
    obtain ⟨c, hc | hc⟩ := h.exists_holder hne
    · have hsh : SharedHolder s c := (h.clients.hold c).mp hc
      exact ⟨hcounted.truthful.locked c hsh, c, .inl hsh⟩
    · have hex : ExclusiveHolder s c := (h.clients.own c).mp hc
      refine ⟨?_, c, .inr hex⟩
      rw [Word.locked, hcounted.wlocked.mpr ⟨c, hex⟩]
      rfl

variable [DecidableEq T] {unfair : Bool}

/-- **No waiter is lost, served twice or left behind.** -/
theorem placed_of_room {s : State T} (h : (machine T unfair).Reach (fun _ _ s' => Room s') s) :
    Placed s := by
  obtain ⟨⟨g, hg⟩, -⟩ := inv_of_room h
  exact hg.placed

/-- Thread `0` has an unfair lock for itself and unlocks it; it has taken the queue off the
lock and found one of the readers. -/
def sorting : List (Event (Fin 4)) := letIn.take 20

/-- Three threads wait, and the word names none of them. -/
theorem placed_sorting : ∃ s : State (Fin 4), s.word = ⟨true, false, 1, none⟩
    ∧ s.pc 0 = .separate .done ⟨some 3, 1, none, none⟩ (some 2) ∧ Placed s := by
  obtain ⟨s, hs, hp⟩ := exists_room_of_exec (T := Fin 4) true (by decide)
    (p := fun s => decide (s.word = ⟨true, false, 1, none⟩
      ∧ s.pc 0 = .separate .done ⟨some 3, 1, none, none⟩ (some 2))) sorting (by decide +kernel)
  obtain ⟨h₁, h₂⟩ := of_decide_eq_true hp
  exact ⟨s, h₁, h₂, placed_of_room hs⟩

/-! ## Somebody is awake -/

/-- **A thread that does not sleep**: it can take a step of the call it is in, has the lock
and will unlock it, or was signalled before it came to wait. -/
def Awake (s : State T) (h : T) : Prop :=
  (move s h).isSome = true ∨ s.pc h = .reader ∨ s.pc h = .writer
    ∨ ∃ excl, s.pc h = .queued excl ∧ s.signalled h = true

/-- Who holds the lock or wakes waiters up does not sleep. -/
theorem awake_of_holds {s : State T} {h : T} (hh : (s.pc h).shares = true ∨ (s.pc h).owns = true
    ∨ (s.pc h).wakes = true) : Awake s h := by
  obtain ⟨q, hq⟩ : ∃ q, s.pc h = q := ⟨_, rfl⟩
  rw [hq] at hh
  cases q with
  | reader => exact .inr (.inl hq)
  | writer => exact .inr (.inr (.inl hq))
  | idle | lockContention | lockSwap | queued | waiting | aborted =>
    simp [Pc.shares, Pc.owns, Pc.wakes] at hh
  | _ =>
    left
    rw [move, hq]
    rfl

/-- Who was signalled does not sleep. -/
theorem awake_of_signalled {s : State T} {h : T} (hh : (s.pc h).pends ≠ none)
    (hs : s.signalled h = true) : Awake s h := by
  obtain ⟨q, hq⟩ : ∃ q, s.pc h = q := ⟨_, rfl⟩
  rw [hq] at hh
  cases q with
  | queued excl => exact .inr (.inr (.inr ⟨excl, hq, hs⟩))
  | waiting tag =>
    left
    rw [move, hq]
    simp only [hs, if_true]
    rfl
  | idle | reader | writer | lockContention | lockSwap | aborted | downgradeScan | downgradeLink
  | upgradeStart | upgradeScan | upgradeSwap => exact absurd rfl hh
  | _ =>
    left
    rw [move, hq]
    rfl

/-- **A thread that keeps others from sleeping for ever**: it is awake, and has the lock or
wakes up those that were served. -/
def Serving (s : State T) (h : T) : Prop :=
  Awake s h ∧ (SharedHolder s h ∨ ExclusiveHolder s h ∨ (s.pc h).wakes = true)

/-- Who was served will be woken up. -/
theorem Inv.serving_of_served {s : State T} {g : Ghost T} {c : T} (h : Inv s g)
    (hp : (s.pc c).pends ≠ none) (hm : s.made c = 1) : ∃ a, Serving s a := by
  rcases h.clients.told c hp hm with ⟨-, -, a, ha⟩ | ⟨-, hsig, -⟩
  · have hw : (s.pc a).wakes = true := by
      by_contra hno
      rw [h.clients.wakes a (Bool.not_eq_true _ ▸ hno)] at ha
      cases ha
    exact ⟨a, awake_of_holds (.inr (.inr hw)), .inr (.inr hw)⟩
  · refine ⟨c, awake_of_signalled hp hsig, ?_⟩
    by_cases hs : (s.pc c).pends = some .shared
    · exact .inl (.inr ⟨hs, hm⟩)
    · exact .inr (.inl (.inr ⟨hp, hs, hm⟩))

/-- Somebody serves the waiters. -/
theorem Inv.serving {s : State T} {g : Ghost T} {c : T} (h : Inv s g)
    (hp : (s.pc c).pends ≠ none) : ∃ a, Serving s a := by
  by_cases hm : s.made c = 0
  · have hmem := Lists.mem_pending.mp ((h.clients.pending c).mpr ⟨hp, hm⟩)
    rcases hmem with hq | hcut | hrest
    · obtain ⟨a, ha | ha⟩ := h.exists_holder (List.ne_nil_of_mem hq)
      · rcases (h.clients.hold a).mp ha with hsh | ⟨hpa, hma⟩
        · exact ⟨a, awake_of_holds (.inl hsh), .inl (.inl hsh)⟩
        · exact h.serving_of_served (c := a) (by rw [hpa]; simp) hma
      · rcases (h.clients.own a).mp ha with ho | ⟨hpa, -, hma⟩
        · exact ⟨a, awake_of_holds (.inr (.inl ho)), .inr (.inl (.inl ho))⟩
        · exact h.serving_of_served hpa hma
    · obtain ⟨a, ha⟩ := h.queue.cutter (List.ne_nil_of_mem hcut)
      rcases h.cutter_alone ha with ho | ⟨hsh, -⟩
      · exact ⟨a, awake_of_holds (.inr (.inl ho)), .inr (.inl (.inl ho))⟩
      · exact ⟨a, awake_of_holds (.inl hsh), .inl (.inl hsh)⟩
    · have hsome : g.lists.rest ≠ [] ∨ g.lists.rds ≠ [] ∨ g.lists.wrs ≠ [] :=
        hrest.imp List.ne_nil_of_mem fun hx => hx.imp List.ne_nil_of_mem List.ne_nil_of_mem
      obtain ⟨a, ha⟩ := h.queue.sorting hsome
      have hsh : (s.pc a).shares = true := (Pc.sorts_views ha).1
      exact ⟨a, awake_of_holds (.inl hsh), .inl (.inl hsh)⟩
  · have hle := h.clients.once c hp
    exact h.serving_of_served hp (by omega)

/-- **Nobody is left to sleep for ever**: while a thread waits, some thread that does not
sleep has the lock, or wakes up those that were served. -/
theorem serving_of_room {s : State T} (h : (machine T unfair).Reach (fun _ _ s' => Room s') s)
    {c : T} (hc : (s.pc c).pends ≠ none) : ∃ a, Serving s a := by
  obtain ⟨⟨g, hg⟩, -⟩ := inv_of_room h
  exact hg.serving hc

/-- Somebody serves the three waiters that the word does not name. -/
theorem serving_sorting : ∃ s : State (Fin 4), s.word = ⟨true, false, 1, none⟩
    ∧ ∃ a, Serving s a := by
  obtain ⟨s, hs, hp⟩ := exists_room_of_exec (T := Fin 4) true (by decide)
    (p := fun s => decide (s.word = ⟨true, false, 1, none⟩ ∧ (s.pc 1).pends ≠ none)) sorting
    (by decide +kernel)
  obtain ⟨h₁, h₂⟩ := of_decide_eq_true hp
  exact ⟨s, h₁, serving_of_room hs h₂⟩

end RwLock
