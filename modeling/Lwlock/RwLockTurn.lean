import Lwlock.RwLockConvert
import Lwlock.Machine

/-!
# The read-write lock as its clients see it

Who has the lock, who waits and in what order: a turn changes that, and says nothing of
words and of `next` fields. A request is granted at once or comes to the young end of
the queue; the waiters at the old end are served; a holder leaves, or turns into one of
the other kind. What the thread does that unlocks an unfair lock is a row of turns, from
the one that takes the queue to the one that lets the readers in.

Every step of the lock is a turn and keeps the invariant, as long as the field of the
readers has room for those that are let in.
-/

namespace RwLock

variable {T : Type}

/-- **A turn of a thread** at a point, with the tags after it and the history of those
that queued by themselves. -/
inductive Turn [DecidableEq T] (tag : T → Tag) (p : Pc T) (t : T) (g : Ghost T) (P : List T) :
    Ghost T → List T → Prop
  /-- Nothing to be seen. -/
  | stay : Turn tag p t g P g P
  /-- A reader gets in. -/
  | share (hp : p.pends = none) (ho : g.own = none) :
    Turn tag p t g P { g with hold := t :: g.hold } P
  /-- A writer gets in. -/
  | claim (hp : p.pends = none) (hh : g.hold = []) (ho : g.own = none) (hq : g.lists.queue = []) :
    Turn tag p t g P { g with own := some t } P
  /-- A request is queued. -/
  | push (hp : p.pends = none) (hh : g.hold ≠ [] ∨ g.own ≠ none) :
    Turn tag p t g P { g with lists := { g.lists with queue := t :: g.lists.queue } } (t :: P)
  /-- A reader that wants to write comes to the old end, or a writer that will share. -/
  | append (hp : p.pends = none) (hcut : g.lists.cut = [])
    (hq : ∀ c ∈ g.lists.queue, tag c ≠ .upgrade)
    (hh : (t ∈ g.hold ∧ tag t = .upgrade) ∨ (g.own = some t ∧ tag t = .shared)) :
    Turn tag p t g P { g with lists := { g.lists with queue := g.lists.queue ++ [t] } } P
  /-- A reader leaves. -/
  | leave (hp : p.shares = true ∧ p.sorts = false) (hh : t ∈ g.hold)
    (hq : g.hold.erase t = [] → g.lists.queue = []) :
    Turn tag p t g P { g with hold := g.hold.erase t } P
  /-- A writer leaves. -/
  | free (ho : g.own = some t) (hq : g.lists.queue = []) : Turn tag p t g P { g with own := none } P
  /-- The only reader has the lock for itself. -/
  | rise (hp : p.shares = true ∧ p.sorts = false) (hh : g.hold = [t]) :
    Turn tag p t g P { g with hold := [], own := some t } P
  /-- A writer shares the lock. -/
  | sink (ho : g.own = some t) (hq : g.lists.queue = []) :
    Turn tag p t g P { g with hold := [t], own := none } P
  /-- A reader leaves and waits to write, alone. -/
  | wait (hp : p.pends = none) (hq : g.lists.queue = []) (ht : tag t = .upgrade) (hh : t ∈ g.hold)
    (hne : g.hold.erase t ≠ []) :
    Turn tag p t g P { g with lists := { g.lists with queue := [t] }, hold := g.hold.erase t } P
  /-- The waiters at the old end are cut off. -/
  | cut (hp : p.fair ≠ none) (Q R : List T) (hq : g.lists.queue = Q ++ R) (hc : g.lists.cut = []) :
    Turn tag p t g P { g with lists := { g.lists with queue := Q, cut := R } } P
  /-- They are served. -/
  | serve (hp : p.fair ≠ none) (Q R H : List T) (O : Option T)
    (hline : g.lists.queue ++ g.lists.cut = Q ++ R) (hs : Serves tag Q R) (hg : Granted tag R H O) :
    Turn tag p t g P ⟨{ g.lists with
      queue := Q, cut := [], wake := Function.update g.lists.wake t R }, H, O⟩ P
  /-- One of those that were served is woken up. -/
  | wake (hp : p.wakes = true) (L : List T) :
    Turn tag p t g P { g with lists := { g.lists with wake := Function.update g.lists.wake t L } } P
  /-- The queue is taken to be sorted. -/
  | take (ho : g.own = some t) :
    Turn tag p t g P ⟨{ g.lists with queue := [], rest := g.lists.queue }, [t], none⟩ P
  /-- A reader of it. -/
  | sortReader (hp : p.sorts = true) (w : T) (L : List T) (hr : g.lists.rest = w :: L)
    (hw : tag w = .shared) :
    Turn tag p t g P { g with lists := { g.lists with rest := L, rds := w :: g.lists.rds } } P
  /-- A writer of it. -/
  | sortWriter (hp : p.sorts = true) (w : T) (L : List T) (hr : g.lists.rest = w :: L)
    (hw : tag w = .exclusive) :
    Turn tag p t g P { g with lists := { g.lists with rest := L, wrs := g.lists.wrs ++ [w] } } P
  /-- The writers of it are put back, in front of a waiter for an upgrade. -/
  | putBack (hp : p.sorts = true) (A B : List T) (hq : g.lists.queue = A ++ B)
    (hA : ∀ c ∈ A, tag c ≠ .upgrade) (hB : ∀ c ∈ B, tag c = .upgrade) :
    Turn tag p t g P
      { g with lists := { g.lists with queue := A ++ g.lists.wrs ++ B, wrs := [] } } P
  /-- The readers of it are served. -/
  | letIn (hp : p.sorts = true) (hr : ∀ c ∈ g.lists.rds, tag c = .shared)
    (hw : g.lists.wrs ≠ [] → ∀ c ∈ g.lists.queue, tag c = .upgrade) :
    Turn tag p t g P ⟨{ g.lists with
      queue := g.lists.wrs ++ g.lists.queue, rds := [], wrs := [],
      wake := Function.update g.lists.wake t g.lists.rds }, g.hold.erase t ++ g.lists.rds, none⟩ P

variable [DecidableEq T]

/-- The thread of an event. -/
def Event.thread : Event T → T
  | .call t _ => t
  | .move t => t

/-- **The field of the readers has room** for those that a step lets in. -/
def Fits (s : State T) : Event T → Prop
  | .call t (.lock false _) =>
    s.pc t = .idle → s.word.grants false = true → s.word.readers + 1 < readersSize
  | .move t => match s.pc t with
    | .lockSwap false _ old =>
      s.word = old → old.grants false = true → old.readers + 1 < readersSize
    | .fairSwap _ _ old new f => s.word = old → new.wlocked = false → f.count < readersSize
    | .unfairSwap _ u old _ => s.word = old → old.readers + u.count ≤ readersSize
    | _ => True
  | _ => True

/-! ## Locking -/

/-- **A round of a lock request.** -/
theorem lockContention_turn {s : State T} {g : Ghost T} {t : T} {excl d : Bool} (h : Inv s g)
    (ht : (s.pc t).Outside) : Inv (lockContention s t excl d) g := by
  obtain ⟨t1, t2, t3, t4, t5, t6, t7, t8, t9⟩ := ht
  obtain ⟨p1, p2, p3, p4, p5, p6, p7, p8, p9⟩ := outside_lockSwap excl d s.word
  have hm : Moves s g t (.lockSwap excl d s.word) := by
    refine ⟨p1.trans t1.symm, p2.trans t2.symm, p3.trans t3.symm, .inr (h.clients.wakes t t4),
      .inl rfl, p5.trans t5.symm, fun hx => ?_, fun hx => ?_, nofun, nofun, nofun,
      fun hx => absurd p7 hx, nofun⟩
    · rw [t6] at hx
      cases hx
    · rw [t7] at hx
      cases hx
  rw [lockContention]
  split
  · next hg =>
    have heq : s.setNext t none = (s.setNext t none).setTag t (s.tag t) := by
      rw [State.setTag, show (s.setNext t none).tag = s.tag from rfl, Function.update_eq_self]
      rfl
    rw [heq]
    refine h.write t1 hm (.inr rfl) ?_
    rw [Work, if_pos hg, Function.update_self]
  · next hg =>
    refine h.write t1 hm (.inl rfl) ?_
    rw [Work, if_neg hg, Function.update_self, Function.update_self]
    exact ⟨rfl, rfl⟩

/-- **The swap of a lock request.** -/
theorem lockSwap_turn {s : State T} {g : Ghost T} {t : T} {excl d : Bool} {old : Word T}
    (h : Inv s g) (ht : s.pc t = .lockSwap excl d old) (hfit : Fits s (.move t)) :
    ∃ g', Inv (lockSwap s t excl d old) g'
      ∧ ∀ tag, Turn tag (s.pc t) t g s.pushed g' (lockSwap s t excl d old).pushed := by
  have hout : (s.pc t).Outside := by
    rw [ht]
    exact outside_lockSwap excl d old
  have hw := h.work t
  rw [ht, Work] at hw
  rw [lockSwap]
  split
  · next hword =>
    split
    · next hg =>
      rw [if_pos hg] at hw
      rw [← hword] at hg ⊢
      cases excl with
      | false =>
        have hown : g.own = none := h.queue.own_none (Word.grants_iff.mp hg).1
        refine ⟨_, h.takeShared hout hw hg ?_ rfl, fun _ => .share hout.1 hown⟩
        simp only [Fits, ht] at hfit
        rw [hword] at hg ⊢
        exact hfit hword hg
      | true =>
        obtain ⟨hwl, hr, hwq⟩ := Word.grants_iff.mp hg
        refine ⟨_, h.takeExclusive hout hw hg rfl,
          fun _ => .claim hout.1 ?_ (h.queue.own_none hwl) ?_⟩
        · rw [← List.length_eq_zero_iff, ← h.queue.readers]
          exact hr rfl
        · exact (h.queue.chain.eq_nil_iff).mpr (hwq.resolve_right (by simp))
    · next hg =>
      rw [if_neg hg] at hw
      rw [← hword] at hg hw ⊢
      have hheld : g.hold ≠ [] ∨ g.own ≠ none := by
        by_contra hno
        rw [not_or, not_not, not_not] at hno
        refine hg (Word.grants_iff.mpr ⟨?_, fun _ => ?_, .inl ?_⟩)
        · rw [h.queue.wlocked, hno.2]
          rfl
        · rw [h.queue.readers, hno.1]
          rfl
        · exact (h.queue.chain.eq_nil_iff).mp (h.queue.free hno.1 hno.2)
      refine ⟨_, ((h.pushed (t :: s.pushed)).push hout hw.1 hw.2 (Bool.not_eq_true _ ▸ hg) ?_),
        fun _ => .push hout.1 hheld⟩
      cases d
      · exact .inr rfl
      · exact .inl rfl
  · have hp : (lockContention s t excl d).pushed = s.pushed := by
      rw [lockContention]
      split <;> rfl
    rw [hp]
    exact ⟨g, lockContention_turn h hout, fun _ => .stay⟩

/-- **`lw_rwlock_lock`** up to its contention. -/
theorem lock_turn {s : State T} {g : Ghost T} {t : T} {excl : Bool} {mode : Mode} (h : Inv s g)
    (ht : s.pc t = .idle) (hfit : Fits s (.call t (.lock excl mode))) :
    ∃ g', Inv (lock s t excl mode) g'
      ∧ ∀ tag, Turn tag (s.pc t) t g s.pushed g' (lock s t excl mode).pushed := by
  have hout : (s.pc t).Outside := by
    rw [ht]
    exact outside_idle
  have hnext : s.next t = none :=
    (h.clients.quiet t hout.1).2 (by rw [ht]; rfl)
  rw [RwLock.lock.eq_def]
  split
  · next hg =>
    cases excl with
    | false =>
      exact ⟨_, h.takeShared hout hnext hg (hfit ht hg) rfl,
        fun _ => .share hout.1 (h.queue.own_none (Word.grants_iff.mp hg).1)⟩
    | true =>
      obtain ⟨hwl, hr, hwq⟩ := Word.grants_iff.mp hg
      refine ⟨_, h.takeExclusive hout hnext hg rfl,
        fun _ => .claim hout.1 ?_ (h.queue.own_none hwl) ?_⟩
      · rw [← List.length_eq_zero_iff, ← h.queue.readers]
        exact hr rfl
      · exact (h.queue.chain.eq_nil_iff).mpr (hwq.resolve_right nofun)
  · have hmove : ∀ d, Inv (s.goto t (.lockContention excl d)) g := by
      intro d
      refine h.step ?_ ?_ ?_ ?_ ?_ ⟨rfl, rfl, nofun⟩ nofun trivial <;> rw [ht] <;>
        first
          | rfl
          | exact ⟨rfl, rfl, rfl, rfl⟩
    cases mode with
    | noWait => exact ⟨g, h, fun _ => .stay⟩
    | waitInline => exact ⟨g, hmove false, fun _ => .stay⟩
    | waitDeferred => exact ⟨g, hmove true, fun _ => .stay⟩

/-! ## Unlocking -/

/-- **A round of `lw_rwlock_unlock`**, inside of a call or at its begin. -/
theorem unlock_turn {s : State T} {g : Ghost T} {t : T} {excl : Bool} {k : After} (h : Inv s g)
    (ht : s.pc t = .unlock excl k ∨ (k = .done ∧ s.pc t = .holding excl)) :
    ∃ g', Inv (unlock s t excl k) g'
      ∧ ∀ tag, Turn tag (s.pc t) t g s.pushed g' (unlock s t excl k).pushed := by
  have htv : (s.pc t).pends = k.tag ∧ (s.pc t).shares = !excl ∧ (s.pc t).owns = excl
      ∧ (s.pc t).wakes = false ∧ (s.pc t).sorts = false ∧ (s.pc t).cuts = false
      ∧ (s.pc t).fair = none ∧ (s.pc t).links = false := by
    rcases ht with ht | ⟨rfl, ht⟩ <;> rw [ht] <;> cases excl <;>
      exact ⟨rfl, rfl, rfl, rfl, rfl, rfl, rfl, rfl⟩
  obtain ⟨t1, t2, t3, t4, t5, t6, t7, t8⟩ := htv
  have hwaitq : (s.word.release excl).waitq = s.word.waitq := Word.release_waitq _ _
  simp only [RwLock.unlock]
  split
  · next hc =>
    obtain ⟨hlocked, hwq⟩ := hc
    rw [hwaitq] at hwq
    refine ⟨g, h.move ⟨t1.symm, ?_, ?_, .inr (h.clients.wakes t t4), .inr t8, t5.symm, fun hx => ?_,
      fun hx => ?_, nofun, fun hl _ => ?_, nofun, fun hx => absurd rfl hx, nofun⟩ ?_,
      fun _ => .stay⟩
    · rw [t2]; rfl
    · rw [t3]; rfl
    · rw [t6] at hx
      cases hx
    · rw [t7] at hx
      cases hx
    · -- the last reader
      cases excl with
      | true => cases hl
      | false =>
        have hmem : t ∈ g.hold := (h.clients.hold t).mpr (.inl t2)
        have hrel := release_shared h hmem
        have hr : (s.word.release false).readers = 0 := by
          rw [Word.locked, Bool.or_eq_false_iff] at hlocked
          simpa using hlocked.2
        rw [hr] at hrel
        obtain ⟨a, ha⟩ := List.length_eq_one_iff.mp hrel.symm
        rw [ha] at hmem ⊢
        rw [List.mem_singleton.mp hmem]
    · exact fun hnil => hwq ((h.queue.chain.eq_nil_iff).mp hnil)
  · next hc =>
    have hno : (s.word.release excl).locked = false → s.word.waitq = none := by
      intro hl
      by_contra hwq
      exact hc ⟨hl, hwaitq ▸ hwq⟩
    cases excl with
    | false =>
      have hmem : t ∈ g.hold := (h.clients.hold t).mpr (.inl t2)
      refine ⟨_, h.releaseShared t2 t1 t5 t7 t6 t8 t4 hno,
        fun _ => .leave ⟨t2, t5⟩ hmem fun hnil => ?_⟩
      have hrel := release_shared h hmem
      have hlen : (g.hold.erase t).length + 1 = g.hold.length := List.length_erase_add_one hmem
      rw [hnil, List.length_nil] at hlen
      refine (h.queue.chain.eq_nil_iff).mpr (hno ?_)
      rw [Word.locked, show (s.word.release false).wlocked = s.word.wlocked from rfl,
        h.queue.wlocked, (h.reader t2).2]
      simp only [Option.isSome_none, Bool.false_or, decide_eq_false_iff_not, not_not]
      omega
    | true =>
      have hown : g.own = some t := (h.clients.own t).mpr (.inl t3)
      have hwq : s.word.waitq = none := by
        refine hno ?_
        rw [Word.locked, show (s.word.release true).readers = s.word.readers from rfl,
          h.queue.readers, h.clients.alone t hown]
        rfl
      exact ⟨_, h.releaseExclusive t3 t1 t5 t6 t8 t4 hwq,
        fun _ => .free hown ((h.queue.chain.eq_nil_iff).mpr hwq)⟩

/-- **The choice of the hand-over.** -/
theorem unlockContention_turn {s : State T} {g : Ghost T} {t : T} {excl : Bool} {k : After}
    (h : Inv s g) (ht : s.pc t = .unlockContention excl k) :
    Inv (unlockContention s t excl k) g := by
  have hw := h.work t
  rw [ht] at hw
  have hne : g.lists.queue ≠ [] := hw
  have hmove : ∀ p : Pc T, p.pends = k.tag → p.shares = !excl → p.owns = excl → p.sorts = false →
      (p.fair = some false → s.word.unfair = false ∧ g.hold = [t]) → p.leaves = false →
      (p.unfair = true → s.word.unfair = true) → (p.fair ≠ none → s.word.unfair = false) →
      p ≠ .aborted → Work s.next s.tag g.lists t p → Inv (s.goto t p) g := by
    intro p h1 h2 h3 h4 h5 h6 h7 h8 h9 hw
    refine h.move ⟨?_, ?_, ?_, .inr (h.clients.wakes t ?_), .inr ?_, ?_, fun hx => ?_, fun hx => ?_,
      h5, fun hx => ?_, h7, fun hx hu => ?_, h9⟩ hw
    · rw [h1, ht]; rfl
    · rw [h2, ht]; rfl
    · rw [h3, ht]; rfl
    · rw [ht]; rfl
    · rw [ht]; rfl
    · rw [h4, ht]; rfl
    · rw [ht] at hx
      cases hx
    · rw [ht] at hx
      cases hx
    · rw [h6] at hx
      cases hx
    · rw [h8 hx] at hu
      cases hu
  rw [unlockContention]
  split
  · next hc =>
    obtain ⟨hu, rfl⟩ := hc
    exact hmove _ rfl rfl rfl rfl nofun rfl (fun _ => hu) (fun hx => absurd rfl hx) nofun hne
  · next hc =>
    split
    · next hu =>
      refine hmove _ rfl rfl rfl rfl (fun hf => ?_) rfl nofun (fun _ => hu) nofun hne
      obtain rfl : excl = false := Option.some.inj hf
      exact ⟨hu, h.clients.last t (by rw [ht]; rfl) hu⟩
    · next hu =>
      have hunf : s.word.unfair = true := Bool.not_eq_false _ ▸ hu
      obtain rfl : excl = true := by
        cases excl
        · exact absurd ⟨hunf, rfl⟩ hc
        · rfl
      exact hmove _ rfl rfl rfl rfl nofun rfl (fun _ => hunf) (fun hx => absurd rfl hx) nofun hne

/-- **The last reader of an unfair lock**, or one that was overtaken. -/
theorem upgradeOrRelease_turn {s : State T} {g : Ghost T} {t : T} {k : After} (h : Inv s g)
    (ht : s.pc t = .upgradeOrRelease k) : ∃ g', Inv (upgradeOrRelease s t k) g'
      ∧ ∀ tag, Turn tag (s.pc t) t g s.pushed g' (upgradeOrRelease s t k).pushed := by
  have hshares : (s.pc t).shares = true := by rw [ht]; rfl
  obtain ⟨hmem, hown⟩ := h.reader hshares
  have hrel := release_shared h hmem
  have hlen : (g.hold.erase t).length + 1 = g.hold.length := List.length_erase_add_one hmem
  simp only [RwLock.upgradeOrRelease]
  split
  · next hr =>
    refine ⟨_, h.placeholder ht hr, fun _ => .rise ⟨hshares, by rw [ht]; rfl⟩ ?_⟩
    rw [hr] at hrel
    obtain ⟨a, ha⟩ := List.length_eq_one_iff.mp hrel.symm
    rw [ha] at hmem ⊢
    rw [List.mem_singleton.mp hmem]
  · next hr =>
    refine ⟨_, h.releaseShared hshares ?_ ?_ ?_ ?_ ?_ ?_ fun hl => ?_,
      fun _ => .leave ⟨hshares, by rw [ht]; rfl⟩ hmem fun hnil => ?_⟩
    · rw [ht]; rfl
    · rw [ht]; rfl
    · rw [ht]; rfl
    · rw [ht]; rfl
    · rw [ht]; rfl
    · rw [ht]; rfl
    · rw [Word.locked, Bool.or_eq_false_iff] at hl
      simp only [decide_eq_false_iff_not, not_not] at hl
      exact absurd hl.2 hr
    · rw [hnil, List.length_nil] at hlen
      omega

/-- **The swap of the fair hand-over.** -/
theorem fairSwap_turn {s : State T} {g : Ghost T} {t : T} {excl : Bool} {k : After}
    {old new : Word T} {f : Fair T} (h : Inv s g) (ht : s.pc t = .fairSwap excl k old new f)
    (hfit : Fits s (.move t)) : ∃ g', Inv (fairSwap s t excl k old new f) g'
      ∧ Turn s.tag (s.pc t) t g s.pushed g' (fairSwap s t excl k old new f).pushed := by
  have hfair : (s.pc t).fair = some excl := by rw [ht]; rfl
  simp only [Fits, ht] at hfit
  by_cases hword : s.word = old
  · rw [← hword] at ht
    obtain ⟨Q, R, H, O, hline, hs, hg, hinv⟩ := h.fairSwap ht (hfit hword)
    rw [← hword]
    have hpushed : (fairSwap s t excl k s.word new f).pushed = s.pushed := by
      rw [RwLock.fairSwap, if_pos rfl]
      split
      · rfl
      · split
        · split <;> rfl
        · rfl
    rw [hpushed]
    exact ⟨_, hinv, .serve (by rw [hfair]; rintro ⟨⟩) Q R H O hline hs hg⟩
  · rw [RwLock.fairSwap, if_neg hword]
    have hpushed : (fairLoop s t excl k f).pushed = s.pushed := by
      rw [RwLock.fairLoop.eq_def]
      dsimp only
      split
      · rfl
      · split
        · rfl
        · split <;> rfl
    rw [hpushed]
    exact ⟨g, h.fairLoop hfair (by rw [ht]; rfl) (.inr ⟨old, new, ht⟩), .stay⟩

/-! ## Every step is a turn -/

/-- Whether the step from it writes the tag of the thread. -/
def Pc.tags : Pc T → Bool
  | .lockContention _ _ | .lockSwap _ _ _ | .downgradeLink _ => true
  | _ => false

/-- **What else a step writes**: only a lock request is noted, and a thread writes its own
tag before it waits. -/
theorem move_writes {s s' : State T} {t : T} (he : move s t = some s')
    (hno : ∀ excl d old, s.pc t ≠ .lockSwap excl d old) : s'.pushed = s.pushed
      ∧ (s'.tag = s.tag ∨ ((s.pc t).tags = true ∧ ∃ tg, s'.tag = Function.update s.tag t tg)) := by
  have hloop : ∀ k u, (unfairLoop s t k u).pushed = s.pushed
      ∧ (unfairLoop s t k u).tag = s.tag := by
    intro k u
    simp only [unfairLoop]
    split
    · exact ⟨rfl, rfl⟩
    · split <;> exact ⟨rfl, rfl⟩
  have hfair : ∀ excl k f, (fairLoop s t excl k f).pushed = s.pushed
      ∧ (fairLoop s t excl k f).tag = s.tag := by
    intro excl k f
    simp only [fairLoop]
    split
    · exact ⟨rfl, rfl⟩
    · split
      · exact ⟨rfl, rfl⟩
      · split <;> exact ⟨rfl, rfl⟩
  cases hpc : s.pc t with
  | lockSwap excl d old => exact absurd hpc (hno excl d old)
  | idle | reader | writer | queued | aborted =>
    rw [move, hpc] at he
    cases he
  | waiting tag =>
    rw [move, hpc] at he
    dsimp only at he
    split at he
    · cases he
      exact ⟨rfl, .inl rfl⟩
    · cases he
  | lockContention excl d =>
    rw [move, hpc] at he
    obtain rfl := Option.some.inj he
    rw [lockContention]
    split
    · exact ⟨rfl, .inl rfl⟩
    · exact ⟨rfl, .inr ⟨rfl, Tag.of excl, rfl⟩⟩
  | downgradeLink w =>
    rw [move, hpc] at he
    obtain rfl := Option.some.inj he
    rw [downgradeLink]
    split
    · exact ⟨rfl, .inr ⟨rfl, .shared, rfl⟩⟩
    · exact ⟨rfl, .inl rfl⟩
  | fairStart excl k =>
    rw [move, hpc] at he
    obtain rfl := Option.some.inj he
    exact (hfair _ _ _).imp_right .inl
  | fairSwap excl k old new f =>
    rw [move, hpc] at he
    obtain rfl := Option.some.inj he
    rw [RwLock.fairSwap]
    split
    · split
      · exact ⟨rfl, .inl rfl⟩
      · split
        · split <;> exact ⟨rfl, .inl rfl⟩
        · exact ⟨rfl, .inl rfl⟩
    · exact (hfair _ _ _).imp_right .inl
  | unfairSwap k u old new =>
    rw [move, hpc] at he
    obtain rfl := Option.some.inj he
    rw [RwLock.unfairSwap]
    split
    · exact ⟨rfl, .inl rfl⟩
    · exact (hloop _ _).imp_right .inl
  | separate k u list =>
    rw [move, hpc] at he
    obtain rfl := Option.some.inj he
    rw [RwLock.separate.eq_def]
    split
    · exact (hloop _ _).imp_right .inl
    · exact ⟨rfl, .inl rfl⟩
  | _ =>
    rw [move, hpc] at he
    obtain rfl := Option.some.inj he
    try simp only [RwLock.unlock, unlockContention, upgradeOrRelease, fairScan, fairCut, wakeAll,
      wakeSignal, unfairStart, unfairScan, downgradeList, separateClear, separateReader,
      separateWriter, reinsert, reinsertVerify, reinsertOldest, reinsertCurr, reinsertHead,
      reinsertLast, downgradeScan, upgradeStart, upgradeScan, upgradeSwap]
    repeat' split
    all_goals exact ⟨rfl, .inl rfl⟩

/-- **A further step of a thread is a turn.** -/
theorem move_turn {s s' : State T} {g : Ghost T} {t : T} (h : Inv s g) (he : move s t = some s')
    (hfit : Fits s (.move t)) :
    ∃ g', Inv s' g' ∧ Turn s'.tag (s.pc t) t g s.pushed g' s'.pushed := by
  by_cases hlock : ∃ excl d old, s.pc t = .lockSwap excl d old
  · obtain ⟨excl, d, old, ht⟩ := hlock
    have hs' : s' = lockSwap s t excl d old := by
      rw [move, ht] at he
      exact (Option.some.inj he).symm
    obtain ⟨g', hinv, hturn⟩ := lockSwap_turn h ht hfit
    rw [hs']
    exact ⟨g', hinv, hturn _⟩
  have hno : ∀ excl d old, s.pc t ≠ .lockSwap excl d old :=
    fun excl d old hx => hlock ⟨excl, d, old, hx⟩
  obtain ⟨hp, htags⟩ := move_writes he hno
  have hstay : Inv s' g → ∃ g', Inv s' g' ∧ Turn s'.tag (s.pc t) t g s.pushed g' s'.pushed := by
    intro hi
    rw [hp]
    exact ⟨g, hi, .stay⟩
  have htag : (s.pc t).tags = false → s'.tag = s.tag := by
    intro hf
    refine htags.resolve_right fun hx => ?_
    rw [hf] at hx
    cases hx.1
  obtain ⟨q, ht⟩ : ∃ q, s.pc t = q := ⟨_, rfl⟩
  cases q with
  | lockSwap excl d old => exact absurd ht (hno excl d old)
  | idle | reader | writer | queued | aborted =>
    rw [move, ht] at he
    cases he
  | lockContention excl d =>
    rw [move, ht] at he
    obtain rfl := Option.some.inj he
    exact hstay (lockContention_turn h (by rw [ht]; exact outside_lockContention excl d))
  | waiting tag =>
    rw [move, ht] at he
    dsimp only at he
    split at he
    · next hs =>
      obtain rfl := Option.some.inj he
      exact hstay (h.wait ht hs)
    · cases he
  | unlock excl k =>
    rw [move, ht] at he
    obtain rfl := Option.some.inj he
    obtain ⟨g', hinv, hturn⟩ := unlock_turn h (.inl ht)
    exact ⟨g', hinv, hturn _⟩
  | unlockContention excl k =>
    rw [move, ht] at he
    obtain rfl := Option.some.inj he
    exact hstay (unlockContention_turn h ht)
  | upgradeOrRelease k =>
    rw [move, ht] at he
    obtain rfl := Option.some.inj he
    obtain ⟨g', hinv, hturn⟩ := upgradeOrRelease_turn h ht
    exact ⟨g', hinv, hturn _⟩
  | fairStart excl k =>
    rw [move, ht] at he
    obtain rfl := Option.some.inj he
    exact hstay (h.fairLoop (by rw [ht]; rfl) (by rw [ht]; rfl) (.inl ⟨ht, rfl⟩))
  | fairScan excl k old w link count =>
    rw [move, ht] at he
    obtain rfl := Option.some.inj he
    exact hstay (h.fairScan ht)
  | fairTake excl k old w c count =>
    rw [move, ht] at he
    obtain rfl := Option.some.inj he
    exact hstay (h.fairTake ht)
  | fairCut excl k old w c count list =>
    rw [move, ht] at he
    obtain rfl := Option.some.inj he
    obtain ⟨Q, R, hq, hinv⟩ := h.fairCut ht
    rw [hp]
    refine ⟨_, hinv, .cut (by rw [ht]; nofun) Q R hq (h.cut_nil ?_ (by rw [ht]; rfl))⟩
    rw [ht]
    cases excl
    · exact .inl rfl
    · exact .inr rfl
  | fairSwap excl k old new f =>
    rw [move, ht] at he
    obtain rfl := Option.some.inj he
    rw [htag (by rw [ht]; rfl)]
    exact fairSwap_turn h ht hfit
  | wakeAll k id =>
    rw [move, ht] at he
    obtain rfl := Option.some.inj he
    exact hstay (h.wakeAll ht)
  | wakeClear k w id =>
    rw [move, ht] at he
    obtain rfl := Option.some.inj he
    exact hstay (h.wakeClear ht)
  | wakeSignal k w id =>
    rw [move, ht] at he
    obtain rfl := Option.some.inj he
    obtain ⟨L, hinv⟩ := h.wakeSignal ht
    rw [hp]
    exact ⟨_, hinv, .wake (by rw [ht]; rfl) L⟩
  | unfairStart k =>
    rw [move, ht] at he
    obtain rfl := Option.some.inj he
    exact hstay (h.unfairStart ht)
  | unfairScan k w =>
    rw [move, ht] at he
    obtain rfl := Option.some.inj he
    exact hstay (h.unfairScan ht)
  | downgradeList k =>
    rw [move, ht] at he
    obtain rfl := Option.some.inj he
    obtain ⟨ho, hinv⟩ := h.downgradeList ht
    rw [hp]
    exact ⟨_, hinv, .take ho⟩
  | separate k u list =>
    rw [move, ht] at he
    obtain rfl := Option.some.inj he
    cases list with
    | some w => exact hstay (h.separate ht)
    | none =>
      have hw := h.work t
      rw [ht] at hw
      obtain ⟨hs, hch⟩ := hw
      exact hstay (h.unfairLoop (by rw [ht]; rfl) (by rw [ht]; rfl)
        (hs.ready ((hch.eq_nil_iff).mpr rfl)))
  | separateClear k u w list =>
    rw [move, ht] at he
    obtain rfl := Option.some.inj he
    obtain ⟨L, hL, hinv | ⟨hw, hinv⟩⟩ := h.separateClear ht
    · exact hstay hinv
    · rw [hp, htag (by rw [ht]; rfl)]
      exact ⟨_, hinv, .sortWriter (by rw [ht]; rfl) w L hL hw⟩
  | separateReader k u w list =>
    rw [move, ht] at he
    obtain rfl := Option.some.inj he
    obtain ⟨L, hL, hw, hinv⟩ := h.separateReader ht
    rw [hp, htag (by rw [ht]; rfl)]
    exact ⟨_, hinv, .sortReader (by rw [ht]; rfl) w L hL hw⟩
  | separateWriter k u w list =>
    rw [move, ht] at he
    obtain rfl := Option.some.inj he
    obtain ⟨L, hL, hw, hinv⟩ := h.separateWriter ht
    rw [hp, htag (by rw [ht]; rfl)]
    exact ⟨_, hinv, .sortWriter (by rw [ht]; rfl) w L hL hw⟩
  | reinsert k u old c =>
    rw [move, ht] at he
    obtain rfl := Option.some.inj he
    exact hstay (h.reinsert ht)
  | reinsertVerify k u old c n =>
    rw [move, ht] at he
    obtain rfl := Option.some.inj he
    exact hstay (h.reinsertVerify ht)
  | reinsertOldest k u old c n =>
    rw [move, ht] at he
    obtain rfl := Option.some.inj he
    exact hstay (h.reinsertOldest ht)
  | reinsertCurr k u old c =>
    rw [move, ht] at he
    obtain rfl := Option.some.inj he
    obtain ⟨A, B, hq, ⟨n, rfl, hn⟩, hinv⟩ := h.reinsertCurr ht
    rw [hp, htag (by rw [ht]; rfl)]
    refine ⟨_, hinv, .putBack (by rw [ht]; rfl) A [n] hq (fun c hc htc => ?_) fun c hc => ?_⟩
    · have hl := (h.queue.upgradeLast c (hq ▸ List.mem_append_left _ hc) htc).1
      rw [hq, List.getLast?_concat] at hl
      have hnd := h.queue.chain.nodup
      rw [hq] at hnd
      exact (List.nodup_append.mp hnd).2.2 c hc n (List.mem_singleton_self n)
        (Option.some.inj hl).symm
    · rwa [List.mem_singleton.mp hc]
  | reinsertHead k u old c =>
    rw [move, ht] at he
    obtain rfl := Option.some.inj he
    exact hstay (h.reinsertHead ht)
  | reinsertLast k u old c =>
    rw [move, ht] at he
    obtain rfl := Option.some.inj he
    rcases h.reinsertLast ht with hinv | ⟨hup, hinv⟩
    · exact hstay hinv
    · rw [hp, htag (by rw [ht]; rfl)]
      have hturn : Turn s.tag (s.pc t) t g s.pushed _ s.pushed :=
        .putBack (by rw [ht]; rfl) g.lists.queue [] (List.append_nil _).symm hup nofun
      rw [List.append_nil] at hturn
      exact ⟨_, hinv, hturn⟩
  | unfairSwap k u old new =>
    rw [move, ht] at he
    obtain rfl := Option.some.inj he
    by_cases hword : s.word = old
    · simp only [Fits, ht] at hfit
      rw [htag (by rw [ht]; rfl)]
      rw [← hword] at ht hp ⊢
      obtain ⟨hne, hr, hb, hinv⟩ := h.unfairSwap ht (hword ▸ hfit hword)
      rw [hp]
      refine ⟨_, hinv, .letIn (by rw [ht]; rfl) hr fun hw c hc => ?_⟩
      -- with writers left there is at most a waiter for an upgrade in front of them
      cases hq : g.lists.queue with
      | nil =>
        rw [hq] at hc
        cases hc
      | cons a B =>
        obtain ⟨hl, hta⟩ := hb hw a (by rw [hq]; rfl)
        have hB : B = [] := by
          by_contra hne
          rw [hq, getLast?_cons_of_ne hne] at hl
          have hnd := h.queue.chain.nodup
          rw [hq] at hnd
          exact (List.nodup_cons.mp hnd).1 (List.mem_of_getLast? hl)
        rw [hq, hB] at hc
        rwa [List.mem_singleton.mp hc]
    · have hinv := h.unfairRetry ht
      rw [RwLock.unfairSwap, if_neg hword] at hp ⊢
      rw [hp]
      exact ⟨g, hinv, .stay⟩
  | downgradeScan w =>
    rw [move, ht] at he
    obtain rfl := Option.some.inj he
    exact hstay (h.downgradeScan ht)
  | downgradeLink w =>
    rw [move, ht] at he
    obtain rfl := Option.some.inj he
    have howns : (s.pc t).owns = true := by rw [ht]; rfl
    have hpn : (s.pc t).pends = none := by rw [ht]; rfl
    have hown := (h.writer howns).1
    have hnext : s.next t = none := (h.clients.quiet t hpn).2 (by rw [ht]; rfl)
    have htags : (downgradeLink s t w).tag = Function.update s.tag t .shared := by
      rw [downgradeLink, if_pos hnext]
      rfl
    rw [hp, htags]
    refine ⟨_, h.downgradeLink ht, .append hpn (h.cut_nil (.inr howns) (by rw [ht]; rfl))
      (fun c hc => ?_) (.inr ⟨hown, Function.update_self _ _ _⟩)⟩
    have hct : c ≠ t := by
      rintro rfl
      exact (h.clients.not_mem hpn).1 (Lists.mem_pending.mpr (.inl hc))
    rw [Function.update_of_ne hct]
    intro htc
    have hf := h.queue.upgradeOwn c (.inl hc) htc t hown
    rw [ht] at hf
    cases hf
  | upgradeStart =>
    rw [move, ht] at he
    obtain rfl := Option.some.inj he
    exact hstay (h.upgradeStart ht)
  | upgradeScan w =>
    rw [move, ht] at he
    obtain rfl := Option.some.inj he
    exact hstay (h.upgradeScan ht)
  | upgradeSwap w =>
    rw [move, ht] at he
    obtain rfl := Option.some.inj he
    cases hn : s.next w with
    | none =>
      have hinv := h.upgradeLink ht hn
      have hw := h.work t
      rw [ht] at hw
      obtain ⟨htu, hwq, hwtag⟩ := hw
      have hshares : (s.pc t).shares = true := by rw [ht]; rfl
      rw [hp, htag (by rw [ht]; rfl)]
      simp only [RwLock.upgradeSwap, hn]
      refine ⟨_, hinv, .append (by rw [ht]; rfl) (h.cut_nil (.inl hshares) (by rw [ht]; rfl))
        (fun c hc htc => ?_) (.inl ⟨(h.reader hshares).1, htu⟩)⟩
      obtain ⟨A, hA⟩ := h.queue.chain.eq_last hwq hn
      have hl := (h.queue.upgradeLast c hc htc).1
      rw [hA, List.getLast?_concat] at hl
      rw [← Option.some.inj hl] at htc
      exact hwtag htc
    | some n => exact hstay (h.upgradeRetry ht hn)

/-- **A call is a turn.** -/
theorem call_turn {s s' : State T} {g : Ghost T} {t : T} {op : Op} (h : Inv s g)
    (he : call s t op = some s') (hfit : Fits s (.call t op)) :
    ∃ g', Inv s' g' ∧ Turn s'.tag (s.pc t) t g s.pushed g' s'.pushed := by
  obtain ⟨q, ht⟩ : ∃ q, s.pc t = q := ⟨_, rfl⟩
  cases q with
  | idle =>
    cases op with
    | lock excl mode =>
      rw [call.eq_def, ht] at he
      obtain rfl := Option.some.inj he
      obtain ⟨g', hinv, hturn⟩ := lock_turn h ht hfit
      exact ⟨g', hinv, hturn _⟩
    | _ =>
      rw [call.eq_def, ht] at he
      cases he
  | queued excl =>
    cases op with
    | contentionWait =>
      rw [call.eq_def, ht] at he
      obtain rfl := Option.some.inj he
      refine ⟨g, h.step ?_ ?_ ?_ ?_ ?_ ⟨rfl, rfl, nofun⟩ nofun trivial, .stay⟩ <;> rw [ht] <;>
        first
          | rfl
          | exact ⟨rfl, rfl, rfl, rfl⟩
    | _ =>
      rw [call.eq_def, ht] at he
      cases he
  | reader =>
    cases op with
    | unlock =>
      rw [call.eq_def, ht] at he
      obtain rfl := Option.some.inj he
      have hh : s.pc t = .holding false := ht
      obtain ⟨g', hinv, hturn⟩ := unlock_turn h (.inr ⟨rfl, hh⟩)
      exact ⟨g', hinv, hturn _⟩
    | upgrade =>
      rw [call.eq_def, ht] at he
      obtain rfl := Option.some.inj he
      simp only [RwLock.upgrade]
      split
      · next hq => exact ⟨g, h.upgradeQueue ht hq, .stay⟩
      · next hq =>
        have hq : s.word.waitq = none := not_not.mp hq
        split
        · next hr =>
          obtain ⟨hh, hinv⟩ := h.upgradeFree ht hq hr
          exact ⟨_, hinv, .rise (by rw [ht]; exact ⟨rfl, rfl⟩) hh⟩
        · next hr =>
          obtain ⟨hqueue, hpos, hinv⟩ := h.upgradeAlone ht hq hr
          exact ⟨_, hinv, .wait (by rw [ht]; rfl) hqueue (Function.update_self _ _ _)
            (h.reader (by rw [ht]; rfl)).1 hpos⟩
    | _ =>
      rw [call.eq_def, ht] at he
      cases he
  | writer =>
    cases op with
    | unlock =>
      rw [call.eq_def, ht] at he
      obtain rfl := Option.some.inj he
      have hh : s.pc t = .holding true := ht
      obtain ⟨g', hinv, hturn⟩ := unlock_turn h (.inr ⟨rfl, hh⟩)
      exact ⟨g', hinv, hturn _⟩
    | downgrade =>
      rw [call.eq_def, ht] at he
      obtain rfl := Option.some.inj he
      have howns : (s.pc t).owns = true := by rw [ht]; rfl
      simp only [RwLock.downgrade]
      cases hq : s.word.waitq with
      | none =>
        have hinv := h.downgradeFree ht hq
        simp only [hq] at hinv
        exact ⟨_, hinv, .sink (h.writer howns).1 ((h.queue.chain.eq_nil_iff).mpr hq)⟩
      | some w =>
        refine ⟨g, h.step ?_ ?_ ?_ ?_ ?_ ⟨rfl, rfl, nofun⟩ nofun ?_, .stay⟩
        · rw [ht]; rfl
        · rw [ht]; rfl
        · rw [ht]; rfl
        · rw [ht]; rfl
        · rw [ht]; exact ⟨rfl, rfl, rfl, rfl⟩
        · have hch := h.queue.chain.head_eq
          rw [hq] at hch
          exact List.mem_of_mem_head? hch.symm
    | _ =>
      rw [call.eq_def, ht] at he
      cases he
  | _ =>
    rw [call.eq_def, ht] at he
    cases he

/-- **Every step is a turn** that keeps the invariant. -/
theorem step_turn {s s' : State T} {g : Ghost T} {e : Event T} {unfair : Bool} (h : Inv s g)
    (he : (machine T unfair).step s e = some s') (hfit : Fits s e) :
    ∃ g', Inv s' g' ∧ Turn s'.tag (s.pc e.thread) e.thread g s.pushed g' s'.pushed := by
  cases e with
  | call t op => exact call_turn h he hfit
  | move t => exact move_turn h he hfit

omit [DecidableEq T] in
theorem Pc.not_tags {p : Pc T} (h : p.pends ≠ none) : p.tags = false := by
  cases p <;> first | rfl | exact absurd rfl h

/-- **Whoever waits keeps its tag.** -/
theorem step_tag {s s' : State T} {e : Event T} {unfair : Bool} {c : T}
    (he : (machine T unfair).step s e = some s') (hc : (s.pc c).pends ≠ none) :
    s'.tag c = s.tag c := by
  have hother : ∀ t tg, t ≠ c → Function.update s.tag t tg c = s.tag c :=
    fun t tg htc => Function.update_of_ne (Ne.symm htc) _ _
  cases e with
  | move t =>
    have hmove : move s t = some s' := he
    by_cases hlock : ∃ excl d old, s.pc t = .lockSwap excl d old
    · obtain ⟨excl, d, old, ht⟩ := hlock
      have htc : t ≠ c := by
        rintro rfl
        rw [ht] at hc
        exact hc rfl
      rw [move, ht] at hmove
      obtain rfl := Option.some.inj hmove
      rw [lockSwap]
      split
      · split <;> rfl
      · rw [lockContention]
        split
        · rfl
        · exact hother t _ htc
    · obtain ⟨-, htag | ⟨htags, tg, htag⟩⟩ :=
        move_writes hmove fun excl d old hx => hlock ⟨excl, d, old, hx⟩
      · rw [htag]
      · rw [htag]
        refine hother t tg ?_
        rintro rfl
        rw [Pc.not_tags hc] at htags
        cases htags
  | call t op =>
    have hcall : call s t op = some s' := he
    obtain ⟨q, ht⟩ : ∃ q, s.pc t = q := ⟨_, rfl⟩
    rw [call.eq_def, ht] at hcall
    split at hcall
    · obtain rfl := Option.some.inj hcall
      rw [RwLock.lock.eq_def]
      split
      · rfl
      · split <;> rfl
    · obtain rfl := Option.some.inj hcall
      rfl
    · obtain rfl := Option.some.inj hcall
      simp only [RwLock.unlock]
      split <;> rfl
    · obtain rfl := Option.some.inj hcall
      simp only [RwLock.unlock]
      split <;> rfl
    · obtain rfl := Option.some.inj hcall
      simp only [RwLock.downgrade]
      split <;> rfl
    · obtain rfl := Option.some.inj hcall
      have htc : t ≠ c := by
        rintro rfl
        rw [ht] at hc
        exact hc rfl
      simp only [RwLock.upgrade]
      split
      · exact hother t _ htc
      · split
        · rfl
        · exact hother t _ htc
    · cases hcall

/-- Nobody has the lock, and nobody waits. -/
def Ghost.init : Ghost T := ⟨⟨[], [], [], [], [], fun _ => []⟩, [], none⟩

omit [DecidableEq T] in
/-- The invariant holds at the start. -/
theorem Inv.init (unfair : Bool) : Inv (RwLock.init T unfair) Ghost.init := by
  refine ⟨?_, ?_, fun t => trivial⟩
  · constructor <;> simp [RwLock.init, Ghost.init, Lists.pending, Pc.pends, Pc.shares, Pc.owns,
      Pc.fair, Pc.leaves, Pc.unfair, Pc.sorts, Pc.wakes]
  · constructor <;> simp [RwLock.init, Ghost.init, Pc.fair, readersSize_eq]

end RwLock
