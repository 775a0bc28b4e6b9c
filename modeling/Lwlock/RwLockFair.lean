import Lwlock.RwLockQueue
import Lwlock.FairLock

/-!
# The fair read-write lock is handed over in order

A state of a fair lock stands for one of a lock that is handed over in order: its
readers and its writer are those who hold it, and who waits is read off the queue and
what was cut off it, from the old end. A waiter for an upgrade, or one that goes on to
share after it has written, is the one in front. Every step of a thread is answered
there, or changes nothing; so who asks by a swap of the word is served in the order of
the swaps, and nobody gets in while another one waits.
-/

namespace RwLock

variable {T : Type}

/-- How a waiter appears in the queue of the abstract lock. -/
def entry (tag : T → Tag) (c : T) : T × Bool := (c, decide (tag c ≠ .shared))

/-- Those that wait in a fair lock, the one that waits longest first. -/
def Ghost.line (g : Ghost T) : List T := (g.lists.queue ++ g.lists.cut).reverse

/-- **The relation of the simulation.** -/
structure Stands (s : State T) (g : Ghost T) (a : FairLock T) : Prop where
  inv : Inv s g
  fair : s.word.unfair = false
  readers : ∀ c, c ∈ a.readers ↔ c ∈ g.hold
  writer : a.writer = g.own
  waiting : a.waiting = g.line.map (entry s.tag)
  front : ∀ c excl, a.front = some (c, excl) →
    (s.tag c = .upgrade ∧ excl = true) ∨ (g.own = some c ∧ excl = false)
  asked : a.asked = s.pushed.reverse

/-! ## What a step leaves -/

theorem handOver_unfair (tag : T → Tag) (new : Word T) (waiter : Option T) (count : ℕ) :
    (handOver tag new waiter count).unfair = new.unfair := by
  rw [handOver]
  split <;> rfl

theorem Word.release_unfair (w : Word T) (excl : Bool) : (w.release excl).unfair = w.unfair := by
  cases excl <;> rfl

theorem Word.take_unfair (w : Word T) (excl : Bool) : (w.take excl).unfair = w.unfair := by
  cases excl <;> rfl

variable [DecidableEq T]

/-- A round of a lock request leaves the word. -/
theorem lockContention_word (s : State T) (t : T) (excl d : Bool) :
    (lockContention s t excl d).word = s.word := by
  rw [lockContention]
  split <;> rfl

/-- So does one of the fair hand-over. -/
theorem fairLoop_word (s : State T) (t : T) (excl : Bool) (k : After) (f : Fair T) :
    (fairLoop s t excl k f).word = s.word := by
  simp only [fairLoop]
  split
  · rfl
  · split
    · rfl
    · split <;> rfl

/-- So does one of the unfair one. -/
theorem unfairLoop_word (s : State T) (t : T) (k : After) (u : Unfair T) :
    (unfairLoop s t k u).word = s.word := by
  simp only [unfairLoop]
  split
  · rfl
  · split <;> rfl

/-- **A lock stays fair or unfair.** -/
theorem Inv.step_unfair {s s' : State T} {g : Ghost T} {e : Event T} {unfair : Bool} (h : Inv s g)
    (he : (machine T unfair).step s e = some s') : s'.word.unfair = s.word.unfair := by
  have hunlock : ∀ t excl k, (unlock s t excl k).word.unfair = s.word.unfair := by
    intro t excl k
    simp only [RwLock.unlock]
    split
    · rfl
    · exact Word.release_unfair _ _
  cases e with
  | call t op =>
    have hcall : call s t op = some s' := he
    obtain ⟨q, ht⟩ : ∃ q, s.pc t = q := ⟨_, rfl⟩
    rw [call.eq_def, ht] at hcall
    split at hcall
    · obtain rfl := Option.some.inj hcall
      rw [RwLock.lock.eq_def]
      split
      · exact Word.take_unfair _ _
      · split <;> rfl
    · obtain rfl := Option.some.inj hcall
      rfl
    · obtain rfl := Option.some.inj hcall
      exact hunlock _ _ _
    · obtain rfl := Option.some.inj hcall
      exact hunlock _ _ _
    · obtain rfl := Option.some.inj hcall
      simp only [RwLock.downgrade]
      split <;> rfl
    · obtain rfl := Option.some.inj hcall
      simp only [RwLock.upgrade]
      split
      · rfl
      · split <;> rfl
    · cases hcall
  | move t =>
    have hmove : RwLock.move s t = some s' := he
    obtain ⟨q, ht⟩ : ∃ q, s.pc t = q := ⟨_, rfl⟩
    rw [RwLock.move, ht] at hmove
    cases q with
    | idle | reader | writer | queued | aborted => cases hmove
    | waiting tag =>
      dsimp only at hmove
      split at hmove
      · obtain rfl := Option.some.inj hmove
        rfl
      · cases hmove
    | lockContention excl d =>
      obtain rfl := Option.some.inj hmove
      rw [lockContention_word]
    | lockSwap excl d old =>
      obtain rfl := Option.some.inj hmove
      rw [lockSwap]
      split
      · next hword =>
        split
        · rw [hword]
          exact Word.take_unfair _ _
        · rw [hword]
          rfl
      · rw [lockContention_word]
    | unlock excl k =>
      obtain rfl := Option.some.inj hmove
      exact hunlock _ _ _
    | fairStart excl k =>
      obtain rfl := Option.some.inj hmove
      rw [fairLoop_word]
    | fairSwap excl k old new f =>
      obtain rfl := Option.some.inj hmove
      by_cases hword : s.word = old
      · rw [← hword] at ht ⊢
        obtain ⟨Q, R, W, -, -, -, -, hf⟩ := h.fairFound ht
        have hnew : new.unfair = s.word.unfair := by
          rw [hf.new, handOver_unfair]
          exact Word.release_unfair _ _
        rw [RwLock.fairSwap, if_pos rfl]
        split
        · exact hnew
        · split
          · split
            · rfl
            · exact hnew
          · exact hnew
      · rw [RwLock.fairSwap, if_neg hword, fairLoop_word]
    | separate k u list =>
      obtain rfl := Option.some.inj hmove
      rw [RwLock.separate.eq_def]
      split
      · rw [unfairLoop_word]
      · rfl
    | unfairSwap k u old new =>
      obtain rfl := Option.some.inj hmove
      have hw := h.work t
      rw [ht] at hw
      rw [RwLock.unfairSwap]
      split
      · next hword =>
        have hnew : new.unfair = old.unfair := by
          rcases hw with ⟨-, -, ⟨-, -, -, rfl⟩ | ⟨-, -, -, rfl⟩⟩
          · rfl
          · rfl
        rw [hword]
        exact hnew
      · rw [unfairLoop_word]
    | _ =>
      obtain rfl := Option.some.inj hmove
      try simp only [unlockContention, upgradeOrRelease, RwLock.fairScan, RwLock.fairCut,
        RwLock.wakeAll, RwLock.wakeSignal, RwLock.unfairStart, RwLock.unfairScan,
        RwLock.downgradeList, RwLock.separateClear, RwLock.separateReader, RwLock.separateWriter,
        RwLock.reinsert, RwLock.reinsertVerify, RwLock.reinsertOldest, RwLock.reinsertCurr,
        RwLock.reinsertHead, RwLock.reinsertLast, RwLock.downgradeScan, RwLock.downgradeLink,
        RwLock.upgradeStart, RwLock.upgradeScan, upgradeSwap]
      repeat' split
      all_goals rfl

/-- **Who shares the lock without having waited** found it open. -/
theorem step_shares {s s' : State T} {e : Event T} {unfair : Bool}
    (he : (machine T unfair).step s e = some s') (hp : (s.pc e.thread).pends = none)
    (hs : (s.pc e.thread).shares = false) (ho : (s.pc e.thread).owns = false)
    (hs' : SharedHolder s' e.thread) : s.word.grants false = true := by
  have hcon : ∀ t excl d, ¬ SharedHolder (lockContention s t excl d) t := by
    intro t excl d hsh
    have hpc : (lockContention s t excl d).pc t = .lockSwap excl d s.word := by
      rw [lockContention]
      split <;> exact Function.update_self _ _ _
    rw [SharedHolder, hpc] at hsh
    rcases hsh with hsh | ⟨hsh, -⟩ <;> cases hsh
  have hgoto : ∀ (r : State T) t p, p.shares = false → p.pends = none →
      ¬ SharedHolder (r.goto t p) t := by
    intro r t p h1 h2 hsh
    rw [SharedHolder, show (r.goto t p).pc t = p from Function.update_self _ _ _, h1, h2] at hsh
    rcases hsh with hsh | ⟨hsh, -⟩ <;> cases hsh
  cases e with
  | call t op =>
    have hcall : call s t op = some s' := he
    simp only [Event.thread] at hp hs ho hs'
    obtain ⟨q, ht⟩ : ∃ q, s.pc t = q := ⟨_, rfl⟩
    rw [ht] at hp hs ho
    cases q with
    | idle =>
      cases op with
      | lock excl mode =>
        rw [call.eq_def, ht] at hcall
        obtain rfl := Option.some.inj hcall
        rw [RwLock.lock.eq_def] at hs'
        split at hs'
        · next hg =>
          cases excl with
          | false => exact hg
          | true => exact absurd hs' (hgoto _ _ _ rfl rfl)
        · exfalso
          cases mode with
          | noWait =>
            rw [SharedHolder, ht] at hs'
            rcases hs' with hs' | ⟨hs', -⟩ <;> cases hs'
          | waitInline => exact hgoto _ _ _ rfl rfl hs'
          | waitDeferred => exact hgoto _ _ _ rfl rfl hs'
      | _ =>
        rw [call.eq_def, ht] at hcall
        cases hcall
    | queued => cases hp
    | reader => cases hs
    | writer => cases ho
    | _ =>
      rw [call.eq_def, ht] at hcall
      cases hcall
  | move t =>
    have hmove : move s t = some s' := he
    simp only [Event.thread] at hp hs ho hs'
    obtain ⟨q, ht⟩ : ∃ q, s.pc t = q := ⟨_, rfl⟩
    rw [ht] at hp hs ho
    rw [move, ht] at hmove
    cases q with
    | lockContention excl d =>
      obtain rfl := Option.some.inj hmove
      exact absurd hs' (hcon t excl d)
    | lockSwap excl d old =>
      obtain rfl := Option.some.inj hmove
      rw [lockSwap] at hs'
      split at hs'
      · next hword =>
        split at hs'
        · next hg =>
          cases excl with
          | false => exact hword ▸ hg
          | true => exact absurd hs' (hgoto _ _ _ rfl rfl)
        · exfalso
          rcases hs' with hs' | ⟨-, hs'⟩
          · have hpc : ∀ p : Pc T, Function.update s.pc t p t = p :=
              fun p => Function.update_self _ _ _
            simp only [State.goto, State.enqueue, hpc] at hs'
            split at hs' <;> cases hs'
          · simp [State.goto, State.enqueue] at hs'
      · exact absurd hs' (hcon t excl d)
    | wakeAll k id =>
      obtain rfl := Option.some.inj hmove
      rw [RwLock.wakeAll.eq_def] at hs'
      cases k with
      | done =>
        split at hs'
        · exact absurd hs' (hgoto _ _ _ rfl rfl)
        · exact absurd hs' (hgoto _ _ _ rfl rfl)
      | upgrade => cases hp
      | downgrade => cases hp
    | wakeClear k w id =>
      obtain rfl := Option.some.inj hmove
      exact absurd hs' (hgoto _ _ _ rfl hp)
    | wakeSignal k w id =>
      obtain rfl := Option.some.inj hmove
      exact absurd hs' (hgoto _ _ _ rfl hp)
    | idle | writer | aborted => cases hmove
    | queued | waiting => cases hp
    | unlock excl k | unlockContention excl k | fairStart excl k | fairScan excl k
    | fairTake excl k | fairCut excl k | fairSwap excl k =>
      cases excl with
      | false => cases hs
      | true => cases ho
    | unfairStart | unfairScan | downgradeList | downgradeScan | downgradeLink => cases ho
    | _ => cases hs

/-- **A request that is noted** was refused. -/
theorem step_push {s s' : State T} {e : Event T} {unfair : Bool}
    (he : (machine T unfair).step s e = some s') (hp : s'.pushed ≠ s.pushed) :
    ∃ excl, s.word.grants excl = false ∧ s'.tag e.thread = s.tag e.thread
      ∧ ∃ d, s.pc e.thread = .lockSwap excl d s.word := by
  cases e with
  | call t op =>
    have hcall : call s t op = some s' := he
    refine absurd ?_ hp
    obtain ⟨q, ht⟩ : ∃ q, s.pc t = q := ⟨_, rfl⟩
    rw [call.eq_def, ht] at hcall
    split at hcall
    · obtain rfl := Option.some.inj hcall
      rw [RwLock.lock.eq_def]
      split
      · rfl
      · split <;> rfl
    · obtain rfl := Option.some.inj hcall
      rfl
    · obtain rfl := Option.some.inj hcall
      simp only [RwLock.unlock]
      split <;> rfl
    · obtain rfl := Option.some.inj hcall
      simp only [RwLock.unlock]
      split <;> rfl
    · obtain rfl := Option.some.inj hcall
      simp only [RwLock.downgrade]
      split <;> rfl
    · obtain rfl := Option.some.inj hcall
      simp only [RwLock.upgrade]
      split
      · rfl
      · split <;> rfl
    · cases hcall
  | move t =>
    have hmove : move s t = some s' := he
    by_cases hlock : ∃ excl d old, s.pc t = .lockSwap excl d old
    · obtain ⟨excl, d, old, ht⟩ := hlock
      rw [move, ht] at hmove
      obtain rfl := Option.some.inj hmove
      rw [lockSwap] at hp ⊢
      split at hp
      · next hword =>
        split at hp
        · exact absurd rfl hp
        · next hg =>
          rw [if_pos hword, if_neg hg]
          exact ⟨excl, by rw [hword]; exact Bool.not_eq_true _ ▸ hg, rfl, d, by rw [hword]; exact ht⟩
      · refine absurd ?_ hp
        rw [lockContention]
        split <;> rfl
    · exact absurd (move_writes hmove fun excl d old hx => hlock ⟨excl, d, old, hx⟩).1 hp

/-- **Who takes a lock for itself that others queue for** is served, unless the lock is
unfair. -/
theorem step_wlocked {s s' : State T} {e : Event T} {unfair : Bool}
    (he : (machine T unfair).step s e = some s') (hw : s.word.wlocked = false)
    (hw' : s'.word.wlocked = true) (hq : s.word.waitq ≠ none) (hfair : s.word.unfair = false)
    (hpc : (s.pc e.thread).unfair = true → s.word.unfair = true) :
    ∃ excl k new f, s.pc e.thread = .fairSwap excl k s.word new f ∧ new.wlocked = true := by
  have hsame : s'.word = s.word → ∃ excl k new f,
      s.pc e.thread = .fairSwap excl k s.word new f ∧ new.wlocked = true := by
    intro hx
    rw [hx, hw] at hw'
    cases hw'
  have hgrants : ∀ excl, s.word.grants excl ≠ true := by
    intro excl hg
    obtain ⟨-, -, hx | ⟨-, hx⟩⟩ := Word.grants_iff.mp hg
    · exact hq hx
    · rw [hfair] at hx
      cases hx
  have hunlock : ∀ t excl k, (unlock s t excl k).word.wlocked = false := by
    intro t excl k
    simp only [RwLock.unlock]
    split
    · exact hw
    · cases excl
      · exact hw
      · rfl
  cases e with
  | call t op =>
    have hcall : call s t op = some s' := he
    obtain ⟨q, ht⟩ : ∃ q, s.pc t = q := ⟨_, rfl⟩
    rw [call.eq_def, ht] at hcall
    split at hcall
    · obtain rfl := Option.some.inj hcall
      refine hsame ?_
      rw [RwLock.lock.eq_def, if_neg (hgrants _)]
      split <;> rfl
    · obtain rfl := Option.some.inj hcall
      exact hsame rfl
    · obtain rfl := Option.some.inj hcall
      rw [hunlock] at hw'
      cases hw'
    · obtain rfl := Option.some.inj hcall
      rw [hunlock] at hw'
      cases hw'
    · obtain rfl := Option.some.inj hcall
      obtain ⟨w, hwq⟩ := Option.ne_none_iff_exists'.mp hq
      refine hsame ?_
      simp only [RwLock.downgrade, hwq]
      rfl
    · obtain rfl := Option.some.inj hcall
      refine hsame ?_
      simp only [RwLock.upgrade, ne_eq, hq, not_false_eq_true, if_true]
      rfl
    · cases hcall
  | move t =>
    have hmove : move s t = some s' := he
    simp only [Event.thread] at hsame hpc ⊢
    obtain ⟨q, ht⟩ : ∃ q, s.pc t = q := ⟨_, rfl⟩
    rw [move, ht] at hmove
    cases q with
    | idle | reader | writer | queued | aborted => cases hmove
    | waiting tag =>
      dsimp only at hmove
      split at hmove
      · obtain rfl := Option.some.inj hmove
        exact hsame rfl
      · cases hmove
    | lockContention excl d =>
      obtain rfl := Option.some.inj hmove
      exact hsame (lockContention_word _ _ _ _)
    | lockSwap excl d old =>
      obtain rfl := Option.some.inj hmove
      rw [lockSwap] at hw' hsame
      by_cases hword : s.word = old
      · rw [if_pos hword, ← hword, if_neg (hgrants _)] at hw'
        exact absurd hw' (by rw [← Bool.not_eq_false, not_not]; exact hw)
      · rw [if_neg hword] at hsame
        exact hsame (lockContention_word _ _ _ _)
    | unlock excl k =>
      obtain rfl := Option.some.inj hmove
      rw [hunlock] at hw'
      cases hw'
    | upgradeOrRelease k | downgradeList k =>
      rw [ht] at hpc
      rw [hpc rfl] at hfair
      cases hfair
    | fairStart excl k =>
      obtain rfl := Option.some.inj hmove
      exact hsame (fairLoop_word _ _ _ _ _)
    | fairSwap excl k old new f =>
      obtain rfl := Option.some.inj hmove
      by_cases hword : s.word = old
      · refine ⟨excl, k, new, f, by rw [hword]; exact ht, ?_⟩
        rw [fairSwap, if_pos hword] at hw'
        split at hw'
        · exact hw'
        · split at hw'
          · assumption
          · exact hw'
      · rw [fairSwap, if_neg hword] at hsame
        exact hsame (fairLoop_word _ _ _ _ _)
    | separate k u list =>
      obtain rfl := Option.some.inj hmove
      refine hsame ?_
      rw [separate.eq_def]
      split
      · exact unfairLoop_word _ _ _ _
      · rfl
    | unfairSwap k u old new =>
      rw [ht] at hpc
      rw [hpc rfl] at hfair
      cases hfair
    | _ =>
      obtain rfl := Option.some.inj hmove
      refine hsame ?_
      try simp only [unlockContention, fairScan, fairCut, wakeAll, wakeSignal, unfairStart,
        unfairScan, separateClear, separateReader, separateWriter, reinsert, reinsertVerify,
        reinsertOldest, reinsertCurr, reinsertHead, reinsertLast, downgradeScan, downgradeLink,
        upgradeStart, upgradeScan, upgradeSwap]
      repeat' split
      all_goals rfl

end RwLock
