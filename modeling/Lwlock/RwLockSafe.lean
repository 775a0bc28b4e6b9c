import Lwlock.RwLockTurn

/-!
# What the word of a read-write lock counts

The two fields of the holders say who has the lock: the bit, whether one thread has it
for itself, and the number, how many share it. A waiter that was served counts as a
holder before it runs, and so does a thread that keeps a place of the other kind while it
hands the lock over.

The number is stored in 14 bits. As long as what is stored there is smaller it is right
after every step; the step that lets in one reader too many leaves a word that counts
fewer holders than there are, and after exactly `2 ^ 14` readers the word of a free lock.
-/

namespace RwLock

variable {T : Type}

/-- **A thread that shares the lock**: with a share of its own, or served and not yet
running. -/
def SharedHolder (s : State T) (c : T) : Prop :=
  (s.pc c).shares = true ∨ ((s.pc c).pends = some .shared ∧ s.made c = 1)

/-- **A thread that has the lock for itself**. -/
def ExclusiveHolder (s : State T) (c : T) : Prop :=
  (s.pc c).owns = true
    ∨ ((s.pc c).pends ≠ none ∧ (s.pc c).pends ≠ some .shared ∧ s.made c = 1)

/-- **The word counts the holders.** -/
structure Counted (s : State T) : Prop where
  wlocked : s.word.wlocked = true ↔ ∃ c, ExclusiveHolder s c
  single : ∀ c c', ExclusiveHolder s c → ExclusiveHolder s c' → c = c'
  readers : ∃ L : List T, L.Nodup ∧ (∀ c, c ∈ L ↔ SharedHolder s c) ∧ s.word.readers = L.length
  apart : s.word.wlocked = true → s.word.readers = 0

/-- **There is room**: fewer than `2 ^ 14` threads share the lock or wait to. -/
def Room (s : State T) : Prop :=
  ∀ L : List T, L.Nodup → (∀ c ∈ L, SharedHolder s c ∨ (s.pc c).pends = some .shared) →
    L.length < 2 ^ 14

/-- The invariant says what the word counts. -/
theorem Inv.counted {s : State T} {g : Ghost T} (h : Inv s g) : Counted s := by
  refine ⟨?_, fun c c' hc hc' => ?_, ⟨g.hold, h.clients.holdNodup, h.clients.hold,
    h.queue.readers⟩, fun hw => ?_⟩
  · rw [h.queue.wlocked, Option.isSome_iff_exists]
    exact exists_congr h.clients.own
  · exact Option.some.inj (((h.clients.own c).mpr hc).symm.trans ((h.clients.own c').mpr hc'))
  · rw [h.queue.wlocked] at hw
    obtain ⟨c, hc⟩ := Option.isSome_iff_exists.mp hw
    rw [h.queue.readers, h.clients.alone c hc, List.length_nil]

variable [DecidableEq T] {unfair : Bool}

/-! ## While there is room -/

omit [DecidableEq T] in
/-- The holders and a run of waiting readers are different threads. -/
theorem Inv.length_lt {s : State T} {g : Ghost T} {L : List T} (h : Inv s g) (hs : Room s)
    (hL : L.Nodup) (hmem : ∀ c ∈ L, c ∈ g.hold ∨ (s.pc c).pends = some .shared) :
    L.length < readersSize := by
  rw [readersSize_eq]
  exact hs L hL fun c hc => (hmem c hc).imp_left (h.clients.hold c).mp

/-- A reader that gets in is one more. -/
theorem Inv.fits_share {s s' : State T} {g : Ghost T} {t : T} (h : Inv s g)
    (ht : (s.pc t).Outside) (hs' : Room s') (hpc : s'.pc = Function.update s.pc t .reader)
    (hmade : s'.made = s.made) : s.word.readers + 1 < readersSize := by
  obtain ⟨t1, t2, -⟩ := ht
  have hth : t ∉ g.hold := by
    intro hmem
    rcases (h.clients.hold t).mp hmem with hsh | ⟨hp, -⟩
    · rw [t2] at hsh
      cases hsh
    · rw [t1] at hp
      cases hp
  have hlt := hs' (t :: g.hold) (List.nodup_cons.mpr ⟨hth, h.clients.holdNodup⟩) fun c hc => ?_
  · rw [h.queue.readers, readersSize_eq]
    exact hlt
  · left
    rw [SharedHolder, hpc, hmade]
    rcases List.mem_cons.mp hc with rfl | hc
    · rw [Function.update_self]
      exact .inl rfl
    · rw [Function.update_of_ne (ne_of_mem_of_not_mem hc hth)]
      exact (h.clients.hold c).mp hc

/-- **Room is enough**: no step lets in too many. -/
theorem Inv.fits {s s' : State T} {g : Ghost T} {e : Event T} (h : Inv s g)
    (he : (machine T unfair).step s e = some s') (hs : Room s) (hs' : Room s') : Fits s e := by
  cases e with
  | call t op =>
    cases op with
    | lock excl mode =>
      cases excl with
      | true => trivial
      | false =>
        intro ht hg
        have hcall : call s t (.lock false mode) = some s' := he
        rw [call.eq_def, ht] at hcall
        obtain rfl := Option.some.inj hcall
        rw [RwLock.lock.eq_def, if_pos hg] at hs'
        refine h.fits_share (t := t) (by rw [ht]; exact outside_idle) hs' rfl rfl
    | _ => trivial
  | move t =>
    have hmove : RwLock.move s t = some s' := he
    obtain ⟨q, ht⟩ : ∃ q, s.pc t = q := ⟨_, rfl⟩
    rw [RwLock.move, ht] at hmove
    cases q with
    | lockSwap excl d old =>
      cases excl with
      | true => simp only [Fits, ht]
      | false =>
        simp only [Fits, ht]
        intro hword hg
        obtain rfl := Option.some.inj hmove
        rw [lockSwap, if_pos hword, if_pos hg] at hs'
        rw [← hword]
        exact h.fits_share (t := t) (by rw [ht]; exact outside_lockSwap false d old) hs' rfl rfl
    | fairSwap excl k old new f =>
      simp only [Fits, ht]
      intro hword hnew
      rw [← hword] at ht
      obtain ⟨Q, R, W, hline, hserves, -, -, hf⟩ := h.fairFound ht
      have hnd := h.clients.nodup
      rw [Lists.pending, hline] at hnd
      have hR : R.Nodup :=
        (List.nodup_append.mp (List.nodup_append.mp (List.nodup_append.mp
          (List.nodup_append.mp hnd).1).1).1).2.1
      rw [hf.count]
      refine h.length_lt hs hR fun c hc => .inr ?_
      rcases hserves with ⟨x, rfl, hx⟩ | ⟨-, hall, -⟩
      · have hno : ([x] : List T).getLast?.map s.tag ≠ some Tag.shared :=
          fun htag => hx (Option.some.inj htag)
        rw [hf.new, handOver, if_neg hno] at hnew
        cases hnew
      · have hcp : c ∈ g.lists.pending := by
          rw [Lists.pending, hline]
          simp [hc]
        obtain ⟨tg, htg⟩ := Option.ne_none_iff_exists'.mp ((h.clients.pending c).mp hcp).1
        rw [htg, ← h.clients.tag c tg htg, hall c hc]
    | unfairSwap k u old new =>
      simp only [Fits, ht]
      intro hword
      have hsorts : (s.pc t).sorts = true := by rw [ht]; rfl
      have hw := h.work t
      rw [ht] at hw
      obtain ⟨-, -, hcase⟩ := hw
      obtain ⟨e, hsorted⟩ : ∃ e, u.Sorted s.next s.tag g.lists e := by
        rcases hcase with ⟨-, -, hs, -⟩ | ⟨-, hs, -⟩
        · exact ⟨_, hs⟩
        · exact ⟨_, hs⟩
      have hmem := (h.sorter hsorts).1
      obtain ⟨hrd, hnd⟩ := h.clients.letIn_nodup hsorts hsorted.shared
      have hlt := h.length_lt hs hnd fun c hc => by
        rcases List.mem_append.mp hc with hc | hc
        · exact .inl (List.mem_of_mem_erase hc)
        · exact .inr (hrd c hc).2
      rw [List.length_append, List.length_erase_of_mem hmem] at hlt
      rw [← hword, h.queue.readers, hsorted.count]
      omega
    | _ => simp only [Fits, ht]

/-- The invariant holds as long as there is room. -/
theorem inv_of_room {s : State T} (h : (machine T unfair).Reach (fun _ _ s' => Room s') s) :
    (∃ g, Inv s g) ∧ Room s := by
  refine h.invariant (I := fun s => (∃ g, Inv s g) ∧ Room s) ?_ ?_
  · rintro s rfl
    refine ⟨⟨_, Inv.init unfair⟩, fun L _ hL => ?_⟩
    cases L with
    | nil => exact Nat.two_pow_pos 14
    | cons c L =>
      rcases hL c List.mem_cons_self with (hs | ⟨hp, -⟩) | hp
      · cases hs
      · cases hp
      · cases hp
  · rintro s e s' ⟨⟨g, hg⟩, hs⟩ he hs'
    obtain ⟨g', hg', -⟩ := step_turn hg he (hg.fits he hs hs')
    exact ⟨⟨g', hg'⟩, hs'⟩

/-- While there is room no step lets in too many. -/
theorem reach_fits {s : State T} (h : (machine T unfair).Reach (fun _ _ s' => Room s') s) :
    (machine T unfair).Reach (fun s e _ => Fits s e) s := by
  obtain ⟨s₀, hs₀, hrun⟩ := h
  refine ⟨s₀, hs₀, ?_⟩
  induction hrun with
  | refl => exact .refl _
  | tail hrun he hok ih =>
    obtain ⟨⟨g, hg⟩, hroom⟩ := inv_of_room ⟨s₀, hs₀, hrun⟩
    exact ih.tail he (hg.fits he hroom hok)

/-- **Mutual exclusion and exact accounting.** -/
theorem counted_of_room {s : State T} (h : (machine T unfair).Reach (fun _ _ s' => Room s') s) :
    Counted s := by
  obtain ⟨⟨g, hg⟩, -⟩ := inv_of_room h
  exact hg.counted

omit [DecidableEq T] in
/-- Few threads always find room. -/
theorem room_of_card [Fintype T] (hcard : Fintype.card T < 2 ^ 14) (s : State T) : Room s :=
  fun _ hL _ => Nat.lt_of_le_of_lt hL.length_le_card hcard

/-- A schedule of few threads is a run with room. -/
theorem exists_room_of_exec [Fintype T] (unfair : Bool) (hcard : Fintype.card T < 2 ^ 14) {p : State T → Bool}
    (es : List (Event T))
    (he : ((machine T unfair).exec Machine.anyStep (init T unfair) es).any p = true) :
    ∃ s, (machine T unfair).Reach (fun _ _ s' => Room s') s ∧ p s = true := by
  obtain ⟨s, ⟨s₀, hs₀, hrun⟩, hp⟩ := Machine.Reach.exists_of_exec (machine T unfair)
    Machine.anyStep rfl es he
  exact ⟨s, ⟨s₀, hs₀, hrun.mono fun _ _ s' _ => room_of_card hcard s'⟩, hp⟩

/-- Thread `0` has an unfair lock for itself and unlocks it for the readers `1` and `3`, with
a writer left in the queue. -/
def letIn : List (Event (Fin 4)) :=
  [.call 0 (.lock true .noWait), .call 1 (.lock false .waitInline), .move 1, .move 1,
    .call 2 (.lock true .waitDeferred), .move 2, .move 2, .call 3 (.lock false .waitInline),
    .move 3, .move 3, .call 0 .unlock] ++ List.replicate 16 (.move 0)

/-- The two readers are counted before they run. -/
theorem counted_letIn : ∃ s : State (Fin 4), s.word = ⟨true, false, 2, some 2⟩
    ∧ s.pc 1 = .waiting .shared ∧ s.pc 3 = .waiting .shared ∧ Counted s := by
  obtain ⟨s, hs, hp⟩ := exists_room_of_exec (T := Fin 4) true (by decide)
    (p := fun s => decide (s.word = ⟨true, false, 2, some 2⟩ ∧ s.pc 1 = .waiting .shared
      ∧ s.pc 3 = .waiting .shared)) letIn (by decide +kernel)
  obtain ⟨h₁, h₂, h₃⟩ := of_decide_eq_true hp
  exact ⟨s, h₁, h₂, h₃, counted_of_room hs⟩

/-! ## When the field is full -/

/-- The invariant holds as long as no step lets in too many. -/
theorem inv_of_fits {s : State T} (h : (machine T unfair).Reach (fun s e _ => Fits s e) s) :
    ∃ g, Inv s g := by
  refine h.invariant (I := fun s => ∃ g, Inv s g) ?_ ?_
  · rintro s rfl
    exact ⟨_, Inv.init unfair⟩
  · rintro s e s' ⟨g, hg⟩ he hfit
    obtain ⟨g', hg', -⟩ := step_turn hg he hfit
    exact ⟨g', hg'⟩

/-- **What the field of the readers is relied on for**: it counts them, and a lock that is
shared is locked and not given to a writer. -/
structure Truthful (s : State T) : Prop where
  counted : Counted s
  locked : ∀ c, SharedHolder s c → s.word.locked = true
  refused : ∀ c, SharedHolder s c → s.word.grants true = false

omit [DecidableEq T] in
/-- Who counts the holders knows that there are some. -/
theorem Counted.truthful {s : State T} (h : Counted s) : Truthful s := by
  obtain ⟨L, -, hL, hr⟩ := h.readers
  have hlocked : ∀ c, SharedHolder s c → s.word.locked = true := by
    intro c hc
    have hpos : 0 < L.length := List.length_pos_of_mem ((hL c).mpr hc)
    rw [Word.locked, Bool.or_eq_true, decide_eq_true_iff]
    exact .inr (by omega)
  refine ⟨h, hlocked, fun c hc => ?_⟩
  rw [Word.grants, if_pos rfl, hlocked c hc]
  rfl

omit [DecidableEq T] in
/-- **A field that is too small** for the holders does not count them. -/
theorem not_counted {s : State T} {M : List T} (hM : M.Nodup) (hmem : ∀ c ∈ M, SharedHolder s c)
    (hlen : readersSize ≤ M.length) (hr : s.word.readers < readersSize) : ¬ Counted s := by
  intro h
  obtain ⟨L, -, hL, hrL⟩ := h.readers
  have hle : M.length ≤ L.length :=
    (hM.subperm fun c hc => (hL c).mpr (hmem c hc)).length_le
  omega

omit [DecidableEq T] in
theorem readersSize_pos : 0 < readersSize := by
  rw [readersSize_eq]
  exact Nat.two_pow_pos 14

/-- One reader too many. -/
theorem Inv.overflow_share {s s' : State T} {g : Ghost T} {t : T} (h : Inv s g)
    (ht : (s.pc t).Outside) (hpc : s'.pc = Function.update s.pc t .reader)
    (hmade : s'.made = s.made) (hword : s'.word = s.word.take false)
    (hfull : readersSize ≤ s.word.readers + 1) : ¬ Counted s' := by
  obtain ⟨t1, t2, -⟩ := ht
  have hth : t ∉ g.hold := by
    intro hmem
    rcases (h.clients.hold t).mp hmem with hsh | ⟨hp, -⟩
    · rw [t2] at hsh
      cases hsh
    · rw [t1] at hp
      cases hp
  refine not_counted (M := t :: g.hold) (List.nodup_cons.mpr ⟨hth, h.clients.holdNodup⟩)
    (fun c hc => ?_) ?_ ?_
  · rw [SharedHolder, hpc, hmade]
    rcases List.mem_cons.mp hc with rfl | hc
    · rw [Function.update_self]
      exact .inl rfl
    · rw [Function.update_of_ne (ne_of_mem_of_not_mem hc hth)]
      exact (h.clients.hold c).mp hc
  · rw [List.length_cons, ← h.queue.readers]
    exact hfull
  · rw [hword]
    exact Nat.mod_lt _ readersSize_pos

/-- A run of readers that is too long. -/
theorem Inv.overflow_fair {s : State T} {g : Ghost T} {t : T} {excl : Bool} {k : After}
    {new : Word T} {f : Fair T} (h : Inv s g) (ht : s.pc t = .fairSwap excl k s.word new f)
    (hnew : new.wlocked = false) (hfull : readersSize ≤ f.count) :
    ¬ Counted (RwLock.fairSwap s t excl k s.word new f) := by
  obtain ⟨Q, R, W, hline, hserves, hch, -, hf⟩ := h.fairFound ht
  rcases hserves with ⟨x, rfl, hx⟩ | ⟨hR, hall, -⟩
  · have hno : ([x] : List T).getLast?.map s.tag ≠ some Tag.shared :=
      fun htag => hx (Option.some.inj htag)
    rw [hf.new, handOver, if_neg hno] at hnew
    cases hnew
  · have hnd := h.clients.nodup
    rw [Lists.pending, hline] at hnd
    have hRn : R.Nodup :=
      (List.nodup_append.mp (List.nodup_append.mp (List.nodup_append.mp
        (List.nodup_append.mp hnd).1).1).1).2.1
    have hlist : f.list ≠ none := fun hn => hR ((hch.eq_nil_iff).mpr hn)
    have hwalk : walk s.next f.list f.count = R := by
      rw [hf.count]
      exact walk_eq hch
    simp only [RwLock.fairSwap, if_true, if_neg hlist, hnew, Bool.false_eq_true, if_false, hwalk]
    refine not_counted hRn (fun c hc => .inr ?_) (hf.count ▸ hfull) ?_
    · have hcp : c ∈ g.lists.pending := by
        rw [Lists.pending, hline]
        simp [hc]
      obtain ⟨hp, hm⟩ := (h.clients.pending c).mp hcp
      obtain ⟨tg, htg⟩ := Option.ne_none_iff_exists'.mp hp
      have hpc : (s.pc c).pends = some .shared := by
        rw [htg, ← h.clients.tag c tg htg, hall c hc]
      constructor
      · show (Function.update s.pc t (.wakeAll k f.list) c).pends = some .shared
        by_cases hct : c = t
        · rw [hct, Function.update_self]
          rw [hct, ht] at hpc
          exact hpc
        · rw [Function.update_of_ne hct]
          exact hpc
      · show (if c ∈ R then s.made c + 1 else s.made c) = 1
        rw [if_pos hc, hm]
    · show new.readers < readersSize
      obtain ⟨r, hr⟩ := Option.ne_none_iff_exists'.mp (mt List.getLast?_eq_none_iff.mp hR)
      have htag : R.getLast?.map s.tag = some .shared := by
        rw [hr, Option.map_some, hall r (List.mem_of_getLast? hr)]
      rw [hf.new, handOver, if_pos htag]
      exact Nat.mod_lt _ readersSize_pos

/-- Too many readers for the unfair hand-over. -/
theorem Inv.overflow_unfair {s : State T} {g : Ghost T} {t : T} {k : After} {u : Unfair T}
    {new : Word T} (h : Inv s g) (ht : s.pc t = .unfairSwap k u s.word new)
    (hfull : readersSize < s.word.readers + u.count) :
    ¬ Counted (RwLock.unfairSwap s t k u s.word new) := by
  have hsorts : (s.pc t).sorts = true := by rw [ht]; rfl
  have hw := h.work t
  rw [ht] at hw
  obtain ⟨-, -, hcase⟩ := hw
  obtain ⟨e, hs, hnew⟩ : ∃ e, u.Sorted s.next s.tag g.lists e
      ∧ new.readers = (s.word.letIn u.count).readers := by
    rcases hcase with ⟨-, -, hs, hnew⟩ | ⟨-, hs, -, hnew⟩
    · exact ⟨_, hs, by rw [hnew]⟩
    · exact ⟨_, hs, by rw [hnew]⟩
  have hmem := (h.sorter hsorts).1
  obtain ⟨hrd, hnd⟩ := h.clients.letIn_nodup hsorts hs.shared
  have hwalk : walk s.next u.readers u.count = g.lists.rds := by
    rw [hs.count]
    exact walk_eq hs.readers
  simp only [RwLock.unfairSwap, if_true, hwalk]
  refine not_counted hnd (fun c hc => ?_) ?_ ?_
  · rcases List.mem_append.mp hc with hc | hc
    · obtain ⟨hct, hch⟩ := h.clients.holdNodup.mem_erase_iff.mp hc
      have hcr : c ∉ g.lists.rds := fun hr =>
        (List.nodup_append.mp hnd).2.2 c hc c hr rfl
      rw [SharedHolder]
      show (Function.update s.pc t (.wakeAll k u.readers) c).shares = true
        ∨ ((Function.update s.pc t (.wakeAll k u.readers) c).pends = some .shared
          ∧ (if c ∈ g.lists.rds then s.made c + 1 else s.made c) = 1)
      rw [Function.update_of_ne hct, if_neg hcr]
      exact (h.clients.hold c).mp hch
    · obtain ⟨hm, hp⟩ := hrd c hc
      right
      constructor
      · show (Function.update s.pc t (.wakeAll k u.readers) c).pends = some .shared
        by_cases hct : c = t
        · rw [hct, Function.update_self]
          rw [hct, ht] at hp
          exact hp
        · rw [Function.update_of_ne hct]
          exact hp
      · show (if c ∈ g.lists.rds then s.made c + 1 else s.made c) = 1
        rw [if_pos hc, hm]
  · rw [List.length_append, List.length_erase_of_mem hmem, ← hs.count, ← h.queue.readers]
    have hpos : 0 < g.hold.length := List.length_pos_of_mem hmem
    have hr := h.queue.readers
    omega
  · show new.readers < readersSize
    rw [hnew]
    exact Nat.mod_lt _ readersSize_pos

/-- **The condition is exact**: a step that lets in too many leaves a word that does not
count the holders. -/
theorem Inv.counted_iff_fits {s s' : State T} {g : Ghost T} {e : Event T} (h : Inv s g)
    (he : (machine T unfair).step s e = some s') : Counted s' ↔ Fits s e := by
  constructor
  · intro hc
    cases e with
    | call t op =>
      cases op with
      | lock excl mode =>
        cases excl with
        | true => trivial
        | false =>
          intro ht hg
          by_contra hfull
          have hcall : call s t (.lock false mode) = some s' := he
          rw [call.eq_def, ht] at hcall
          obtain rfl := Option.some.inj hcall
          rw [RwLock.lock.eq_def, if_pos hg] at hc
          exact absurd hc (h.overflow_share (t := t) (by rw [ht]; exact outside_idle) rfl rfl rfl
            (Nat.not_lt.mp hfull))
      | _ => trivial
    | move t =>
      have hmove : RwLock.move s t = some s' := he
      obtain ⟨q, ht⟩ : ∃ q, s.pc t = q := ⟨_, rfl⟩
      rw [RwLock.move, ht] at hmove
      cases q with
      | lockSwap excl d old =>
        cases excl with
        | true => simp only [Fits, ht]
        | false =>
          simp only [Fits, ht]
          intro hword hg
          by_contra hfull
          obtain rfl := Option.some.inj hmove
          rw [lockSwap, if_pos hword, if_pos hg] at hc
          refine absurd hc (h.overflow_share (t := t) (by rw [ht]; exact outside_lockSwap false d old)
            rfl rfl ?_ ?_)
          · rw [hword]
            rfl
          · rw [hword]
            exact Nat.not_lt.mp hfull
      | fairSwap excl k old new f =>
        simp only [Fits, ht]
        intro hword hnew
        by_contra hfull
        obtain rfl := Option.some.inj hmove
        rw [← hword] at ht hc
        exact h.overflow_fair ht hnew (Nat.not_lt.mp hfull) hc
      | unfairSwap k u old new =>
        simp only [Fits, ht]
        intro hword
        by_contra hfull
        obtain rfl := Option.some.inj hmove
        rw [← hword] at ht hc hfull
        exact h.overflow_unfair ht (Nat.not_le.mp hfull) hc
      | _ => simp only [Fits, ht]
  · intro hfit
    obtain ⟨g', hg', -⟩ := step_turn h he hfit
    exact hg'.counted

/-- **The field is right** as long as no step lets in too many, and a step that does makes
it wrong. -/
theorem truthful_of_fits {s : State T} (h : (machine T unfair).Reach (fun s e _ => Fits s e) s) :
    Truthful s ∧ ∀ e s', (machine T unfair).step s e = some s' → (Truthful s' ↔ Fits s e) := by
  obtain ⟨g, hg⟩ := inv_of_fits h
  refine ⟨hg.counted.truthful, fun e s' he => ?_⟩
  rw [← hg.counted_iff_fits he]
  exact ⟨fun ht => ht.counted, fun hc => hc.truthful⟩

/-- Two readers that are let in leave a field that is right. -/
theorem truthful_letIn : ∃ s : State (Fin 4), s.word = ⟨true, false, 2, some 2⟩ ∧ Truthful s := by
  obtain ⟨s, hs, hp⟩ := exists_room_of_exec (T := Fin 4) true (by decide)
    (p := fun s => decide (s.word = ⟨true, false, 2, some 2⟩)) letIn (by decide +kernel)
  exact ⟨s, of_decide_eq_true hp, (truthful_of_fits (reach_fits hs)).1⟩

/-- **Readers that nobody keeps waiting** leave the word with their number, as far as the
field can tell. -/
theorem exists_readers (unfair : Bool) {L : List T} (hL : L.Nodup) : ∃ s : State T,
    (machine T unfair).Reach Machine.anyStep s
      ∧ s.word = ⟨unfair, false, L.length % readersSize, none⟩
      ∧ ∀ c, s.pc c = if c ∈ L then .reader else .idle := by
  induction L with
  | nil =>
    refine ⟨init T unfair, .init rfl, ?_, fun c => by simp [init]⟩
    rw [List.length_nil, Nat.zero_mod]
    rfl
  | cons a L ih =>
    obtain ⟨ha, hL⟩ := List.nodup_cons.mp hL
    obtain ⟨s, hs, hword, hpc⟩ := ih hL
    have hidle : s.pc a = .idle := by rw [hpc, if_neg ha]
    have hg : s.word.grants false = true := by rw [hword]; rfl
    have he : (machine T unfair).step s (.call a (.lock false .noWait))
        = some ({ s with word := s.word.take false }.goto a (.holding false)) := by
      show call s a (.lock false .noWait) = _
      rw [call.eq_def, hidle]
      show some (RwLock.lock s a false .noWait) = _
      rw [RwLock.lock.eq_def, if_pos hg]
    refine ⟨_, hs.tail he trivial, ?_, fun c => ?_⟩
    · show s.word.take false = _
      rw [hword, List.length_cons]
      show (⟨unfair, false, (L.length % readersSize + 1) % readersSize, none⟩ : Word T) = _
      rw [Nat.mod_add_mod]
    · show Function.update s.pc a (.holding false) c = _
      by_cases hca : c = a
      · rw [hca, Function.update_self, if_pos List.mem_cons_self]
        rfl
      · rw [Function.update_of_ne hca, hpc]
        simp [hca]

/-- **`2 ^ 14` readers are as good as none**: the word is that of a free lock, and the next
thread that asks for it gets it for itself. -/
theorem exists_writer_among_readers : ∃ s s' : State (Fin (2 ^ 14 + 1)),
    (machine (Fin (2 ^ 14 + 1)) false).Reach Machine.anyStep s
      ∧ (∀ c, c ≠ Fin.last (2 ^ 14) → SharedHolder s c) ∧ s.word.locked = false
      ∧ (machine (Fin (2 ^ 14 + 1)) false).step s (.call (Fin.last _) (.lock true .noWait)) = some s'
      ∧ s'.pc (Fin.last _) = .writer ∧ ∀ c, c ≠ Fin.last (2 ^ 14) → s'.pc c = .reader := by
  have hnd : ((List.finRange (2 ^ 14)).map Fin.castSucc).Nodup :=
    (List.nodup_finRange _).map (Fin.castSucc_injective _)
  have hmem : ∀ c, c ≠ Fin.last (2 ^ 14) ↔ c ∈ (List.finRange (2 ^ 14)).map Fin.castSucc := by
    intro c
    rw [List.mem_map]
    constructor
    · intro hc
      exact ⟨c.castPred hc, List.mem_finRange _, Fin.castSucc_castPred c hc⟩
    · rintro ⟨d, -, rfl⟩
      exact Fin.castSucc_ne_last d
  obtain ⟨s, hs, hword, hpc⟩ := exists_readers false hnd
  rw [List.length_map, List.length_finRange, readersSize_eq, Nat.mod_self] at hword
  have hreader : ∀ c, c ≠ Fin.last (2 ^ 14) → s.pc c = .reader := by
    intro c hc
    rw [hpc, if_pos ((hmem c).mp hc)]
  have hidle : s.pc (Fin.last _) = .idle := by
    rw [hpc, if_neg]
    exact fun hm => (hmem _).mpr hm rfl
  have hg : s.word.grants true = true := by rw [hword]; rfl
  refine ⟨s, { s with word := s.word.take true }.goto (Fin.last _) .writer, hs, fun c hc => ?_, ?_,
    ?_, ?_, fun c hc => ?_⟩
  · left
    rw [hreader c hc]
    rfl
  · rw [hword]
    rfl
  · show call s (Fin.last _) (.lock true .noWait) = _
    rw [call.eq_def, hidle]
    show some (RwLock.lock s (Fin.last _) true .noWait) = _
    rw [RwLock.lock.eq_def, if_pos hg]
    rfl
  · exact Function.update_self (Fin.last (2 ^ 14)) Pc.writer s.pc
  · show Function.update s.pc _ _ c = _
    rw [Function.update_of_ne hc]
    exact hreader c hc

end RwLock
