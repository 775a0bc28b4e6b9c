import Lwlock.RwLockInv

/-!
# Steps of a read-write lock

What a thread knows is stable under what the others do: a write to the `next` of a
waiter in no list, a push at the head of the queue, and a waiter for an upgrade that
comes to its end. With that, the steps that only move a thread, and those of a lock
request.
-/

namespace RwLock

variable {T : Type}

/-! ## What the others leave -/

theorem Lists.mem_pending {l : Lists T} {c : T} :
    c ∈ l.pending ↔ c ∈ l.queue ∨ c ∈ l.cut ∨ c ∈ l.rest ∨ c ∈ l.rds ∨ c ∈ l.wrs := by
  simp only [Lists.pending, List.mem_append, or_assoc]

theorem Serves.congr {tag tag' : T → Tag} {K R : List T} (h : Serves tag K R)
    (hK : ∀ c ∈ K, tag' c = tag c) (hR : ∀ c ∈ R, tag' c = tag c) : Serves tag' K R := by
  rcases h with ⟨x, rfl, hx⟩ | ⟨hne, hall, hlast⟩
  · refine .inl ⟨x, rfl, ?_⟩
    rwa [hR x (List.mem_singleton_self x)]
  · refine .inr ⟨hne, fun x hx => (hR x hx).trans (hall x hx), fun y hy => ?_⟩
    rw [hK y (List.mem_of_getLast? hy)]
    exact hlast y hy

theorem Fair.Found.congr {tag tag' : T → Tag} {f : Fair T} {R : List T} {old new : Word T}
    {excl : Bool} {w : Option T} (h : f.Found tag R old new excl w)
    (hR : ∀ c ∈ R, tag' c = tag c) : f.Found tag' R old new excl w := by
  refine ⟨h.waiter, h.count, h.list, h.new.trans ?_⟩
  have hmap : R.getLast?.map tag = R.getLast?.map tag' := by
    cases hl : R.getLast? with
    | none => rfl
    | some a => rw [Option.map_some, Option.map_some, hR a (List.mem_of_getLast? hl)]
  rw [handOver, handOver, hmap]

theorem Behind.congr {tag tag' : T → Tag} {l : Lists T} {e : Option T} (h : Behind tag l e)
    (ht : ∀ c ∈ l.queue, tag' c = tag c) : Behind tag' l e := by
  intro c hc
  obtain ⟨hl, htag⟩ := h c hc
  exact ⟨hl, (ht c (List.mem_of_getLast? hl)).trans htag⟩

section congr

variable {next next' : T → Option T} {tag tag' : T → Tag} {l : Lists T} {u : Unfair T}

theorem Unfair.Sorted.congr {e : Option T} (h : u.Sorted next tag l e)
    (hn : ∀ c ∈ l.pending, next' c = next c) (ht : ∀ c ∈ l.pending, tag' c = tag c) :
    u.Sorted next' tag' l e := by
  have hr : ∀ c ∈ l.rds, c ∈ l.pending := fun c hc =>
    Lists.mem_pending.mpr (.inr (.inr (.inr (.inl hc))))
  have hw : ∀ c ∈ l.wrs, c ∈ l.pending := fun c hc =>
    Lists.mem_pending.mpr (.inr (.inr (.inr (.inr hc))))
  exact
    { readers := h.readers.congr fun c hc => hn c (hr c hc)
      count := h.count
      shared := fun c hc => (ht c (hr c hc)).trans (h.shared c hc)
      writers := h.writers.congr fun c hc => hn c (hw c hc)
      exclusive := fun c hc => (ht c (hw c hc)).trans (h.exclusive c hc)
      oldest := h.oldest }

theorem Unfair.Sorting.congr (h : u.Sorting next tag l)
    (hn : ∀ c ∈ l.pending, next' c = next c) (ht : ∀ c ∈ l.pending, tag' c = tag c) :
    u.Sorting next' tag' l := by
  refine ⟨h.sorted.congr hn ht, h.some.imp_right ?_, h.none⟩
  rintro ⟨c, hc, htag⟩
  exact ⟨c, hc, (ht c (Lists.mem_pending.mpr (.inr (.inr (.inl hc))))).trans htag⟩

theorem Unfair.Back.congr {old : Word T} (h : u.Back next tag l old)
    (hn : ∀ c ∈ l.pending, next' c = next c) (ht : ∀ c ∈ l.pending, tag' c = tag c) :
    u.Back next' tag' l old := by
  obtain ⟨e, hs, hb⟩ := h.sorted
  exact ⟨h.rest, h.rds, h.wrs, ⟨e, hs.congr hn ht, hb.congr fun c hc => ht c
    (Lists.mem_pending.mpr (.inl hc))⟩, h.head⟩

/-- **A write to a waiter in no list** leaves what a thread knows. -/
theorem Work.congr {t : T} {p : Pc T} (h : Work next tag l t p)
    (hn : ∀ c ∈ l.pending, next' c = next c) (hw : ∀ c ∈ l.wake t, next' c = next c)
    (ht : ∀ c ∈ l.pending, tag' c = tag c)
    (hself : (p.links = true → next' t = next t) ∧ tag' t = tag t) : Work next' tag' l t p := by
  have hnq : ∀ c ∈ l.queue, next' c = next c := fun c hc => hn c (Lists.mem_pending.mpr (.inl hc))
  have htq : ∀ c ∈ l.queue, tag' c = tag c := fun c hc => ht c (Lists.mem_pending.mpr (.inl hc))
  have hnr : ∀ c ∈ l.rest, next' c = next c := fun c hc =>
    hn c (Lists.mem_pending.mpr (.inr (.inr (.inl hc))))
  have htr : ∀ c ∈ l.rest, tag' c = tag c := fun c hc =>
    ht c (Lists.mem_pending.mpr (.inr (.inr (.inl hc))))
  have hnc : ∀ c ∈ l.cut, next' c = next c := fun c hc =>
    hn c (Lists.mem_pending.mpr (.inr (.inl hc)))
  have htc : ∀ c ∈ l.cut, tag' c = tag c := fun c hc =>
    ht c (Lists.mem_pending.mpr (.inr (.inl hc)))
  cases p with
  | idle | reader | writer | lockContention | queued | waiting | unlock | aborted => trivial
  | unlockContention | upgradeOrRelease | fairStart | unfairStart => exact h
  | unfairScan | downgradeScan => exact h
  | downgradeLink => exact h
  | lockSwap excl d old =>
    simp only [Work, hself.1 rfl, hself.2] at h ⊢
    exact h
  | fairScan excl k old w link count =>
    obtain ⟨P, K, R, B, hq, hch, hs, h⟩ := h
    have hsub : ∀ c ∈ K ++ (R ++ B), c ∈ l.queue := fun c hc => hq ▸ List.mem_append_right P hc
    refine ⟨P, K, R, B, hq, hch.congr fun c hc => hnq c (hsub c hc), hs.congr ?_ ?_, h⟩
    · exact fun c hc => htq c (hsub c (List.mem_append_left _ hc))
    · exact fun c hc => htq c (hsub c (List.mem_append_right _ (List.mem_append_left _ hc)))
  | fairTake excl k old w c count =>
    obtain ⟨P, K, R, hq, hch, hs, h⟩ := h
    have hsub : ∀ c ∈ K ++ R, c ∈ l.queue := fun c hc => hq ▸ List.mem_append_right P hc
    refine ⟨P, K, R, hq, hch.congr fun c hc => hnq c (hsub c hc), hs.congr ?_ ?_, h⟩
    · exact fun c hc => htq c (hsub c (List.mem_append_left _ hc))
    · exact fun c hc => htq c (hsub c (List.mem_append_right _ hc))
  | fairCut excl k old w c count list =>
    obtain ⟨P, K, R, hq, hch, hs, h⟩ := h
    have hsub : ∀ c ∈ K ++ R, c ∈ l.queue := fun c hc => hq ▸ List.mem_append_right P hc
    refine ⟨P, K, R, hq, hch.congr fun c hc => hnq c (hsub c hc), hs.congr ?_ ?_, h⟩
    · exact fun c hc => htq c (hsub c (List.mem_append_left _ hc))
    · exact fun c hc => htq c (hsub c (List.mem_append_right _ hc))
  | fairSwap excl k old new f =>
    rcases h with ⟨hk, P, R, hq, hch, hs, hf⟩ | ⟨hk, P, K, hq, hne, hch, hcut, hs, hf⟩
    · have hsub : ∀ c ∈ R, c ∈ l.queue := fun c hc => hq ▸ List.mem_append_right P hc
      exact .inl ⟨hk, P, R, hq, hch.congr fun c hc => hnq c (hsub c hc),
        hs.congr nofun fun c hc => htq c (hsub c hc), hf.congr fun c hc => htq c (hsub c hc)⟩
    · have hsub : ∀ c ∈ K, c ∈ l.queue := fun c hc => hq ▸ List.mem_append_right P hc
      exact .inr ⟨hk, P, K, hq, hne, hch.congr fun c hc => hnq c (hsub c hc), hcut.congr hnc,
        hs.congr (fun c hc => htq c (hsub c hc)) htc, hf.congr htc⟩
  | wakeAll k id => exact Chain.congr h hw
  | wakeClear k w id =>
    obtain ⟨L, hl, hch⟩ := h
    exact ⟨L, hl, hch.congr fun c hc => hw c (hl ▸ List.mem_cons_of_mem w hc)⟩
  | wakeSignal k w id =>
    obtain ⟨L, hl, hch, hnone⟩ := h
    exact ⟨L, hl, hch.congr fun c hc => hw c (hl ▸ List.mem_cons_of_mem w hc),
      (hw w (hl ▸ List.mem_cons_self)).trans hnone⟩
  | downgradeList k =>
    obtain ⟨A, a, hq, htag⟩ := h
    exact ⟨A, a, hq, (htq a (by rw [hq]; simp)).trans htag⟩
  | separate k u list =>
    obtain ⟨hs, hch⟩ := h
    exact ⟨hs.congr hn ht, hch.congr hnr⟩
  | separateClear k u w list =>
    obtain ⟨hs, L, hl, hch⟩ := h
    exact ⟨hs.congr hn ht, L, hl, hch.congr fun c hc => hnr c (hl ▸ List.mem_cons_of_mem w hc)⟩
  | separateReader k u w list =>
    obtain ⟨hs, htag, L, hl, hch⟩ := h
    exact ⟨hs.congr hn ht, (htr w (hl ▸ List.mem_cons_self)).trans htag, L, hl,
      hch.congr fun c hc => hnr c (hl ▸ List.mem_cons_of_mem w hc)⟩
  | separateWriter k u w list =>
    obtain ⟨hs, htag, hne, hnone, L, hl, hch⟩ := h
    have hwr : w ∈ l.rest := hl ▸ List.mem_cons_self
    exact ⟨hs.congr hn ht, by rwa [htr w hwr], hne, (hnr w hwr).trans hnone, L, hl,
      hch.congr fun c hc => hnr c (hl ▸ List.mem_cons_of_mem w hc)⟩
  | reinsert k u old c =>
    obtain ⟨hb, hc, htag⟩ := h
    exact ⟨hb.congr hn ht, hc, by rwa [htq c hc]⟩
  | reinsertVerify k u old c n | reinsertOldest k u old c n =>
    obtain ⟨hb, A, hq, htag⟩ := h
    exact ⟨hb.congr hn ht, A, hq, (htq n (by rw [hq]; simp)).trans htag⟩
  | reinsertCurr k u old c =>
    obtain ⟨hb, A, n, hq, htag, hs⟩ := h
    exact ⟨hb.congr hn ht, A, n, hq, (htq n (by rw [hq]; simp)).trans htag, hs.congr hn ht⟩
  | reinsertHead k u old c =>
    obtain ⟨hb, hold, htag, hl⟩ := h
    exact ⟨hb.congr hn ht, hold, (htq c (List.mem_of_getLast? hl)).trans htag, hl⟩
  | reinsertLast k u old c =>
    obtain ⟨hb, htag, A, hq⟩ := h
    have hc : c ∈ l.queue := by
      rcases hq with hq | ⟨n, hq, -⟩ <;> rw [hq] <;> simp
    refine ⟨hb.congr hn ht, by rwa [htq c hc], A, hq.imp_right ?_⟩
    rintro ⟨n, hq, htagn⟩
    exact ⟨n, hq, (htq n (by rw [hq]; simp)).trans htagn⟩
  | unfairSwap k u old new =>
    obtain ⟨hr, hrds, h⟩ := h
    refine ⟨hr, hrds, h.imp ?_ ?_⟩
    · rintro ⟨hw', hu, hs, hnew⟩
      exact ⟨hw', hu, hs.congr hn ht, hnew⟩
    · rintro ⟨hw', hs, hb, hnew⟩
      exact ⟨hw', hs.congr hn ht, hb.congr htq, hnew⟩
  | upgradeStart | upgradeScan => exact ⟨hself.2.trans h.1, h.2⟩
  | upgradeSwap w =>
    obtain ⟨hu, hw', htag⟩ := h
    exact ⟨hself.2.trans hu, hw', by rwa [htq w hw']⟩

theorem getLast?_cons_of_ne {c : T} {L : List T} (h : L ≠ []) :
    (c :: L).getLast? = L.getLast? := by
  rw [List.getLast?_cons, List.getLast?_eq_some_getLast h]
  rfl

theorem Unfair.Sorted.lists {l' : Lists T} {e : Option T} (h : u.Sorted next tag l e)
    (hr : l'.rds = l.rds) (hw : l'.wrs = l.wrs) : u.Sorted next tag l' e := by
  obtain ⟨h₁, h₂, h₃, h₄, h₅, h₆⟩ := h
  constructor <;> simp only [hr, hw] <;> assumption

theorem Unfair.Sorting.lists {l' : Lists T} (h : u.Sorting next tag l)
    (hs : l'.rest = l.rest) (hr : l'.rds = l.rds) (hw : l'.wrs = l.wrs) :
    u.Sorting next tag l' := by
  refine ⟨h.sorted.lists hr hw, ?_, ?_⟩
  · rw [hr, hs]
    exact h.some
  · rw [hw]
    exact h.none

theorem Behind.push {e : Option T} (h : Behind tag l e) (c : T) :
    Behind tag { l with queue := c :: l.queue } e := by
  intro d hd
  obtain ⟨hl, htag⟩ := h d hd
  refine ⟨?_, htag⟩
  rw [getLast?_cons_of_ne (List.ne_nil_of_mem (List.mem_of_getLast? hl))]
  exact hl

theorem Unfair.Back.push {old : Word T} (h : u.Back next tag l old) (c : T) :
    u.Back next tag { l with queue := c :: l.queue } old := by
  obtain ⟨e, hs, hb⟩ := h.sorted
  obtain ⟨q, hq, hold⟩ := h.head
  exact ⟨h.rest, h.rds, h.wrs, ⟨e, hs.lists rfl rfl, hb.push c⟩, q, List.mem_cons_of_mem c hq, hold⟩

/-- **A push at the head of the queue** leaves what a thread knows. -/
theorem Work.push {t : T} {p : Pc T} (h : Work next tag l t p) (c : T) :
    Work next tag { l with queue := c :: l.queue } t p := by
  cases p with
  | idle | reader | writer | lockContention | queued | waiting | unlock | aborted => trivial
  | unlockContention | upgradeOrRelease | fairStart | unfairStart => exact List.cons_ne_nil _ _
  | unfairScan | downgradeScan => exact List.mem_cons_of_mem c h
  | upgradeStart => exact ⟨h.1, List.cons_ne_nil _ _⟩
  | upgradeScan => exact ⟨h.1, List.mem_cons_of_mem c h.2⟩
  | lockSwap | wakeAll | wakeClear | wakeSignal => exact h
  | downgradeLink w =>
    obtain ⟨A, hq⟩ := h
    exact ⟨c :: A, by rw [hq]; rfl⟩
  | fairScan excl k old w link count =>
    obtain ⟨P, K, R, B, hq, h⟩ := h
    exact ⟨c :: P, K, R, B, by rw [hq]; rfl, h⟩
  | fairTake excl k old w link count =>
    obtain ⟨P, K, R, hq, h⟩ := h
    exact ⟨c :: P, K, R, by rw [hq]; rfl, h⟩
  | fairCut excl k old w link count list =>
    obtain ⟨P, K, R, hq, h⟩ := h
    exact ⟨c :: P, K, R, by rw [hq]; rfl, h⟩
  | fairSwap excl k old new f =>
    rcases h with ⟨hk, P, R, hq, h⟩ | ⟨hk, P, K, hq, h⟩
    · exact .inl ⟨hk, c :: P, R, by rw [hq]; rfl, h⟩
    · exact .inr ⟨hk, c :: P, K, by rw [hq]; rfl, h⟩
  | downgradeList k =>
    obtain ⟨A, a, hq, htag⟩ := h
    exact ⟨c :: A, a, by rw [hq]; rfl, htag⟩
  | separate k u list => exact ⟨h.1.lists rfl rfl rfl, h.2⟩
  | separateClear k u w list => exact ⟨h.1.lists rfl rfl rfl, h.2⟩
  | separateReader k u w list => exact ⟨h.1.lists rfl rfl rfl, h.2⟩
  | separateWriter k u w list => exact ⟨h.1.lists rfl rfl rfl, h.2⟩
  | reinsert k u old d => exact ⟨h.1.push c, List.mem_cons_of_mem c h.2.1, h.2.2⟩
  | reinsertVerify k u old d n | reinsertOldest k u old d n =>
    obtain ⟨hb, A, hq, htag⟩ := h
    exact ⟨hb.push c, c :: A, by rw [hq]; rfl, htag⟩
  | reinsertCurr k u old d =>
    obtain ⟨hb, A, n, hq, htag, hs⟩ := h
    exact ⟨hb.push c, c :: A, n, by rw [hq]; rfl, htag, hs.lists rfl rfl⟩
  | reinsertHead k u old d =>
    obtain ⟨hb, hold, htag, hl⟩ := h
    refine ⟨hb.push c, hold, htag, ?_⟩
    rw [getLast?_cons_of_ne (List.ne_nil_of_mem (List.mem_of_getLast? hl))]
    exact hl
  | reinsertLast k u old d =>
    obtain ⟨hb, htag, A, hq⟩ := h
    refine ⟨hb.push c, htag, c :: A, hq.imp (fun hq => by rw [hq]; rfl) ?_⟩
    rintro ⟨n, hq, htagn⟩
    exact ⟨n, by rw [hq]; rfl, htagn⟩
  | unfairSwap k u old new =>
    obtain ⟨hr, hrds, h⟩ := h
    refine ⟨hr, hrds, h.imp ?_ ?_⟩
    · rintro ⟨hw', hu, hs, hnew⟩
      exact ⟨hw', hu, hs.lists rfl rfl, hnew⟩
    · rintro ⟨hw', hs, hb, hnew⟩
      exact ⟨hw', hs.lists rfl rfl, hb.push c, hnew⟩
  | upgradeSwap w => exact ⟨h.1, List.mem_cons_of_mem c h.2.1, h.2.2⟩

/-- **Others wake waiters up.** -/
theorem Work.rewake {t : T} {p : Pc T} {W : T → List T} (h : Work next tag l t p)
    (hW : W t = l.wake t) : Work next tag { l with wake := W } t p := by
  have hback : ∀ {u : Unfair T} {old : Word T}, u.Back next tag l old →
      u.Back next tag { l with wake := W } old := by
    intro u old hb
    obtain ⟨e, hs, hbe⟩ := hb.sorted
    exact ⟨hb.rest, hb.rds, hb.wrs, ⟨e, hs.lists rfl rfl, hbe⟩, hb.head⟩
  cases p with
  | wakeAll | wakeClear | wakeSignal => simpa only [Work, hW] using h
  | separate | separateClear | separateReader | separateWriter => exact ⟨h.1.lists rfl rfl rfl, h.2⟩
  | reinsert | reinsertVerify | reinsertOldest | reinsertHead | reinsertLast =>
    exact ⟨hback h.1, h.2⟩
  | reinsertCurr k u old d =>
    obtain ⟨hb, A, n, hq, htag, hs⟩ := h
    exact ⟨hback hb, A, n, hq, htag, hs.lists rfl rfl⟩
  | unfairSwap k u old new =>
    obtain ⟨hr, hrds, h⟩ := h
    refine ⟨hr, hrds, h.imp ?_ ?_⟩
    · rintro ⟨hw', hu, hs, hnew⟩
      exact ⟨hw', hu, hs.lists rfl rfl, hnew⟩
    · rintro ⟨hw', hs, hb, hnew⟩
      exact ⟨hw', hs.lists rfl rfl, hb, hnew⟩
  | _ => exact h

section append

variable [DecidableEq T] {A : List T} {a c : T}

omit [DecidableEq T] in
theorem Behind.append {e : Option T} (h : Behind tag l e) (hl : l.queue.getLast? = some a)
    (ha : tag a ≠ .upgrade) (l' : Lists T) : Behind tag l' e := by
  intro d hd
  obtain ⟨hlast, htag⟩ := h d hd
  obtain rfl : d = a := Option.some.inj (hlast.symm.trans hl)
  exact absurd htag ha

theorem Unfair.Sorted.append {e : Option T} (h : u.Sorted next tag l e) (hnd : l.pending.Nodup)
    (ha : a ∈ l.queue) (q : List T) :
    u.Sorted (Function.update next a (some c)) tag { l with queue := q } e := by
  have hne : ∀ d, d ∈ l.rds ∨ d ∈ l.wrs → d ≠ a := by
    rintro d hd rfl
    simp only [Lists.pending, List.nodup_append, List.mem_append] at hnd
    rcases hd with hd | hd
    · exact hnd.1.2.2 d (.inl (.inl ha)) d hd rfl
    · exact hnd.2.2 d (.inl (.inl (.inl ha))) d hd rfl
  obtain ⟨h₁, h₂, h₃, h₄, h₅, h₆⟩ := h
  exact ⟨h₁.congr fun d hd => Function.update_of_ne (hne d (.inl hd)) _ _, h₂, h₃,
    h₄.congr fun d hd => Function.update_of_ne (hne d (.inr hd)) _ _, h₅, h₆⟩

/-- **A waiter for an upgrade comes to the end** while a thread sorts. -/
theorem Work.append {t : T} {p : Pc T} (h : Work next tag l t p) (hp : p.sorts = true)
    (hnd : l.pending.Nodup) (hl : l.queue = A ++ [a]) (ha : tag a ≠ .upgrade)
    (hc : tag c = .upgrade) :
    Work (Function.update next a (some c)) tag { l with queue := l.queue ++ [c] } t p := by
  have hlast : l.queue.getLast? = some a := by rw [hl, List.getLast?_concat]
  have hmem : a ∈ l.queue := List.mem_of_getLast? hlast
  have hrest : ∀ d ∈ l.rest, d ≠ a := by
    rintro d hd rfl
    simp only [Lists.pending, List.nodup_append, List.mem_append] at hnd
    exact hnd.1.1.2.2 d (.inl hmem) d hd rfl
  have hnr : ∀ d ∈ l.rest, Function.update next a (some c) d = next d := fun d hd =>
    Function.update_of_ne (hrest d hd) _ _
  have hno : ∀ {B : List T} {x n : T}, l.queue = B ++ [x, n] → tag n ≠ .upgrade := by
    intro B x n hq
    have hn : l.queue.getLast? = some n := by simp [hq]
    rwa [Option.some.inj (hn.symm.trans hlast)]
  have hsorting : ∀ {u : Unfair T}, u.Sorting next tag l →
      u.Sorting (Function.update next a (some c)) tag { l with queue := l.queue ++ [c] } :=
    fun hs => ⟨hs.sorted.append hnd hmem _, hs.some, hs.none⟩
  have hback : ∀ {u : Unfair T} {old : Word T}, u.Back next tag l old →
      u.Back (Function.update next a (some c)) tag { l with queue := l.queue ++ [c] } old := by
    intro u old hb
    obtain ⟨e, hs, he⟩ := hb.sorted
    obtain ⟨q, hq, hold⟩ := hb.head
    exact ⟨hb.rest, hb.rds, hb.wrs, ⟨e, hs.append hnd hmem _, he.append hlast ha _⟩, q,
      List.mem_append_left _ hq, hold⟩
  cases p with
  | separate k u list => exact ⟨hsorting h.1, h.2.congr hnr⟩
  | separateClear k u w list =>
    obtain ⟨hs, L, hr, hch⟩ := h
    exact ⟨hsorting hs, L, hr, hch.congr fun d hd => hnr d (hr ▸ List.mem_cons_of_mem w hd)⟩
  | separateReader k u w list =>
    obtain ⟨hs, htag, L, hr, hch⟩ := h
    exact ⟨hsorting hs, htag, L, hr, hch.congr fun d hd => hnr d (hr ▸ List.mem_cons_of_mem w hd)⟩
  | separateWriter k u w list =>
    obtain ⟨hs, htag, hne, hnone, L, hr, hch⟩ := h
    exact ⟨hsorting hs, htag, hne, (hnr w (hr ▸ List.mem_cons_self)).trans hnone, L, hr,
      hch.congr fun d hd => hnr d (hr ▸ List.mem_cons_of_mem w hd)⟩
  | reinsert k u old d => exact ⟨hback h.1, List.mem_append_left _ h.2.1, h.2.2⟩
  | reinsertVerify k u old d n | reinsertOldest k u old d n =>
    obtain ⟨hb, B, hq, htag⟩ := h
    exact absurd htag (hno hq)
  | reinsertCurr k u old d =>
    obtain ⟨hb, B, n, hq, htag, hs⟩ := h
    exact absurd htag (hno hq)
  | reinsertHead k u old d =>
    obtain ⟨hb, hold, htag, hl'⟩ := h
    obtain rfl : d = a := Option.some.inj (hl'.symm.trans hlast)
    exact absurd htag ha
  | reinsertLast k u old d =>
    obtain ⟨hb, htag, B, hq⟩ := h
    refine ⟨hback hb, htag, B, .inr ⟨c, ?_, hc⟩⟩
    rcases hq with hq | ⟨n, hq, htagn⟩
    · show l.queue ++ [c] = B ++ [d, c]
      rw [hq, List.append_assoc]
      rfl
    · exact absurd htagn (hno hq)
  | unfairSwap k u old new =>
    obtain ⟨hr, hrds, h⟩ := h
    refine ⟨hr, hrds, h.imp ?_ ?_⟩
    · rintro ⟨hw', hu, hs, hnew⟩
      exact ⟨hw', hu, hs.append hnd hmem _, hnew⟩
    · rintro ⟨hw', hs, hb, hnew⟩
      exact ⟨hw', hs.append hnd hmem _, hb.append hlast ha _, hnew⟩
  | _ => cases hp

end append

/-! ## Who works on the lists -/

/-- Whether what a thread knows depends on the lists, other than through who is in the
queue. -/
def Pc.walks : Pc T → Bool
  | .fairScan _ _ _ _ _ _ | .fairTake _ _ _ _ _ _ | .fairCut _ _ _ _ _ _ _ | .fairSwap _ _ _ _ _
  | .downgradeList _ | .downgradeLink _ => true
  | p => p.sorts

/-- **The queue grows**: who only looks at it knows what it knew. -/
theorem Work.grow {next' : T → Option T} {l' : Lists T} {t : T} {p : Pc T}
    (h : Work next tag l t p) (hp : p.walks = false) (hq : ∀ c ∈ l.queue, c ∈ l'.queue)
    (hwake : l'.wake t = l.wake t) (hw : ∀ c ∈ l.wake t, next' c = next c)
    (ht : ∀ c ∈ l.queue, tag' c = tag c)
    (hself : (p.links = true → next' t = next t) ∧ tag' t = tag t) : Work next' tag' l' t p := by
  have hne : l.queue ≠ [] → l'.queue ≠ [] := by
    intro hne
    obtain ⟨c, hc⟩ := List.exists_mem_of_ne_nil _ hne
    exact List.ne_nil_of_mem (hq c hc)
  cases p with
  | idle | reader | writer | lockContention | queued | waiting | unlock | aborted => trivial
  | unlockContention | upgradeOrRelease | fairStart | unfairStart => exact hne h
  | unfairScan | downgradeScan => exact hq _ h
  | upgradeStart => exact ⟨hself.2.trans h.1, hne h.2⟩
  | upgradeScan => exact ⟨hself.2.trans h.1, hq _ h.2⟩
  | lockSwap excl d old =>
    simp only [Work, hself.1 rfl, hself.2] at h ⊢
    exact h
  | wakeAll k id =>
    simp only [Work, hwake] at h ⊢
    exact h.congr hw
  | wakeClear k w id =>
    obtain ⟨L, hl, hch⟩ := h
    exact ⟨L, hwake.trans hl, hch.congr fun c hc => hw c (hl ▸ List.mem_cons_of_mem w hc)⟩
  | wakeSignal k w id =>
    obtain ⟨L, hl, hch, hnone⟩ := h
    exact ⟨L, hwake.trans hl, hch.congr fun c hc => hw c (hl ▸ List.mem_cons_of_mem w hc),
      (hw w (hl ▸ List.mem_cons_self)).trans hnone⟩
  | upgradeSwap w =>
    exact ⟨hself.2.trans h.1, hq w h.2.1, by rw [ht w h.2.1]; exact h.2.2⟩
  | _ => cases hp

/-- **A thread without a share** knows nothing of the queue. -/
theorem Work.apart {next' : T → Option T} {l' : Lists T} {t : T} {p : Pc T}
    (h : Work next tag l t p) (hs : p.shares = false) (ho : p.owns = false)
    (hwake : l'.wake t = l.wake t) (hw : ∀ c ∈ l.wake t, next' c = next c)
    (hself : (p.links = true → next' t = next t) ∧ tag' t = tag t) : Work next' tag' l' t p := by
  cases p with
  | idle | reader | writer | lockContention | queued | waiting | unlock | aborted => trivial
  | lockSwap excl d old =>
    simp only [Work, hself.1 rfl, hself.2] at h ⊢
    exact h
  | wakeAll k id =>
    simp only [Work, hwake] at h ⊢
    exact h.congr hw
  | wakeClear k w id =>
    obtain ⟨L, hl, hch⟩ := h
    exact ⟨L, hwake.trans hl, hch.congr fun c hc => hw c (hl ▸ List.mem_cons_of_mem w hc)⟩
  | wakeSignal k w id =>
    obtain ⟨L, hl, hch, hnone⟩ := h
    exact ⟨L, hwake.trans hl, hch.congr fun c hc => hw c (hl ▸ List.mem_cons_of_mem w hc),
      (hw w (hl ▸ List.mem_cons_self)).trans hnone⟩
  | unlockContention excl | fairStart excl | fairScan excl | fairTake excl | fairCut excl
  | fairSwap excl => cases excl <;> [cases hs; cases ho]
  | upgradeOrRelease | upgradeStart | upgradeScan | upgradeSwap | separate | separateClear
  | separateReader | separateWriter | reinsert | reinsertVerify | reinsertOldest | reinsertCurr
  | reinsertHead | reinsertLast | unfairSwap => cases hs
  | unfairStart | unfairScan | downgradeList | downgradeScan | downgradeLink => cases ho

end congr

/-! ## Who is alone -/

section alone

variable {s : State T} {g : Ghost T} {t u : T}

/-- **A thread that has the lock for itself** is the only one with a share. -/
theorem Clients.apart (h : Clients s g) (ht : (s.pc t).owns = true ∨ g.hold = [t]) (hut : u ≠ t) :
    (s.pc u).shares = false ∧ (s.pc u).owns = false := by
  have hshare : (s.pc u).shares = true → u ∈ g.hold := fun hs => (h.hold u).mpr (.inl hs)
  have hown : (s.pc u).owns = true → g.own = some u := fun ho => (h.own u).mpr (.inl ho)
  rcases ht with ho | hh
  · have hto : g.own = some t := (h.own t).mpr (.inl ho)
    refine ⟨Bool.eq_false_iff.mpr fun hs => ?_, Bool.eq_false_iff.mpr fun ho' => ?_⟩
    · have hmem := hshare hs
      rw [h.alone t hto] at hmem
      cases hmem
    · exact hut (Option.some.inj ((hown ho').symm.trans hto))
  · refine ⟨Bool.eq_false_iff.mpr fun hs => ?_, Bool.eq_false_iff.mpr fun ho' => ?_⟩
    · have hmem := hshare hs
      rw [hh] at hmem
      exact hut (List.mem_singleton.mp hmem)
    · have hnil := h.alone u (hown ho')
      rw [hh] at hnil
      cases hnil

/-- A thread that hands the lock over as a fair one has it for itself. -/
theorem Clients.fair_apart (h : Clients s g) {excl : Bool} (ht : (s.pc t).fair = some excl) :
    (s.pc t).owns = true ∨ g.hold = [t] := by
  cases excl with
  | false => exact .inr (h.solo t ht).2
  | true =>
    left
    cases hp : s.pc t <;> rw [hp] at ht <;> cases ht <;> rfl

/-- **Beside one that sorts the queue** nobody works on the lists. -/
theorem Clients.not_walks (h : Clients s g) (ht : (s.pc t).sorts = true) (hut : u ≠ t) :
    (s.pc u).walks = false := by
  refine Bool.eq_false_iff.mpr fun hw => ?_
  have htm : t ∈ g.hold := (h.hold t).mpr (.inl (by
    cases hp : s.pc t <;> rw [hp] at ht <;> first | rfl | cases ht))
  have howns : (s.pc u).owns = true → False := by
    intro ho
    have hnil := h.alone u ((h.own u).mpr (.inl ho))
    rw [hnil] at htm
    cases htm
  have hfair : ∀ excl, (s.pc u).fair = some excl → False := by
    intro excl hf
    rcases h.fair_apart hf with ho | hh
    · exact howns ho
    · rw [hh] at htm
      exact hut (List.mem_singleton.mp htm).symm
  have hsorts : (s.pc u).sorts = true → False := fun hs => hut (h.sorter u t hs ht)
  cases hp : s.pc u <;> rw [hp] at hw hfair howns hsorts <;>
    first
      | exact hsorts rfl
      | exact howns rfl
      | exact hfair _ rfl
      | cases hw

end alone

/-! ## Moving on -/

variable [DecidableEq T]

/-- **Where a thread may move** without more than that: what it has and waits for stays
the same, and what the new point says of the lock holds. -/
structure Moves (s : State T) (g : Ghost T) (t : T) (p : Pc T) : Prop where
  pends : p.pends = (s.pc t).pends
  shares : p.shares = (s.pc t).shares
  owns : p.owns = (s.pc t).owns
  wakes : p.wakes = true ∨ g.lists.wake t = []
  links : p.links = true ∨ (s.pc t).links = false
  sorts : p.sorts = (s.pc t).sorts
  cuts : (s.pc t).cuts = true → p.cuts = true
  owner : (s.pc t).fair = some true → p.fair = some true
  solo : p.fair = some false → s.word.unfair = false ∧ g.hold = [t]
  last : p.leaves = true → s.word.unfair = false → g.hold = [t]
  unfair : p.unfair = true → s.word.unfair = true
  unfairLast : p.fair ≠ none → s.word.unfair = true →
    ∀ a, (g.lists.queue ++ g.lists.cut).getLast? = some a → s.tag a ≠ .shared
  alive : p ≠ .aborted

/-- **The lists are arranged anew**, and a thread moves: nobody is served or woken up, and
what is written belongs to waiters that were not served. -/
theorem Clients.relist {s s' : State T} {g : Ghost T} {t : T} {p : Pc T} {l : Lists T}
    (h : Clients s g) (hm : Moves s g t p) (hpc : s'.pc = Function.update s.pc t p)
    (hmade : s'.made = s.made) (hsent : s'.sent = s.sent) (hsig : s'.signalled = s.signalled)
    (htag : s'.tag = s.tag) (hunf : s'.word.unfair = s.word.unfair)
    (hperm : l.pending.Perm g.lists.pending) (hwake : l.wake = g.lists.wake)
    (hnext : ∀ c, c ∉ g.lists.pending → s.next c = none → s'.next c = none) :
    Clients s' { g with lists := l } := by
  obtain ⟨m1, m2, m3, m4, m5, m6, m7, m8, m9, m10, m11, m12, m13⟩ := hm
  have hpends : ∀ c, (Function.update s.pc t p c).pends = (s.pc c).pends := by
    grind -linarith [Function.update_apply]
  have hshares : ∀ c, (Function.update s.pc t p c).shares = (s.pc c).shares := by
    grind -linarith [Function.update_apply]
  have howns : ∀ c, (Function.update s.pc t p c).owns = (s.pc c).owns := by
    grind -linarith [Function.update_apply]
  have hsorts : ∀ c, (Function.update s.pc t p c).sorts = (s.pc c).sorts := by
    grind -linarith [Function.update_apply]
  have hmem : ∀ c, c ∈ l.pending ↔ c ∈ g.lists.pending := fun c => hperm.mem_iff
  obtain ⟨h1, h2, h3, h4, h5, h6, h7, h8, h9, h10, h11, h12, h13, h14, h15, h16, h17, h18, h19,
    h20, h21, h22⟩ := h
  constructor
  case nodup => exact hperm.nodup_iff.mpr h1
  all_goals
    try simp only [hpc, hmade, hsent, hsig, htag, hunf, hwake, hpends, hshares, howns, hsorts, hmem]
  all_goals first
    | assumption
    | grind -linarith [Function.update_apply]

/-- **A thread moves**, and nothing else. -/
theorem Inv.move {s : State T} {g : Ghost T} {t : T} {p : Pc T} (h : Inv s g) (hm : Moves s g t p)
    (hw : Work s.next s.tag g.lists t p) : Inv (s.goto t p) g := by
  obtain ⟨hc, hq, hwork⟩ := h
  refine ⟨hc.relist hm rfl rfl rfl rfl rfl rfl (List.Perm.refl _) rfl fun _ _ hn => hn, ?_,
    fun u => ?_⟩
  · obtain ⟨m1, m2, m3, m4, m5, m6, m7, m8, m9, m10, m11, m12, m13⟩ := hm
    have hsorts : ∀ c, (Function.update s.pc t p c).sorts = (s.pc c).sorts := by
      grind -linarith [Function.update_apply]
    obtain ⟨h1, h2, h3, h4, h5, h6, h7, h8, h9, h10, h11, h12, h13⟩ := hq
    constructor
    all_goals try simp only [State.goto, hsorts]
    all_goals first
      | assumption
      | grind -linarith [Function.update_apply]
  · show Work s.next s.tag g.lists u (Function.update s.pc t p u)
    by_cases hu : u = t
    · rw [hu, Function.update_self]
      exact hw
    · rw [Function.update_of_ne hu]
      exact hwork u

omit [DecidableEq T] in
/-- Who hands the lock over has somebody to hand it to. -/
theorem Work.queue_ne_nil {next : T → Option T} {tag : T → Tag} {l : Lists T} {t : T} {p : Pc T}
    (h : Work next tag l t p) (hp : p.fair ≠ none ∨ p.leaves = true) : l.queue ≠ [] := by
  have hne : ∀ {K R : List T}, Serves tag K R → R ≠ [] := by
    rintro K R (⟨x, rfl, -⟩ | ⟨hne, -⟩)
    · exact List.cons_ne_nil _ _
    · exact hne
  cases p with
  | unlockContention | fairStart => exact h
  | fairScan excl k old w link count =>
    obtain ⟨P, K, R, B, hq, -, hs, -⟩ := h
    simp [hq, hne hs]
  | fairTake excl k old w link count =>
    obtain ⟨P, K, R, hq, -, hs, -⟩ := h
    simp [hq, hne hs]
  | fairCut excl k old w link count list =>
    obtain ⟨P, K, R, hq, -, hs, -⟩ := h
    simp [hq, hne hs]
  | fairSwap excl k old new f =>
    rcases h with ⟨-, P, R, hq, -, hs, -⟩ | ⟨-, P, K, hq, hK, -⟩
    · simp [hq, hne hs]
    · simp [hq, hK]
  | _ => simp [Pc.fair, Pc.leaves] at hp

omit [DecidableEq T] in
/-- Whoever does not wait is in no list. -/
theorem Clients.not_mem {s : State T} {g : Ghost T} (h : Clients s g) {t : T}
    (ht : (s.pc t).pends = none) : t ∉ g.lists.pending ∧ ∀ u, t ∉ g.lists.wake u :=
  ⟨fun hmem => ((h.pending t).mp hmem).1 ht, fun u hmem => (h.wake u t hmem).1 ht⟩

/-- Somebody is still at such a point, if the thread that moves is not the one. -/
theorem exists_update {f : Pc T → Bool} {pc : T → Pc T} {t : T} {p : Pc T}
    (h : ∃ c, f (pc c) = true) (hp : f (pc t) = true → f p = true) :
    ∃ c, f (Function.update pc t p c) = true := by
  obtain ⟨c, hc⟩ := h
  refine ⟨c, ?_⟩
  by_cases hct : c = t
  · subst hct
    rw [Function.update_self]
    exact hp hc
  · rwa [Function.update_of_ne hct]

theorem exists_update_of_not {f : Pc T → Bool} {pc : T → Pc T} {t : T} {p : Pc T}
    (h : ∃ c, f (pc c) = true) (hf : f (pc t) = false) :
    ∃ c, f (Function.update pc t p c) = true := by
  refine exists_update h fun ht => ?_
  rw [hf] at ht
  cases ht

/-! ## A lock request -/

/-- **A thread writes to its own waiter** while nobody has a reference to it. -/
theorem Inv.write {s : State T} {g : Ghost T} {t : T} {p : Pc T} {v : Option T} {tg : Tag}
    (h : Inv s g) (ht : (s.pc t).pends = none) (hm : Moves s g t p)
    (hv : p.links = true ∨ v = none)
    (hw : Work (Function.update s.next t v) (Function.update s.tag t tg) g.lists t p) :
    Inv (((s.setNext t v).setTag t tg).goto t p) g := by
  obtain ⟨hnp, hnw⟩ := h.clients.not_mem ht
  have hne : ∀ c ∈ g.lists.pending, c ≠ t := fun c hc hct => hnp (hct ▸ hc)
  have hmp := @Lists.mem_pending T g.lists
  obtain ⟨hc, hq, hwork⟩ := h
  obtain ⟨m1, m2, m3, m4, m5, m6, m7, m8, m9, m10, m11, m12, m13⟩ := hm
  have hpends : ∀ c, (Function.update s.pc t p c).pends = (s.pc c).pends := by
    grind -linarith [Function.update_apply]
  have hshares : ∀ c, (Function.update s.pc t p c).shares = (s.pc c).shares := by
    grind -linarith [Function.update_apply]
  have howns : ∀ c, (Function.update s.pc t p c).owns = (s.pc c).owns := by
    grind -linarith [Function.update_apply]
  have hsorts : ∀ c, (Function.update s.pc t p c).sorts = (s.pc c).sorts := by
    grind -linarith [Function.update_apply]
  refine ⟨?_, ?_, fun u => ?_⟩
  · obtain ⟨h1, h2, h3, h4, h5, h6, h7, h8, h9, h10, h11, h12, h13, h14, h15, h16, h17, h18, h19,
      h20, h21, h22⟩ := hc
    constructor
    all_goals try simp only [State.goto, State.setNext, State.setTag, hpends, hshares, howns, hsorts]
    all_goals first
      | assumption
      | grind -linarith [Function.update_apply]
  · obtain ⟨h1, h2, h3, h4, h5, h6, h7, h8, h9, h10, h11, h12, h13⟩ := hq
    constructor
    case chain => exact h4.update (fun hmem => hnp (hmp.mpr (.inl hmem))) v
    case unfairLast =>
      intro hu c hf a ha
      have hat : a ≠ t := hne a (hmp.mpr ((List.mem_append.mp (List.mem_of_getLast? ha)).imp_right .inl))
      show Function.update s.tag t tg a ≠ .shared
      rw [Function.update_of_ne hat]
      by_cases hct : c = t
      · subst hct
        have hf : (Function.update s.pc c p c).fair ≠ none := hf
        rw [Function.update_self] at hf
        exact m12 hf hu a ha
      · have hf : (Function.update s.pc t p c).fair ≠ none := hf
        rw [Function.update_of_ne hct] at hf
        exact h13 hu c hf a ha
    all_goals try simp only [State.goto, State.setNext, State.setTag, hsorts]
    all_goals first
      | assumption
      | grind -linarith [Function.update_apply]
  · show Work _ _ g.lists u (Function.update s.pc t p u)
    by_cases hu : u = t
    · rw [hu, Function.update_self]
      exact hw
    · rw [Function.update_of_ne hu]
      exact (hwork u).congr (fun c hc => Function.update_of_ne (hne c hc) _ _)
        (fun c hc => Function.update_of_ne (fun hct : c = t => hnw u (hct ▸ hc)) _ _)
        (fun c hc => Function.update_of_ne (hne c hc) _ _)
        ⟨fun _ => Function.update_of_ne hu _ _, Function.update_of_ne hu _ _⟩

omit [DecidableEq T] in
/-- The invariant with the history of the pushes, which it does not mention. -/
theorem Inv.pushed {s : State T} {g : Ghost T} (h : Inv s g) (ts : List T) :
    Inv { s with pushed := ts } g :=
  ⟨⟨h.1.1, h.1.2, h.1.3, h.1.4, h.1.5, h.1.6, h.1.7, h.1.8, h.1.9, h.1.10, h.1.11, h.1.12, h.1.13,
    h.1.14, h.1.15, h.1.16, h.1.17, h.1.18, h.1.19, h.1.20, h.1.21, h.1.22⟩,
    ⟨h.2.1, h.2.2, h.2.3, h.2.4, h.2.5, h.2.6, h.2.7, h.2.8, h.2.9, h.2.10, h.2.11, h.2.12, h.2.13⟩,
    h.3⟩

/-- A point at which a thread has nothing to do with the lock, or is about to ask for
it. -/
def Pc.Outside (p : Pc T) : Prop :=
  p.pends = none ∧ p.shares = false ∧ p.owns = false ∧ p.wakes = false ∧ p.sorts = false
    ∧ p.cuts = false ∧ p.fair = none ∧ p.leaves = false ∧ p.unfair = false

omit [DecidableEq T] in
theorem outside_idle : (Pc.idle : Pc T).Outside := by
  simp [Pc.Outside, Pc.pends, Pc.shares, Pc.owns, Pc.wakes, Pc.sorts, Pc.cuts, Pc.fair, Pc.leaves,
    Pc.unfair]

omit [DecidableEq T] in
theorem outside_lockContention (excl d : Bool) : (Pc.lockContention excl d : Pc T).Outside := by
  simp [Pc.Outside, Pc.pends, Pc.shares, Pc.owns, Pc.wakes, Pc.sorts, Pc.cuts, Pc.fair, Pc.leaves,
    Pc.unfair]

omit [DecidableEq T] in
theorem outside_lockSwap (excl d : Bool) (old : Word T) :
    (Pc.lockSwap excl d old : Pc T).Outside := by
  simp [Pc.Outside, Pc.pends, Pc.shares, Pc.owns, Pc.wakes, Pc.sorts, Pc.cuts, Pc.fair, Pc.leaves,
    Pc.unfair]

omit [DecidableEq T] in
theorem outside_holding (excl : Bool) :
    (Pc.holding excl : Pc T).pends = none ∧ (Pc.holding excl : Pc T).shares = !excl
      ∧ (Pc.holding excl : Pc T).owns = excl ∧ (Pc.holding excl : Pc T).wakes = false
      ∧ (Pc.holding excl : Pc T).sorts = false ∧ (Pc.holding excl : Pc T).cuts = false
      ∧ (Pc.holding excl : Pc T).fair = none ∧ (Pc.holding excl : Pc T).leaves = false
      ∧ (Pc.holding excl : Pc T).unfair = false ∧ (Pc.holding excl : Pc T).links = false
      ∧ (Pc.holding excl : Pc T) ≠ .aborted := by
  cases excl <;> simp [Pc.holding, Pc.pends, Pc.shares, Pc.owns, Pc.wakes, Pc.sorts, Pc.cuts,
    Pc.fair, Pc.leaves, Pc.unfair, Pc.links]

omit [DecidableEq T] in
/-- **When a request is granted**: nobody has the lock for himself, and nobody waits,
or the lock is unfair and the request is for a share. -/
theorem Word.grants_iff {w : Word T} {excl : Bool} : w.grants excl = true ↔
    w.wlocked = false ∧ (excl = true → w.readers = 0) ∧
      (w.waitq = none ∨ (excl = false ∧ w.unfair = true)) := by
  cases excl <;> simp [Word.grants, Word.locked, and_assoc]

omit [DecidableEq T] in
/-- Nobody has the lock for himself. -/
theorem Queue.own_none {s : State T} {g : Ghost T} (h : Queue s g) (hw : s.word.wlocked = false) :
    g.own = none := by
  rw [h.wlocked, Option.isSome_eq_false_iff] at hw
  exact Option.isNone_iff_eq_none.mp hw

omit [DecidableEq T] in
/-- With the queue empty nobody hands the lock over, and nothing is cut off. -/
theorem Inv.no_cut {s : State T} {g : Ghost T} (h : Inv s g) (hq : g.lists.queue = []) :
    (∀ u, (s.pc u).fair = none ∧ (s.pc u).leaves = false) ∧ g.lists.cut = [] := by
  have hnone : ∀ u, (s.pc u).fair = none ∧ (s.pc u).leaves = false := by
    intro u
    constructor
    · by_contra hf
      exact (h.work u).queue_ne_nil (.inl hf) hq
    · refine Bool.eq_false_iff.mpr fun hl => ?_
      exact (h.work u).queue_ne_nil (.inr hl) hq
  refine ⟨hnone, ?_⟩
  by_contra hcut
  obtain ⟨u, hu⟩ := h.queue.cutter hcut
  have hf := (hnone u).1
  cases hp : s.pc u <;> rw [hp] at hu hf <;> first | cases hu | cases hf

/-- **A reader gets the lock** at once. -/
theorem Inv.takeShared {s : State T} {g : Ghost T} {t : T} {p : Pc T} (h : Inv s g)
    (ht : (s.pc t).Outside) (hn : s.next t = none) (hg : s.word.grants false = true)
    (hfit : s.word.readers + 1 < readersSize) (hp : p = .reader) :
    Inv ({ s with word := s.word.take false }.goto t p)
      { g with hold := t :: g.hold } := by
  obtain ⟨t1, t2, t3, t4, t5, t6, t7, t8, t9⟩ := ht
  obtain ⟨hwl, -, hwait⟩ := Word.grants_iff.mp hg
  obtain ⟨p1, p2, p3, p4, p5, p6, p7, p8, p9, p10, p11⟩ := outside_holding (T := T) false
  rw [show (Pc.holding false : Pc T) = p from hp.symm] at p1 p2 p3 p4 p5 p6 p7 p8 p9 p10 p11
  have hown : g.own = none := h.queue.own_none hwl
  have hth : t ∉ g.hold := by
    intro hmem
    rcases (h.clients.hold t).mp hmem with hs | ⟨hpd, -⟩ <;> grind -linarith
  -- in a fair lock the queue is empty, so nobody counts on being alone
  have hfair : s.word.unfair = false →
      (∀ u, (s.pc u).fair = none ∧ (s.pc u).leaves = false) := by
    intro hu
    refine (h.no_cut ?_).1
    refine ((h.queue.chain).eq_nil_iff).mpr ?_
    grind -linarith
  have hnd : (t :: g.hold).Nodup := List.nodup_cons.mpr ⟨hth, h.clients.holdNodup⟩
  have hlen : (t :: g.hold).length = s.word.readers + 1 := by
    rw [h.queue.readers, List.length_cons]
  obtain ⟨hc, hq, hwork⟩ := h
  refine ⟨?_, ?_, fun u => ?_⟩
  · obtain ⟨h1, h2, h3, h4, h5, h6, h7, h8, h9, h10, h11, h12, h13, h14, h15, h16, h17, h18, h19,
      h20, h21, h22⟩ := hc
    constructor
    all_goals try simp only [State.goto, Word.take, Bool.false_eq_true, if_false]
    all_goals first
      | assumption
      | grind -linarith [Function.update_apply]
  · obtain ⟨h1, h2, h3, h4, h5, h6, h7, h8, h9, h10, h11, h12, h13⟩ := hq
    constructor
    case readers =>
      show (s.word.readers + 1) % readersSize = (t :: g.hold).length
      rw [Nat.mod_eq_of_lt hfit, hlen]
    case small => exact hlen ▸ hfit
    case cutter => exact fun hne => exists_update_of_not (h6 hne) t6
    case sorting => exact fun hne => exists_update_of_not (h7 hne) t5
    all_goals try simp only [State.goto, Word.take, Bool.false_eq_true, if_false]
    all_goals first
      | assumption
      | grind -linarith [Function.update_apply]
  · show Work s.next s.tag g.lists u (Function.update s.pc t p u)
    by_cases hu : u = t
    · rw [hu, Function.update_self, hp]
      trivial
    · rw [Function.update_of_ne hu]
      exact hwork u

/-- **A writer gets the lock** at once. -/
theorem Inv.takeExclusive {s : State T} {g : Ghost T} {t : T} {p : Pc T} (h : Inv s g)
    (ht : (s.pc t).Outside) (hn : s.next t = none) (hg : s.word.grants true = true)
    (hp : p = .writer) :
    Inv ({ s with word := s.word.take true }.goto t p) { g with own := some t } := by
  obtain ⟨t1, t2, t3, t4, t5, t6, t7, t8, t9⟩ := ht
  obtain ⟨hwl, hr, hwait⟩ := Word.grants_iff.mp hg
  obtain ⟨p1, p2, p3, p4, p5, p6, p7, p8, p9, p10, p11⟩ := outside_holding (T := T) true
  rw [show (Pc.holding true : Pc T) = p from hp.symm] at p1 p2 p3 p4 p5 p6 p7 p8 p9 p10 p11
  have hown : g.own = none := h.queue.own_none hwl
  have hnil : g.hold = [] := by
    rw [← List.length_eq_zero_iff, ← h.queue.readers]
    exact hr rfl
  have hqueue : g.lists.queue = [] := (h.queue.chain.eq_nil_iff).mpr (by grind -linarith)
  obtain ⟨hno, hcut⟩ := h.no_cut hqueue
  obtain ⟨hc, hq, hwork⟩ := h
  refine ⟨?_, ?_, fun u => ?_⟩
  · obtain ⟨h1, h2, h3, h4, h5, h6, h7, h8, h9, h10, h11, h12, h13, h14, h15, h16, h17, h18, h19,
      h20, h21, h22⟩ := hc
    constructor
    all_goals try simp only [State.goto, Word.take, if_true]
    all_goals first
      | assumption
      | grind -linarith [Function.update_apply]
  · obtain ⟨h1, h2, h3, h4, h5, h6, h7, h8, h9, h10, h11, h12, h13⟩ := hq
    constructor
    case cutter => exact fun hne => exists_update_of_not (h6 hne) t6
    case sorting => exact fun hne => exists_update_of_not (h7 hne) t5
    case wlocked => rfl
    all_goals try simp only [State.goto, Word.take, if_true]
    all_goals first
      | assumption
      | grind -linarith [Function.update_apply]
  · show Work s.next s.tag g.lists u (Function.update s.pc t p u)
    by_cases hu : u = t
    · rw [hu, Function.update_self, hp]
      trivial
    · rw [Function.update_of_ne hu]
      exact hwork u

/-- **A request that is not granted** comes to the head of the queue. -/
theorem Inv.push {s : State T} {g : Ghost T} {t : T} {p : Pc T} {excl : Bool} (h : Inv s g)
    (ht : (s.pc t).Outside) (hn : s.next t = s.word.waitq) (htag : s.tag t = Tag.of excl)
    (hg : s.word.grants excl = false) (hp : p = .queued excl ∨ p = .waiting (Tag.of excl)) :
    Inv (({ s with word := { s.word with waitq := some t } }.enqueue t).goto t p)
      { g with lists := { g.lists with queue := t :: g.lists.queue } } := by
  obtain ⟨t1, t2, t3, t4, t5, t6, t7, t8, t9⟩ := ht
  have hpend : p.pends = some (Tag.of excl) ∧ p.shares = false ∧ p.owns = false ∧ p.wakes = false
      ∧ p.sorts = false ∧ p.cuts = false ∧ p.fair = none ∧ p.leaves = false ∧ p.unfair = false
      ∧ p.links = false ∧ p ≠ .aborted := by
    rcases hp with rfl | rfl <;> simp [Pc.pends, Pc.shares, Pc.owns, Pc.wakes, Pc.sorts, Pc.cuts,
      Pc.fair, Pc.leaves, Pc.unfair, Pc.links]
  obtain ⟨p1, p2, p3, p4, p5, p6, p7, p8, p9, p10, p11⟩ := hpend
  obtain ⟨hnp, hnw⟩ := h.clients.not_mem t1
  have hup : Tag.of excl ≠ .upgrade := by cases excl <;> nofun
  have hmp := @Lists.mem_pending T g.lists
  have hmp' := @Lists.mem_pending T { g.lists with queue := t :: g.lists.queue }
  have hnd : (Lists.pending { g.lists with queue := t :: g.lists.queue }).Nodup :=
    List.nodup_cons.mpr ⟨hnp, h.clients.nodup⟩
  have hquiet := h.clients.quiet t t1
  -- somebody has the lock
  have hheld : ¬ (g.hold = [] ∧ g.own = none) := by
    rintro ⟨hh, ho⟩
    have hq := h.queue.free hh ho
    have hr : s.word.readers = 0 := by rw [h.queue.readers, hh, List.length_nil]
    have hw : s.word.wlocked = false := by rw [h.queue.wlocked, ho]; rfl
    have hwq : s.word.waitq = none := (h.queue.chain.eq_nil_iff).mp hq
    rw [Word.grants_iff.mpr ⟨hw, fun _ => hr, .inl hwq⟩] at hg
    cases hg
  have hunfair : s.word.unfair = true → g.own = none → excl = true := by
    intro hu ho
    by_contra hx
    have hw : s.word.wlocked = false := by rw [h.queue.wlocked, ho]; rfl
    rw [Word.grants_iff.mpr ⟨hw, fun he => absurd he hx, .inr ⟨Bool.not_eq_true _ ▸ hx, hu⟩⟩] at hg
    cases hg
  have hwne : ∀ c, (s.pc c).fair ≠ none → g.lists.queue ≠ [] :=
    fun c hf => (h.work c).queue_ne_nil (.inl hf)
  obtain ⟨hc, hq, hwork⟩ := h
  refine ⟨?_, ?_, fun u => ?_⟩
  · obtain ⟨h1, h2, h3, h4, h5, h6, h7, h8, h9, h10, h11, h12, h13, h14, h15, h16, h17, h18, h19,
      h20, h21, h22⟩ := hc
    constructor
    all_goals try simp only [State.goto, State.enqueue]
    all_goals first
      | assumption
      | grind -linarith [Function.update_apply]
  · obtain ⟨h1, h2, h3, h4, h5, h6, h7, h8, h9, h10, h11, h12, h13⟩ := hq
    constructor
    case chain => exact h4.push hn
    case cutter => exact fun hne => exists_update_of_not (h6 hne) t6
    case sorting => exact fun hne => exists_update_of_not (h7 hne) t5
    case upgradeLast =>
      intro c hcq htc
      rcases List.mem_cons.mp hcq with rfl | hcq
      · exact absurd (htag.symm.trans htc) hup
      · rw [getLast?_cons_of_ne (List.ne_nil_of_mem hcq)]
        exact h8 c hcq htc
    case unfairLast =>
      intro hu c hf a ha
      by_cases hct : c = t
      · subst hct
        have hf : (Function.update s.pc c p c).fair ≠ none := hf
        rw [Function.update_self] at hf
        exact absurd p7 hf
      · have hf : (Function.update s.pc t p c).fair ≠ none := hf
        rw [Function.update_of_ne hct] at hf
        have hne := hwne c hf
        rw [List.cons_append, getLast?_cons_of_ne (by simp [hne])] at ha
        exact h13 hu c hf a ha
    all_goals try simp only [State.goto, State.enqueue]
    all_goals first
      | assumption
      | grind -linarith [Function.update_apply, Tag.of]
  · show Work s.next s.tag { g.lists with queue := t :: g.lists.queue } u (Function.update s.pc t p u)
    by_cases hu : u = t
    · rw [hu, Function.update_self]
      rcases hp with rfl | rfl <;> trivial
    · rw [Function.update_of_ne hu]
      exact (hwork u).push t

/-- **A waiter that was signalled** goes on with the lock. -/
theorem Inv.wait {s : State T} {g : Ghost T} {t : T} {tag : Tag} (h : Inv s g)
    (ht : s.pc t = .waiting tag) (hs : s.signalled t = true) : Inv (wait s t tag) g := by
  have t1 : (s.pc t).pends = some tag := by rw [ht]; rfl
  have hmade : s.made t = 1 := by
    have h0 := h.clients.waits t (by rw [t1]; nofun)
    have h1 := h.clients.once t (by rw [t1]; nofun)
    grind -linarith
  have hnext : s.next t = none ∧ ∀ u, t ∉ g.lists.wake u := by
    have h1 := h.clients.told t (by rw [t1]; nofun) hmade
    have h2 := fun u => h.clients.wake u t
    grind -linarith
  have hnp : t ∉ g.lists.pending := fun hmem => by
    rw [((h.clients.pending t).mp hmem).2] at hmade
    cases hmade
  obtain ⟨hne, hnw⟩ := hnext
  have hmp := @Lists.mem_pending T g.lists
  obtain ⟨p, hpdef⟩ : ∃ p : Pc T, p = if tag = .shared then .reader else .writer := ⟨_, rfl⟩
  have hpv : p.pends = none ∧ p.shares = decide (tag = .shared) ∧ p.owns = !decide (tag = .shared)
      ∧ p.wakes = false ∧ p.sorts = false ∧ p.cuts = false ∧ p.fair = none ∧ p.leaves = false
      ∧ p.unfair = false ∧ p ≠ .aborted := by
    subst hpdef
    cases tag <;> simp [Pc.pends, Pc.shares, Pc.owns, Pc.wakes, Pc.sorts, Pc.cuts, Pc.fair,
      Pc.leaves, Pc.unfair]
  have htv : (s.pc t).shares = false ∧ (s.pc t).owns = false ∧ (s.pc t).wakes = false
      ∧ (s.pc t).sorts = false ∧ (s.pc t).cuts = false ∧ (s.pc t).fair = none := by
    rw [ht]
    simp [Pc.shares, Pc.owns, Pc.wakes, Pc.sorts, Pc.cuts, Pc.fair]
  obtain ⟨p1, p2, p3, p4, p5, p6, p7, p8, p9, p11⟩ := hpv
  obtain ⟨t2, t3, t4, t5, t6, t7⟩ := htv
  rw [RwLock.wait, ← hpdef]
  obtain ⟨hc, hq, hwork⟩ := h
  refine ⟨?_, ?_, fun u => ?_⟩
  · clear ht hpdef
    obtain ⟨h1, h2, h3, h4, h5, h6, h7, h8, h9, h10, h11, h12, h13, h14, h15, h16, h17, h18, h19,
      h20, h21, h22⟩ := hc
    constructor
    all_goals try simp only [State.goto]
    all_goals first
      | assumption
      | grind -linarith [Function.update_apply]
  · obtain ⟨h1, h2, h3, h4, h5, h6, h7, h8, h9, h10, h11, h12, h13⟩ := hq
    constructor
    case cutter => exact fun hne => exists_update_of_not (h6 hne) t6
    case sorting => exact fun hne => exists_update_of_not (h7 hne) t5
    all_goals try simp only [State.goto]
    all_goals first
      | assumption
      | grind -linarith [Function.update_apply]
  · show Work s.next s.tag g.lists u (Function.update s.pc t p u)
    by_cases hu : u = t
    · rw [hu, Function.update_self, hpdef]
      cases tag <;> trivial
    · rw [Function.update_of_ne hu]
      exact hwork u

end RwLock
