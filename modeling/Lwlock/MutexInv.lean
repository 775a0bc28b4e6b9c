import Lwlock.Mutex
import Lwlock.Linked

/-!
# Where the waiters of a mutex are

The queue of a mutex, youngest first, is what `next` visits from its word, except
that the waiter it was handed to last may still be at the end, until the thread that
handed it over has taken it out. The `prev` fields are right where they are set: a
waiter's `prev` names the waiter before it or nobody, and after a walk to the end all
of them are set.

What a thread in the middle of an unlock knows is said in `Work`, for each point of
the unlock; who is where is said in `Clients`. At most one thread is in the middle of
an unlock of a mutex: its owner, or the one that hands it over to an owner who has
not been woken up yet.
-/

namespace Mutex

variable {T M : Type}

/-! ## What a program point says -/

/-- The mutex the thread is about to lock or to queue for. -/
def Pc.locks : Pc T M → Option M
  | .lockStart m | .lockTry m _ _ | .lockCas m _ _ => some m
  | _ => none

/-- Whether its `next` may be set though it does not wait. -/
def Pc.linking : Pc T M → Bool
  | .lockTry _ _ _ | .lockCas _ _ _ => true
  | _ => false

/-- What its `next` is, if it has been set for the swap. -/
def Pc.linked : Pc T M → Option (Option T)
  | .lockCas _ _ old => some (if old.owner = none then none else old.waitq)
  | _ => none

/-- The mutex for which it waits to be woken up. -/
def Pc.awaits : Pc T M → Option M
  | .waiting m => some m
  | _ => none

/-- The mutex it is about to unlock. -/
def Pc.unlocks : Pc T M → Option M
  | .unlockStart m | .unlockScan m _ _ | .unlockCas m _ _ => some m
  | _ => none

/-- The owner in the word it has read for its swap. -/
def Pc.oldOwner : Pc T M → Option (Option T)
  | .unlockScan _ old _ | .unlockCas _ old _ => some old.owner
  | _ => none

/-- The owner in the word it has read to lock or to queue. -/
def Pc.readOwner : Pc T M → Option (Option T)
  | .lockTry _ _ old | .lockCas _ _ old => some old.owner
  | _ => none

/-- The mutex it hands over, and to whom. -/
def Pc.hands : Pc T M → Option (M × T)
  | .unlinkNext m w | .unlinkPrev m w _ | .clearPrev m w | .clearNext m w | .wakeup m w =>
    some (m, w)
  | _ => none

/-- The mutex whose waiters it works on. -/
def Pc.works : Pc T M → Option M
  | .unlockScan m _ _ | .unlockCas m _ _ | .unlinkNext m _ | .unlinkPrev m _ _ | .clearPrev m _
  | .clearNext m _ | .wakeup m _ => some m
  | _ => none

/-! ## The invariant -/

/-- Who waits, youngest first; the waiter that a mutex was handed to, while it is
still at the end; and who hands a mutex to a waiter. -/
structure Ghost (T M : Type) where
  queue : M → List T
  rest : M → List T
  giver : T → T

/-- A `prev` that is set names the waiter before. -/
def PrevOk (prev : T → Option T) : Option T → List T → Prop
  | _, [] => True
  | b, t :: L => (prev t = none ∨ prev t = b) ∧ PrevOk prev (some t) L

/-- **Who is where.** -/
structure Clients (s : State T M) (g : Ghost T M) : Prop where
  queued : ∀ m t, t ∈ g.queue m → s.waits t = some m ∧ s.made t = 0 ∧ s.sent t = 0
    ∧ s.signalled t = false ∧ (s.word m).owner ≠ some t
  handed : ∀ m t, s.waits t = some m → t ∉ g.queue m → (s.word m).owner = some t ∧ s.made t = 1
    ∧ ((s.sent t = 0 ∧ s.signalled t = false ∧ (s.pc (g.giver t)).hands = some (m, t))
      ∨ (s.sent t = 1 ∧ s.signalled t = true ∧ s.next t = none ∧ s.prev t = none))
  quiet : ∀ t, s.waits t = none → s.signalled t = false ∧ s.prev t = none
    ∧ ((s.pc t).linking = false → s.next t = none)
  free : ∀ m, (s.word m).owner = none → g.queue m = []
  nodup : ∀ m, (g.queue m).Nodup
  rest : ∀ m t, t ∈ g.rest m → g.rest m = [t] ∧ (s.word m).owner = some t
    ∧ s.waits t = some m ∧ t ∉ g.queue m ∧ s.signalled t = false
  locks : ∀ t m, (s.pc t).locks = some m → s.waits t = none ∧ (s.word m).owner ≠ some t
  linked : ∀ t v, (s.pc t).linked = some v → s.next t = v
  awaits : ∀ t m, (s.pc t).awaits = some m → s.waits t = some m
  unlocks : ∀ t m, (s.pc t).unlocks = some m → (s.word m).owner = some t ∧ s.waits t ≠ some m
  oldOwner : ∀ t o, (s.pc t).oldOwner = some o → o = some t
  readOwner : ∀ t o, (s.pc t).readOwner = some o → o ≠ some t
  hands : ∀ t m w, (s.pc t).hands = some (m, w) → (s.word m).owner = some w
    ∧ s.waits w = some m ∧ w ∉ g.queue m ∧ s.made w = 1 ∧ s.sent w = 0 ∧ s.signalled w = false
    ∧ g.giver w = t
  alive : ∀ t, s.pc t ≠ .aborted

attribute [grind →] Clients.queued Clients.handed Clients.quiet Clients.free Clients.rest
  Clients.locks Clients.linked Clients.awaits Clients.unlocks Clients.oldOwner Clients.readOwner
  Clients.hands

attribute [grind .] Clients.nodup Clients.alive

/-- **What a thread in the middle of an unlock knows.** -/
def Work (next prev : T → Option T) (g : Ghost T M) : Pc T M → Prop
  | .unlockScan m old w => ∃ P A B, g.queue m = P ++ (A ++ w :: B)
      ∧ Linked next prev none old.waitq (A ++ [w]) (next w)
  | .unlockCas _ old none => old.waitq = none
  | .unlockCas m old (some w) => ∃ P A, g.queue m = P ++ (A ++ [w])
      ∧ Linked next prev none old.waitq (A ++ [w]) none
  | .unlinkNext m w => next w = none ∧ ((g.rest m = [] ∧ prev w = none)
      ∨ (g.rest m = [w] ∧ ∃ X p, g.queue m = X ++ [p] ∧ prev w = some p))
  | .unlinkPrev m w none => next w = none ∧ g.rest m = []
  | .unlinkPrev m w (some p) => next w = none ∧ g.rest m = [w] ∧ ∃ X, g.queue m = X ++ [p]
  | .clearPrev m w => next w = none ∧ g.rest m = []
  | .clearNext m w => prev w = none ∧ g.rest m = []
  | .wakeup m w => next w = none ∧ prev w = none ∧ g.rest m = []
  | _ => True

/-- **The invariant.** -/
structure Inv (s : State T M) (g : Ghost T M) : Prop where
  clients : Clients s g
  chain : ∀ m, Chain s.next (s.word m).waitq (g.queue m ++ g.rest m)
  prevOk : ∀ m, PrevOk s.prev none (g.queue m)
  work : ∀ t, Work s.next s.prev g (s.pc t)

/-! ## `prev` -/

/-- Whoever comes before the first one is named by nobody else. -/
theorem PrevOk.weaken {prev : T → Option T} {b : Option T} {L : List T}
    (h : PrevOk prev none L) : PrevOk prev b L := by
  cases L with
  | nil => trivial
  | cons t L => exact ⟨h.1.elim .inl .inl, h.2⟩

/-- The frame. -/
theorem PrevOk.congr {prev prev' : T → Option T} {b : Option T} {L : List T}
    (h : PrevOk prev b L) (hp : ∀ t ∈ L, prev' t = prev t) : PrevOk prev' b L := by
  induction L generalizing b with
  | nil => trivial
  | cons t L ih =>
    refine ⟨?_, ih h.2 fun x hx => hp x (List.mem_cons_of_mem t hx)⟩
    rw [hp t List.mem_cons_self]
    exact h.1

/-- The waiters before the last one. -/
theorem PrevOk.prefix {prev : T → Option T} {b : Option T} {L R : List T}
    (h : PrevOk prev b (L ++ R)) : PrevOk prev b L := by
  induction L generalizing b with
  | nil => trivial
  | cons t L ih => exact ⟨h.1, ih h.2⟩

/-- The waiters from some waiter on, whose `prev` names the one before. -/
theorem PrevOk.suffix {prev : T → Option T} {b : Option T} {L R : List T} {t : T}
    (h : PrevOk prev b (L ++ t :: R)) : PrevOk prev (some t) R := by
  induction L generalizing b with
  | nil => exact h.2
  | cons u L ih => exact ih h.2

/-- **A `prev` is set.** -/
theorem PrevOk.set [DecidableEq T] {prev : T → Option T} {b : Option T} {L R : List T} {w n : T}
    (h : PrevOk prev b (L ++ w :: n :: R)) (hnd : (L ++ w :: n :: R).Nodup) :
    PrevOk (Function.update prev n (some w)) b (L ++ w :: n :: R) := by
  induction L generalizing b with
  | nil =>
    have hnd' := List.nodup_cons.mp hnd
    have hwn : w ≠ n := fun hwn => hnd'.1 (hwn ▸ List.mem_cons_self)
    refine ⟨?_, .inr (Function.update_self _ _ _), ?_⟩
    · rw [Function.update_of_ne hwn]
      exact h.1
    · refine PrevOk.congr h.2.2 fun x hx => ?_
      have hxn : x ≠ n := fun hxn => (List.nodup_cons.mp hnd'.2).1 (hxn ▸ hx)
      rw [Function.update_of_ne hxn]
  | cons u L ih =>
    have hnd' := List.nodup_cons.mp hnd
    have hun : u ≠ n := by
      rintro rfl
      exact hnd'.1 (by simp)
    refine ⟨?_, ih h.2 hnd'.2⟩
    rw [Function.update_of_ne hun]
    exact h.1

/-! ## Threads in the middle of an unlock -/

/-- **The frame of a thread in the middle of an unlock**: it knows about the waiters
of its mutex only. -/
theorem Work.congr {next next' prev prev' : T → Option T} {g g' : Ghost T M} {p : Pc T M} {m : M}
    (h : Work next prev g p) (hm : p.works = some m) (hq : g'.queue m = g.queue m)
    (hr : g'.rest m = g.rest m) (hn : ∀ t ∈ g.queue m, next' t = next t ∧ prev' t = prev t)
    (hw : ∀ w, p.hands = some (m, w) → next' w = next w ∧ prev' w = prev w) :
    Work next' prev' g' p := by
  cases p with
  | unlockScan m' old w =>
    obtain rfl : m' = m := Option.some.inj hm
    obtain ⟨P, A, B, hP, hL⟩ := h
    have hsub : ∀ t ∈ A ++ [w], t ∈ g.queue m' := by
      intro t ht
      rw [hP]
      simp only [List.mem_append, List.mem_cons, List.not_mem_nil, or_false] at ht ⊢
      tauto
    refine ⟨P, A, B, hq.trans hP, ?_⟩
    rw [(hn w (hsub w (by simp))).1]
    exact hL.congr (fun t ht => (hn t (hsub t ht)).1) fun t ht => (hn t (hsub t ht)).2
  | unlockCas m' old w =>
    obtain rfl : m' = m := Option.some.inj hm
    cases w with
    | none => exact h
    | some w =>
      obtain ⟨P, A, hP, hL⟩ := h
      have hsub : ∀ t ∈ A ++ [w], t ∈ g.queue m' := by
        intro t ht
        rw [hP]
        exact List.mem_append_right P ht
      exact ⟨P, A, hq.trans hP, hL.congr (fun t ht => (hn t (hsub t ht)).1)
        fun t ht => (hn t (hsub t ht)).2⟩
  | unlinkNext m' w =>
    obtain rfl : m' = m := Option.some.inj hm
    obtain ⟨h1, h2⟩ := hw w rfl
    rw [Work] at h ⊢
    rw [h1, h2, hq, hr]
    exact h
  | unlinkPrev m' w prev =>
    obtain rfl : m' = m := Option.some.inj hm
    obtain ⟨h1, -⟩ := hw w rfl
    cases prev with
    | none =>
      rw [Work] at h ⊢
      rw [h1, hr]
      exact h
    | some p =>
      rw [Work] at h ⊢
      rw [h1, hq, hr]
      exact h
  | clearPrev m' w =>
    obtain rfl : m' = m := Option.some.inj hm
    rw [Work] at h ⊢
    rw [(hw w rfl).1, hr]
    exact h
  | clearNext m' w =>
    obtain rfl : m' = m := Option.some.inj hm
    rw [Work] at h ⊢
    rw [(hw w rfl).2, hr]
    exact h
  | wakeup m' w =>
    obtain rfl : m' = m := Option.some.inj hm
    obtain ⟨h1, h2⟩ := hw w rfl
    rw [Work] at h ⊢
    rw [h1, h2, hr]
    exact h
  | _ => trivial

/-- **A waiter that queues** does not disturb it. -/
theorem Work.enqueue {next prev : T → Option T} {g g' : Ghost T M} {p : Pc T M} {m : M} {t : T}
    (h : Work next prev g p) (hm : p.works = some m) (hq : g'.queue m = t :: g.queue m)
    (hr : g'.rest m = g.rest m) : Work next prev g' p := by
  cases p with
  | unlockScan m' old w =>
    obtain rfl : m' = m := Option.some.inj hm
    obtain ⟨P, A, B, hP, hL⟩ := h
    exact ⟨t :: P, A, B, by rw [hq, hP]; rfl, hL⟩
  | unlockCas m' old w =>
    obtain rfl : m' = m := Option.some.inj hm
    cases w with
    | none => exact h
    | some w =>
      obtain ⟨P, A, hP, hL⟩ := h
      exact ⟨t :: P, A, by rw [hq, hP]; rfl, hL⟩
  | unlinkNext m' w =>
    obtain rfl : m' = m := Option.some.inj hm
    obtain ⟨h1, h2⟩ := h
    refine ⟨h1, ?_⟩
    rw [hr]
    rcases h2 with h2 | ⟨h2, X, p, hX, hp⟩
    · exact .inl h2
    · exact .inr ⟨h2, t :: X, p, by rw [hq, hX]; rfl, hp⟩
  | unlinkPrev m' w prev =>
    obtain rfl : m' = m := Option.some.inj hm
    cases prev with
    | none =>
      rw [Work] at h ⊢
      rw [hr]
      exact h
    | some p =>
      obtain ⟨h1, h2, X, hX⟩ := h
      exact ⟨h1, hr.trans h2, t :: X, by rw [hq, hX]; rfl⟩
  | clearPrev m' w | clearNext m' w | wakeup m' w =>
    obtain rfl : m' = m := Option.some.inj hm
    rw [Work] at h ⊢
    rw [hr]
    exact h
  | _ => trivial

/-- Where there is nothing to know. -/
theorem work_of_not_works {next prev : T → Option T} {g : Ghost T M} {p : Pc T M}
    (h : p.works = none) : Work next prev g p := by
  cases p <;> trivial

/-- Who works on the waiters of a mutex is its owner, or hands it over. -/
theorem Pc.works_cases {p : Pc T M} {m : M} (h : p.works = some m) :
    p.unlocks = some m ∨ ∃ w, p.hands = some (m, w) := by
  cases p <;> first
    | cases h; done
    | exact .inl h
    | exact .inr ⟨_, by rw [← Option.some.inj h]; rfl⟩

/-- **At most one thread works on the waiters of a mutex.** -/
theorem Clients.works_unique {s : State T M} {g : Ghost T M} (h : Clients s g) {t u : T} {m : M}
    (ht : (s.pc t).works = some m) (hu : (s.pc u).works = some m) : t = u := by
  rcases Pc.works_cases ht with ht | ⟨w, ht⟩ <;> rcases Pc.works_cases hu with hu | ⟨v, hu⟩
  · exact Option.some.inj ((h.unlocks t m ht).1.symm.trans (h.unlocks u m hu).1)
  · obtain ⟨h1, h2, -⟩ := h.hands u m v hu
    obtain ⟨h3, h4⟩ := h.unlocks t m ht
    obtain rfl := Option.some.inj (h1.symm.trans h3)
    exact absurd h2 h4
  · obtain ⟨h1, h2, -⟩ := h.hands t m w ht
    obtain ⟨h3, h4⟩ := h.unlocks u m hu
    obtain rfl := Option.some.inj (h1.symm.trans h3)
    exact absurd h2 h4
  · obtain ⟨h1, -, -, -, -, -, h2⟩ := h.hands t m w ht
    obtain ⟨h3, -, -, -, -, -, h4⟩ := h.hands u m v hu
    obtain rfl := Option.some.inj (h1.symm.trans h3)
    exact h2.symm.trans h4

end Mutex
