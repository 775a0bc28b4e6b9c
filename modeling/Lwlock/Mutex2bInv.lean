import Lwlock.Mutex2b
import Lwlock.Chain

/-!
# Who owns a mutex of two bytes

Following `next` from the word visits the waiters, youngest first, and arrives at the
owner, whose own `next` may lead on into the queue of another mutex. Between the swap by
which a mutex is handed over and the return of the new owner nothing in the memory says who
owns it: the owner is a ghost value, and the path of the waiters ends at it before the `next`
of the new owner is cleared as well as after.
-/

namespace Mutex2b

variable {T M : Type}

/-! ## What a program point says -/

/-- The mutex the thread is about to lock or to queue for. -/
def Pc.locks : Pc T M → Option M
  | .lockRead m | .lockLink m _ | .lockCas m _ => some m
  | _ => none

/-- What its `next` has been set to for the swap. -/
def Pc.linked : Pc T M → Option (Option T)
  | .lockCas _ old => some old
  | _ => none

/-- The mutex for which it waits to be woken up. -/
def Pc.awaits : Pc T M → Option M
  | .waiting m => some m
  | _ => none

/-- The mutex it is about to unlock. -/
def Pc.unlocks : Pc T M → Option M
  | .unlockRead m _ | .unlockFind m _ _ | .unlockCas m _ _ _ => some m
  | _ => none

/-- The mutex it hands over, and to whom. -/
def Pc.hands : Pc T M → Option (M × T)
  | .clearNext m w | .wakeup m w => some (m, w)
  | _ => none

/-- What a program point says, all together. -/
def Pc.Views (p : Pc T M) (locks : Option M) (linked : Option (Option T))
    (awaits unlocks : Option M) (hands : Option (M × T)) : Prop :=
  p.locks = locks ∧ p.linked = linked ∧ p.awaits = awaits ∧ p.unlocks = unlocks
    ∧ p.hands = hands ∧ p ≠ .aborted

/-! ## The invariant -/

/-- The owners, who waits, youngest first, and who hands a mutex to a waiter. -/
structure Ghost (T M : Type) where
  owner : M → Option T
  queue : M → List T
  giver : T → T

/-- **Who is where.** -/
structure Clients (s : State T M) (g : Ghost T M) : Prop where
  queued : ∀ m t, t ∈ g.queue m → (s.pc t).awaits = some m ∧ s.made t = 0 ∧ s.sent t = 0
    ∧ s.signalled t = false ∧ g.owner m ≠ some t
  handed : ∀ m t, (s.pc t).awaits = some m → t ∉ g.queue m → g.owner m = some t ∧ s.made t = 1
    ∧ ((s.sent t = 0 ∧ s.signalled t = false ∧ (s.pc (g.giver t)).hands = some (m, t))
      ∨ (s.sent t = 1 ∧ s.signalled t = true ∧ s.next t = none))
  quiet : ∀ t, (s.pc t).awaits = none → s.signalled t = false
  free : ∀ m, g.owner m = none → g.queue m = [] ∧ s.word m = none
  nodup : ∀ m, (g.queue m).Nodup
  holds : ∀ t m, s.holds t m = true → g.owner m = some t ∧ (s.pc t).awaits ≠ some m
  owner : ∀ t m, g.owner m = some t → s.holds t m = true ∨ (s.pc t).awaits = some m
  locks : ∀ t m, (s.pc t).locks = some m → s.holds t m = false
  linked : ∀ t v, (s.pc t).linked = some v → s.next t = v
  unlocks : ∀ t m, (s.pc t).unlocks = some m → s.holds t m = true
  hands : ∀ t m w, (s.pc t).hands = some (m, w) → g.owner m = some w
    ∧ (s.pc w).awaits = some m ∧ w ∉ g.queue m ∧ s.made w = 1 ∧ s.sent w = 0
    ∧ s.signalled w = false ∧ g.giver w = t
  alive : ∀ t, s.pc t ≠ .aborted

attribute [grind →] Clients.queued Clients.handed Clients.quiet Clients.free Clients.holds
  Clients.owner Clients.locks Clients.linked Clients.unlocks Clients.hands

attribute [grind .] Clients.nodup Clients.alive

/-- **What an owner in the middle of its unlock knows.** -/
def Work (next : T → Option T) (g : Ghost T M) (t : T) : Pc T M → Prop
  | .unlockRead m (some w) => ∃ A, g.queue m = A ++ [w]
  | .unlockFind m _ w => w ∈ g.queue m
  | .unlockCas _ old new none => old = some t ∧ new = none
  | .unlockCas m old new (some w) => new = old ∧ ∃ A, g.queue m = A ++ [w]
  | .wakeup _ w => next w = none
  | _ => True

/-- **The invariant.** -/
structure Inv (s : State T M) (g : Ghost T M) : Prop where
  clients : Clients s g
  path : ∀ m o, g.owner m = some o → Segment s.next (s.word m) (g.queue m) (some o)
  work : ∀ t, Work s.next g t (s.pc t)

/-- **Nobody waits for a mutex whose word names its owner.** -/
theorem Inv.queue_eq_nil {s : State T M} {g : Ghost T M} (h : Inv s g) {t : T} {m : M}
    (ho : g.owner m = some t) (hw : s.word m = some t) : g.queue m = [] := by
  cases hq : g.queue m with
  | nil => rfl
  | cons a L =>
    have hp := h.path m t ho
    rw [hq, hw] at hp
    obtain rfl := Option.some.inj hp.1
    exact absurd ho (h.clients.queued m _ (by rw [hq]; exact List.mem_cons_self)).2.2.2.2

/-- **Where somebody waits the word names the youngest waiter.** -/
theorem Inv.exists_word {s : State T M} {g : Ghost T M} (h : Inv s g) {t : T} {m : M}
    (ho : g.owner m = some t) (hw : s.word m ≠ some t) :
    ∃ w, s.word m = some w ∧ w ∈ g.queue m := by
  have hp := h.path m t ho
  cases hq : g.queue m with
  | nil =>
    rw [hq] at hp
    exact absurd hp hw
  | cons a L =>
    rw [hq] at hp
    exact ⟨a, hp.1, List.mem_cons_self⟩

/-- **The step of the walk**: a waiter's `next` names another waiter, or the waiter is the
oldest and it names the owner. -/
theorem Inv.next_waiter {s : State T M} {g : Ghost T M} (h : Inv s g) {t w : T} {m : M}
    (ho : g.owner m = some t) (hw : w ∈ g.queue m) :
    (s.next w = some t ∧ ∃ A, g.queue m = A ++ [w])
      ∨ ∃ n, s.next w = some n ∧ n ≠ t ∧ n ∈ g.queue m := by
  obtain ⟨A, B, hq⟩ := List.append_of_mem hw
  have hp := h.path m t ho
  rw [hq] at hp
  obtain ⟨r, -, -, hB⟩ := segment_append.mp hp
  cases B with
  | nil => exact .inl ⟨hB, A, hq⟩
  | cons n B =>
    have hn : n ∈ g.queue m := by
      rw [hq]
      simp
    refine .inr ⟨n, hB.1, ?_, hn⟩
    rintro rfl
    exact (h.clients.queued m n hn).2.2.2.2 ho

/-- The frame of what an owner knows: the queue of its mutex grows at the young end. -/
theorem Work.grow {next next' : T → Option T} {g g' : Ghost T M} {t : T} {p : Pc T M}
    (h : Work next g t p) (hq : ∀ m, p.unlocks = some m → ∃ L, g'.queue m = L ++ g.queue m)
    (hn : ∀ m w, p.hands = some (m, w) → next w = none → next' w = none) :
    Work next' g' t p := by
  cases p with
  | unlockRead m wake =>
    cases wake with
    | none => trivial
    | some w =>
      obtain ⟨A, hA⟩ := h
      obtain ⟨L, hL⟩ := hq m rfl
      exact ⟨L ++ A, by rw [hL, hA, List.append_assoc]⟩
  | unlockFind m old w =>
    obtain ⟨L, hL⟩ := hq m rfl
    rw [Work, hL]
    exact List.mem_append_right L h
  | unlockCas m old new wake =>
    cases wake with
    | none => exact h
    | some w =>
      obtain ⟨h1, A, hA⟩ := h
      obtain ⟨L, hL⟩ := hq m rfl
      exact ⟨h1, L ++ A, by rw [hL, hA, List.append_assoc]⟩
  | wakeup m w => exact hn m w rfl h
  | _ => trivial

/-- Two owners do not unlock one mutex. -/
theorem Clients.unlocks_unique {s : State T M} {g : Ghost T M} (h : Clients s g) {t u : T}
    {m : M} (ht : (s.pc t).unlocks = some m) (hu : (s.pc u).unlocks = some m) : t = u :=
  Option.some.inj ((h.holds t m (h.unlocks t m ht)).1.symm.trans
    (h.holds u m (h.unlocks u m hu)).1)

end Mutex2b
