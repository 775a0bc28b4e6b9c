import Lwlock.Refine

/-!
# A mutex that is handed over in order

What a mutex with a wait queue is for: it has an owner, or nobody, and a queue of
those who wait. Who finds it free takes it, who does not queues, and who gives it up
hands it to the first in the queue. That it is handed over in the order of the queue
is a fact about traces: those who were made owner, followed by those who still wait,
are those who queued.
-/

variable {T M : Type*}

/-- **A mutex**: its owner, and those who wait, the one who waits longest first. -/
structure Handoff (T : Type*) where
  owner : Option T
  queue : List T

namespace Handoff

/-- Nobody has it. -/
def free : Handoff T := ⟨none, []⟩

/-- What may happen to a mutex. -/
inductive Act (T : Type*)
  | acquire (t : T)
  | enqueue (t : T)
  | release (t : T)
  | pass (t w : T)
  deriving DecidableEq

/-- **What it does.** -/
inductive Step : Handoff T → Act T → Handoff T → Prop
  | acquire {t : T} : Step ⟨none, []⟩ (.acquire t) ⟨some t, []⟩
  | enqueue {o t : T} {q : List T} (ho : t ≠ o) (hq : t ∉ q) :
      Step ⟨some o, q⟩ (.enqueue t) ⟨some o, q ++ [t]⟩
  | release {t : T} : Step ⟨some t, []⟩ (.release t) ⟨none, []⟩
  | pass {t w : T} {q : List T} : Step ⟨some t, w :: q⟩ (.pass t w) ⟨some w, q⟩

/-- Nobody waits for a mutex that is free or that he has, or twice. -/
structure Sound (a : Handoff T) : Prop where
  free : a.owner = none → a.queue = []
  owner : ∀ t, a.owner = some t → t ∉ a.queue
  nodup : a.queue.Nodup

theorem sound_free : (free : Handoff T).Sound := ⟨fun _ => rfl, nofun, List.nodup_nil⟩

/-- A step leaves a mutex sound. -/
theorem Step.sound {a b : Handoff T} {l : Act T} (h : Step a l b) (ha : a.Sound) : b.Sound := by
  cases h with
  | acquire => exact ⟨nofun, nofun, List.nodup_nil⟩
  | enqueue ho hq =>
    refine ⟨nofun, fun t ht hmem => ?_, ?_⟩
    · rcases List.mem_append.mp hmem with hmem | hmem
      · exact ha.owner t ht hmem
      · exact ho ((List.mem_singleton.mp hmem).symm.trans (Option.some.inj ht).symm)
    · refine List.nodup_append.mpr ⟨ha.nodup, List.nodup_cons.mpr ⟨nofun, List.nodup_nil⟩, ?_⟩
      intro x hx y hy hxy
      rw [List.mem_singleton.mp hy] at hxy
      exact hq (hxy ▸ hx)
  | release => exact sound_free
  | pass =>
    obtain ⟨hw, hq⟩ := List.nodup_cons.mp ha.nodup
    refine ⟨nofun, fun u hu => ?_, hq⟩
    obtain rfl := Option.some.inj hu
    exact hw

/-- Those who queued, in the order of it. -/
def enqueued : List (Act T) → List T
  | [] => []
  | .enqueue t :: ls => t :: enqueued ls
  | _ :: ls => enqueued ls

/-- Those to whom it was handed, in the order of it. -/
def passed : List (Act T) → List T
  | [] => []
  | .pass _ w :: ls => w :: passed ls
  | _ :: ls => passed ls

theorem enqueued_append (ls ls' : List (Act T)) :
    enqueued (ls ++ ls') = enqueued ls ++ enqueued ls' := by
  induction ls with
  | nil => rfl
  | cons l ls ih => cases l <;> simp [enqueued, ih]

theorem passed_append (ls ls' : List (Act T)) :
    passed (ls ++ ls') = passed ls ++ passed ls' := by
  induction ls with
  | nil => rfl
  | cons l ls ih => cases l <;> simp [passed, ih]

/-- **First come, first served.** -/
theorem fifo {a b : Handoff T} {ls : List (Act T)} (h : Machine.Accepts Step a ls b) :
    a.queue ++ enqueued ls = passed ls ++ b.queue := by
  induction h with
  | refl => exact List.append_nil _
  | @tail c d ls l _ hs ih =>
    rw [enqueued_append, ← List.append_assoc, ih, passed_append, List.append_assoc,
      List.append_assoc]
    refine congrArg (passed ls ++ ·) ?_
    cases hs <;> simp [enqueued, passed]

/-! ## Several mutexes -/

/-- One of several mutexes takes a step. -/
def Steps (a : M → Handoff T) (l : M × Act T) (b : M → Handoff T) : Prop :=
  Step (a l.1) l.2 (b l.1) ∧ ∀ m, m ≠ l.1 → b m = a m

variable [DecidableEq M]

/-- What happens to one of them. -/
def actsOf (m : M) (ls : List (M × Act T)) : List (Act T) :=
  ls.filterMap fun l => if l.1 = m then some l.2 else none

/-- **Each for itself**: what happens to one of several mutexes is what may happen to
it alone. -/
theorem accepts_actsOf {a b : M → Handoff T} {ls : List (M × Act T)}
    (h : Machine.Accepts Steps a ls b) (m : M) :
    Machine.Accepts Step (a m) (actsOf m ls) (b m) := by
  induction h with
  | refl => exact Machine.Accepts.refl _
  | @tail b c ls l _ hs ih =>
    rw [actsOf, List.filterMap_append]
    by_cases hm : l.1 = m
    · have hl : List.filterMap (fun l => if l.1 = m then some l.2 else none) [l] = [l.2] := by
        rw [List.filterMap_cons, if_pos hm, List.filterMap_nil]
      rw [hl]
      subst hm
      exact ih.tail hs.1
    · have hl : List.filterMap (fun l => if l.1 = m then some l.2 else none) [l] = [] := by
        rw [List.filterMap_cons, if_neg hm, List.filterMap_nil]
      rw [hl, List.append_nil, hs.2 m (Ne.symm hm)]
      exact ih

/-- Several mutexes stay sound. -/
theorem Steps.sound {a b : M → Handoff T} {l : M × Act T} (h : Steps a l b)
    (ha : ∀ m, (a m).Sound) (m : M) : (b m).Sound := by
  by_cases hm : m = l.1
  · subst hm
    exact h.1.sound (ha _)
  · rw [h.2 m hm]
    exact ha m

end Handoff
