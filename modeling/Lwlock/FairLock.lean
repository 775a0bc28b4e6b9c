import Lwlock.Refine

/-!
# A read-write lock that is handed over in order

What a fair read-write lock is for: it has readers, or one writer, or nobody, and a
queue of those who asked for it and could not have it at once. Nobody gets in while
somebody waits. When the last holder leaves, the one who waits longest is served: alone
if it wants the lock for itself, and with all the readers next to it if it does not. A
holder that wants the lock in the other way waits in front of the queue.

Who asked and who was served is remembered. That requests are served in the order in
which they were made is then a fact about every run: those who asked are those who were
served, followed by those who still wait.
-/

variable {T : Type*}

/-- **A fair read-write lock.** -/
structure FairLock (T : Type*) where
  readers : Finset T
  writer : Option T
  /-- A holder that waits for the lock in the other way, and whether for itself. -/
  front : Option (T × Bool)
  /-- Those that asked, the one that waits longest first, and whether for themselves. -/
  queue : List (T × Bool)
  /-- History: those that asked and had to wait. -/
  asked : List T
  /-- History: those of them that were served. -/
  served : List T

namespace FairLock

/-- Nobody has it. -/
def free : FairLock T := ⟨∅, none, none, [], [], []⟩

/-- **Those that wait**, in the order in which they are served. -/
def waiting (a : FairLock T) : List (T × Bool) := a.front.toList ++ a.queue

/-- **Those at the front that are served together**: one that wants the lock for itself,
or all the readers up to the next one that does. -/
def Group (R rest : List (T × Bool)) : Prop :=
  (∃ t, R = [(t, true)])
    ∨ (R ≠ [] ∧ (∀ p ∈ R, p.2 = false) ∧ ∀ p, rest.head? = some p → p.2 = true)

/-- The readers of a group. -/
def readersOf [DecidableEq T] (R : List (T × Bool)) : Finset T :=
  ((R.filter fun p => !p.2).map Prod.fst).toFinset

/-- The writer of a group. -/
def writerOf (R : List (T × Bool)) : Option T := (R.find? fun p => p.2).map Prod.fst

variable [DecidableEq T]

/-- **What may happen to the lock.** -/
inductive Step (a : FairLock T) : FairLock T → Prop
  /-- A reader gets in. -/
  | share (t : T) (ht : t ∉ a.readers) (hw : a.writer = none) (hn : a.waiting = []) :
      Step a { a with readers := insert t a.readers }
  /-- A writer gets in. -/
  | claim (t : T) (hr : a.readers = ∅) (hw : a.writer = none) (hn : a.waiting = []) :
      Step a { a with writer := some t }
  /-- Somebody asks, and has to wait. -/
  | ask (t : T) (excl : Bool) (ht : t ∉ a.waiting.map Prod.fst)
      (hh : t ∉ a.readers ∧ a.writer ≠ some t)
      (hn : a.waiting ≠ [] ∨ a.writer ≠ none ∨ (excl = true ∧ a.readers ≠ ∅)) :
      Step a { a with queue := a.queue ++ [(t, excl)], asked := a.asked ++ [t] }
  /-- A reader leaves. -/
  | leave (t : T) (ht : t ∈ a.readers) (hn : a.readers.erase t = ∅ → a.waiting = []) :
      Step a { a with readers := a.readers.erase t }
  /-- The writer leaves. -/
  | clear (t : T) (ht : a.writer = some t) (hn : a.waiting = []) : Step a { a with writer := none }
  /-- The only reader gets the lock for itself. -/
  | rise (t : T) (ht : a.readers = {t}) (hn : a.waiting = []) :
      Step a { a with readers := ∅, writer := some t }
  /-- The writer shares the lock. -/
  | sink (t : T) (ht : a.writer = some t) (hn : a.waiting = []) :
      Step a { a with readers := {t}, writer := none }
  /-- A reader wants the lock for itself. -/
  | upgrade (t : T) (ht : t ∈ a.readers) (hf : a.front = none)
      (hn : t ∉ a.waiting.map Prod.fst) : Step a { a with front := some (t, true) }
  /-- The writer wants to share the lock with those that wait next to it. -/
  | downgrade (t : T) (ht : a.writer = some t) (hf : a.front = none)
      (hn : t ∉ a.waiting.map Prod.fst) : Step a { a with front := some (t, false) }
  /-- The last holder leaves, and a group is served. -/
  | pass (t : T) (ht : a.readers = {t} ∨ a.writer = some t) (R rest : List (T × Bool))
      (hR : a.waiting = R ++ rest) (hg : Group R rest) :
      Step a
        { a with
          readers := readersOf R, writer := writerOf R, front := none, queue := rest
          served := a.served ++ (R.drop a.front.toList.length).map Prod.fst }

/-- **What holds of a fair lock**: a writer is alone, nobody waits twice, and nobody waits
for a lock that is free or that he has, unless he waits for it in the other way. -/
structure Sound (a : FairLock T) : Prop where
  alone : ∀ t, a.writer = some t → a.readers = ∅
  nodup : (a.waiting.map Prod.fst).Nodup
  held : a.readers = ∅ → a.writer = none → a.waiting = []
  queue : ∀ t ∈ a.queue.map Prod.fst, t ∉ a.readers ∧ a.writer ≠ some t
  inOrder : a.asked = a.served ++ a.queue.map Prod.fst

omit [DecidableEq T] in
theorem mem_waiting {a : FairLock T} {p : T × Bool} :
    p ∈ a.waiting ↔ a.front = some p ∨ p ∈ a.queue := by
  rw [waiting, List.mem_append, Option.mem_toList]

omit [DecidableEq T] in
/-- A group is not empty. -/
theorem Group.ne_nil {R rest : List (T × Bool)} (h : Group R rest) : R ≠ [] := by
  rcases h with ⟨t, rfl⟩ | ⟨h, -⟩
  · exact List.cons_ne_nil _ _
  · exact h

omit [DecidableEq T] in
/-- Whoever waits in front is in the group. -/
theorem Group.front {a : FairLock T} {R rest : List (T × Bool)} (h : Group R rest)
    (hR : a.waiting = R ++ rest) : a.front.toList ++ R.drop a.front.toList.length = R := by
  obtain ⟨p, L, rfl⟩ := List.exists_cons_of_ne_nil h.ne_nil
  rw [waiting] at hR
  cases hf : a.front with
  | none => rfl
  | some q =>
    rw [hf] at hR
    obtain ⟨rfl, -⟩ := List.cons.inj hR
    rfl

/-- Only one kind of holders comes out of a group. -/
theorem Group.holders {R rest : List (T × Bool)} (h : Group R rest) :
    (∃ t, R = [(t, true)] ∧ readersOf R = ∅ ∧ writerOf R = some t)
      ∨ (readersOf R = (R.map Prod.fst).toFinset ∧ (readersOf R).Nonempty ∧ writerOf R = none) := by
  rcases h with ⟨t, rfl⟩ | ⟨hne, hall, -⟩
  · exact .inl ⟨t, rfl, rfl, rfl⟩
  · have hfilter : (R.filter fun p => !p.2) = R :=
      List.filter_eq_self.mpr fun p hp => by rw [hall p hp]; rfl
    have hfind : R.find? (fun p => p.2) = none :=
      List.find?_eq_none.mpr fun p hp => by rw [hall p hp]; simp
    refine .inr ⟨by rw [readersOf, hfilter], ?_, by rw [writerOf, hfind]; rfl⟩
    rw [readersOf, hfilter, List.toFinset_nonempty_iff]
    exact fun hnil => hne (List.map_eq_nil_iff.mp hnil)

omit [DecidableEq T] in
/-- A lock that nobody has is sound. -/
theorem sound_free : (free : FairLock T).Sound where
  alone := fun _ _ => rfl
  nodup := List.nodup_nil
  held := fun _ _ => rfl
  queue := fun _ h => absurd h List.not_mem_nil
  inOrder := rfl

/-- **A step leaves a lock sound.** -/
theorem Step.sound {a b : FairLock T} (h : Step a b) (ha : a.Sound) : b.Sound := by
  have hempty : a.waiting = [] → a.queue = [] := fun hn => (List.append_eq_nil_iff.mp hn).2
  cases h with
  | share t ht hw hn =>
    refine ⟨fun u hu => ?_, ha.nodup, fun hr => ?_, fun u hu => ?_, ha.inOrder⟩
    · rw [hw] at hu
      cases hu
    · exact absurd hr (Finset.insert_ne_empty t a.readers)
    · rw [hempty hn] at hu
      cases hu
  | claim t hr hw hn =>
    refine ⟨fun _ _ => hr, ha.nodup, fun _ _ => hn, fun u hu => ?_, ha.inOrder⟩
    rw [hempty hn] at hu
    cases hu
  | ask t excl ht hh hn =>
    have hwait : ({ a with queue := a.queue ++ [(t, excl)], asked := a.asked ++ [t] } :
        FairLock T).waiting = a.waiting ++ [(t, excl)] := (List.append_assoc _ _ _).symm
    refine ⟨ha.alone, ?_, fun hr hw => ?_, fun u hu => ?_, ?_⟩
    · rw [hwait, List.map_append]
      refine List.nodup_append.mpr ⟨ha.nodup, List.nodup_singleton _, ?_⟩
      intro x hx y hy hxy
      rw [List.map_singleton, List.mem_singleton] at hy
      rw [hxy, hy] at hx
      exact ht hx
    · rcases hn with hn | hn | ⟨-, hn⟩
      · exact absurd (ha.held hr hw) hn
      · exact absurd hw hn
      · exact absurd hr hn
    · rw [List.map_append, List.mem_append] at hu
      rcases hu with hu | hu
      · exact ha.queue u hu
      · rw [List.map_singleton, List.mem_singleton] at hu
        exact hu ▸ hh
    · show a.asked ++ [t] = a.served ++ (a.queue ++ [(t, excl)]).map Prod.fst
      rw [ha.inOrder, List.map_append, List.append_assoc]
      rfl
  | leave t ht hn =>
    refine ⟨fun u hu => ?_, ha.nodup, fun hr _ => hn hr, fun u hu => ?_, ha.inOrder⟩
    · rw [ha.alone u hu] at ht
      cases ht
    · exact ⟨fun hr => (ha.queue u hu).1 (Finset.mem_of_mem_erase hr), (ha.queue u hu).2⟩
  | clear t ht hn =>
    refine ⟨(fun u hu => by cases hu), ha.nodup, fun _ _ => hn, fun u hu => ?_, ha.inOrder⟩
    rw [hempty hn] at hu
    cases hu
  | rise t ht hn =>
    refine ⟨fun _ _ => rfl, ha.nodup, fun _ _ => hn, fun u hu => ?_, ha.inOrder⟩
    rw [hempty hn] at hu
    cases hu
  | sink t ht hn =>
    refine ⟨(fun u hu => by cases hu), ha.nodup, fun _ _ => hn, fun u hu => ?_, ha.inOrder⟩
    rw [hempty hn] at hu
    cases hu
  | upgrade t ht hf hn =>
    have hqueue : a.waiting = a.queue := by rw [waiting, hf]; rfl
    refine ⟨ha.alone, ?_, fun hr _ => ?_, ha.queue, ha.inOrder⟩
    · rw [hqueue] at hn
      exact List.nodup_cons.mpr ⟨hn, hqueue ▸ ha.nodup⟩
    · rw [hr] at ht
      cases ht
  | downgrade t ht hf hn =>
    have hqueue : a.waiting = a.queue := by rw [waiting, hf]; rfl
    refine ⟨ha.alone, ?_, fun _ hw => ?_, ha.queue, ha.inOrder⟩
    · rw [hqueue] at hn
      exact List.nodup_cons.mpr ⟨hn, hqueue ▸ ha.nodup⟩
    · rw [ht] at hw
      cases hw
  | pass t ht R rest hR hg =>
    have hnd := ha.nodup
    rw [hR, List.map_append] at hnd
    have hdisj : ∀ u ∈ rest.map Prod.fst, u ∉ R.map Prod.fst := fun u hu huR =>
      List.disjoint_of_nodup_append hnd huR hu
    refine ⟨fun u hu => ?_, (List.nodup_append.mp hnd).2.1, fun hr hw => ?_, fun u hu => ?_, ?_⟩
    · rcases hg.holders with ⟨-, -, hrs, -⟩ | ⟨-, -, hws⟩
      · exact hrs
      · rw [hws] at hu
        cases hu
    · rcases hg.holders with ⟨x, -, -, hws⟩ | ⟨-, hrs, -⟩
      · rw [hws] at hw
        cases hw
      · exact absurd hr hrs.ne_empty
    · rcases hg.holders with ⟨x, rfl, hrs, hws⟩ | ⟨hrs, -, hws⟩
      · rw [hrs, hws]
        refine ⟨Finset.notMem_empty u, fun hxu => hdisj u hu ?_⟩
        rw [Option.some.inj hxu]
        exact List.mem_singleton_self u
      · rw [hrs, hws]
        exact ⟨fun hmem => hdisj u hu (List.mem_toFinset.mp hmem), fun hx => by cases hx⟩
    · show a.asked = a.served ++ (R.drop a.front.toList.length).map Prod.fst ++ rest.map Prod.fst
      have hq : a.queue = R.drop a.front.toList.length ++ rest := by
        have hline := hR
        rw [waiting, ← hg.front hR, List.append_assoc] at hline
        exact List.append_cancel_left hline
      rw [ha.inOrder, hq, List.map_append, List.append_assoc]

/-- **A fair lock is sound at any time**, and serves those who ask in their order. -/
theorem sound_of_run {a b : FairLock T} (h : Relation.ReflTransGen Step a b) (ha : a.Sound) :
    b.Sound := by
  induction h with
  | refl => exact ha
  | tail _ hs ih => exact hs.sound ih

/-- **Nobody gets in before those who wait**: who has the lock after a step and had it not
before was served, or nobody was waiting. -/
theorem Step.no_barging {a b : FairLock T} (h : Step a b) {t : T}
    (hb : t ∈ b.readers ∨ b.writer = some t) (hr : t ∉ a.readers) (hw : a.writer ≠ some t) :
    a.waiting = [] ∨ ∃ R rest, a.waiting = R ++ rest ∧ b.waiting = rest ∧ Group R rest
      ∧ t ∈ R.map Prod.fst := by
  cases h with
  | share u hu hwn hn => exact .inl hn
  | claim u hrn hwn hn => exact .inl hn
  | ask u excl hu hh hn => exact absurd hb (not_or.mpr ⟨hr, hw⟩)
  | leave u hu hn =>
    exact absurd hb (not_or.mpr ⟨fun hmem => hr (Finset.mem_of_mem_erase hmem), hw⟩)
  | clear u hu hn => exact .inl hn
  | rise u hu hn => exact .inl hn
  | sink u hu hn => exact .inl hn
  | upgrade u hu hf hn => exact absurd hb (not_or.mpr ⟨hr, hw⟩)
  | downgrade u hu hf hn => exact absurd hb (not_or.mpr ⟨hr, hw⟩)
  | pass u hu R rest hR hg =>
    refine .inr ⟨R, rest, hR, rfl, hg, ?_⟩
    rcases hg.holders with ⟨x, rfl, hrs, hws⟩ | ⟨hrs, -, hws⟩
    · rcases hb with hb | hb
      · rw [hrs] at hb
        cases hb
      · rw [hws] at hb
        rw [Option.some.inj hb]
        exact List.mem_singleton_self t
    · rcases hb with hb | hb
      · rw [hrs] at hb
        exact List.mem_toFinset.mp hb
      · rw [hws] at hb
        cases hb

end FairLock
