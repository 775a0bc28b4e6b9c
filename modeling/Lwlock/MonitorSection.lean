import Lwlock.Machine

/-!
# The sections of `MONITOR_ENTER` and `MONITOR_LEAVE`

A section has a static counter and keeps the address of it in a local variable. What
`MONITOR_ENTER` locks is the address of that variable, which is in the stack frame of the
thread; what `MONITOR_LEAVE` unlocks is the address that the variable holds. The monitors
are taken as what they promise, a lock for each pointer value; `lw_monitor_unlock` gives up
the one that its id names.
-/

namespace MonitorSection

variable {T P : Type}

/-- **The addresses**: of the static counter, and of `_monitored_ptr` in the frame of each
thread. Objects that exist at the same time have different ones. -/
structure Frame (T P : Type) where
  var : P
  local' : T → P
  injective : Function.Injective local'
  apart : ∀ t, local' t ≠ var

/-- Where a thread is; the increment of the counter is a read and a write. -/
inductive Pc
  | outside
  | entered
  | counting (v : BitVec 32)
  | inside
  deriving DecidableEq

/-- **A state**: who has the lock of a pointer, the counter, and what the threads did. -/
structure State (T P : Type) where
  holder : P → Option T
  counter : BitVec 32
  pc : T → Pc
  /-- The pointer that names the monitor of `_monitor`. -/
  monitor : T → Option P
  /-- History: how often the counter was incremented. -/
  increments : ℕ
  /-- History: the calls of `lw_monitor_unlock`, with the pointer of the call of
  `lw_monitor_lock` that each belongs to. -/
  unlocks : List (P × Option P)

variable [DecidableEq T] [DecidableEq P]

/-- **A step of a thread**: `MONITOR_ENTER` gets its lock, the increment, and
`MONITOR_LEAVE`. -/
def step (f : Frame T P) (s : State T P) (t : T) : Option (State T P) :=
  match s.pc t with
  | .outside =>
    if s.holder (f.local' t) = none then
      some { s with
        holder := Function.update s.holder (f.local' t) (some t)
        monitor := Function.update s.monitor t (some (f.local' t))
        pc := Function.update s.pc t .entered }
    else none
  | .entered => some { s with pc := Function.update s.pc t (.counting s.counter) }
  | .counting v =>
    some { s with
      counter := v + 1
      increments := s.increments + 1
      pc := Function.update s.pc t .inside }
  | .inside =>
    some { s with
      holder := fun p => if s.monitor t = some p then none else s.holder p
      unlocks := (f.var, s.monitor t) :: s.unlocks
      pc := Function.update s.pc t .outside }

/-- **The threads that run the section** as a machine. -/
def machine (f : Frame T P) : Machine (State T P) T where
  start := fun s => (∀ p, s.holder p = none) ∧ s.counter = 0 ∧ (∀ t, s.pc t = .outside)
    ∧ (∀ t, s.monitor t = none) ∧ s.increments = 0 ∧ s.unlocks = []
  step := step f

/-- The first state. -/
def init (T P : Type) : State T P := ⟨fun _ => none, 0, fun _ => .outside, fun _ => none, 0, []⟩

/-- One thread at a time is inside. -/
def Exclusive (s : State T P) : Prop := ∀ t u, s.pc t ≠ .outside → s.pc u ≠ .outside → t = u

/-- No increment is lost. -/
def Counts (s : State T P) : Prop := s.counter = BitVec.ofNat 32 s.increments

/-- What is unlocked is what was locked. -/
def Paired (s : State T P) : Prop := ∀ u ∈ s.unlocks, u.2 = some u.1

/-- **What the sections are to do**, in every state. -/
def Section (f : Frame T P) : Prop :=
  ∀ s, (machine f).Reach Machine.anyStep s → Exclusive s ∧ Counts s ∧ Paired s

variable {f : Frame T P} {s s' : State T P}

/-! ## What goes wrong -/

omit [DecidableEq T] [DecidableEq P] in
theorem start_init [DecidableEq T] [DecidableEq P] : (machine f).start (init T P) :=
  ⟨fun _ => rfl, rfl, fun _ => rfl, fun _ => rfl, rfl, rfl⟩

/-- **Nobody keeps anybody out**: what a thread locks is its own. -/
theorem exists_both_inside {t u : T} (htu : t ≠ u) : ∃ s, (machine f).Reach Machine.anyStep s
    ∧ s.pc t = .inside ∧ s.pc u = .inside ∧ s.counter = 1 ∧ s.increments = 2 := by
  have hp : f.local' u ≠ f.local' t := fun h => htu (f.injective h).symm
  -- both enter, both read the counter, and both write
  obtain ⟨s, hexec, hs⟩ : ∃ s, (machine f).exec Machine.anyStep (init T P) [t, u, t, u, t, u] = some s
      ∧ s.pc t = .inside ∧ s.pc u = .inside ∧ s.counter = 1 ∧ s.increments = 2 := by
    simp [Machine.exec, machine, step, init, Machine.anyStep, htu, htu.symm, hp]
  exact ⟨s, (Machine.Reach.init start_init).exec hexec, hs⟩

/-- **A section that was left** was unlocked with another pointer. -/
theorem exists_unpaired (t : T) : ∃ s, (machine f).Reach Machine.anyStep s
    ∧ s.unlocks = [(f.var, some (f.local' t))] := by
  obtain ⟨s, hexec, hs⟩ : ∃ s, (machine f).exec Machine.anyStep (init T P) [t, t, t, t] = some s
      ∧ s.unlocks = [(f.var, some (f.local' t))] := by
    simp [Machine.exec, machine, step, init, Machine.anyStep]
  exact ⟨s, (Machine.Reach.init start_init).exec hexec, hs⟩

/-! ## When it does not -/

/-- What a thread that is alone knows of the counter. -/
structure Alone (s : State T P) : Prop where
  counts : Counts s
  read : ∀ t v, s.pc t = .counting v → v = s.counter

theorem Alone.step [Subsingleton T] {t : T} (h : Alone s) (he : step f s t = some s') : Alone s' := by
  obtain ⟨hc, hr⟩ := h
  have hne : ∀ {q : Pc} {u : T} {v : BitVec 32}, (∀ v, q ≠ .counting v) →
      Function.update s.pc t q u = .counting v → False := by
    intro q u v hq hu
    rw [Subsingleton.elim u t, Function.update_self] at hu
    exact hq v hu
  cases hpc : s.pc t with
  | outside =>
    rw [MonitorSection.step, hpc] at he
    dsimp only at he
    split at he
    · obtain rfl := Option.some.inj he
      exact ⟨hc, fun u v hu => (hne (fun _ hq => by cases hq) hu).elim⟩
    · cases he
  | entered =>
    rw [MonitorSection.step, hpc] at he
    obtain rfl := Option.some.inj he
    refine ⟨hc, fun u v hu => ?_⟩
    have hu' : Function.update s.pc t (.counting s.counter) u = .counting v := hu
    rw [Subsingleton.elim u t, Function.update_self] at hu'
    exact (Pc.counting.inj hu').symm
  | counting v =>
    rw [MonitorSection.step, hpc] at he
    obtain rfl := Option.some.inj he
    refine ⟨?_, fun u w hu => (hne (fun _ hq => by cases hq) hu).elim⟩
    show v + 1 = BitVec.ofNat 32 (s.increments + 1)
    rw [hr t v hpc, show s.counter = BitVec.ofNat 32 s.increments from hc, BitVec.ofNat_add]
    rfl
  | inside =>
    rw [MonitorSection.step, hpc] at he
    obtain rfl := Option.some.inj he
    exact ⟨hc, fun u v hu => (hne (fun _ hq => by cases hq) hu).elim⟩

/-- **What the sections are to do they do for no thread only**: with two threads they do not
exclude each other and lose an increment, and with one already what is unlocked is not what
was locked. -/
theorem section_iff (f : Frame T P) :
    ((∀ s, (machine f).Reach Machine.anyStep s → Exclusive s) ↔ Subsingleton T)
      ∧ ((∀ s, (machine f).Reach Machine.anyStep s → Counts s) ↔ Subsingleton T)
      ∧ ((∀ s, (machine f).Reach Machine.anyStep s → Paired s) ↔ IsEmpty T)
      ∧ (Section f ↔ IsEmpty T) := by
  have hpaired : (∀ s, (machine f).Reach Machine.anyStep s → Paired s) → IsEmpty T := by
    refine fun h => ⟨fun t => ?_⟩
    obtain ⟨s, hs, hun⟩ := exists_unpaired (f := f) t
    have hpair := h s hs (f.var, some (f.local' t)) (by rw [hun]; exact List.mem_singleton_self _)
    exact f.apart t (Option.some.inj hpair)
  have hcounts : Subsingleton T → ∀ s, (machine f).Reach Machine.anyStep s → Counts s := by
    intro hT s hs
    refine (hs.invariant (I := Alone) ?_ fun s t s' h he _ => h.step he).counts
    rintro s ⟨-, hcounter, hpc, -, hinc, -⟩
    refine ⟨by rw [Counts, hcounter, hinc]; rfl, fun t v ht => ?_⟩
    rw [hpc] at ht
    cases ht
  have hempty : IsEmpty T → ∀ s, (machine f).Reach Machine.anyStep s → Paired s := by
    intro hT s hs
    refine hs.invariant (I := Paired) ?_ fun s t => (hT.false t).elim
    rintro s ⟨-, -, -, -, -, hun⟩ u hu
    rw [hun] at hu
    cases hu
  refine ⟨⟨fun h => ⟨fun t u => ?_⟩, fun hT s _ t u _ _ => Subsingleton.elim t u⟩,
    ⟨fun h => ⟨fun t u => ?_⟩, hcounts⟩, ⟨hpaired, hempty⟩,
    ⟨fun h => hpaired fun s hs => (h s hs).2.2, fun hT s hs =>
      ⟨fun t => (hT.false t).elim, hcounts ⟨fun t => (hT.false t).elim⟩ s hs, hempty hT s hs⟩⟩⟩
  · by_contra htu
    obtain ⟨s, hs, ht, hu, -, -⟩ := exists_both_inside (f := f) htu
    exact htu (h s hs t u (by rw [ht]; nofun) (by rw [hu]; nofun))
  · by_contra htu
    obtain ⟨s, hs, -, -, hcounter, hinc⟩ := exists_both_inside (f := f) htu
    have hc := h s hs
    rw [Counts, hcounter, hinc] at hc
    exact absurd hc (by decide)

/-- The frames of two threads, and a counter. -/
def twoFrames : Frame (Fin 2) ℕ := ⟨0, fun t => t.val + 1, fun _ _ h => Fin.ext (Nat.succ.inj h), nofun⟩

/-- **Two threads in the section**, with an increment lost. -/
theorem exists_collision : ¬ Section twoFrames ∧ ∃ s, (machine twoFrames).Reach Machine.anyStep s
    ∧ s.pc 0 = .inside ∧ s.pc 1 = .inside ∧ s.counter = 1 ∧ s.increments = 2 := by
  obtain ⟨s, hs, h0, h1, hrest⟩ := exists_both_inside (f := twoFrames) (t := 0) (u := 1) (by decide)
  exact ⟨fun h => absurd ((h s hs).1 0 1 (by rw [h0]; nofun) (by rw [h1]; nofun)) (by decide),
    s, hs, h0, h1, hrest⟩

end MonitorSection
