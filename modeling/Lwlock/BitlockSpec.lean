import Lwlock.Bitlock

/-!
# What a bitlock is

Seen from one lock, a word is three bits and a shared wait list is a queue of
the threads that wait for this lock or for its condition. `Abs` is that reading
of a state, with nothing left of masks, tags and lists. The invariant is about
it, and so is the effect of every step on it; that the words and the lists
behave like this is proved elsewhere.

The bits lag behind the queue at two places only, both in the hands of the
thread that has the lock: between the section of a signal and its last swap a
queued thread may wait without the wait bit, and `cv_wait` sets the condition
bit before it queues.
-/

namespace Bitlock

open Monitor (Kind forLock signalFirst)

variable {T K : Type}

/-- Somebody waits for the lock. -/
def hasLock (q : List (T × Kind)) : Bool := q.any forLock

/-- Somebody waits for the condition. -/
def hasCv (q : List (T × Kind)) : Bool := q.any fun e => !forLock e

/-- **The bitlocks, each for itself.** -/
structure Abs (T K : Type) where
  lock : K → Bool
  wait : K → Bool
  cv : K → Bool
  queue : K → List (T × Kind)
  signalled : T → Bool
  pc : T → Pc T K
  want : T → Option K
  granted : T → Bool
  holds : T → K → Bool

/-! ## Queues -/

@[simp] theorem hasLock_append (q r : List (T × Kind)) :
    hasLock (q ++ r) = (hasLock q || hasLock r) := List.any_append

@[simp] theorem hasCv_append (q r : List (T × Kind)) :
    hasCv (q ++ r) = (hasCv q || hasCv r) := List.any_append

@[simp] theorem hasLock_cons (u : T) (kind : Kind) (q : List (T × Kind)) :
    hasLock ((u, kind) :: q) = (decide (kind = .lock) || hasLock q) := rfl

@[simp] theorem hasCv_cons (u : T) (kind : Kind) (q : List (T × Kind)) :
    hasCv ((u, kind) :: q) = (decide (kind = .cv) || hasCv q) := by
  cases kind <;> rfl

@[simp] theorem hasLock_nil : hasLock ([] : List (T × Kind)) = false := rfl

@[simp] theorem hasCv_nil : hasCv ([] : List (T × Kind)) = false := rfl

/-- A queue in which somebody waits for the lock, at the first who does. -/
theorem exists_first_lock {q : List (T × Kind)} (h : hasLock q = true) :
    ∃ A u B, q = A ++ (u, .lock) :: B ∧ hasLock A = false := by
  induction q with
  | nil => cases h
  | cons e q ih =>
    obtain ⟨v, kind⟩ := e
    cases kind with
    | lock => exact ⟨[], v, q, rfl, rfl⟩
    | cv =>
      obtain ⟨A, u, B, rfl, hA⟩ := ih h
      exact ⟨(v, .cv) :: A, u, B, rfl, hA⟩

/-- A queue in which somebody waits for the condition, at the first who does. -/
theorem exists_first_cv {q : List (T × Kind)} (h : hasCv q = true) :
    ∃ A u B, q = A ++ (u, .cv) :: B ∧ hasCv A = false := by
  induction q with
  | nil => cases h
  | cons e q ih =>
    obtain ⟨v, kind⟩ := e
    cases kind with
    | cv => exact ⟨[], v, q, rfl, rfl⟩
    | lock =>
      obtain ⟨A, u, B, rfl, hA⟩ := ih h
      exact ⟨(v, .lock) :: A, u, B, rfl, hA⟩

/-! ## The invariant -/

/-- The lock a thread is working on, with the lock in its hands. -/
def Pc.working : Pc T K → Option K
  | .unlockSection k | .cvSection k _ | .signalSection k | .broadcastSection k | .clearCv k
  | .setWait k => some k
  | _ => none

/-- The lock whose wait bit the thread is about to set. -/
def Pc.between : Pc T K → Option K
  | .clearCv k | .setWait k => some k
  | _ => none

/-- The lock whose condition bit the thread has set, or is about to clear. -/
def Pc.settling : Pc T K → Option K
  | .cvSection k _ | .clearCv k => some k
  | _ => none

/-- The lock whose condition bit the thread has set in order to wait. -/
def Pc.setting : Pc T K → Option K
  | .cvSection k _ => some k
  | _ => none

/-- The lock in whose queue the thread is about to signal. -/
def Pc.signalling : Pc T K → Option K
  | .signalSection k | .broadcastSection k => some k
  | _ => none

/-- The thread it is about to wake up. -/
def Pc.waking : Pc T K → Option T
  | .wake u _ => some u
  | _ => none

/-- **The invariant**, with the owner of each lock. -/
structure Inv (a : Abs T K) (owner : K → Option T) : Prop where
  holder : ∀ t k, owner k = some t ↔
    (a.holds t k = true ∨ (a.granted t = true ∧ a.want t = some k))
  apart : ∀ t k, a.holds t k = true → a.granted t = true → a.want t ≠ some k
  lock : ∀ k, a.lock k = true ↔ owner k ≠ none
  granted : ∀ t, a.granted t = true → a.want t ≠ none
  queued : ∀ t k, a.want t = some k → a.granted t = false → t ∈ (a.queue k).map Prod.fst
  queue : ∀ k u kind, (u, kind) ∈ a.queue k → a.want u = some k ∧ a.granted u = false
  nodup : ∀ k, ((a.queue k).map Prod.fst).Nodup
  working : ∀ t k, (a.pc t).working = some k → a.holds t k = true
  wait : ∀ k, a.wait k = true → hasLock (a.queue k) = true
  line : ∀ k, hasLock (a.queue k) = true → owner k ≠ none
    ∧ (a.wait k = false → ∀ t, owner k = some t → (a.pc t).between = some k)
  cv : ∀ k, hasCv (a.queue k) = true → a.cv k = true
  cvLine : ∀ k, a.cv k = true → hasCv (a.queue k) = false → owner k ≠ none
    ∧ ∀ t, owner k = some t → (a.pc t).settling = some k
  unlock : ∀ t k, a.pc t = .unlockSection k → a.wait k = true
  signal : ∀ t k, (a.pc t).signalling = some k → hasCv (a.queue k) = true
  clear : ∀ t k, a.pc t = .clearCv k → hasCv (a.queue k) = false
  between : ∀ t k, (a.pc t).between = some k → hasLock (a.queue k) = true
  signalled : ∀ t, a.signalled t = true → a.granted t = true
  wake : ∀ t u, (a.pc t).waking = some u → a.granted u = true ∧ a.signalled u = false
  waker : ∀ t t' u, (a.pc t).waking = some u → (a.pc t').waking = some u → t = t'
  alive : ∀ t, a.pc t ≠ .crashed
  setting : ∀ t k, (a.pc t).setting = some k → a.cv k = true ∧ a.want t = none

variable [DecidableEq T] [DecidableEq K]

/-- A program point at which a thread works on nothing. -/
def Pc.Plain (c : Pc T K) : Prop :=
  c.working = none ∧ c.between = none ∧ c.settling = none ∧ c.signalling = none
    ∧ c.waking = none ∧ c ≠ .crashed ∧ c.setting = none

/-- The `pc` of a thread. -/
def Abs.goto (a : Abs T K) (t : T) (c : Pc T K) : Abs T K :=
  { a with pc := Function.update a.pc t c }

/-- The `holds` of a thread. -/
def Abs.setHolds (a : Abs T K) (t : T) (k : K) (b : Bool) : Abs T K :=
  { a with holds := fun u j => if u = t ∧ j = k then b else a.holds u j }

omit [DecidableEq T] [DecidableEq K] in
/-- Two program points that are not plain. -/
theorem Pc.Plain.ne {c : Pc T K} (h : c.Plain) (k : K) :
    c ≠ .unlockSection k ∧ c ≠ .clearCv k := by
  constructor
  · rintro rfl
    cases h.1
  · rintro rfl
    cases h.1

/-- **A free lock is taken.** -/
theorem Inv.acquire {a : Abs T K} {owner : K → Option T} {t : T} {k : K} {c : Pc T K}
    (h : Inv a owner) (hpc : (a.pc t).Plain) (hc : c.Plain) (hl : a.lock k = false) :
    Inv ({ a with lock := Function.update a.lock k true }.setHolds t k true |>.goto t c)
      (Function.update owner k (some t)) := by
  have hne := hpc.ne
  have hce := hc.ne
  obtain ⟨p1, p2, p3, p4, p5, p6, p7⟩ := hpc
  obtain ⟨c1, c2, c3, c4, c5, c6, c7⟩ := hc
  obtain ⟨h1, h2, h3, h4, h5, h6, h7, h8, h9, h10, h11, h12, h13, h14, h15, h16, h17, h18, h19,
    h20, h21⟩ := h
  have hok : owner k = none := by grind -linarith
  simp only [Abs.setHolds, Abs.goto]
  constructor
  all_goals first
    | assumption
    | grind -linarith [Function.update_apply]

omit [DecidableEq K] in
/-- **A thread moves on**, to a program point at which it works on nothing. -/
theorem Inv.plain {a : Abs T K} {owner : K → Option T} {t : T} {c : Pc T K}
    (h : Inv a owner) (hpc : (a.pc t).Plain) (hc : c.Plain) : Inv (a.goto t c) owner := by
  have hne := hpc.ne
  have hce := hc.ne
  obtain ⟨p1, p2, p3, p4, p5, p6, p7⟩ := hpc
  obtain ⟨c1, c2, c3, c4, c5, c6, c7⟩ := hc
  obtain ⟨h1, h2, h3, h4, h5, h6, h7, h8, h9, h10, h11, h12, h13, h14, h15, h16, h17, h18, h19,
    h20, h21⟩ := h
  simp only [Abs.goto]
  constructor
  all_goals first
    | assumption
    | grind -linarith [Function.update_apply]

omit [DecidableEq K] in
/-- **A thread that has the lock and finds the wait bit set** goes on to its
section. -/
theorem Inv.enterUnlock {a : Abs T K} {owner : K → Option T} {t : T} {k : K} (h : Inv a owner)
    (hpc : (a.pc t).Plain) (hh : a.holds t k = true) (hw : a.wait k = true) :
    Inv (a.goto t (.unlockSection k)) owner := by
  have hne := hpc.ne
  obtain ⟨p1, p2, p3, p4, p5, p6, p7⟩ := hpc
  obtain ⟨h1, h2, h3, h4, h5, h6, h7, h8, h9, h10, h11, h12, h13, h14, h15, h16, h17, h18, h19,
    h20, h21⟩ := h
  simp only [Abs.goto]
  constructor
  all_goals first
    | assumption
    | grind -linarith [Function.update_apply, Pc.working, Pc.between, Pc.settling, Pc.signalling, Pc.waking,
        Pc.setting]

omit [DecidableEq K] in
/-- **A thread that has the lock and finds the condition bit set** goes on to its
section: somebody waits for the condition. -/
theorem Inv.enterSignal {a : Abs T K} {owner : K → Option T} {t : T} {k : K} {c : Pc T K}
    (h : Inv a owner) (hpc : (a.pc t).Plain) (hh : a.holds t k = true) (hcv : a.cv k = true)
    (hc : c = .signalSection k ∨ c = .broadcastSection k) : Inv (a.goto t c) owner := by
  have hne := hpc.ne
  obtain ⟨p1, p2, p3, p4, p5, p6, p7⟩ := hpc
  have hview : c.working = some k ∧ c.between = none ∧ c.settling = none
      ∧ c.signalling = some k ∧ c.waking = none ∧ c ≠ .crashed ∧ (∀ j, c ≠ .unlockSection j)
      ∧ (∀ j, c ≠ .clearCv j) ∧ c.setting = none := by
    rcases hc with rfl | rfl <;> exact ⟨rfl, rfl, rfl, rfl, rfl, nofun, nofun, nofun, rfl⟩
  obtain ⟨h1, h2, h3, h4, h5, h6, h7, h8, h9, h10, h11, h12, h13, h14, h15, h16, h17, h18, h19,
    h20, h21⟩ := h
  have hsome : hasCv (a.queue k) = true := by
    have hown := (h1 t k).mpr (Or.inl hh)
    cases hq : hasCv (a.queue k) with
    | true => rfl
    | false =>
      have := (h12 k hcv hq).2 t hown
      rw [p3] at this
      cases this
  simp only [Abs.goto]
  constructor
  all_goals first
    | assumption
    | grind -linarith [Function.update_apply]

omit [DecidableEq T] [DecidableEq K] in
/-- A thread without a pending wait is in no queue. -/
theorem Inv.not_mem {a : Abs T K} {owner : K → Option T} {t : T} (h : Inv a owner)
    (hw : a.want t = none) (k : K) : t ∉ (a.queue k).map Prod.fst := by
  intro ht
  obtain ⟨⟨u, kind⟩, hu, rfl⟩ := List.mem_map.mp ht
  have := (h.queue k u kind hu).1
  rw [hw] at this
  cases this

omit [DecidableEq T] [DecidableEq K] in
/-- Only the thread that has a lock works on it. -/
theorem Inv.alone {a : Abs T K} {owner : K → Option T} {t v : T} {k : K} (h : Inv a owner)
    (hh : a.holds t k = true) (hv : v ≠ t) : (a.pc v).between ≠ some k
      ∧ (a.pc v).settling ≠ some k ∧ (a.pc v).signalling ≠ some k
      ∧ a.pc v ≠ .unlockSection k ∧ a.pc v ≠ .clearCv k ∧ (a.pc v).setting ≠ some k := by
  have hw : (a.pc v).working ≠ some k := by
    intro hw
    have h1 := (h.holder v k).mpr (Or.inl (h.working v k hw))
    have h2 := (h.holder t k).mpr (Or.inl hh)
    exact hv (Option.some.inj (h1.symm.trans h2))
  revert hw
  cases a.pc v <;> simp [Pc.working, Pc.between, Pc.settling, Pc.signalling, Pc.setting]

/-- **A thread queues for a lock** that is taken. -/
theorem Inv.enqueue {a : Abs T K} {owner : K → Option T} {t : T} {k : K} {c : Pc T K}
    (h : Inv a owner) (hpc : (a.pc t).Plain) (hc : c.Plain) (hl : a.lock k = true)
    (hw : a.want t = none) :
    Inv ({ a with
        wait := Function.update a.wait k true
        queue := Function.update a.queue k (a.queue k ++ [(t, Kind.lock)])
        want := Function.update a.want t (some k) }.goto t c) owner := by
  have hne := hpc.ne
  have hce := hc.ne
  obtain ⟨p1, p2, p3, p4, p5, p6, p7⟩ := hpc
  obtain ⟨c1, c2, c3, c4, c5, c6, c7⟩ := hc
  have hfst := h.not_mem hw
  obtain ⟨h1, h2, h3, h4, h5, h6, h7, h8, h9, h10, h11, h12, h13, h14, h15, h16, h17, h18, h19,
    h20, h21⟩ := h
  simp only [Abs.goto]
  constructor
  all_goals first
    | assumption
    | grind -linarith [Function.update_apply, hasLock_append, hasCv_append, hasLock_cons, hasCv_cons,
        hasLock_nil, hasCv_nil]

/-- **A lock is given up** with nobody in line for it. -/
theorem Inv.drop {a : Abs T K} {owner : K → Option T} {t : T} {k : K} (h : Inv a owner)
    (hpc : (a.pc t).Plain) (hh : a.holds t k = true) (hw : a.wait k = false) :
    Inv ({ a with lock := Function.update a.lock k false }.setHolds t k false)
      (Function.update owner k none) := by
  have hne := hpc.ne
  obtain ⟨p1, p2, p3, p4, p5, p6, p7⟩ := hpc
  obtain ⟨h1, h2, h3, h4, h5, h6, h7, h8, h9, h10, h11, h12, h13, h14, h15, h16, h17, h18, h19,
    h20, h21⟩ := h
  have hown := (h1 t k).mpr (Or.inl hh)
  simp only [Abs.setHolds]
  constructor
  all_goals first
    | assumption
    | grind -linarith [Function.update_apply]

/-- **`cv_wait` sets the condition bit.** -/
theorem Inv.enterCv {a : Abs T K} {owner : K → Option T} {t : T} {k : K} (sync : Bool)
    (h : Inv a owner) (hpc : (a.pc t).Plain) (hh : a.holds t k = true) (hw : a.want t = none) :
    Inv ({ a with cv := Function.update a.cv k true }.goto t (.cvSection k sync)) owner := by
  have hne := hpc.ne
  obtain ⟨p1, p2, p3, p4, p5, p6, p7⟩ := hpc
  obtain ⟨h1, h2, h3, h4, h5, h6, h7, h8, h9, h10, h11, h12, h13, h14, h15, h16, h17, h18, h19,
    h20, h21⟩ := h
  have hown := (h1 t k).mpr (Or.inl hh)
  simp only [Abs.goto]
  constructor
  all_goals first
    | assumption
    | grind -linarith [Function.update_apply, Pc.working, Pc.between, Pc.settling, Pc.signalling, Pc.waking,
        Pc.setting]

/-- **`cv_wait` gives the lock up** with nobody in line for it, and queues for the
condition. -/
theorem Inv.cvDrop {a : Abs T K} {owner : K → Option T} {t : T} {k : K} {sync : Bool} {c : Pc T K}
    (h : Inv a owner) (hpc : a.pc t = .cvSection k sync) (hc : c.Plain) (hw : a.wait k = false) :
    Inv (({ a with
        lock := Function.update a.lock k false
        queue := Function.update a.queue k (a.queue k ++ [(t, Kind.cv)])
        want := Function.update a.want t (some k) }.setHolds t k false).goto t c)
      (Function.update owner k none) := by
  have hce := hc.ne
  obtain ⟨hcv, hwt⟩ := h.setting t k (by rw [hpc]; rfl)
  have hfst := h.not_mem hwt
  obtain ⟨c1, c2, c3, c4, c5, c6, c7⟩ := hc
  obtain ⟨h1, h2, h3, h4, h5, h6, h7, h8, h9, h10, h11, h12, h13, h14, h15, h16, h17, h18, h19,
    h20, h21⟩ := h
  have hh := h8 t k (by rw [hpc]; rfl)
  have hown := (h1 t k).mpr (Or.inl hh)
  simp only [Abs.goto, Abs.setHolds]
  constructor
  all_goals first
    | assumption
    | grind -linarith [Function.update_apply, hasLock_append, hasCv_append, hasLock_cons, hasCv_cons,
        hasLock_nil, hasCv_nil, Pc.working, Pc.between, Pc.settling, Pc.signalling, Pc.waking,
        Pc.setting]

/-- **`unlock` hands the lock over** to the first in line. -/
theorem Inv.handOver {a : Abs T K} {owner : K → Option T} {t u : T} {k : K}
    {A B : List (T × Kind)} (h : Inv a owner) (hpc : a.pc t = .unlockSection k)
    (hq : a.queue k = A ++ (u, .lock) :: B) :
    Inv (({ a with
        wait := Function.update a.wait k (hasLock (A ++ B))
        queue := Function.update a.queue k (A ++ B)
        granted := Function.update a.granted u true }.setHolds t k false).goto t (.wake u false))
      (Function.update owner k (some u)) := by
  have hu := h.queue k u .lock (by rw [hq]; simp)
  have hnd := h.nodup k
  have halone : ∀ v, v ≠ t → _ := fun v => h.alone (h.working t k (by rw [hpc]; rfl)) (v := v)
  obtain ⟨h1, h2, h3, h4, h5, h6, h7, h8, h9, h10, h11, h12, h13, h14, h15, h16, h17, h18, h19,
    h20, h21⟩ := h
  have hh := h8 t k (by rw [hpc]; rfl)
  have hown := (h1 t k).mpr (Or.inl hh)
  have hcv : hasCv (a.queue k) = hasCv (A ++ B) := by
    rw [hq, hasCv_append, hasCv_append, hasCv_cons]
    rfl
  have hmem : ∀ v kind, (v, kind) ∈ A ++ B → (v, kind) ∈ a.queue k ∧ v ≠ u := by
    rw [hq] at hnd ⊢
    grind -linarith
  have hmem' : ∀ v, v ∈ (a.queue k).map Prod.fst → v ≠ u → v ∈ (A ++ B).map Prod.fst := by
    rw [hq]
    grind -linarith
  have hnd' : ((A ++ B).map Prod.fst).Nodup := by
    refine List.Nodup.sublist ?_ hnd
    rw [hq]
    exact List.Sublist.map _ (List.Sublist.append_left (List.sublist_cons_self _ _) _)
  generalize A ++ B = q at *
  clear hq hnd
  simp only [Abs.goto, Abs.setHolds]
  constructor
  all_goals first
    | assumption
    | grind -linarith [Function.update_apply, Pc.working, Pc.between, Pc.settling, Pc.signalling, Pc.waking,
        Pc.setting]

/-- **`cv_wait` hands the lock over** to the first in line, and queues for the
condition. -/
theorem Inv.cvHandOver {a : Abs T K} {owner : K → Option T} {t u : T} {k : K} {sync : Bool}
    {A B : List (T × Kind)} (h : Inv a owner) (hpc : a.pc t = .cvSection k sync)
    (hq : a.queue k = A ++ (u, .lock) :: B) :
    Inv (({ a with
        wait := Function.update a.wait k (hasLock (A ++ B))
        queue := Function.update a.queue k (A ++ B ++ [(t, Kind.cv)])
        want := Function.update a.want t (some k)
        granted := Function.update a.granted u true }.setHolds t k false).goto t (.wake u sync))
      (Function.update owner k (some u)) := by
  have hu := h.queue k u .lock (by rw [hq]; simp)
  have hnd := h.nodup k
  obtain ⟨hcv, hwt⟩ := h.setting t k (by rw [hpc]; rfl)
  have hfst := h.not_mem hwt
  have halone : ∀ v, v ≠ t → _ := fun v => h.alone (h.working t k (by rw [hpc]; rfl)) (v := v)
  obtain ⟨h1, h2, h3, h4, h5, h6, h7, h8, h9, h10, h11, h12, h13, h14, h15, h16, h17, h18, h19,
    h20, h21⟩ := h
  have hh := h8 t k (by rw [hpc]; rfl)
  have hown := (h1 t k).mpr (Or.inl hh)
  have hut : u ≠ t := by
    rintro rfl
    rw [hwt] at hu
    cases hu.1
  have hmem : ∀ v kind, (v, kind) ∈ A ++ B → (v, kind) ∈ a.queue k ∧ v ≠ u := by
    rw [hq] at hnd ⊢
    grind -linarith
  have hmem' : ∀ v, v ∈ (a.queue k).map Prod.fst → v ≠ u → v ∈ (A ++ B).map Prod.fst := by
    rw [hq]
    grind -linarith
  have hnd' : ((A ++ B).map Prod.fst).Nodup := by
    refine List.Nodup.sublist ?_ hnd
    rw [hq]
    exact List.Sublist.map _ (List.Sublist.append_left (List.sublist_cons_self _ _) _)
  have hnt : t ∉ (A ++ B).map Prod.fst := by
    have := hfst k
    rw [hq] at this
    grind -linarith
  have hlast : hasLock (A ++ B ++ [(t, .cv)]) = hasLock (A ++ B) := by
    rw [hasLock_append, hasLock_cons, hasLock_nil, Bool.or_false]
    exact Bool.or_false _
  have hcvs : hasCv (A ++ B ++ [(t, .cv)]) = true := by
    rw [hasCv_append, hasCv_cons, decide_eq_true rfl, Bool.true_or, Bool.or_true]
  generalize A ++ B = q at *
  clear hq hnd
  simp only [Abs.goto, Abs.setHolds]
  constructor
  all_goals first
    | assumption
    | grind -linarith [Function.update_apply, Pc.working, Pc.between, Pc.settling, Pc.signalling, Pc.waking,
        Pc.setting]

/-- **A signal or a broadcast changes the queue**: everybody stays in place, and
somebody who waited for the condition waits for the lock. -/
theorem Inv.signals {a : Abs T K} {owner : K → Option T} {t : T} {k : K} {q : List (T × Kind)}
    (h : Inv a owner) (hpc : (a.pc t).signalling = some k)
    (hfst : q.map Prod.fst = (a.queue k).map Prod.fst) (hl : hasLock q = true) :
    Inv ({ a with queue := Function.update a.queue k q }.goto t
      (if hasCv q then .setWait k else .clearCv k)) owner := by
  have hwk : (a.pc t).working = some k := by
    cases hc : a.pc t <;> rw [hc] at hpc <;> first | exact hpc | cases hpc
  have halone : ∀ v, v ≠ t → _ := fun v => h.alone (h.working t k hwk) (v := v)
  have hview : (a.pc t).waking = none ∧ (a.pc t).settling = none ∧ (a.pc t).between = none := by
    cases hc : a.pc t <;> rw [hc] at hpc <;> first | exact ⟨rfl, rfl, rfl⟩ | cases hpc
  obtain ⟨h1, h2, h3, h4, h5, h6, h7, h8, h9, h10, h11, h12, h13, h14, h15, h16, h17, h18, h19,
    h20, h21⟩ := h
  have hh := h8 t k hwk
  have hown := (h1 t k).mpr (Or.inl hh)
  have hold := h14 t k hpc
  have hmem : ∀ v kind, (v, kind) ∈ q → a.want v = some k ∧ a.granted v = false := by
    intro v kind hv
    have : v ∈ (a.queue k).map Prod.fst := hfst ▸ List.mem_map.mpr ⟨(v, kind), hv, rfl⟩
    obtain ⟨⟨w, kind'⟩, hw, rfl⟩ := List.mem_map.mp this
    exact h6 k w kind' hw
  have hnd : (q.map Prod.fst).Nodup := hfst ▸ h7 k
  have hin : ∀ v, v ∈ (a.queue k).map Prod.fst → v ∈ q.map Prod.fst := by
    rw [hfst]
    exact fun v hv => hv
  clear hfst
  simp only [Abs.goto]
  constructor
  all_goals first
    | assumption
    | grind -linarith [Function.update_apply, Pc.working, Pc.between, Pc.settling, Pc.signalling, Pc.waking,
        Pc.setting]

/-- **The condition bit is cleared** after a signal that left nobody. -/
theorem Inv.clearsCv {a : Abs T K} {owner : K → Option T} {t : T} {k : K} (h : Inv a owner)
    (hpc : a.pc t = .clearCv k) :
    Inv ({ a with cv := Function.update a.cv k false }.goto t (.setWait k)) owner := by
  have halone : ∀ v, v ≠ t → _ := fun v => h.alone (h.working t k (by rw [hpc]; rfl)) (v := v)
  obtain ⟨h1, h2, h3, h4, h5, h6, h7, h8, h9, h10, h11, h12, h13, h14, h15, h16, h17, h18, h19,
    h20, h21⟩ := h
  have hh := h8 t k (by rw [hpc]; rfl)
  have hown := (h1 t k).mpr (Or.inl hh)
  simp only [Abs.goto]
  constructor
  all_goals first
    | assumption
    | grind -linarith [Function.update_apply, Pc.working, Pc.between, Pc.settling, Pc.signalling, Pc.waking,
        Pc.setting]

/-- **The wait bit is set** after a signal. -/
theorem Inv.setsWait {a : Abs T K} {owner : K → Option T} {t : T} {k : K} (h : Inv a owner)
    (hpc : a.pc t = .setWait k) :
    Inv ({ a with wait := Function.update a.wait k true }.goto t .idle) owner := by
  have halone : ∀ v, v ≠ t → _ := fun v => h.alone (h.working t k (by rw [hpc]; rfl)) (v := v)
  obtain ⟨h1, h2, h3, h4, h5, h6, h7, h8, h9, h10, h11, h12, h13, h14, h15, h16, h17, h18, h19,
    h20, h21⟩ := h
  have hh := h8 t k (by rw [hpc]; rfl)
  have hown := (h1 t k).mpr (Or.inl hh)
  simp only [Abs.goto]
  constructor
  all_goals first
    | assumption
    | grind -linarith [Function.update_apply, Pc.working, Pc.between, Pc.settling, Pc.signalling, Pc.waking,
        Pc.setting]

omit [DecidableEq K] in
/-- **A thread that was handed a lock is woken up.** -/
theorem Inv.wakes {a : Abs T K} {owner : K → Option T} {t u : T} {c : Pc T K} (h : Inv a owner)
    (hpc : (a.pc t).waking = some u) (hc : c.Plain) :
    Inv ({ a with signalled := Function.update a.signalled u true }.goto t c) owner := by
  have hce := hc.ne
  obtain ⟨c1, c2, c3, c4, c5, c6, c7⟩ := hc
  have hview : (a.pc t).working = none ∧ (a.pc t).between = none ∧ (a.pc t).settling = none := by
    cases hc : a.pc t <;> rw [hc] at hpc <;> first | exact ⟨rfl, rfl, rfl⟩ | cases hpc
  obtain ⟨h1, h2, h3, h4, h5, h6, h7, h8, h9, h10, h11, h12, h13, h14, h15, h16, h17, h18, h19,
    h20, h21⟩ := h
  simp only [Abs.goto]
  constructor
  all_goals first
    | assumption
    | grind -linarith [Function.update_apply]

/-- **A thread returns with the lock it was handed.** -/
theorem Inv.returns {a : Abs T K} {owner : K → Option T} {t : T} {k : K} (h : Inv a owner)
    (hpc : a.pc t = .waiting) (hs : a.signalled t = true) (hw : a.want t = some k) :
    Inv ({ a with
        signalled := Function.update a.signalled t false
        want := Function.update a.want t none
        granted := Function.update a.granted t false }.setHolds t k true |>.goto t .idle) owner := by
  obtain ⟨h1, h2, h3, h4, h5, h6, h7, h8, h9, h10, h11, h12, h13, h14, h15, h16, h17, h18, h19,
    h20, h21⟩ := h
  have hg := h17 t hs
  simp only [Abs.goto, Abs.setHolds]
  constructor
  all_goals first
    | assumption
    | grind -linarith [Function.update_apply, Pc.working, Pc.between, Pc.settling, Pc.signalling, Pc.waking,
        Pc.setting]

end Bitlock
