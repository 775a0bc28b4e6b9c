import Lwlock.RwBitlockStep

/-!
# The shared wait lists, read lock by lock

A wait list holds the clients of every lock that hashes to it, and waiters of
other modules. The queue of a lock is what the list holds of the lock's own
clients, in the order of the list. The code does not look for those: it looks for
a range of bits, in tags. The two agree as long as nobody else in the list has
the same range of bits, and then a section under the lock of the list is an
operation on the queue.
-/

namespace RwBitlock

variable {C K ι : Type} {cfg : Config K ι} [DecidableEq C] [DecidableEq K] [DecidableEq ι]

/-! ## The abstraction -/

/-- **The queue of a lock.** -/
def queueOf (cfg : Config K ι) (list : ι → List C) (pc : C → Pc C K ι) (k : K) : List C :=
  (list (cfg.list k)).filter fun c => decide ((pc c).lockOf = some k)

/-- **A state, lock by lock.** -/
def State.abs (cfg : Config K ι) (s : State C K ι) : Abs C K ι where
  w := s.w
  r := s.r
  queue := queueOf cfg s.list s.pc
  src := s.src
  tag := s.tag
  signalled := s.signalled
  granted := s.granted
  pc := s.pc

/-- **The lists are well formed**: everybody stands in a list at most once, either
on behalf of somebody else or in the list of its lock with a tag that says so. -/
structure Rep (cfg : Config K ι) (s : State C K ι) : Prop where
  nodup : ∀ i, (s.list i).Nodup
  place : ∀ i c, c ∈ s.list i → (s.pc c = .foreign i ∧ (s.tag c).rwUniq = false)
    ∨ ∃ k, (s.pc c).lockOf = some k ∧ cfg.list k = i ∧ isMatch cfg (s.tag c) k = true

omit [DecidableEq C] [DecidableEq ι] in
/-- Who is in a queue. -/
theorem mem_queueOf {list : ι → List C} {pc : C → Pc C K ι} {k : K} {c : C} :
    c ∈ queueOf cfg list pc k ↔ c ∈ list (cfg.list k) ∧ (pc c).lockOf = some k := by
  rw [queueOf, List.mem_filter, decide_eq_true_eq]

/-- Nobody of another lock has the range of bits of this one. -/
def Alone (cfg : Config K ι) (s : State C K ι) (k : K) : Prop :=
  ∀ d ∈ s.found cfg k, (s.pc d).lockOf = some k

instance (s : State C K ι) (k : K) : Decidable (Alone cfg s k) :=
  inferInstanceAs (Decidable (∀ d ∈ s.found cfg k, (s.pc d).lockOf = some k))

omit [DecidableEq C] [DecidableEq ι] in
/-- **What is found is the queue**, if nobody else has the range of bits. -/
theorem Rep.found {s : State C K ι} {k : K} (h : Rep cfg s) (halone : Alone cfg s k) :
    s.found cfg k = queueOf cfg s.list s.pc k := by
  refine List.filter_congr fun c hc => ?_
  rw [Bool.eq_iff_iff, decide_eq_true_eq]
  constructor
  · intro hm
    exact halone c (List.mem_filter.mpr ⟨hc, hm⟩)
  · intro hk
    rcases h.place _ c hc with ⟨hf, -⟩ | ⟨j, hj, -, hm⟩
    · rw [hf] at hk
      cases hk
    · obtain rfl : j = k := Option.some.inj (hj.symm.trans hk)
      exact hm

omit [DecidableEq C] [DecidableEq K] [DecidableEq ι] in
/-- A client that is at no lock is in no list. -/
theorem Rep.not_mem {s : State C K ι} {c : C} (h : Rep cfg s) (hc : (s.pc c).lockOf = none)
    (hf : ∀ i, s.pc c ≠ .foreign i) (i : ι) : c ∉ s.list i := by
  intro hi
  rcases h.place i c hi with ⟨hp, -⟩ | ⟨k, hk, -⟩
  · exact hf i hp
  · rw [hc] at hk
    cases hk

omit [DecidableEq C] [DecidableEq ι] in
/-- Nor is one that is in no queue. -/
theorem Rep.not_mem_of_queue {s : State C K ι} {c : C} {k : K} (h : Rep cfg s)
    (hk : (s.pc c).lockOf = some k) (hq : c ∉ queueOf cfg s.list s.pc k) (i : ι) :
    c ∉ s.list i := by
  intro hi
  rcases h.place i c hi with ⟨hp, -⟩ | ⟨j, hj, hi', -⟩
  · rw [hp] at hk
    cases hk
  · obtain rfl : j = k := Option.some.inj (hj.symm.trans hk)
    exact hq (mem_queueOf.mpr ⟨hi' ▸ hi, hk⟩)

omit [DecidableEq C] [DecidableEq K] [DecidableEq ι] in
/-- **Clients may leave the lists**, and those that stay keep their place. -/
theorem Rep.mono {s s' : State C K ι} (h : Rep cfg s) (hl : ∀ i, (s'.list i).Sublist (s.list i))
    (hpc : ∀ i, ∀ c ∈ s'.list i, (s'.pc c).lockOf = (s.pc c).lockOf
      ∧ ∀ j, s.pc c = .foreign j → s'.pc c = .foreign j)
    (htag : ∀ i, ∀ c ∈ s'.list i, (s'.tag c).rwUniq = (s.tag c).rwUniq
      ∧ ∀ k, isMatch cfg (s'.tag c) k = isMatch cfg (s.tag c) k) : Rep cfg s' := by
  refine ⟨fun i => (hl i).nodup (h.nodup i), fun i c hc => ?_⟩
  obtain ⟨hp, hf⟩ := hpc i c hc
  obtain ⟨hu, hm⟩ := htag i c hc
  rcases h.place i c ((hl i).subset hc) with ⟨h1, h2⟩ | ⟨k, h1, h2, h3⟩
  · exact .inl ⟨hf i h1, hu.trans h2⟩
  · exact .inr ⟨k, hp.trans h1, h2, (hm k).trans h3⟩

/-! ## Lists and queues -/

omit [DecidableEq ι] in
/-- A client that is not in the list moves. -/
theorem queueOf_update {list : ι → List C} {pc : C → Pc C K ι} {c : C} {p : Pc C K ι}
    (h : ∀ i, c ∈ list i → p.lockOf = (pc c).lockOf) :
    queueOf cfg list (Function.update pc c p) = queueOf cfg list pc := by
  funext k
  refine List.filter_congr fun d hd => ?_
  by_cases hdc : d = c
  · subst hdc
    rw [Function.update_self, h _ hd]
  · rw [Function.update_of_ne hdc]

/-- A client is appended to the list of its lock. -/
theorem queueOf_append {list : ι → List C} {pc : C → Pc C K ι} {c : C} {p : Pc C K ι} {k : K}
    (hc : ∀ i, c ∉ list i) (hp : p.lockOf = some k) :
    queueOf cfg (Function.update list (cfg.list k) (list (cfg.list k) ++ [c]))
        (Function.update pc c p)
      = Function.update (queueOf cfg list pc) k (queueOf cfg list pc k ++ [c]) := by
  have hold : ∀ j, (list (cfg.list j)).filter
      (fun d => decide ((Function.update pc c p d).lockOf = some j)) = queueOf cfg list pc j :=
    fun j => congrFun (queueOf_update (p := p) fun i hi => absurd hi (hc i)) j
  funext j
  rw [queueOf]
  by_cases hj : j = k
  · subst hj
    rw [Function.update_self, Function.update_self, List.filter_append, hold,
      List.filter_cons_of_pos (by rw [Function.update_self, hp]; exact decide_eq_true rfl),
      List.filter_nil]
  · rw [Function.update_of_ne hj]
    by_cases hl : cfg.list j = cfg.list k
    · have hnot : ¬ p.lockOf = some j := by
        rw [hp]
        exact fun hjk => hj (Option.some.inj hjk).symm
      rw [hl, Function.update_self, List.filter_append, ← hl, hold,
        List.filter_cons_of_neg (by rw [Function.update_self, decide_eq_false hnot]; nofun),
        List.filter_nil, List.append_nil]
    · rw [Function.update_of_ne hl]
      exact hold j

variable (cfg) in
/-- Clients of a lock leave its list. -/
theorem queueOf_remove (list : ι → List C) (ds : List C) {pc : C → Pc C K ι} {k : K}
    (hds : ∀ d ∈ ds, (pc d).lockOf = some k) :
    queueOf cfg (Function.update list (cfg.list k)
        ((list (cfg.list k)).filter fun c => decide (c ∉ ds))) pc
      = Function.update (queueOf cfg list pc) k
        ((queueOf cfg list pc k).filter fun c => decide (c ∉ ds)) := by
  funext j
  rw [queueOf]
  by_cases hj : j = k
  · subst hj
    rw [Function.update_self, Function.update_self, queueOf, List.filter_filter, List.filter_filter]
    refine List.filter_congr fun c _ => ?_
    rw [Bool.and_comm]
  · rw [Function.update_of_ne hj, queueOf]
    by_cases hl : cfg.list j = cfg.list k
    · rw [hl, Function.update_self, List.filter_filter]
      refine List.filter_congr fun c _ => ?_
      by_cases hc : (pc c).lockOf = some j
      · -- a client of another lock is not among those that leave
        have hnot : c ∉ ds := fun hd => hj (Option.some.inj (hc.symm.trans (hds c hd)))
        rw [decide_eq_true hnot, Bool.and_true]
      · rw [decide_eq_false hc, Bool.false_and]
    · rw [Function.update_of_ne hl]

/-! ## Whom a writer wakes up -/

omit [DecidableEq C] [DecidableEq K] [DecidableEq ι] in
/-- **`find_eligible_waiters`** takes a longest run of its kind, up to the bound. -/
theorem findEligibleWaiters_spec (s : State C K ι) (want : Bool) (max : ℕ) (m taken : List C)
    (hlen : taken.length ≤ max) : ∃ T rest, m = T ++ rest
      ∧ findEligibleWaiters s want max m taken
        = (taken ++ T, !rest.isEmpty, rest.head?.any fun d => (s.tag d).rdlock)
      ∧ (∀ d ∈ T, (s.tag d).rdlock = want) ∧ (taken ++ T).length ≤ max
      ∧ ∀ d, rest.head? = some d → (s.tag d).rdlock = want → (taken ++ T).length = max := by
  induction m generalizing taken with
  | nil =>
    refine ⟨[], [], rfl, ?_, nofun, ?_, nofun⟩
    · rw [findEligibleWaiters, List.append_nil]
      rfl
    · rwa [List.append_nil]
  | cons c m ih =>
    rw [findEligibleWaiters]
    by_cases hc : want = (s.tag c).rdlock ∧ taken.length < max
    · obtain ⟨T, rest, hm, he, hT, hmax, hrest⟩ := ih (taken ++ [c]) (by
        rw [List.length_append, List.length_singleton]
        omega)
      rw [List.append_assoc] at he hmax hrest
      refine ⟨c :: T, rest, by rw [hm]; rfl, by rw [if_pos hc]; exact he, ?_, hmax, hrest⟩
      intro d hd
      rcases List.mem_cons.mp hd with rfl | hd
      · exact hc.1.symm
      · exact hT d hd
    · refine ⟨[], c :: m, rfl, ?_, nofun, by rwa [List.append_nil], ?_⟩
      · rw [if_neg hc, List.append_nil]
        rfl
      · intro d hd hw
        obtain rfl : c = d := Option.some.inj hd
        rw [List.append_nil]
        by_contra hne
        exact hc ⟨hw.symm, by omega⟩

omit [DecidableEq C] [DecidableEq K] [DecidableEq ι] in
/-- **`wake_eligible_readers`** wakes up the readers before the first writer. -/
theorem wakeEligibleReaders_spec (s : State C K ι) (m : List C) : ∃ O rest, m = O ++ rest
    ∧ wakeEligibleReaders s m = (O, !rest.isEmpty) ∧ (∀ d ∈ O, (s.tag d).rdlock = true)
    ∧ ∀ d, rest.head? = some d → (s.tag d).rdlock = false := by
  induction m with
  | nil => exact ⟨[], [], rfl, rfl, nofun, nofun⟩
  | cons c m ih =>
    rw [wakeEligibleReaders]
    by_cases hc : (s.tag c).rdlock = true
    · obtain ⟨O, rest, hm, he, hO, hrest⟩ := ih
      refine ⟨c :: O, rest, by rw [hm]; rfl, by rw [if_pos hc, he], ?_, hrest⟩
      intro d hd
      rcases List.mem_cons.mp hd with rfl | hd
      · exact hc
      · exact hO d hd
    · refine ⟨[], c :: m, rfl, by rw [if_neg hc]; rfl, nofun, ?_⟩
      intro d hd
      obtain rfl : c = d := Option.some.inj hd
      exact Bool.eq_false_iff.mpr hc

/-- What `writeunlock` leaves when it takes some waiters out of the list and wakes
others up where they stand. -/
def State.handOver (cfg : Config K ι) (s : State C K ι) (c : C) (k : K) (taken surplus : List C)
    (w : Bool) (r : ℕ) : State C K ι :=
  ({ s.remove (cfg.list k) taken with
    tag := fun d => if d ∈ surplus then { s.tag d with haveLock := true } else s.tag d
    signalled := fun d => if d ∈ surplus then true else s.signalled d
    granted := fun d => if d ∈ taken ∨ d ∈ surplus then true else s.granted d }.setBits k w r).goto c
    (.granting k taken)

/-- **The section of `writeunlock`**, if the first waiter is a writer. -/
theorem writeUnlockSection_writer {s : State C K ι} {c f : C} {k : K} {m : List C}
    (hm : s.found cfg k = f :: m) (hf : (s.tag f).rdlock = false) :
    writeUnlockSection cfg s c k
      = s.handOver cfg c k [f] [] true (if m = [] then 0 else 1) := by
  have he : findEligibleWaiters s (s.tag f).rdlock 1 (f :: m) []
      = ([f], !m.isEmpty, m.head?.any fun d => (s.tag d).rdlock) := by
    rw [findEligibleWaiters, if_pos ⟨rfl, Nat.one_pos⟩]
    cases m with
    | nil => rfl
    | cons d m =>
      rw [findEligibleWaiters, if_neg (fun hd => absurd hd.2 (lt_irrefl 1))]
      rfl
  have hmore : (if (!m.isEmpty) = true then 1 else 0) = if m = [] then 0 else 1 := by
    cases m <;> rfl
  rw [writeUnlockSection, hm]
  dsimp only
  rw [if_neg (show ¬ (s.tag f).rdlock = true by rw [hf]; nofun), he]
  simp only [hf, Bool.false_eq_true, false_and, and_false, if_false, hmore]
  rfl

/-- **The section of `writeunlock`**, if the first waiter is a reader. -/
theorem writeUnlockSection_readers {s : State C K ι} {c f : C} {k : K} {m : List C}
    (hm : s.found cfg k = f :: m) (hf : (s.tag f).rdlock = true) (hmax : 1 ≤ cfg.maxReaders k) :
    ∃ R O rest, f :: m = R ++ (O ++ rest) ∧ (∀ d ∈ R ++ O, (s.tag d).rdlock = true) ∧ R ≠ []
      ∧ R.length ≤ cfg.maxReaders k ∧ (O ≠ [] → R.length = cfg.maxReaders k)
      ∧ (∀ d, rest.head? = some d → (s.tag d).rdlock = false)
      ∧ writeUnlockSection cfg s c k = s.handOver cfg c k R O (!rest.isEmpty) R.length := by
  obtain ⟨R, rest, hR, he, hrd, hlen, hnext⟩ :=
    findEligibleWaiters_spec s true (cfg.maxReaders k) (f :: m) [] (Nat.zero_le _)
  rw [List.nil_append] at he hlen hnext
  have hne : R ≠ [] := by
    rintro rfl
    have hz := hnext f (by rw [← List.nil_append rest, ← hR]; rfl) hf
    rw [List.length_nil] at hz
    omega
  have hsec : writeUnlockSection cfg s c k
      = if (!rest.isEmpty) = true ∧ R.length = cfg.maxReaders k
          ∧ (rest.head?.any fun d => (s.tag d).rdlock) = true then
        s.handOver cfg c k R (wakeEligibleReaders s rest).1 (wakeEligibleReaders s rest).2 R.length
      else s.handOver cfg c k R [] (!rest.isEmpty) R.length := by
    rw [writeUnlockSection, hm]
    dsimp only
    rw [hf, if_pos rfl, he]
    dsimp only
    rw [if_pos rfl, if_pos rfl, hR, List.drop_left]
    simp only [true_and]
    split <;> rfl
  rw [hsec]
  by_cases ho : (!rest.isEmpty) = true ∧ R.length = cfg.maxReaders k
      ∧ (rest.head?.any fun d => (s.tag d).rdlock) = true
  · -- the count is saturated and readers remain
    obtain ⟨O, rest', hO, hw, hOrd, hrest⟩ := wakeEligibleReaders_spec s rest
    refine ⟨R, O, rest', by rw [hR, hO], ?_, hne, hlen, fun _ => ho.2.1, hrest, ?_⟩
    · intro d hd
      rcases List.mem_append.mp hd with hd | hd
      · exact hrd d hd
      · exact hOrd d hd
    · rw [if_pos ho, hw]
  · refine ⟨R, [], rest, hR, by rwa [List.append_nil], hne, hlen, absurd rfl, ?_, if_neg ho⟩
    intro d hd
    by_contra hdr
    have hdr := Bool.not_eq_false _ ▸ hdr
    refine ho ⟨?_, hnext d hd hdr, ?_⟩
    · cases rest with
      | nil => cases hd
      | cons => rfl
    · rw [hd]
      exact hdr

end RwBitlock
