import Lwlock.RwBitlockSimUnlock

/-!
# Which assertions of a reader-writer bitlock fail

In a debug build an assertion of the operations fails in two cases only. A range of all 32
bits is refused by every call. And `set_wrlock`, when it marks a lock that a writer has and
nobody waits for, compares the whole word with the bits of the lock: beside a payload the
second writer aborts the process.

In every other step the debug build does what the release build does, and that reads the
fields of the word alone. So two runs with one schedule go the same way, whatever their
payloads are, as long as neither comes to such a step.
-/

namespace RwBitlock.Debug

variable {C K ι : Type} [DecidableEq C] [DecidableEq K] [DecidableEq ι]

/-! ## What is asked of a run -/

/-- **The lock whose waiters a step searches for.** -/
def searches (cfg : Config K ι) (D : State C K ι) : Event C K ι → Option K
  | .step (.move c) =>
    match D.pc c with
    | .readUnlockSection k =>
      if leavesWork cfg k (D.lock k) = true ∧ (D.tag c).inList = false then some k else none
    | .writeUnlockSection k => some k
    | _ => none
  | _ => none

/-- **A step that searches the wait list finds no waiter of another lock.** -/
def Unshared (cfg : Config K ι) (D : State C K ι) (e : Event C K ι) (_ : State C K ι) : Prop :=
  ∀ k ∈ searches cfg D e, ∀ d ∈ D.found cfg k, (D.pc d).lockOf = some k

instance (cfg : Config K ι) (D : State C K ι) (e : Event C K ι) (D' : State C K ι) :
    Decidable (Unshared cfg D e D') :=
  inferInstanceAs (Decidable (∀ k ∈ searches cfg D e, ∀ d ∈ D.found cfg k,
    (D.pc d).lockOf = some k))

/-- The lock that a call is for. -/
def calls (D : State C K ι) (c : C) : Op K → Option K
  | .readlock k _ | .writelock k _ => some k
  | .readunlock => (D.pc c).reads
  | .writeunlock => (D.pc c).writes

/-- **Where no assertion fails**: a call is for a lock of less than 32 bits, and a writer
under the lock of the list does not see the writer bit alone beside a payload. -/
def Clear (cfg : Config K ι) (D : State C K ι) : Event C K ι → Prop
  | .step (.call c op) => ∀ k ∈ calls D c op, cfg.numBits k < 32
  | .step (.move c) | .again c => ∀ k, D.pc c = .writeSection k →
    D.lock k &&& cfg.writerMask k ≠ 0#32 → D.lock k &&& cfg.readerMask k = 0#32 →
      D.lock k &&& ~~~cfg.lockMask k = 0#32
  | _ => True

variable (cfg : Config K ι) (own : C → Bool)

instance [Fintype K] (cfg : Config K ι) (D : State C K ι) : (e : Event C K ι) →
    Decidable (Clear cfg D e)
  | .step (.call c op) => inferInstanceAs (Decidable (∀ k ∈ calls D c op, cfg.numBits k < 32))
  | .step (.move c) | .again c => inferInstanceAs (Decidable (∀ k, D.pc c = .writeSection k →
      D.lock k &&& cfg.writerMask k ≠ 0#32 → D.lock k &&& cfg.readerMask k = 0#32 →
        D.lock k &&& ~~~cfg.lockMask k = 0#32))
  | .step (.join ..) | .step (.leave _) => inferInstanceAs (Decidable True)

/-- Every step of a schedule is taken where no assertion fails. -/
def Met : State C K ι → List (Event C K ι) → Prop
  | _, [] => True
  | D, e :: es => Clear cfg D e ∧ ∀ D', (machine cfg own).step D e = some D' → Met D' es

instance decidableMet [Fintype K] : (es : List (Event C K ι)) → (D : State C K ι) →
    Decidable (Met cfg own D es)
  | [], _ => inferInstanceAs (Decidable True)
  | e :: es, D =>
    have hcons : (Clear cfg D e ∧ ∀ D' ∈ (machine cfg own).step D e, Met cfg own D' es)
        ↔ Met cfg own D (e :: es) := Iff.rfl
    have := decidableMet es
    decidable_of_iff _ hcons

/-- **No assertion fails** in a schedule. -/
def Unfailing : State C K ι → List (Event C K ι) → Prop
  | D, [] => ∀ c, D.pc c ≠ .aborted
  | D, e :: es => (∀ c, D.pc c ≠ .aborted)
    ∧ ∀ D', (machine cfg own).step D e = some D' → Unfailing D' es

/-- **Two states that differ in their payloads**, and in what nobody reads. -/
structure Agree (D₁ D₂ : State C K ι) : Prop where
  lock : ∀ k, D₁.lock k &&& cfg.lockMask k = D₂.lock k &&& cfg.lockMask k
  list : D₁.list = D₂.list
  on : D₁.on = D₂.on
  src : D₁.src = D₂.src
  tag : ∀ c, (∃ k, (D₁.pc c).lockOf = some k) ∨ (∃ i, D₁.pc c = .foreign i) → D₁.tag c = D₂.tag c
  signalled : D₁.signalled = D₂.signalled
  pc : D₁.pc = D₂.pc

variable {cfg own} {pay : K → BitVec 32} {ft : C → Tag} {D D' : State C K ι} {s s' : RwBitlock.State C K ι}
  {c : C} {k : K} {o : Option (State C K ι)}

/-! ## Single steps -/

/-- **The state of the release build after a step.** Waiters of others are taken for ones
of other modules. -/
def follow (cfg : Config K ι) (s : RwBitlock.State C K ι) :
    Event C K ι → Option (RwBitlock.State C K ι)
  | .step (.join c i tag) => (RwBitlock.machine C cfg).step s (.join c i { tag with rwUniq := false })
  | .step e => (RwBitlock.machine C cfg).step s e
  | .again _ => some s

/-- The tags with which waiters of others came, after a step. -/
def cameWith (ft : C → Tag) : Event C K ι → C → Tag
  | .step (.join c _ tag) => Function.update ft c tag
  | _ => ft

omit [DecidableEq C] [DecidableEq ι] in
/-- A client that takes a step is not about to be woken up. -/
theorem not_granted (hs : Sim cfg pay D s) (h : Good cfg s)
    (hc : (D.pc c).waits = none ∨ D.signalled c = true) : ∀ c', c ∉ (D.pc c').grants := by
  intro c' hmem
  obtain ⟨-, g, hinv⟩ := h
  have hmem' : c ∈ ((s.abs cfg).pc c').grants := by
    rw [show (s.abs cfg).pc c' = D.pc c' from congrFun hs.pc.symm c']
    exact hmem
  obtain ⟨hgr, hsig, -⟩ := hinv.clients.grants c' c hmem'
  rcases hc with hc | hc
  · refine hinv.clients.granted c hgr ?_
    rw [show (s.abs cfg).pc c = D.pc c from congrFun hs.pc.symm c]
    exact hc
  · rw [show (s.abs cfg).signalled c = D.signalled c from congrFun hs.signalled.symm c, hc] at hsig
    cases hsig

omit [DecidableEq K] [DecidableEq ι] in
/-- An operation that passes is a step. -/
theorem Passes.run (hp : Passes cfg own pay ft o s') (he : some (D.run c o) = some D') :
    Sim cfg pay D' s' ∧ Inv cfg own pay ft D' := by
  obtain ⟨E, rfl, hs, hi⟩ := hp
  obtain rfl : E = D' := Option.some.inj he
  exact ⟨hs, hi⟩

omit [DecidableEq C] [DecidableEq K] [DecidableEq ι] in
/-- The assertions about the range of bits. -/
theorem range_iff : Range cfg k ↔ cfg.numBits k < 32 := by
  have := cfg.fits k
  have := cfg.three_le k
  constructor
  · exact fun h => h.2.2
  · exact fun h => ⟨by omega, by omega, h⟩

omit [DecidableEq ι] in
/-- **A call.** -/
theorem call_sim {op : Op K} (hs : Sim cfg pay D s) (hi : Inv cfg own pay ft D) (h : Good cfg s)
    (he : call cfg own D c op = some D') (hclear : Clear cfg D (.step (.call c op))) :
    ∃ s', RwBitlock.call cfg s c op = some s' ∧ Sim cfg pay D' s' ∧ Inv cfg own pay ft D' := by
  rw [Clear] at hclear
  unfold call at he
  split at he
  · next k try' hp =>
    have hact := not_granted (c := c) hs h (.inl (by rw [hp]; rfl))
    split at he
    · cases he
    · next hown =>
      unfold RwBitlock.call
      rw [← hs.pc]
      simp only [hp]
      exact ⟨_, rfl, (readlock_passes hs hi hact hp (Bool.eq_false_iff.mpr hown)
        (range_iff.mpr (hclear k rfl))).run he⟩
  · next k try' hp =>
    have hact := not_granted (c := c) hs h (.inl (by rw [hp]; rfl))
    split at he
    · next hown =>
      unfold RwBitlock.call
      rw [← hs.pc]
      simp only [hp]
      exact ⟨_, rfl, (writelock_passes hs hi hact hp hown (range_iff.mpr (hclear k rfl))).run he⟩
    · cases he
  · next k hp =>
    have hact := not_granted (c := c) hs h (.inl (by rw [hp]; rfl))
    have hrange : Range cfg k := range_iff.mpr (hclear k (by rw [calls, hp]; rfl))
    unfold RwBitlock.call
    rw [← hs.pc]
    simp only [hp]
    exact ⟨_, rfl, (readunlock_passes hs hi h hact hp hrange).run he⟩
  · next k hp =>
    have hact := not_granted (c := c) hs h (.inl (by rw [hp]; rfl))
    have hrange : Range cfg k := range_iff.mpr (hclear k (by rw [calls, hp]; rfl))
    unfold RwBitlock.call
    rw [← hs.pc]
    simp only [hp]
    exact ⟨_, rfl, (writeunlock_passes hs hi h hact hp hrange).run he⟩
  · cases he

omit [DecidableEq C] [DecidableEq ι] in
/-- Who is at no lock is in no list, and was not told. -/
theorem outside_facts (hs : Sim cfg pay D s) (h : Good cfg s) (hc : (D.pc c).Outside) :
    (∀ i, c ∉ D.list i) ∧ D.signalled c = false := by
  obtain ⟨hrep, g, hinv⟩ := h
  rw [hs.pc] at hc
  refine ⟨fun i => hs.list ▸ hrep.not_mem hc.2.1 hc.2.2 i, ?_⟩
  rw [hs.signalled]
  by_contra hsig
  exact hinv.clients.granted c (hinv.clients.signalled c (Bool.not_eq_false _ ▸ hsig)).1 hc.1.2.2.1

/-- **A further step.** -/
theorem move_sim (hs : Sim cfg pay D s) (hi : Inv cfg own pay ft D) (h : Good cfg s)
    (he : move cfg D c = some D') (hclear : Clear cfg D (.step (.move c)))
    (hok : Unshared cfg D (.step (.move c)) D') :
    ∃ s', RwBitlock.move cfg s c = some s' ∧ Sim cfg pay D' s' ∧ Inv cfg own pay ft D' := by
  have hact := not_granted (c := c) hs h
  rw [Unshared, searches] at hok
  rw [Clear] at hclear
  rw [RwBitlock.move, ← hs.pc]
  rw [move] at he
  cases hp : D.pc c with
  | idle | reading | writing | foreign | aborted => simp [hp] at he
  | readSection k try' =>
    simp only [hp] at he ⊢
    have hno := (outside_facts (c := c) hs h (by rw [hp]; exact outside_readSection k try')).1
    exact ⟨_, rfl, (readSection_passes hs hi (hact (.inl (by rw [hp]; rfl))) hp hno).run he⟩
  | writeSection k =>
    simp only [hp] at he ⊢
    obtain ⟨hno, hsig⟩ := outside_facts (c := c) hs h (by rw [hp]; exact outside_writeSection k)
    refine ⟨_, rfl, (writeSection_passes hs hi (hact (.inl (by rw [hp]; rfl))) hp hno hsig ?_).run he⟩
    intro hw hr
    have hpay := hclear k hp
    rw [hs.lock k, word_and_not_lockMask (hs.outside k) (hs.le k), ne_eq,
      word_writer_eq_zero (hs.outside k) (hs.le k), word_readers_eq_zero (hs.outside k) (hs.le k),
      hw] at hpay
    exact hpay (by simp) hr
  | waiting k rd =>
    simp only [hp] at he ⊢
    split at he
    · next hsig =>
      obtain ⟨-, g, hinv⟩ := id h
      have hsig' : s.signalled c = true := hs.signalled ▸ hsig
      have hw : (s.pc c).waits = some (k, rd) := by rw [← hs.pc, hp]; rfl
      obtain ⟨-, h2, h3, -⟩ := hinv.clients.waits c k rd hw
      have hhave := (hinv.clients.signalled c hsig').2
      rw [if_pos hsig', if_pos ⟨hhave, h2, h3⟩]
      exact ⟨_, rfl, (completeWait_passes hs hi (hact (.inr hsig)) hp ⟨hhave, h2, h3⟩).run he⟩
    · cases he
  | readUnlockSection k =>
    simp only [hp] at he hok ⊢
    refine ⟨_, rfl, (readUnlockSection_passes hs hi h (hact (.inl (by rw [hp]; rfl))) hp ?_).run he⟩
    intro hl hin
    refine hok k ?_
    rw [hs.lock k, leavesWork_sim hs, hs.tag c k (by rw [hp]; rfl), if_pos ⟨hl, hin⟩]
    rfl
  | writeUnlockSection k =>
    simp only [hp] at he hok ⊢
    exact ⟨_, rfl, (writeUnlockSection_passes hs hi h (hact (.inl (by rw [hp]; rfl))) hp
      (hok k rfl)).run he⟩
  | granting k ds =>
    cases ds with
    | nil =>
      simp only [hp] at he ⊢
      exact ⟨_, rfl, (granted_passes hs hi h (hact (.inl (by rw [hp]; rfl))) hp).run he⟩
    | cons d ds =>
      simp only [hp] at he ⊢
      exact ⟨_, rfl, (grant_passes hs hi h (hact (.inl (by rw [hp]; rfl))) hp).run he⟩

omit [DecidableEq ι] in
/-- **An iteration whose swap fails** asserts what holds as long as the client has the lock. -/
theorem again_sim (hs : Sim cfg pay D s) (hi : Inv cfg own pay ft D) (h : Good cfg s)
    (he : again cfg D c = some D') (hclear : Clear cfg D (.again c)) :
    Sim cfg pay D' s ∧ Inv cfg own pay ft D' := by
  rw [Clear] at hclear
  have hpass : Passes cfg own pay ft (some D) s := ⟨D, rfl, hs, hi⟩
  rw [again] at he
  cases hp : D.pc c with
  | idle | readSection | waiting | writeUnlockSection | granting | foreign | aborted =>
    simp [hp] at he
  | reading k =>
    simp only [hp] at he
    obtain ⟨hpos, -⟩ := reader_facts (c := c) h (by rw [← hs.pc, hp]; rfl)
    have hne : cfg.word k (pay k) (s.w k) (s.r k) &&& cfg.readerMask k ≠ 0#32 := by
      rw [ne_eq, word_readers_eq_zero (hs.outside k) (hs.le k)]
      omega
    rw [lwAssert_pos ((hi.client c).haveLock (by rw [hp]; rintro ⟨⟩)), hs.lock k, lwAssert_pos hne,
      clearRdlock_word (hs.outside k) (hs.le k) hpos, Option.map_some] at he
    exact hpass.run he
  | readUnlockSection k =>
    simp only [hp] at he
    obtain ⟨hpos, -⟩ := reader_facts (c := c) h (by rw [← hs.pc, hp]; rfl)
    rw [hs.lock k, clearRdlock_word (hs.outside k) (hs.le k) hpos, Option.map_some] at he
    exact hpass.run he
  | writing k =>
    simp only [hp] at he
    obtain ⟨hw, -⟩ := writer_facts (c := c) h (by rw [← hs.pc, hp]; rfl)
    rw [hs.lock k, clearWrlock_word (hs.outside k) (hs.le k) hw, Option.map_some] at he
    exact hpass.run he
  | writeSection k =>
    simp only [hp] at he
    have hpay := hclear k hp
    rw [hs.lock k, word_and_not_lockMask (hs.outside k) (hs.le k), ne_eq,
      word_writer_eq_zero (hs.outside k) (hs.le k),
      word_readers_eq_zero (hs.outside k) (hs.le k)] at hpay
    rw [hs.lock k, setWrlock_word (hs.outside k) (hs.le k) fun _ _ hw hr =>
      hpay (by rw [hw]; simp) hr, Option.map_some] at he
    exact hpass.run he

/-- Somebody else comes to a list. -/
theorem join_sim {i : ι} (tag tag' : Tag) (hs : Sim cfg pay D s) (hi : Inv cfg own pay ft D)
    (h : Good cfg s) (hp : D.pc c = .idle) :
    Sim cfg pay ({ D.setTag c tag with
        on := Function.update D.on c (some i)
        list := Function.update D.list i (D.list i ++ [c]) }.goto c (.foreign i))
      ({ s.setTag c tag' with
        list := Function.update s.list i (s.list i ++ [c]) }.goto c (.foreign i))
      ∧ Inv cfg own pay (Function.update ft c tag) ({ D.setTag c tag with
        on := Function.update D.on c (some i)
        list := Function.update D.list i (D.list i ++ [c]) }.goto c (.foreign i)) := by
  obtain ⟨hno, -⟩ := outside_facts (c := c) hs h (by rw [hp]; exact outside_idle)
  constructor
  · have hsim : Sim cfg pay { D.setTag c tag with
          on := Function.update D.on c (some i)
          list := Function.update D.list i (D.list i ++ [c]) }
        { s.setTag c tag' with list := Function.update s.list i (s.list i ++ [c]) } := by
      refine { hs with list := ?_, tag := ?_ }
      · show Function.update D.list _ _ = Function.update s.list _ _
        rw [hs.list]
      · intro e k he
        have hlo : (D.pc e).lockOf = some k := he
        have hec : e ≠ c := by
          rintro rfl
          rw [hp] at hlo
          cases hlo
        show Function.update D.tag c tag e = Function.update s.tag c tag' e
        rw [Function.update_of_ne hec, Function.update_of_ne hec]
        exact hs.tag e k hlo
    exact hsim.goto_out rfl
  · have hf : Frame c D { D.setTag c tag with
        on := Function.update D.on c (some i)
        list := Function.update D.list i (D.list i ++ [c]) } :=
      { (Frame.refl c D).setTag tag with }
    have hi' : Inv cfg own pay (Function.update ft c tag) D := by
      refine ⟨hi.on, fun d => { hi.client d with foreign := fun j hj => ?_ }⟩
      have hdc : d ≠ c := by
        rintro rfl
        rw [hp] at hj
        cases hj
      rw [Function.update_of_ne hdc]
      exact (hi.client d).foreign j hj
    refine hi'.step (hf.goto _) (hi.on.append (i := i) hno rfl rfl)
      (not_granted hs h (.inl (by rw [hp]; rfl))) ?_
    have hfree := (hi.client c).free
    have hgoto : ({ D.setTag c tag with
        on := Function.update D.on c (some i)
        list := Function.update D.list i (D.list i ++ [c]) }.goto c (.foreign i)).pc c
        = .foreign i := Function.update_self _ _ _
    constructor <;> simp [hgoto, Pc.waits, Pc.reads, Pc.releases, Pc.grants]
    · exact fun ho => hfree ho (by rw [hp]; rfl)
    · exact Function.update_self _ _ _

/-- Somebody else leaves a list. -/
theorem leave_sim {i : ι} (hs : Sim cfg pay D s) (hi : Inv cfg own pay ft D) (h : Good cfg s)
    (hp : D.pc c = .foreign i) :
    Sim cfg pay ((D.unlist i [c]).goto c .idle) ((s.remove i [c]).goto c .idle)
      ∧ Inv cfg own pay ft ((D.unlist i [c]).goto c .idle) := by
  have hsim : Sim cfg pay (D.unlist i [c]) (s.remove i [c]) := by
    refine { hs with list := ?_ }
    show Function.update D.list _ _ = Function.update s.list _ _
    rw [hs.list]
  have hf : Frame c D (D.unlist i [c]) := { Frame.refl c D with }
  refine ⟨hsim.goto_out rfl, hi.step (hf.goto _) ?_
    (not_granted hs h (.inl (by rw [hp]; rfl))) ?_⟩
  · by_cases hc : c ∈ D.list i
    · have hleave : ∀ d ∈ [c], d ∈ D.list i := fun d hd => List.mem_singleton.mp hd ▸ hc
      exact hi.on.remove hleave rfl rfl
    · -- nothing to leave
      have hno : ∀ j, c ∉ D.list j := by
        intro j hj
        rcases h.1.place j c (hs.list ▸ hj) with ⟨hf, -⟩ | ⟨k, hk, -⟩
        · rw [← hs.pc, hp] at hf
          exact hc (Pc.foreign.inj hf ▸ hj)
        · rw [← hs.pc, hp] at hk
          cases hk
      have hon : (D.unlist i [c]).on = D.on := by
        funext d
        show (if d ∈ [c] then none else D.on d) = D.on d
        split
        · next hd => rw [List.mem_singleton.mp hd, hi.on.off hno]
        · rfl
      have hlist : (D.unlist i [c]).list = D.list := by
        have hself : (D.list i).filter (fun d => decide (d ∉ [c])) = D.list i :=
          List.filter_eq_self.mpr fun d hd => decide_eq_true fun hdc =>
            hc (List.mem_singleton.mp hdc ▸ hd)
        show Function.update D.list i _ = D.list
        rw [hself, Function.update_eq_self]
      intro d j
      rw [show ((D.unlist i [c]).goto c .idle).on = D.on from hon,
        show ((D.unlist i [c]).goto c .idle).list = D.list from hlist]
      exact hi.on d j
  · exact Client.out (Function.update_self _ _ _) fun ho => (hi.client c).free ho (by rw [hp]; rfl)

/-- **Where no assertion fails, the debug build does what the release build does.** -/
theorem step_sim {e : Event C K ι} (hs : Sim cfg pay D s) (hi : Inv cfg own pay ft D)
    (h : Good cfg s) (he : (machine cfg own).step D e = some D') (hclear : Clear cfg D e)
    (hok : Unshared cfg D e D') :
    ∃ s', follow cfg s e = some s' ∧ Sim cfg pay D' s' ∧ Inv cfg own pay (cameWith ft e) D'
      ∧ Good cfg s' := by
  cases e with
  | again c =>
    obtain ⟨hs', hi'⟩ := again_sim hs hi h he hclear
    exact ⟨s, rfl, hs', hi', h⟩
  | step e =>
    cases e with
    | call c op =>
      obtain ⟨s', he', hs', hi'⟩ := call_sim hs hi h he hclear
      exact ⟨s', he', hs', hi', call_good h he'⟩
    | move c =>
      obtain ⟨s', he', hs', hi'⟩ := move_sim hs hi h he hclear hok
      refine ⟨s', he', hs', hi', move_good h he' fun k hk => ?_⟩
      refine (found_sim hs h.1 (hok k ?_)).2.1
      rw [RwBitlock.searches, ← hs.pc] at hk
      rw [searches]
      cases hp : D.pc c with
      | readUnlockSection j =>
        simp only [hp] at hk ⊢
        rwa [hs.lock j, leavesWork_sim hs, hs.tag c j (by rw [hp]; rfl)]
      | writeUnlockSection j =>
        simp only [hp] at hk ⊢
        exact hk
      | _ => simp [hp] at hk
    | join c i tag =>
      simp only [machine] at he
      split at he
      · next hp =>
        obtain ⟨hs', hi'⟩ := join_sim tag { tag with rwUniq := false } (i := i)
          hs hi h hp
        have hp' : s.pc c = .idle := hs.pc ▸ hp
        refine ⟨_, if_pos ⟨hp', rfl⟩, ?_, ?_, join_good h hp' rfl⟩
        · exact Option.some.inj he ▸ hs'
        · exact Option.some.inj he ▸ hi'
      · cases he
    | leave c =>
      simp only [machine] at he
      split at he
      · next i hp =>
        obtain ⟨hs', hi'⟩ := leave_sim hs hi h hp
        have hp' : s.pc c = .foreign i := hs.pc ▸ hp
        refine ⟨(s.remove i [c]).goto c .idle, ?_, Option.some.inj he ▸ hs',
          Option.some.inj he ▸ hi', leave_good h hp'⟩
        simp only [follow, RwBitlock.machine, hp']
      · cases he

omit [DecidableEq K] [DecidableEq ι] in
/-- A failed assertion is seen. -/
theorem run_none (D : State C K ι) (c : C) : (D.run c none).pc c = .aborted :=
  Function.update_self _ _ _

/-- **Elsewhere an assertion fails.** -/
theorem step_fails {e : Event C K ι} (hs : Sim cfg pay D s)
    (he : (machine cfg own).step D e = some D') (hclear : ¬ Clear cfg D e) :
    ∃ c, D'.pc c = .aborted := by
  have hmark : ∀ c, (¬ ∀ k, D.pc c = .writeSection k → D.lock k &&& cfg.writerMask k ≠ 0#32 →
      D.lock k &&& cfg.readerMask k = 0#32 → D.lock k &&& ~~~cfg.lockMask k = 0#32) →
      ∃ k, D.pc c = .writeSection k ∧ setWrlock cfg k (D.lock k) false true = none := by
    intro c hc
    push Not at hc
    obtain ⟨k, hp, hw, hr, hpay⟩ := hc
    rw [hs.lock k, word_and_not_lockMask (hs.outside k) (hs.le k)] at hpay
    rw [hs.lock k, ne_eq, word_writer_eq_zero (hs.outside k) (hs.le k), Bool.not_eq_false] at hw
    rw [hs.lock k, word_readers_eq_zero (hs.outside k) (hs.le k)] at hr
    exact ⟨k, hp, by rw [hs.lock k, setWrlock_fails (hs.outside k) (hs.le k) hw hr hpay]⟩
  cases e with
  | again c =>
    obtain ⟨k, hp, hfail⟩ := hmark c hclear
    simp only [machine, again, hp, hfail, Option.map_none] at he
    exact ⟨c, Option.some.inj he ▸ run_none D c⟩
  | step e =>
    cases e with
    | join | leave => exact absurd trivial hclear
    | move c =>
      obtain ⟨k, hp, hfail⟩ := hmark c hclear
      simp only [machine, move, hp, writeSection, hfail, Option.bind_none] at he
      exact ⟨c, Option.some.inj he ▸ run_none D c⟩
    | call c op =>
      refine ⟨c, ?_⟩
      rw [Clear] at hclear
      push Not at hclear
      obtain ⟨k, hk, hbits⟩ := hclear
      have hrange : ¬ Range cfg k := fun hr => absurd (range_iff.mp hr) (by omega)
      simp only [machine] at he
      unfold call at he
      split at he
      · obtain rfl := Option.some.inj hk
        split at he
        · cases he
        · rw [readlock, lwAssert_neg hrange] at he
          exact Option.some.inj he ▸ run_none D c
      · obtain rfl := Option.some.inj hk
        split at he
        · rw [writelock, lwAssert_neg hrange] at he
          exact Option.some.inj he ▸ run_none D c
        · cases he
      · next j hp =>
        rw [calls, hp] at hk
        obtain rfl : j = k := Option.some.inj hk
        rw [readunlock, lwAssert_neg hrange] at he
        exact Option.some.inj he ▸ run_none D c
      · next j hp =>
        rw [calls, hp] at hk
        obtain rfl : j = k := Option.some.inj hk
        rw [writeunlock, lwAssert_neg hrange] at he
        exact Option.some.inj he ▸ run_none D c
      · cases he

/-- **Which steps can be taken** is said by the program points and the signals. -/
theorem step_enabled {D₁ D₂ D₁' : State C K ι} {e : Event C K ι} (hpc : D₁.pc = D₂.pc)
    (hsig : D₁.signalled = D₂.signalled) (he : (machine cfg own).step D₁ e = some D₁') :
    ∃ D₂', (machine cfg own).step D₂ e = some D₂' := by
  cases e with
  | again c =>
    simp only [machine, again, hpc] at he ⊢
    cases hp : D₂.pc c <;> simp [hp] at he ⊢
  | step e =>
    cases e with
    | call c op =>
      simp only [machine] at he ⊢
      unfold call at he ⊢
      rw [hpc] at he
      split at he
      · split at he
        · cases he
        · next hown => exact ⟨_, if_neg hown⟩
      · split at he
        · next hown => exact ⟨_, if_pos hown⟩
        · cases he
      · exact ⟨_, rfl⟩
      · exact ⟨_, rfl⟩
      · cases he
    | move c =>
      simp only [machine, move, hpc] at he ⊢
      cases hp : D₂.pc c with
      | waiting k rd =>
        simp only [hp, hsig] at he ⊢
        split at he
        · next h => exact ⟨_, if_pos h⟩
        · cases he
      | granting k ds => cases ds <;> simp
      | _ => simp [hp] at he ⊢
    | join c i tag =>
      simp only [machine, hpc] at he ⊢
      split at he
      · next h => exact ⟨_, if_pos h⟩
      · cases he
    | leave c =>
      simp only [machine, hpc] at he ⊢
      split at he
      · next i h => exact ⟨_, rfl⟩
      · cases he

/-! ## Runs -/

omit [DecidableEq C] [DecidableEq ι] in
/-- Nothing has failed where the two builds agree. -/
theorem alive (hs : Sim cfg pay D s) (h : Good cfg s) (c : C) : D.pc c ≠ .aborted := by
  obtain ⟨-, g, hinv⟩ := h
  rw [hs.pc]
  exact hinv.clients.alive c

/-- **A schedule of the release build.** -/
def followAll (cfg : Config K ι) (s : RwBitlock.State C K ι) :
    List (Event C K ι) → Option (RwBitlock.State C K ι)
  | [] => some s
  | e :: es => (follow cfg s e).bind fun s' => followAll cfg s' es

/-- **No assertion fails exactly in the schedules whose steps meet the condition**, and these
are schedules of the release build. -/
theorem schedule_sim {es : List (Event C K ι)} (hs : Sim cfg pay D s) (hi : Inv cfg own pay ft D)
    (h : Good cfg s) (he : (machine cfg own).exec (Unshared cfg) D es = some D') :
    (Unfailing cfg own D es ↔ Met cfg own D es)
      ∧ (Met cfg own D es → ∃ s', followAll cfg s es = some s' ∧ Sim cfg pay D' s'
        ∧ Inv cfg own pay (es.foldl cameWith ft) D' ∧ Good cfg s') := by
  induction es generalizing D s ft with
  | nil =>
    rw [Machine.exec, Option.some.injEq] at he
    subst he
    exact ⟨iff_of_true (alive hs h) trivial, fun _ => ⟨s, rfl, hs, hi, h⟩⟩
  | cons e es ih =>
    rw [Machine.exec] at he
    obtain ⟨D₁, hD₁, he⟩ := Option.bind_eq_some_iff.mp he
    split at he
    · next hok =>
      rw [Unfailing, Met]
      by_cases hclear : Clear cfg D e
      · obtain ⟨s₁, hs₁, hsim, hinv, hgood⟩ := step_sim hs hi h hD₁ hclear hok
        obtain ⟨hiff, hrest⟩ := ih hsim hinv hgood he
        have honly : ∀ {P : State C K ι → Prop},
            (∀ E, (machine cfg own).step D e = some E → P E) ↔ P D₁ := by
          intro P
          rw [hD₁]
          exact ⟨fun hE => hE D₁ rfl, fun hE E heq => Option.some.inj heq ▸ hE⟩
        rw [honly, honly]
        refine ⟨⟨fun hu => ⟨hclear, hiff.mp hu.2⟩, fun hm => ⟨alive hs h, hiff.mpr hm.2⟩⟩,
          fun hm => ?_⟩
        obtain ⟨s', hs', hrest⟩ := hrest hm.2
        exact ⟨s', by rw [followAll, hs₁]; exact hs', hrest⟩
      · refine ⟨iff_of_false ?_ fun hm => hclear hm.1, fun hm => absurd hm.1 hclear⟩
        intro hu
        obtain ⟨c, hc⟩ := step_fails hs hD₁ hclear
        have halive := hu.2 D₁ hD₁
        cases es with
        | nil => exact halive c hc
        | cons => exact halive.1 c hc
    · cases he

omit [DecidableEq C] [DecidableEq K] [DecidableEq ι] in
/-- Waiters in a list have one tag in both runs. -/
theorem tags_eq {D₁ D₂ : State C K ι} {pay₁ pay₂ : K → BitVec 32} (hs₁ : Sim cfg pay₁ D₁ s)
    (hs₂ : Sim cfg pay₂ D₂ s) (hi₁ : Inv cfg own pay₁ ft D₁) (hi₂ : Inv cfg own pay₂ ft D₂)
    (h : (∃ k, (D₁.pc c).lockOf = some k) ∨ ∃ i, D₁.pc c = .foreign i) : D₁.tag c = D₂.tag c := by
  have hpc : D₁.pc = D₂.pc := hs₁.pc.trans hs₂.pc.symm
  rcases h with ⟨k, hk⟩ | ⟨i, hi⟩
  · exact (hs₁.tag c k hk).trans (hs₂.tag c k (hpc ▸ hk)).symm
  · exact ((hi₁.client c).foreign i hi).trans ((hi₂.client c).foreign i (hpc ▸ hi)).symm

omit [DecidableEq C] [DecidableEq K] [DecidableEq ι] in
/-- **Two runs agree** where both agree with the release build. -/
theorem agree {D₁ D₂ : State C K ι} {pay₁ pay₂ : K → BitVec 32} (hs₁ : Sim cfg pay₁ D₁ s)
    (hs₂ : Sim cfg pay₂ D₂ s) (hi₁ : Inv cfg own pay₁ ft D₁) (hi₂ : Inv cfg own pay₂ ft D₂) :
    Agree cfg D₁ D₂ where
  lock k := by
    rw [hs₁.lock k, hs₂.lock k, word_and_lockMask (hs₁.outside k) (hs₁.le k),
      word_and_lockMask (hs₂.outside k) (hs₁.le k)]
  list := hs₁.list.trans hs₂.list.symm
  on := by
    funext c
    refine Option.ext fun i => ?_
    rw [hi₁.on c i, hi₂.on c i, hs₁.list, hs₂.list]
  src := hs₁.src.trans hs₂.src.symm
  tag c h := tags_eq hs₁ hs₂ hi₁ hi₂ h
  signalled := hs₁.signalled.trans hs₂.signalled.symm
  pc := hs₁.pc.trans hs₂.pc.symm

omit [DecidableEq C] [DecidableEq ι] in
/-- What an unlock finds is its own in one run if it is in the other. -/
theorem unshared_sim {D₁ D₂ D₁' D₂' : State C K ι} {pay₁ pay₂ : K → BitVec 32} {e : Event C K ι}
    (hs₁ : Sim cfg pay₁ D₁ s) (hs₂ : Sim cfg pay₂ D₂ s) (hi₁ : Inv cfg own pay₁ ft D₁)
    (hi₂ : Inv cfg own pay₂ ft D₂) (h : Good cfg s) (hok : Unshared cfg D₁ e D₁') :
    Unshared cfg D₂ e D₂' := by
  have hag := agree hs₁ hs₂ hi₁ hi₂
  have hsearch : searches cfg D₂ e = searches cfg D₁ e := by
    unfold searches
    cases e with
    | again => rfl
    | step e =>
      cases e with
      | move c =>
        simp only [← hag.pc]
        cases hp : D₁.pc c with
        | readUnlockSection k =>
          simp only
          rw [hs₁.lock k, hs₂.lock k, leavesWork_sim hs₁, leavesWork_sim hs₂,
            hag.tag c (.inl ⟨k, by rw [hp]; rfl⟩)]
        | _ => rfl
      | _ => rfl
  intro k hk d hd
  rw [← hag.pc]
  refine hok k (hsearch ▸ hk) d ?_
  rw [State.found, ← hag.list] at hd
  obtain ⟨hd, hm⟩ := List.mem_filter.mp hd
  refine List.mem_filter.mpr ⟨hd, ?_⟩
  rw [hag.tag d]
  · exact hm
  · rw [hs₁.pc]
    rcases h.1.place _ d (hs₁.list ▸ hd) with ⟨hf, -⟩ | ⟨j, hj, -⟩
    · exact .inr ⟨_, hf⟩
    · exact .inl ⟨j, hj⟩

/-- **Two runs go the same way** as long as both meet the condition. -/
theorem exec_sim {D₁ D₂ D₁' : State C K ι} {pay₁ pay₂ : K → BitVec 32} {es : List (Event C K ι)}
    (hs₁ : Sim cfg pay₁ D₁ s) (hs₂ : Sim cfg pay₂ D₂ s) (hi₁ : Inv cfg own pay₁ ft D₁)
    (hi₂ : Inv cfg own pay₂ ft D₂) (h : Good cfg s) (hm₁ : Met cfg own D₁ es)
    (hm₂ : Met cfg own D₂ es) (he : (machine cfg own).exec (Unshared cfg) D₁ es = some D₁') :
    ∃ D₂', (machine cfg own).exec (Unshared cfg) D₂ es = some D₂' := by
  induction es generalizing D₁ D₂ s ft with
  | nil => exact ⟨D₂, rfl⟩
  | cons e es ih =>
    rw [Machine.exec] at he ⊢
    obtain ⟨E₁, hE₁, he⟩ := Option.bind_eq_some_iff.mp he
    split at he
    · next hok =>
      have hag := agree hs₁ hs₂ hi₁ hi₂
      obtain ⟨E₂, hE₂⟩ := step_enabled hag.pc hag.signalled hE₁
      have hok₂ : Unshared cfg D₂ e E₂ := unshared_sim hs₁ hs₂ hi₁ hi₂ h hok
      obtain ⟨s₁, hf₁, hs₁', hi₁', h'⟩ := step_sim hs₁ hi₁ h hE₁ hm₁.1 hok
      obtain ⟨s₂, hf₂, hs₂', hi₂', -⟩ := step_sim hs₂ hi₂ h hE₂ hm₂.1 hok₂
      obtain rfl : s₁ = s₂ := Option.some.inj (hf₁.symm.trans hf₂)
      rw [hE₂, Option.bind_some, if_pos hok₂]
      exact ih hs₁' hs₂' hi₁' hi₂' h' (hm₁.2 E₁ hE₁) (hm₂.2 E₂ hE₂) he
    · cases he

/-! ## From the start -/

/-- The release build before the first step. -/
def initial (C K ι : Type) : RwBitlock.State C K ι where
  w _ := false
  r _ := 0
  list _ := []
  src _ := none
  tag _ := ⟨0, 0, false, false, false, false, false, false⟩
  signalled _ := false
  granted _ := false
  pc _ := .idle

omit [DecidableEq C] [DecidableEq ι] in
/-- The two builds start alike. -/
theorem Start.sim (own : C → Bool) (h : Start cfg D) : Sim cfg D.lock D (initial C K ι)
    ∧ Inv cfg own D.lock (fun _ => ⟨0, 0, false, false, false, false, false, false⟩) D
    ∧ Good cfg (initial C K ι) := by
  refine ⟨⟨h.lock, fun _ => Nat.zero_le _, fun k => ?_, funext h.list, funext h.src,
    funext h.signalled, funext h.pc, fun c k hk => ?_⟩, ⟨fun c i => ?_, fun c => ?_⟩,
    RwBitlock.Start.good ⟨fun _ => rfl, fun _ => rfl, fun _ => rfl, fun _ => rfl, fun _ => rfl,
      fun _ => rfl⟩⟩
  · have hzero : cfg.readers k 0 = 0#32 := BitVec.zero_shiftLeft _
    show D.lock k = cfg.word k (D.lock k) false 0
    rw [Config.word, hzero, BitVec.or_zero]
    exact BitVec.or_zero.symm
  · rw [h.pc] at hk
    cases hk
  · rw [h.on, h.list]
    exact iff_of_false (by simp) (by simp)
  · have hpc := h.pc c
    constructor <;> simp [hpc, h.src, Pc.waits, Pc.reads, Pc.releases, Pc.grants]

/-- **When the assertions hold, and payloads do not matter.** Of two debug builds that may
differ in the payloads of their words, take a schedule of the first in which every unlock
that searches a wait list finds waiters of its own lock. No assertion fails in either and
both take the same steps with the same results, exactly if every step is taken in both where
the range of bits has less than 32, and where a writer under the lock of the list does not
find the writer bit alone beside a payload. -/
theorem unfailing_iff (cfg : Config K ι) (own : C → Bool) {D₁ D₂ D₁' : State C K ι}
    (h₁ : Start cfg D₁) (h₂ : Start cfg D₂) {es : List (Event C K ι)}
    (he : (machine cfg own).exec (Unshared cfg) D₁ es = some D₁') :
    (Unfailing cfg own D₁ es ∧ Unfailing cfg own D₂ es
        ∧ ∃ D₂', (machine cfg own).exec (Unshared cfg) D₂ es = some D₂' ∧ Agree cfg D₁' D₂')
      ↔ Met cfg own D₁ es ∧ Met cfg own D₂ es := by
  obtain ⟨hs₁, hi₁, h⟩ := Start.sim own h₁
  obtain ⟨hs₂, hi₂, -⟩ := Start.sim own h₂
  constructor
  · rintro ⟨hu₁, hu₂, D₂', he₂, -⟩
    exact ⟨(schedule_sim hs₁ hi₁ h he).1.mp hu₁, (schedule_sim hs₂ hi₂ h he₂).1.mp hu₂⟩
  · rintro ⟨hm₁, hm₂⟩
    obtain ⟨D₂', he₂⟩ := exec_sim hs₁ hs₂ hi₁ hi₂ h hm₁ hm₂ he
    obtain ⟨hiff₁, hrest₁⟩ := schedule_sim hs₁ hi₁ h he
    obtain ⟨hiff₂, hrest₂⟩ := schedule_sim hs₂ hi₂ h he₂
    obtain ⟨s₁, hf₁, hs₁', hi₁', -⟩ := hrest₁ hm₁
    obtain ⟨s₂, hf₂, hs₂', hi₂', -⟩ := hrest₂ hm₂
    obtain rfl : s₁ = s₂ := Option.some.inj (hf₁.symm.trans hf₂)
    exact ⟨hiff₁.mpr hm₁, hiff₂.mpr hm₂, D₂', he₂, agree hs₁' hs₂' hi₁' hi₂'⟩

/-! ## Two schedules -/

/-- A lock of four bits of a word. -/
def narrow : Config Unit Unit where
  list _ := ()
  startBit _ := 4
  numBits _ := 4
  three_le _ := by decide
  fits _ := by decide

/-- The lock is free in a word with some payload. -/
def idleIn (pay : BitVec 32) : State (Fin 3) Unit Unit where
  lock _ := pay
  list _ := []
  on _ := none
  src _ := none
  tag _ := ⟨0, 0, false, false, false, false, false, false⟩
  signalled _ := false
  locals _ := ⟨0#32, false, false⟩
  pc _ := .idle

/-- The first two waiters are the own ones of two threads, the third is a reader's buffer. -/
def twoWriters (c : Fin 3) : Bool := decide (c ≠ 2)

theorem idleIn_start (pay : BitVec 32) (h : pay &&& narrow.lockMask () = 0#32) :
    Start narrow (idleIn pay) :=
  ⟨fun _ => h, fun _ => rfl, fun _ => rfl, fun _ => rfl, fun _ => rfl, fun _ => rfl⟩

/-- A writer comes to a lock that a reader has, and waits for it. -/
def readerFirst : List (Event (Fin 3) Unit Unit) :=
  [.step (.call 2 (.readlock () false)), .step (.call 0 (.writelock () false)),
    .again 0, .step (.move 0), .step (.call 2 .readunlock), .step (.move 2), .step (.move 2),
    .step (.move 2), .step (.move 0), .step (.call 0 .writeunlock)]

/-- A second writer comes to a lock that a writer has. -/
def writerFirst : List (Event (Fin 3) Unit Unit) :=
  [.step (.call 0 (.writelock () false)), .step (.call 1 (.writelock () false)),
    .step (.move 1)]

/-- With a payload or without one, a writer waits for a reader and has the lock after it. -/
theorem unfailing_readerFirst :
    ∃ D, (machine narrow twoWriters).exec (Unshared narrow) (idleIn 0x100#32) readerFirst = some D
      ∧ Unfailing narrow twoWriters (idleIn 0x100#32) readerFirst
      ∧ ∃ D', (machine narrow twoWriters).exec (Unshared narrow) (idleIn 0#32) readerFirst = some D'
        ∧ Agree narrow D D' := by
  have hsome : ((machine narrow twoWriters).exec (Unshared narrow) (idleIn 0x100#32)
      readerFirst).isSome = true := by decide +kernel
  obtain ⟨D, hD⟩ := Option.isSome_iff_exists.mp hsome
  obtain ⟨hu, -, hag⟩ := (unfailing_iff narrow twoWriters
    (idleIn_start 0x100#32 (by decide)) (idleIn_start 0#32 (by decide)) hD).mpr
    ⟨by decide +kernel, by decide +kernel⟩
  exact ⟨D, hD, hu, hag⟩

/-- **Beside a payload, a second writer aborts**; without one it waits. -/
theorem exists_aborted :
    Start narrow (idleIn 0x100#32)
      ∧ (∃ D, (machine narrow twoWriters).exec (Unshared narrow) (idleIn 0x100#32) writerFirst
        = some D ∧ D.pc 1 = .aborted)
      ∧ ∃ D, (machine narrow twoWriters).exec (Unshared narrow) (idleIn 0#32) writerFirst
        = some D ∧ D.pc 1 = .waiting () false := by
  have hread : ∀ {o : Option (State (Fin 3) Unit Unit)} {p : Pc (Fin 3) Unit Unit},
      (o.any fun D => decide (D.pc 1 = p)) = true → ∃ D, o = some D ∧ D.pc 1 = p := by
    intro o p h
    cases o with
    | none => cases h
    | some D => exact ⟨D, rfl, of_decide_eq_true h⟩
  exact ⟨idleIn_start _ (by decide), hread (by decide +kernel), hread (by decide +kernel)⟩

end RwBitlock.Debug
