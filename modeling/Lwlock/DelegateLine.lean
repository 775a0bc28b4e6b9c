import Lwlock.DelegateCancelStep

/-!
# The line of a delegate

The jobs that wait at a delegate stand in one line: the queue, then what a drain still has to
queue, oldest first, then the stack from its bottom. A drain takes the stack apart from its
top, so that it inserts every job before the one it queued last; where it inserts cuts the
queue in two, and what it has yet to queue belongs between the two.

The invariant is about one job of the line: nobody of a given kind stands before it. A push
adds a job at the end of the line, a drain does not change the line, and everything else
takes jobs out of it. The one exception is the fast path of a submission, which appends to the
queue past the stack; it is taken only when no job waits.
-/

namespace Delegate

variable {T J P C D : Type}

/-! ## A place in a list -/

section Lists

variable {r j : J} {late : J → Prop} {X Y L : List J}

/-- The job is in the list, and no late one stands before it. -/
def First (r : J) (late : J → Prop) (L : List J) : Prop :=
  ∃ A B, L = A ++ r :: B ∧ ∀ x ∈ A, ¬ late x

theorem First.mem (h : First r late L) : r ∈ L := by
  obtain ⟨A, B, rfl, -⟩ := h
  exact List.mem_append_right A List.mem_cons_self

/-- More jobs at the end do not matter. -/
theorem First.append (h : First r late L) (M : List J) : First r late (L ++ M) := by
  obtain ⟨A, B, rfl, hA⟩ := h
  exact ⟨A, B ++ M, by rw [List.append_assoc, List.cons_append], hA⟩

/-- Another job leaves. -/
theorem First.remove (h : First r late (X ++ j :: Y)) (hj : j ≠ r) : First r late (X ++ Y) := by
  obtain ⟨A, B, heq, hA⟩ := h
  obtain ⟨M, rfl, hM⟩ | ⟨M, rfl, hM⟩ := List.append_eq_append_iff.mp heq
  · cases M with
    | nil => exact absurd (List.cons.inj hM).1 hj
    | cons b M =>
      obtain ⟨rfl, rfl⟩ := List.cons.inj hM
      refine ⟨X ++ M, B, (List.append_assoc X M (r :: B)).symm, fun x hx => hA x ?_⟩
      rw [List.mem_append] at hx ⊢
      exact hx.imp_right (List.mem_cons_of_mem j)
  · cases M with
    | nil => exact absurd (List.cons.inj hM).1.symm hj
    | cons b M =>
      obtain ⟨rfl, rfl⟩ := List.cons.inj hM
      exact ⟨A, M ++ Y, by rw [List.append_assoc, List.cons_append], hA⟩

/-- A job that is not late comes in. -/
theorem First.insert (h : First r late (X ++ Y)) (hj : ¬ late j) : First r late (X ++ j :: Y) := by
  obtain ⟨A, B, heq, hA⟩ := h
  obtain ⟨M, rfl, hM⟩ | ⟨M, rfl, hM⟩ := List.append_eq_append_iff.mp heq
  · refine ⟨X ++ j :: M, B, by rw [hM, List.append_assoc, List.cons_append], fun x hx => ?_⟩
    rw [List.mem_append, List.mem_cons] at hx
    obtain hx | rfl | hx := hx
    · exact hA x (List.mem_append_left M hx)
    · exact hj
    · exact hA x (List.mem_append_right X hx)
  · cases M with
    | nil =>
      refine ⟨A ++ [j], B, ?_, fun x hx => ?_⟩
      · rw [← (List.nil_append Y ▸ hM : r :: B = Y), List.append_nil, List.append_assoc]
        rfl
      · rw [List.mem_append, List.mem_singleton] at hx
        obtain hx | rfl := hx
        · exact hA x hx
        · exact hj
    | cons b M =>
      obtain ⟨rfl, rfl⟩ := List.cons.inj hM
      exact ⟨A, M ++ j :: Y, by rw [List.append_assoc, List.cons_append], hA⟩

/-- A job that leaves from the front was not late. -/
theorem First.head (h : First r late (j :: Y)) (hj : j ≠ r) : ¬ late j := by
  obtain ⟨A, B, heq, hA⟩ := h
  cases A with
  | nil => exact absurd (List.cons.inj heq).1 hj
  | cons a A =>
    obtain ⟨rfl, -⟩ := List.cons.inj heq
    exact hA j List.mem_cons_self

end Lists

/-! ## The line -/

variable [DecidableEq J]

/-- The queue before the place where a drain inserts. -/
def frontOf (q : List J) : Option J → List J
  | none => q
  | some l => q.takeWhile fun y => decide (y ≠ l)

/-- The queue from the place where a drain inserts. -/
def backOf (q : List J) : Option J → List J
  | none => []
  | some l => q.dropWhile fun y => decide (y ≠ l)

theorem frontOf_append_backOf (q : List J) (last : Option J) : frontOf q last ++ backOf q last = q := by
  cases last with
  | none => exact List.append_nil q
  | some l => exact List.takeWhile_append_dropWhile

/-- **The line**, when nobody but the thread may drain. -/
def line (s : State T J P) (S : List J) (W : T → List J) (t : T) : List J :=
  frontOf s.queued (s.pc t).hand.last ++ (W t).reverse ++ backOf s.queued (s.pc t).hand.last ++ S.reverse

variable {s s' : State T J P} {loc loc' : J → Loc T} {S S' : List J} {W W' : T → List J} {t u : T}
  {r j : J} {late : J → Prop}

/-- With nothing to walk, the queue and then the stack. -/
theorem line_of_nil (h : W t = []) : line s S W t = s.queued ++ S.reverse := by
  rw [line, h, List.reverse_nil, List.append_nil, frontOf_append_backOf]

theorem mem_line {x : J} : x ∈ line s S W t ↔ x ∈ s.queued ∨ x ∈ W t ∨ x ∈ S := by
  have hq := congrArg (x ∈ ·) (frontOf_append_backOf s.queued (s.pc t).hand.last)
  simp only [List.mem_append, eq_iff_iff] at hq
  simp only [line, List.mem_append, List.mem_reverse]
  rw [← hq]
  tauto

/-- **The job is in the line, and no late one stands before it.** -/
def Ahead (s : State T J P) (S : List J) (W : T → List J) (r : J) (late : J → Prop) : Prop :=
  ∃ t, (∀ u, u ≠ t → W u = []) ∧ First r late (line s S W t)

/-- Which thread may drain does not matter where none does. -/
theorem Ahead.first (h : Ahead s S W r late) (hW : ∀ u, u ≠ t → W u = []) :
    First r late (line s S W t) := by
  obtain ⟨u, hu, h⟩ := h
  by_cases hut : u = t
  · exact hut ▸ h
  · rw [line_of_nil (hu t (Ne.symm hut))]
    rwa [line_of_nil (hW u hut)] at h

theorem Ahead.mem (h : Ahead s S W r late) : r ∈ s.queued ∨ (∃ t, r ∈ W t) ∨ r ∈ S := by
  obtain ⟨t, -, h⟩ := h
  exact (mem_line.mp h.mem).imp_right (Or.imp_left fun hw => ⟨t, hw⟩)

omit [DecidableEq J] in
/-- What hangs from the links is determined by the state. -/
theorem Places.unique (h : Places s loc S W) (h' : Places s loc' S' W') : S' = S ∧ W' = W :=
  ⟨h'.stack.unique h.stack, funext fun t => (h'.walk t).unique (h.walk t)⟩

variable [DecidableEq T] {p : Pc T J P}

omit [DecidableEq J] in
/-- Where neither the links nor what a thread walks change, the same hangs from them. -/
theorem Places.same (h : Places s loc S W) (h' : Places s' loc' S' W') (h1 : s'.stack = s.stack)
    (h2 : s'.link = s.link) (hs : s'.pc = Function.update s.pc t p)
    (hp : p.hand.ahead = (s.pc t).hand.ahead) : S' = S ∧ W' = W := by
  have hstack := h'.stack
  rw [h1, h2] at hstack
  refine ⟨hstack.unique h.stack, funext fun u => ?_⟩
  have hwalk := h'.walk u
  rw [h2, hs] at hwalk
  by_cases hu : u = t
  · subst hu
    rw [Function.update_self, hp] at hwalk
    exact hwalk.unique (h.walk u)
  · rw [Function.update_of_ne hu] at hwalk
    exact hwalk.unique (h.walk u)

/-- **A thread moves on**, and the queue is as it was. -/
theorem Ahead.goto (h : Ahead s S W r late) (hs : s'.pc = Function.update s.pc t p)
    (hq : s'.queued = s.queued) (hp : p.hand.last = (s.pc t).hand.last ∨ W t = []) :
    Ahead s' S W r late := by
  obtain ⟨u, hu, h⟩ := h
  refine ⟨u, hu, ?_⟩
  have hline : line s' S W u = line s S W u := by
    by_cases hut : u = t
    · subst hut
      obtain hp | hW := hp
      · rw [line, line, hs, Function.update_self, hp, hq]
      · rw [line_of_nil hW, line_of_nil hW, hq]
    · rw [line, line, hs, Function.update_of_ne hut, hq]
  rwa [hline]

/-- **A push** is at the end of the line. -/
theorem Ahead.push (h : Ahead s S W r late) (hs : s'.pc = Function.update s.pc t p)
    (hq : s'.queued = s.queued) (hp : p.hand.last = (s.pc t).hand.last) :
    Ahead s' (j :: S) W r late := by
  obtain ⟨u, hu, h⟩ := h.goto hs hq (.inl hp)
  refine ⟨u, hu, ?_⟩
  have hline : line s' (j :: S) W u = line s' S W u ++ [j] := by
    rw [line, line, List.reverse_cons, ← List.append_assoc]
  rw [hline]
  exact h.append [j]

/-- **The exchange** of the stack leaves the line. -/
theorem Ahead.take (h : Ahead s S W r late) (hW : ∀ u, W u = []) (hs : s'.pc = Function.update s.pc t p)
    (hq : s'.queued = s.queued) (hp : p.hand.last = none) :
    Ahead s' [] (Function.update W t S) r late := by
  refine ⟨t, fun u hu => by rw [Function.update_of_ne hu, hW], ?_⟩
  have hfirst := h.first fun u (_ : u ≠ t) => hW u
  rw [line_of_nil (hW t)] at hfirst
  have hline : line s' [] (Function.update W t S) t = s.queued ++ S.reverse := by
    rw [line, hs, Function.update_self, hp, hq, Function.update_self]
    simp [frontOf, backOf]
  rwa [hline]

/-- A drain takes a job out of the line. -/
theorem Ahead.walkAside {R : List J} (h : Ahead s S W r late) (hW : ∀ u, u ≠ t → W u = [])
    (hR : W t = j :: R) (hs : s'.pc = Function.update s.pc t p) (hq : s'.queued = s.queued)
    (hp : p.hand.last = (s.pc t).hand.last) (hj : j ≠ r) :
    Ahead s' S (Function.update W t R) r late := by
  refine ⟨t, fun u hu => by rw [Function.update_of_ne hu, hW u hu], ?_⟩
  have hfirst := h.first hW
  rw [line, hR, List.reverse_cons] at hfirst
  have hline : line s' S (Function.update W t R) t
      = frontOf s.queued (s.pc t).hand.last ++ R.reverse ++
        (backOf s.queued (s.pc t).hand.last ++ S.reverse) := by
    rw [line, hs, Function.update_self, hp, hq, Function.update_self, List.append_assoc]
  rw [hline]
  refine First.remove ?_ hj
  simpa only [List.append_assoc, List.cons_append, List.nil_append] using hfirst

/-- **A drain queues a job** and leaves the line. -/
theorem Ahead.walkQueue {R : List J} {last : Option J} (h : Ahead s S W r late)
    (hW : ∀ u, u ≠ t → W u = []) (hR : W t = j :: R) (hs : s'.pc = Function.update s.pc t p)
    (hl : (s.pc t).hand.last = last) (hlast : ∀ l, last = some l → l ∈ s.queued) (hjq : j ∉ s.queued)
    (hq : s'.queued = s.queueDrained last j) (hp : p.hand.last = some j) :
    Ahead s' S (Function.update W t R) r late := by
  refine ⟨t, fun u hu => by rw [Function.update_of_ne hu, hW u hu], ?_⟩
  have hfirst := h.first hW
  rw [line, hR, List.reverse_cons, hl] at hfirst
  have hqueued : s'.queued = frontOf s.queued last ++ j :: backOf s.queued last := by
    rw [hq]
    cases last <;> rfl
  have hfront : ∀ x ∈ frontOf s.queued last, x ≠ j := by
    rintro x hx rfl
    refine hjq ?_
    rw [← frontOf_append_backOf s.queued last]
    exact List.mem_append_left _ hx
  have htake : frontOf s'.queued (some j) = frontOf s.queued last := by
    rw [hqueued, frontOf, List.takeWhile_append_of_pos (by simpa using hfront),
      List.takeWhile_cons_of_neg (by simp), List.append_nil]
  have hdrop : backOf s'.queued (some j) = j :: backOf s.queued last := by
    rw [hqueued, backOf, List.dropWhile_append_of_pos (by simpa using hfront),
      List.dropWhile_cons_of_neg (by simp)]
  have hline : line s' S (Function.update W t R) t
      = frontOf s.queued last ++ R.reverse ++ j :: backOf s.queued last ++ S.reverse := by
    rw [line, hs, Function.update_self, hp, htake, hdrop, Function.update_self]
  rw [hline]
  simpa only [List.append_assoc, List.cons_append, List.nil_append] using hfirst

omit [DecidableEq T] in
/-- **A job leaves the queue** while nobody drains. -/
theorem Ahead.leave {X Y : List J} (h : Ahead s S W r late) (hW : ∀ u, W u = []) (t : T)
    (hq : s.queued = X ++ j :: Y) (hq' : s'.queued = X ++ Y) (hj : j ≠ r) : Ahead s' S W r late := by
  refine ⟨t, fun u _ => hW u, ?_⟩
  have hfirst := h.first fun u (_ : u ≠ t) => hW u
  rw [line_of_nil (hW t), hq, List.append_assoc] at hfirst
  rw [line_of_nil (hW t), hq', List.append_assoc]
  exact hfirst.remove hj

omit [DecidableEq T] in
/-- A job that is not late comes to the end of the queue. -/
theorem Ahead.enqueue (h : Ahead s S W r late) (hW : ∀ u, W u = []) (t : T)
    (hq : s'.queued = s.queued ++ [j]) (hj : ¬ late j) : Ahead s' S W r late := by
  refine ⟨t, fun u _ => hW u, ?_⟩
  have hfirst := h.first fun u (_ : u ≠ t) => hW u
  rw [line_of_nil (hW t)] at hfirst
  rw [line_of_nil (hW t), hq, List.append_assoc]
  exact hfirst.insert hj

omit [DecidableEq T] in
/-- **The head of the queue** is the first in line. -/
theorem Ahead.not_late {q : List J} (h : Ahead s S W r late) (hW : ∀ u, W u = [])
    (hq : s.queued = j :: q) (hj : j ≠ r) : ¬ late j := by
  obtain ⟨t, -, hfirst⟩ := h
  rw [line_of_nil (hW t), hq] at hfirst
  exact hfirst.head hj

/-! ## Jobs on their way -/

section Steps

variable {cl : Client J P C D}

/-- **A further step** brings no other job, and takes the fast path only when no bit is set. -/
theorem Moved.brings {c : C} (hm : Moved cl s t c s') :
    ∃ p, s'.pc = Function.update s.pc t p ∧ (∀ j, p.Brings j → (s.pc t).Brings j) ∧
      ∀ j, p = .fastEnqueue j →
        s.word.lock = false ∧ s.word.incoming = false ∧ s.word.pending = false := by
  have hnone : ∀ p : Pc T J P, p.hand.coming = none → p.marking = none →
      ∀ j, p.Brings j → (s.pc t).Brings j := by
    intro p h1 h2 j hj
    obtain hj | hj := hj
    · rw [h1] at hj
      cases hj
    · rw [h2] at hj
      cases hj
  cases hm
  case job st _ _ _ _ _ => cases st <;> exact ⟨_, rfl, hnone _ rfl rfl, (by simp)⟩
  case immediateUnblock h₁ | unblockNow h₁ | queuedUnblock h₁ =>
    obtain ⟨-, rfl⟩ := jobToUnblockAnotherJob_eq h₁
    exact ⟨_, rfl, hnone _ rfl rfl, (by simp)⟩
  case immediateCancel k j target imm _ _ =>
    exact ⟨.drainImmediate k imm, by simp [State.goto, State.signal], hnone _ rfl rfl, (by simp)⟩
  case cancelRemove => exact ⟨.runStart, by simp [State.goto], hnone _ rfl rfl, (by simp)⟩
  case queuedCancel old _ _ _ _ _ _ =>
    exact ⟨.runQueued old, by simp [State.goto, State.finish, State.signal], hnone _ rfl rfl,
      (by simp)⟩
  case setBits p _ _ hout | release p _ _ _ hout | unlock p _ _ hout | wakeup p _ hout =>
    refine ⟨p, rfl, ?_, ?_⟩ <;> obtain rfl | ⟨_, rfl⟩ := hout <;>
      first | exact hnone _ rfl rfl | simp
  case drainSkip k _ _ | immediateEnd k _ =>
    refine ⟨k.next, rfl, ?_, ?_⟩ <;> cases k <;>
      first | exact hnone _ rfl rfl | simp [Caller.next]
  case submitSlow hpc _ | push hpc =>
    refine ⟨_, rfl, fun j hj => ?_, (by simp)⟩
    rw [hpc]
    rcases hj with h | h <;> cases h
    exact .inl rfl
  case submitFast hpc hi hpend hl =>
    refine ⟨_, rfl, fun j hj => ?_, fun _ _ => ⟨hl, hi, hpend⟩⟩
    rw [hpc]
    rcases hj with h | h <;> cases h
    exact .inl rfl
  all_goals exact ⟨_, rfl, hnone _ rfl rfl, (by simp)⟩

/-- **A call** brings a job that was not submitted before. -/
theorem Called.brings {op : Op J D} (hpc : s.pc t = .idle) (hc : Called cl s t op s') :
    ∃ p, s'.pc = Function.update s.pc t p ∧ (∀ j, p.Brings j → s.submitted j = false) ∧
      ∀ j, p ≠ .fastEnqueue j := by
  cases hc
  case runReturn | cancelReturn | directReturn =>
    exact ⟨.idle, by simp [← hpc], fun j hj => by (rcases hj with h | h <;> cases h), nofun⟩
  case submit now hj _ =>
    cases now <;>
      exact ⟨_, rfl, fun j hj => by (rcases hj with h | h <;> cases h; assumption), nofun⟩
  case cancelSubmit | unblockSubmit | directSubmit =>
    exact ⟨_, rfl, fun j hj => by (rcases hj with h | h <;> cases h; assumption), nofun⟩
  all_goals exact ⟨_, rfl, fun j hj => by (rcases hj with h | h <;> cases h), nofun⟩

/-- A call leaves the line. -/
theorem Ahead.called {op : Op J D} (ha : Ahead s S W r late) (hp : Places s loc S W)
    (hp' : Places s' loc' S' W') (hpc : s.pc t = .idle) (hc : Called cl s t op s') :
    Ahead s' S' W' r late := by
  cases hc
  case runReturn | cancelReturn | directReturn =>
    obtain ⟨rfl, rfl⟩ := hp.same hp' rfl rfl (t := t) (p := .idle) (by simp [← hpc]) (by simp [hpc])
    exact ha.goto (t := t) (p := .idle) (by simp [← hpc]) rfl (.inl (by simp [hpc]))
  case submit now _ _ =>
    cases now <;>
    · obtain ⟨rfl, rfl⟩ := hp.same hp' rfl rfl rfl (by simp [hpc])
      exact ha.goto rfl rfl (.inl (by simp [hpc]))
  all_goals
    obtain ⟨rfl, rfl⟩ := hp.same hp' rfl rfl rfl (by simp [hpc])
    exact ha.goto rfl rfl (.inl (by simp [hpc]))

end Steps

omit [DecidableEq J] in
/-- **A submission that has returned** stays so. -/
theorem Returned.update {x : J} (h : Returned s x) (hs : s'.pc = Function.update s.pc t p)
    (hp : p.Brings x → (s.pc t).Brings x ∨ s.submitted x = false)
    (hsub : s'.submitted x = true) : Returned s' x := by
  refine ⟨hsub, fun u hu => ?_⟩
  rw [hs] at hu
  by_cases hut : u = t
  · rw [hut, Function.update_self] at hu
    obtain hb | hf := hp hu
    · exact h.2 t hb
    · rw [h.1] at hf
      cases hf
  · rw [Function.update_of_ne hut] at hu
    exact h.2 u hu

/-! ## Who drains -/

omit [DecidableEq J] [DecidableEq T] in
/-- A thread with nothing ahead walks nothing. -/
theorem Places.walks_nil (hp : Places s loc S W) (h : (s.pc t).hand.ahead = .null) : W t = [] := by
  have hwalk := hp.walk t
  rw [h] at hwalk
  exact (Chain.eq_nil_iff hwalk).mpr rfl

omit [DecidableEq J] [DecidableEq T] in
/-- **Only the thread with the lock drains.** -/
theorem Turn.walks_alone (ht : Turn s) (hp : Places s loc S W) (hpc : (s.pc t).holds = true) (u : T)
    (hu : u ≠ t) : W u = [] := by
  refine hp.walks_nil (Pc.hand_of_not_holds ?_).1
  rw [← Bool.not_eq_true]
  exact fun hh => hu (ht.one u t hh hpc)

omit [DecidableEq J] in
theorem Turn.walks_none (ht : Turn s) (hp : Places s loc S W) (hpc : (s.pc t).holds = true)
    (h : (s.pc t).hand.ahead = .null) (u : T) : W u = [] := by
  by_cases hu : u = t
  · exact hu ▸ hp.walks_nil h
  · exact ht.walks_alone hp hpc u hu

omit [DecidableEq J] [DecidableEq T] in
/-- **A job that waits is announced** by one of three bits. -/
theorem Turn.announced (ht : Turn s) (hp : Places s loc S W) {x : J} (hx : Returned s x)
    (hin : x ∈ s.queued ∨ (∃ t, x ∈ W t) ∨ x ∈ S) :
    s.word.lock = true ∨ s.word.incoming = true ∨ s.word.pending = true := by
  by_contra hnone
  simp only [not_or, Bool.not_eq_true] at hnone
  obtain ⟨hl, hi, hpend⟩ := hnone
  have hfree : ∀ u, (s.pc u).holds = false := fun u => by
    rw [← Bool.not_eq_true]
    intro hh
    rw [ht.locked u hh] at hl
    cases hl
  obtain hq | ⟨u, hu⟩ | hS := hin
  · have hne := (ht.rest hl).2.mpr (List.ne_nil_of_mem hq)
    rw [hne] at hpend
    cases hpend
  · rw [hp.walks_nil (Pc.hand_of_not_holds (hfree u)).1] at hu
    exact List.not_mem_nil hu
  · refine hp.not_stack hi (fun u hm => hx.2 u (.inr hm)) (fun u k hu => ?_) ((hp.memStack x).mp hS)
    have hh := hfree u
    rw [hu] at hh
    cases hh

end Delegate
