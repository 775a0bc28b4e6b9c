import Lwlock.DelegateStack
import Lwlock.DelegateTurn

/-!
# Where a job of a delegate is

Between its submission and its end a job is with one thread or on one list: the thread that
is about to push it, the incoming stack, the part of a drained stack that a thread still
has to walk, the requests that thread put aside, `queued_jobs`, or `blocked_jobs`. The
lists are known by their heads and links only, so the invariant names what hangs from them.

Two promises of the bits are part of it. A job on the stack is announced by the incoming
bit, unless its own thread has yet to set the bit, or the drain that takes it is under way.
-/

namespace Delegate

variable {T J P C D : Type}

/-- **Where a job is.** -/
inductive Loc (T : Type)
  /-- Not submitted. -/
  | fresh
  /-- With the thread that submits it. -/
  | coming (t : T)
  /-- On the incoming stack. -/
  | stack
  /-- On the part of the stack that the drain of a thread has to walk. -/
  | rest (t : T)
  /-- Among the requests the drain of a thread put aside. -/
  | aside (t : T)
  | queued
  | blocked
  /-- Done, or cancelled. -/
  | gone
  deriving DecidableEq

/-- What a thread has in hand. -/
structure Hand (J : Type) where
  /-- The job it is about to push or to queue. -/
  coming : Option J
  /-- Where its drain is. -/
  ahead : Ptr J
  /-- The requests its drain put aside. -/
  aside : List J
  /-- The job its drain queued last. -/
  last : Option J

/-- A thread with nothing in hand. -/
@[simp, grind =] def Hand.empty : Hand J := ⟨none, .null, [], none⟩

/-- What a thread at that point has in hand. -/
@[simp, grind =] def Pc.hand : Pc T J P → Hand J
  | .idle => .empty
  | .submitLoop j => ⟨some j, .null, [], none⟩
  | .pushRead j _ => ⟨some j, .null, [], none⟩
  | .pushLink j _ _ => ⟨some j, .null, [], none⟩
  | .pushSwap j _ _ => ⟨some j, .null, [], none⟩
  | .setBits _ _ => .empty
  | .fastEnqueue j => ⟨some j, .null, [], none⟩
  | .runStart => .empty
  | .drainTest _ => .empty
  | .drainClear _ => .empty
  | .drainTake _ => .empty
  | .drainLoop _ p last imm => ⟨none, p, imm, last⟩
  | .drainImmediate _ imm => ⟨none, .null, imm, none⟩
  | .runQueued _ => .empty
  | .release _ => .empty
  | .unlock => .empty
  | .wakeup _ => .empty
  | .waitLock => .empty
  | .cancelRemove _ _ => .empty
  | .unblockNow _ => .empty
  | .waitEvent _ => .empty

/-- The job whose bits the thread has yet to set. -/
@[simp, grind =] def Pc.marking : Pc T J P → Option J
  | .setBits j _ => some j
  | .idle => none
  | .submitLoop _ => none
  | .pushRead _ _ => none
  | .pushLink _ _ _ => none
  | .pushSwap _ _ _ => none
  | .fastEnqueue _ => none
  | .runStart => none
  | .drainTest _ => none
  | .drainClear _ => none
  | .drainTake _ => none
  | .drainLoop _ _ _ _ => none
  | .drainImmediate _ _ => none
  | .runQueued _ => none
  | .release _ => none
  | .unlock => none
  | .wakeup _ => none
  | .waitLock => none
  | .cancelRemove _ _ => none
  | .unblockNow _ => none
  | .waitEvent _ => none

/-- **The invariant**: the places of the jobs agree with the state. `S` is what hangs from
the stack, and `W t` what the drain of `t` has to walk. -/
structure Places (s : State T J P) (loc : J → Loc T) (S : List J) (W : T → List J) : Prop where
  stack : Chain (nextOf s.link) s.stack S
  memStack : ∀ j, j ∈ S ↔ loc j = .stack
  walk : ∀ t, Chain (nextOf s.link) (s.pc t).hand.ahead.target (W t)
  memWalk : ∀ t j, j ∈ W t ↔ loc j = .rest t
  sane : ∀ t, (s.pc t).hand.ahead ≠ .bad
  nodupAside : ∀ t, (s.pc t).hand.aside.Nodup
  memAside : ∀ t j, j ∈ (s.pc t).hand.aside ↔ loc j = .aside t
  last : ∀ t j, (s.pc t).hand.last = some j → j ∈ s.queued
  memQueued : ∀ j, j ∈ s.queued ↔ loc j = .queued
  nodupQueued : s.queued.Nodup
  memBlocked : ∀ j, j ∈ s.blocked ↔ loc j = .blocked
  nodupBlocked : s.blocked.Nodup
  coming : ∀ t j, (s.pc t).hand.coming = some j ↔ loc j = .coming t
  fresh : ∀ j, s.submitted j = false ↔ loc j = .fresh
  stackLink : ∀ j, loc j = .stack → s.link j ≠ .bad
  restLink : ∀ t j, loc j = .rest t → s.link j ≠ .bad
  owned : ∀ j, loc j ≠ .fresh → loc j ≠ .gone → s.owned j = true
  unowned : ∀ j, loc j = .fresh → s.owned j = false
  free : ∀ j, loc j ≠ .fresh → loc j ≠ .blocked → loc j ≠ .gone → s.isBlocked j = false
  isBlocked : ∀ j, loc j = .blocked → s.isBlocked j = true
  marked : ∀ t j, (s.pc t).marking = some j → loc j ≠ .fresh ∧ ∀ u, loc j ≠ .coming u
  announced : s.word.incoming = false → ∀ j, loc j = .stack →
    (∀ t, (s.pc t).marking ≠ some j) → ∃ t k, s.pc t = .drainTake k

attribute [grind →] Places.marked

attribute [grind .] Places.stack Places.memStack Places.walk Places.memWalk Places.sane
  Places.nodupAside Places.memAside Places.last Places.memQueued Places.nodupQueued
  Places.memBlocked Places.nodupBlocked Places.coming Places.fresh Places.stackLink
  Places.restLink Places.owned Places.unowned Places.free Places.isBlocked

/-- The jobs are as they were. -/
structure SameJobs (s s' : State T J P) : Prop where
  stack : s'.stack = s.stack
  link : s'.link = s.link
  queued : s'.queued = s.queued
  blocked : s'.blocked = s.blocked
  owned : s'.owned = s.owned
  isBlocked : s'.isBlocked = s.isBlocked
  submitted : s'.submitted = s.submitted

variable {s s' : State T J P} {loc : J → Loc T} {S : List J} {W : T → List J}

theorem places_init (p : P) :
    Places (init p : State T J P) (fun _ => .fresh) [] (fun _ => []) := by
  constructor <;> simp [init, Chain, Ptr.target]

/-- What a thread has in hand is where the places say. -/
theorem Places.inHand (h : Places s loc S W) {t : T} {H : Hand J} (hH : (s.pc t).hand = H) :
    Chain (nextOf s.link) H.ahead.target (W t) ∧ (∀ j, j ∈ H.aside ↔ loc j = .aside t) ∧
      (∀ j, H.last = some j → j ∈ s.queued) ∧ (∀ j, H.coming = some j ↔ loc j = .coming t) := by
  subst hH
  exact ⟨h.walk t, h.memAside t, h.last t, h.coming t⟩

variable [DecidableEq T] {t : T} {p : Pc T J P}

/-- **What a step may do to the announcement**: it leaves the bit, or takes the stack. -/
def Announces (s s' : State T J P) (t : T) (p : Pc T J P) : Prop :=
  s'.word.incoming = false → (∃ k, p = .drainTake k) ∨
    s.word.incoming = false ∧ (s.pc t).marking = none ∧ ∀ k, s.pc t ≠ .drainTake k

theorem Announces.goto (ha : Announces s s' t p) (hs : s'.pc = Function.update s.pc t p)
    (h : Places s loc S W) (hi : s'.word.incoming = false) (j : J) (hj : loc j = .stack)
    (hm : ∀ u, (s'.pc u).marking ≠ some j) : ∃ u k, s'.pc u = .drainTake k := by
  obtain ⟨k, rfl⟩ | ⟨hi', hmt, htk⟩ := ha hi
  · exact ⟨t, k, by rw [hs, Function.update_self]⟩
  · obtain ⟨u, k, hu⟩ := h.announced hi' j hj fun u hu => by
      have hut : u ≠ t := by
        rintro rfl
        rw [hmt] at hu
        cases hu
      refine hm u ?_
      rw [hs, Function.update_of_ne hut, hu]
    have hut : u ≠ t := by
      rintro rfl
      exact htk k hu
    exact ⟨u, k, by rw [hs, Function.update_of_ne hut, hu]⟩

/-- **A thread moves on** with the same in hand, and the jobs are as they were. -/
theorem Places.goto (h : Places s loc S W) (hj : SameJobs s s')
    (hs : s'.pc = Function.update s.pc t p)
    (hh : p.hand = (s.pc t).hand ∨ p.hand = { (s.pc t).hand with last := none })
    (hm : p.marking = none) (ha : Announces s s' t p) : Places s' loc S W := by
  have hann := ha.goto hs h
  have hhand : ∀ u, (s'.pc u).hand.coming = (s.pc u).hand.coming ∧
      (s'.pc u).hand.ahead = (s.pc u).hand.ahead ∧ (s'.pc u).hand.aside = (s.pc u).hand.aside := by
    intro u
    rw [hs]
    by_cases hut : u = t
    · rw [hut, Function.update_self]
      obtain hh | hh := hh <;> rw [hh] <;> exact ⟨rfl, rfl, rfl⟩
    · rw [Function.update_of_ne hut]
      exact ⟨rfl, rfl, rfl⟩
  constructor
  case announced => exact hann
  case marked =>
    intro u j hu
    rw [hs, Function.update_apply] at hu
    split at hu
    · rw [hm] at hu
      cases hu
    · exact h.marked u j hu
  case last =>
    intro u j hu
    rw [hj.queued]
    by_cases hut : u = t
    · subst hut
      rw [hs, Function.update_self] at hu
      obtain hh | hh := hh
      · exact h.last u j (hh ▸ hu)
      · rw [hh] at hu
        cases hu
    · exact h.last u j (by rwa [hs, Function.update_of_ne hut] at hu)
  case memStack => exact h.memStack
  case memWalk => exact h.memWalk
  all_goals simp only [hj.stack, hj.link, hj.queued, hj.blocked, hj.owned, hj.isBlocked,
    hj.submitted, hhand]
  exacts [h.stack, h.walk, h.sane, h.nodupAside, h.memAside, h.memQueued, h.nodupQueued,
    h.memBlocked, h.nodupBlocked, h.coming, h.fresh, h.stackLink, h.restLink, h.owned, h.unowned,
    h.free, h.isBlocked]

/-! ## Submission -/

section Jobs

variable [DecidableEq J] {j : J}

/-- A submitted job is with its thread. -/
theorem Places.enter (h : Places s loc S W) (hf : s.submitted j = false) (hpc : s.pc t = .idle)
    (hj : SameJobs (s.enter j) s') (hs : s'.pc = Function.update s.pc t p)
    (hp : p.hand = ⟨some j, .null, [], none⟩) (hm : p.marking = none)
    (ha : Announces s s' t p) : Places s' (Function.update loc j (.coming t)) S W := by
  have hfresh : loc j = .fresh := (h.fresh j).mp hf
  obtain ⟨hW, hA, hL, hC⟩ := h.inHand (congrArg Pc.hand hpc)
  have hann := ha.goto hs h
  obtain ⟨h1, h2, h3, h4, h5, h6, h7⟩ := hj
  constructor
  case announced =>
    intro hi x hx
    have hxj : x ≠ j := by
      rintro rfl
      simp at hx
    exact hann hi x (by rwa [Function.update_of_ne hxj] at hx)
  all_goals clear hann
  case memStack | memWalk => grind -linarith [Function.update_apply]
  all_goals simp only [h1, h2, h3, h4, h5, h6, h7, hs, State.enter]
  all_goals grind -linarith [Function.update_apply]

/-- A job on the fast path goes to the end of the queue. -/
theorem Places.fastEnqueue (h : Places s loc S W) (hpc : s.pc t = .fastEnqueue j)
    (hj : SameJobs { s with queued := s.queued ++ [j] } s')
    (hs : s'.pc = Function.update s.pc t .runStart)
    (hi : s'.word.incoming = s.word.incoming) : Places s' (Function.update loc j .queued) S W := by
  obtain ⟨hW, hA, hL, hC⟩ := h.inHand (congrArg Pc.hand hpc)
  have hjt := (hC j).mp rfl
  have hjq : j ∉ s.queued := fun hq => by simp [(h.memQueued j).mp hq] at hjt
  have hann := Announces.goto (p := .runStart) (fun hf => .inr ⟨hi ▸ hf, by simp [hpc], by simp [hpc]⟩)
    hs h
  obtain ⟨h1, h2, h3, h4, h5, h6, h7⟩ := hj
  constructor
  case announced =>
    intro hf x hx
    have hxj : x ≠ j := by
      rintro rfl
      simp at hx
    exact hann hf x (by rwa [Function.update_of_ne hxj] at hx)
  all_goals clear hann
  case memStack | memWalk => grind -linarith [Function.update_apply]
  case nodupQueued =>
    rw [h3]
    refine List.nodup_append.mpr ⟨h.nodupQueued, List.nodup_singleton j, ?_⟩
    rintro x hx y hy rfl
    exact hjq (List.mem_singleton.mp hy ▸ hx)
  all_goals simp only [h1, h2, h3, h4, h5, h6, h7, hs]
  all_goals grind -linarith [Function.update_apply]

/-- **The push.** -/
theorem Places.push {lock : Bool} (h : Places s loc S W) (hpc : s.pc t = .pushRead j lock)
    (hj : SameJobs { s with
      link := Function.update s.link j (Ptr.ofTop s.stack)
      stack := some j } s')
    (hs : s'.pc = Function.update s.pc t (.setBits j lock))
    (hi : s'.word.incoming = s.word.incoming) :
    Places s' (Function.update loc j .stack) (j :: S) W := by
  obtain ⟨hW, hA, hL, hC⟩ := h.inHand (congrArg Pc.hand hpc)
  have hjt := (hC j).mp rfl
  have hjS : j ∉ S := fun hm => by simp [(h.memStack j).mp hm] at hjt
  have hjW : ∀ u, j ∉ W u := fun u hm => by simp [(h.memWalk u j).mp hm] at hjt
  have hn : nextOf (Function.update s.link j (Ptr.ofTop s.stack)) j = s.stack := by
    rw [nextOf, Function.update_self]
    cases s.stack <;> rfl
  have hbad : Ptr.ofTop s.stack ≠ .bad := by cases s.stack <;> simp [Ptr.ofTop]
  obtain ⟨h1, h2, h3, h4, h5, h6, h7⟩ := hj
  constructor
  case announced =>
    intro hf x hx hm
    have hxj : x ≠ j := by
      rintro rfl
      exact hm t (by simp [hs])
    rw [Function.update_of_ne hxj] at hx
    obtain ⟨u, k, hu⟩ := h.announced (hi ▸ hf) x hx fun u => by
      by_cases hut : u = t
      · subst hut
        simp [hpc]
      · simpa [hs, hut] using hm u
    have hut : u ≠ t := by
      rintro rfl
      rw [hpc] at hu
      cases hu
    exact ⟨u, k, by rw [hs, Function.update_of_ne hut, hu]⟩
  case stack =>
    rw [h1, h2]
    exact (Books.chain_relink h.stack hjS _).push hn
  case walk =>
    intro u
    rw [h2, hs]
    by_cases hut : u = t
    · subst hut
      rw [Function.update_self]
      exact Books.chain_relink hW (hjW u) _
    · rw [Function.update_of_ne hut]
      exact Books.chain_relink (h.walk u) (hjW u) _
  case memStack | memWalk => grind -linarith [Function.update_apply]
  all_goals simp only [h2, h3, h4, h5, h6, h7, hs]
  all_goals grind -linarith [Function.update_apply]

/-! ## The drain -/

/-- **The exchange**: what hung from the stack is for the drain to walk. -/
theorem Places.take {k : Caller J P} (h : Places s loc S W) (hpc : s.pc t = .drainTake k)
    (hj : SameJobs { s with stack := none } s')
    (hs : s'.pc = Function.update s.pc t (.drainLoop k (Ptr.ofTop s.stack) none [])) :
    Places s' (fun j => if loc j = .stack then .rest t else loc j) [] (Function.update W t S) := by
  obtain ⟨hW, hA, hL, hC⟩ := h.inHand (congrArg Pc.hand hpc)
  have hWt : W t = [] := (Chain.eq_nil_iff hW).mpr rfl
  have htop : (Ptr.ofTop s.stack).target = s.stack := by cases s.stack <;> rfl
  have hbad : Ptr.ofTop s.stack ≠ .bad := by cases s.stack <;> simp [Ptr.ofTop]
  obtain ⟨h1, h2, h3, h4, h5, h6, h7⟩ := hj
  constructor
  case announced =>
    intro _ x hx
    grind -linarith
  case walk =>
    intro u
    rw [h2, hs]
    by_cases hut : u = t
    · subst hut
      rw [Function.update_self, Function.update_self]
      simpa [htop] using h.stack
    · rw [Function.update_of_ne hut, Function.update_of_ne hut]
      exact h.walk u
  case memStack | memWalk => grind -linarith [Function.update_apply]
  case stack =>
    rw [h1]
    rfl
  all_goals simp only [h2, h3, h4, h5, h6, h7, hs]
  all_goals grind -linarith [Function.update_apply]

omit [DecidableEq T] [DecidableEq J] in
/-- The job a drain looks at is the first it has to walk. -/
theorem Places.rest_eq {k : Caller J P} {last : Option J} {imm : List J} (h : Places s loc S W)
    (hpc : s.pc t = .drainLoop k (.job j) last imm) : ∃ R, W t = j :: R := by
  obtain ⟨hW, -⟩ := h.inHand (congrArg Pc.hand hpc)
  cases hw : W t with
  | nil =>
    rw [hw] at hW
    exact absurd hW (Option.some_ne_none j)
  | cons a R =>
    rw [hw] at hW
    obtain rfl : j = a := Option.some.inj hW.1
    exact ⟨R, rfl⟩

omit [DecidableEq T] in
/-- Poisoning the link of that job leaves the other chains alone. -/
theorem Places.walk_relink {k : Caller J P} {last : Option J} {imm : List J}
    (h : Places s loc S W) (hpc : s.pc t = .drainLoop k (.job j) last imm) :
    loc j = .rest t ∧ s.link j ≠ .bad ∧ j ∉ (W t).tail ∧
      Chain (nextOf (Function.update s.link j .bad)) s.stack S ∧
      Chain (nextOf (Function.update s.link j .bad)) (s.link j).target (W t).tail ∧
      ∀ u, u ≠ t → Chain (nextOf (Function.update s.link j .bad)) (s.pc u).hand.ahead.target (W u) := by
  obtain ⟨hW, -⟩ := h.inHand (congrArg Pc.hand hpc)
  obtain ⟨R, hR⟩ := h.rest_eq hpc
  have hjt : loc j = .rest t := (h.memWalk t j).mp (hR ▸ List.mem_cons_self)
  have hjS : j ∉ S := fun hm => by simp [(h.memStack j).mp hm] at hjt
  have hjW : ∀ u, u ≠ t → j ∉ W u := fun u hu hm => by
    rw [(h.memWalk u j).mp hm, Loc.rest.injEq] at hjt
    exact hu hjt
  rw [hR] at hW ⊢
  have hjR : j ∉ R := (List.nodup_cons.mp hW.nodup).1
  exact ⟨hjt, h.restLink t j hjt, hjR, Books.chain_relink h.stack hjS _,
    Books.chain_relink hW.2 hjR _, fun u hu => Books.chain_relink (h.walk u) (hjW u hu) _⟩

/-- A request is put aside. -/
theorem Places.walkAside {k : Caller J P} {last : Option J} {imm : List J} (h : Places s loc S W)
    (hpc : s.pc t = .drainLoop k (.job j) last imm)
    (hj : SameJobs { s with link := Function.update s.link j .bad } s')
    (hs : s'.pc = Function.update s.pc t (.drainLoop k (s.link j) last (imm ++ [j])))
    (hi : s'.word.incoming = s.word.incoming) :
    Places s' (Function.update loc j (.aside t)) S (Function.update W t (W t).tail) := by
  obtain ⟨-, hA, hL, hC⟩ := h.inHand (congrArg Pc.hand hpc)
  obtain ⟨R, hR⟩ := h.rest_eq hpc
  obtain ⟨hjt, hbad, hjR, hstack, hwalk, hwalk'⟩ := h.walk_relink hpc
  have hji : j ∉ imm := fun hm => by simp [(hA j).mp hm] at hjt
  have himm := h.nodupAside t
  rw [hpc] at himm
  have hann := Announces.goto (p := .drainLoop k (s.link j) last (imm ++ [j]))
    (fun hf => .inr ⟨hi ▸ hf, by simp [hpc], by simp [hpc]⟩) hs h
  obtain ⟨h1, h2, h3, h4, h5, h6, h7⟩ := hj
  constructor
  case announced =>
    intro hf x hx
    have hxj : x ≠ j := by
      rintro rfl
      simp at hx
    exact hann hf x (by rwa [Function.update_of_ne hxj] at hx)
  all_goals clear hann
  case stack =>
    rw [h1, h2]
    exact hstack
  case walk =>
    intro u
    rw [h2, hs]
    by_cases hut : u = t
    · subst hut
      rw [Function.update_self, Function.update_self]
      exact hwalk
    · rw [Function.update_of_ne hut, Function.update_of_ne hut]
      exact hwalk' u hut
  case nodupAside =>
    intro u
    rw [hs]
    by_cases hut : u = t
    · subst hut
      rw [Function.update_self]
      refine List.nodup_append.mpr ⟨himm, List.nodup_singleton j, ?_⟩
      rintro x hx y hy rfl
      exact hji (List.mem_singleton.mp hy ▸ hx)
    · rw [Function.update_of_ne hut]
      exact h.nodupAside u
  all_goals rw [hR, List.tail_cons] at hjR
  case memStack | memWalk => grind -linarith [Function.update_apply]
  all_goals simp only [h2, h3, h4, h5, h6, h7, hs]
  all_goals grind -linarith [Function.update_apply]

omit [DecidableEq T] in
theorem mem_queueDrained (last : Option J) (j x : J) :
    x ∈ s.queueDrained last j ↔ x = j ∨ x ∈ s.queued := by
  cases last with
  | none => simp [State.queueDrained, or_comm]
  | some l =>
    have hq := List.takeWhile_append_dropWhile (p := fun y => decide (y ≠ l)) (l := s.queued)
    rw [State.queueDrained, insertBefore, ← hq, List.mem_append, List.mem_cons, List.mem_append]
    simp only [hq]
    tauto

omit [DecidableEq T] in
theorem nodup_queueDrained (hq : s.queued.Nodup) (last : Option J) (hj : j ∉ s.queued) :
    (s.queueDrained last j).Nodup := by
  have hperm : (s.queueDrained last j).Perm (j :: s.queued) := by
    cases last with
    | none => exact List.perm_append_singleton j s.queued
    | some l =>
      refine List.perm_middle.trans (List.Perm.cons j ?_)
      rw [List.takeWhile_append_dropWhile]
  exact hperm.nodup_iff.mpr (List.nodup_cons.mpr ⟨hj, hq⟩)

/-- A job is queued. -/
theorem Places.walkQueue {k : Caller J P} {last : Option J} {imm : List J} (h : Places s loc S W)
    (hpc : s.pc t = .drainLoop k (.job j) last imm)
    (hj : SameJobs { s with
      link := Function.update s.link j .bad
      queued := s.queueDrained last j } s')
    (hs : s'.pc = Function.update s.pc t (.drainLoop k (s.link j) (some j) imm))
    (hi : s'.word.incoming = s.word.incoming) :
    Places s' (Function.update loc j .queued) S (Function.update W t (W t).tail) := by
  obtain ⟨-, hA, hL, hC⟩ := h.inHand (congrArg Pc.hand hpc)
  obtain ⟨R, hR⟩ := h.rest_eq hpc
  obtain ⟨hjt, hbad, hjR, hstack, hwalk, hwalk'⟩ := h.walk_relink hpc
  have hjq : j ∉ s.queued := fun hm => by simp [(h.memQueued j).mp hm] at hjt
  have himm := h.nodupAside t
  rw [hpc] at himm
  have hann := Announces.goto (p := .drainLoop k (s.link j) (some j) imm)
    (fun hf => .inr ⟨hi ▸ hf, by simp [hpc], by simp [hpc]⟩) hs h
  have hmem := mem_queueDrained (s := s) last j
  obtain ⟨h1, h2, h3, h4, h5, h6, h7⟩ := hj
  constructor
  case announced =>
    intro hf x hx
    have hxj : x ≠ j := by
      rintro rfl
      simp at hx
    exact hann hf x (by rwa [Function.update_of_ne hxj] at hx)
  all_goals clear hann
  case stack =>
    rw [h1, h2]
    exact hstack
  case walk =>
    intro u
    rw [h2, hs]
    by_cases hut : u = t
    · subst hut
      rw [Function.update_self, Function.update_self]
      exact hwalk
    · rw [Function.update_of_ne hut, Function.update_of_ne hut]
      exact hwalk' u hut
  case nodupQueued =>
    rw [h3]
    exact nodup_queueDrained h.nodupQueued last hjq
  all_goals rw [hR, List.tail_cons] at hjR
  case memStack | memWalk => grind -linarith [Function.update_apply]
  all_goals simp only [h2, h3, h4, h5, h6, h7, hs, hmem]
  all_goals grind -linarith [Function.update_apply]

/-! ## The lists of the delegate -/

/-- A request that was put aside is run. -/
theorem Places.asideDone {k : Caller J P} {imm : List J} (h : Places s loc S W)
    (hpc : s.pc t = .drainImmediate k (j :: imm)) (hj : SameJobs s s')
    (hs : s'.pc = Function.update s.pc t (.drainImmediate k imm))
    (hi : s'.word.incoming = s.word.incoming) : Places s' (Function.update loc j .gone) S W := by
  obtain ⟨hW, hA, hL, hC⟩ := h.inHand (congrArg Pc.hand hpc)
  have hjt := (hA j).mp List.mem_cons_self
  have himm := h.nodupAside t
  rw [hpc] at himm
  have hann := Announces.goto (p := .drainImmediate k imm)
    (fun hf => .inr ⟨hi ▸ hf, by simp [hpc], by simp [hpc]⟩) hs h
  obtain ⟨h1, h2, h3, h4, h5, h6, h7⟩ := hj
  constructor
  case announced =>
    intro hf x hx
    have hxj : x ≠ j := by
      rintro rfl
      simp at hx
    exact hann hf x (by rwa [Function.update_of_ne hxj] at hx)
  all_goals clear hann
  case memStack | memWalk => grind -linarith [Function.update_apply]
  all_goals simp only [h1, h2, h3, h4, h5, h6, h7, hs]
  all_goals grind -linarith [Function.update_apply]

/-- No drain is between two insertions. -/
def Settled (s : State T J P) : Prop := ∀ t, (s.pc t).hand.last = none

omit [DecidableEq T] [DecidableEq J] in
/-- **The jobs of the two lists are moved** between them, or leave. -/
theorem Places.relist {loc' : J → Loc T} (h : Places s loc S W) (hset : Settled s)
    (hpc : s'.pc = s.pc) (hstack : s'.stack = s.stack) (hlink : s'.link = s.link)
    (hsub : s'.submitted = s.submitted) (hi : s'.word.incoming = s.word.incoming)
    (hloc : ∀ j, loc' j = loc j ∨ (loc j = .queued ∨ loc j = .blocked) ∧
      (loc' j = .queued ∨ loc' j = .blocked ∨ loc' j = .gone))
    (hq : ∀ j, j ∈ s'.queued ↔ loc' j = .queued) (hqn : s'.queued.Nodup)
    (hb : ∀ j, j ∈ s'.blocked ↔ loc' j = .blocked) (hbn : s'.blocked.Nodup)
    (howned : ∀ j, loc' j ≠ .gone → s'.owned j = s.owned j)
    (hfree : ∀ j, loc' j = .queued → s'.isBlocked j = false)
    (hblocked : ∀ j, loc' j = .blocked → s'.isBlocked j = true)
    (hother : ∀ j, loc' j = loc j → loc j ≠ .gone → s'.isBlocked j = s.isBlocked j) :
    Places s' loc' S W := by
  constructor
  case announced =>
    intro hf x hx
    rw [hpc]
    exact h.announced (hi ▸ hf) x (by grind -linarith)
  case memQueued => exact hq
  case nodupQueued => exact hqn
  case memBlocked => exact hb
  case nodupBlocked => exact hbn
  case isBlocked => exact hblocked
  case memStack | memWalk | owned | unowned | free => grind -linarith
  all_goals simp only [hstack, hlink, hsub, hpc]
  all_goals grind -linarith [Settled]

omit [DecidableEq T] in
/-- **A cancel** takes its target from the list it is on. -/
theorem Places.cancel (h : Places s loc S W) (hset : Settled s) (r target : J) :
    Places (s.delegateCancelJob r target)
      (if s.stillWith target then Function.update loc target .gone else loc) S W := by
  have hq := queued_delegateCancelJob s r target
  have hb := blocked_delegateCancelJob s r target
  have hn : ∀ l : List J, l.Nodup → ∀ x, x ∈ l.erase target ↔ x ≠ target ∧ x ∈ l :=
    fun l hl x => hl.mem_erase_iff
  have hib : ∀ x, (s.delegateCancelJob r target).isBlocked x = s.isBlocked x := by simp
  have ho : ∀ x, (s.delegateCancelJob r target).owned x = s.owned x := by simp
  have hnq := h.nodupQueued
  have hnb := h.nodupBlocked
  have hstill : s.stillWith target = true ↔ s.owned target = true ∧
      (if s.isBlocked target then target ∈ s.blocked else target ∈ s.queued) := by
    unfold State.stillWith
    cases s.isBlocked target <;> simp
  by_cases hw : s.stillWith target
  · rw [if_pos hw]
    obtain ⟨-, hin⟩ := hstill.mp hw
    refine h.relist hset (by simp) (by simp) (by simp) (by simp) (by simp) ?_ ?_ ?_ ?_ ?_ ?_ ?_ ?_ ?_
    case refine_3 =>
      rw [hq]
      split
      · exact hnq.erase _
      · exact hnq
    case refine_5 =>
      rw [hb]
      split
      · exact hnb.erase _
      · exact hnb
    all_goals grind -linarith [Function.update_apply]
  · rw [if_neg hw]
    rw [if_neg fun hc => hw hc.1] at hq hb
    refine h.relist hset (by simp) (by simp) (by simp) (by simp) (by simp) ?_ ?_ ?_ ?_ ?_ ?_ ?_ ?_ ?_
    all_goals grind -linarith

omit [DecidableEq T] in
/-- **An unblock** moves its target to the end of the queue. -/
theorem Places.unblock {s₁ : State T J P} {target : J} (h : Places s loc S W) (hset : Settled s)
    (hb : loc target = .blocked) (h₁ : s.jobToUnblockAnotherJob target = some s₁) :
    Places s₁ (Function.update loc target .queued) S W := by
  obtain ⟨-, rfl⟩ := jobToUnblockAnotherJob_eq h₁
  have hq : target ∉ s.queued := fun hm => by simp [(h.memQueued target).mp hm] at hb
  have hn : ∀ x, x ∈ s.blocked.erase target ↔ x ≠ target ∧ x ∈ s.blocked :=
    fun x => h.nodupBlocked.mem_erase_iff
  refine h.relist hset rfl rfl rfl rfl rfl ?_ ?_ ?_ ?_ (h.nodupBlocked.erase _) ?_ ?_ ?_ ?_
  case refine_3 =>
    refine List.nodup_append.mpr ⟨h.nodupQueued, List.nodup_singleton target, ?_⟩
    rintro x hx y hy rfl
    exact hq (List.mem_singleton.mp hy ▸ hx)
  all_goals grind -linarith [Function.update_apply]

omit [DecidableEq T] in
/-- The job at the head of the queue is done. -/
theorem Places.finish {q : List J} (h : Places s loc S W) (hset : Settled s)
    (hq : s.queued = j :: q) : Places (s.finish j) (Function.update loc j .gone) S W := by
  have hnq := h.nodupQueued
  have hmq := h.memQueued
  rw [hq] at hnq hmq
  obtain ⟨hjq, hnq⟩ := List.nodup_cons.mp hnq
  have ho : ∀ x, (s.finish j).owned x = Function.update s.owned j false x := fun _ => rfl
  have hib : ∀ x, (s.finish j).isBlocked x = s.isBlocked x := fun _ => rfl
  refine h.relist hset rfl rfl rfl rfl rfl ?_ ?_ ?_ ?_ h.nodupBlocked ?_ ?_ ?_ ?_
  all_goals grind -linarith [Function.update_apply, State.finish, State.signal]

omit [DecidableEq T] in
/-- The job at the head of the queue is blocked. -/
theorem Places.block {q : List J} (h : Places s loc S W) (hset : Settled s)
    (hq : s.queued = j :: q) :
    Places { s with
      isBlocked := Function.update s.isBlocked j true
      queued := s.queued.tail
      blocked := s.blocked ++ [j] } (Function.update loc j .blocked) S W := by
  have hnq := h.nodupQueued
  have hmq := h.memQueued
  rw [hq] at hnq hmq
  obtain ⟨hjq, hnq⟩ := List.nodup_cons.mp hnq
  have hjb : j ∉ s.blocked := fun hm => by
    have := (hmq j).mp List.mem_cons_self
    simp [(h.memBlocked j).mp hm] at this
  refine h.relist hset rfl rfl rfl rfl rfl ?_ ?_ ?_ ?_ ?_ ?_ ?_ ?_ ?_
  case refine_5 =>
    refine List.nodup_append.mpr ⟨h.nodupBlocked, List.nodup_singleton j, ?_⟩
    rintro x hx y hy rfl
    exact hjb (List.mem_singleton.mp hy ▸ hx)
  all_goals grind -linarith [Function.update_apply]

omit [DecidableEq T] [DecidableEq J] in
/-- The job at the head of the queue goes to its end. -/
theorem Places.rotate {q : List J} (h : Places s loc S W) (hset : Settled s)
    (hq : s.queued = j :: q) : Places { s with queued := s.queued.tail ++ [j] } loc S W := by
  have hperm : (s.queued.tail ++ [j]).Perm s.queued := by
    rw [hq]
    exact List.perm_append_singleton j q
  refine h.relist hset rfl rfl rfl rfl rfl (fun _ => .inl rfl) ?_ ?_ h.memBlocked h.nodupBlocked
    (fun _ _ => rfl) ?_ h.isBlocked (fun _ _ _ => rfl)
  · exact fun x => hperm.mem_iff.trans (h.memQueued x)
  · exact hperm.nodup_iff.mpr h.nodupQueued
  · intro x hx
    exact h.free x (by simp [hx]) (by simp [hx]) (by simp [hx])

omit [DecidableEq T] in
/-- **A job that is still with the delegate** is on one of its lists. -/
theorem Places.stillWith_iff (h : Places s loc S W) :
    s.stillWith j = true ↔ loc j = .queued ∨ loc j = .blocked := by
  rw [← h.memQueued j, ← h.memBlocked j]
  unfold State.stillWith
  have hq : j ∈ s.queued → s.isBlocked j = false ∧ s.owned j = true := by
    rw [h.memQueued]
    exact fun hl => ⟨h.free j (by simp [hl]) (by simp [hl]) (by simp [hl]),
      h.owned j (by simp [hl]) (by simp [hl])⟩
  have hb : j ∈ s.blocked → s.isBlocked j = true ∧ s.owned j = true := by
    rw [h.memBlocked]
    exact fun hl => ⟨h.isBlocked j hl, h.owned j (by simp [hl]) (by simp [hl])⟩
  cases hib : s.isBlocked j <;> grind -linarith

end Jobs

omit [DecidableEq T] in
/-- A job that is gone is found nowhere by following links. -/
theorem Places.not_at {j : J} (hp : Places s loc S W) (hj : loc j = .gone) (x : Books.Place T) : ¬ s.books.At j x := by
  have hview : ∀ t q imm, (s.pc t).view = .draining q imm →
      q = (s.pc t).hand.ahead ∧ imm = (s.pc t).hand.aside := by
    intro t q imm hv
    cases hpc : s.pc t <;> rw [hpc] at hv <;> cases hv <;> exact ⟨rfl, rfl⟩
  cases x with
  | stack =>
    rintro ⟨L, hL, hm⟩
    rw [Chain.unique hL hp.stack, hp.memStack, hj] at hm
    cases hm
  | drain t =>
    rintro ⟨q, imm, L, hv, hL, hm⟩
    obtain ⟨rfl, -⟩ := hview t q imm hv
    rw [Chain.unique hL (hp.walk t), hp.memWalk, hj] at hm
    cases hm
  | immediate t =>
    rintro ⟨q, imm, hv, hm⟩
    obtain ⟨-, rfl⟩ := hview t q imm hv
    rw [hp.memAside, hj] at hm
    cases hm

/-! ## What a cancel leaves -/

section Cancel

variable [DecidableEq J] {j : J}

omit [DecidableEq T] in
/-- **A cancel leaves the lists in order**, without its target. -/
theorem Places.queued_cancel (h : Places s loc S W) (r j : J) :
    (s.delegateCancelJob r j).queued = s.queued.filter fun x => x ≠ j := by
  have hstill := h.stillWith_iff (j := j)
  rw [queued_delegateCancelJob]
  split
  · rw [h.nodupQueued.erase_eq_filter]
    exact List.filter_congr fun x _ => by by_cases hx : x = j <;> simp [hx]
  · rename_i hw
    refine (List.filter_eq_self.mpr fun x hx => ?_).symm
    rw [decide_eq_true_eq]
    rintro rfl
    have hl := (h.memQueued x).mp hx
    exact hw ⟨hstill.mpr (.inl hl), h.free x (by simp [hl]) (by simp [hl]) (by simp [hl])⟩

omit [DecidableEq T] in
theorem Places.blocked_cancel (h : Places s loc S W) (r j : J) :
    (s.delegateCancelJob r j).blocked = s.blocked.filter fun x => x ≠ j := by
  have hstill := h.stillWith_iff (j := j)
  rw [blocked_delegateCancelJob]
  split
  · rw [h.nodupBlocked.erase_eq_filter]
    exact List.filter_congr fun x _ => by by_cases hx : x = j <;> simp [hx]
  · rename_i hw
    refine (List.filter_eq_self.mpr fun x hx => ?_).symm
    rw [decide_eq_true_eq]
    rintro rfl
    have hl := (h.memBlocked x).mp hx
    exact hw ⟨hstill.mpr (.inr hl), h.isBlocked x hl⟩

omit [DecidableEq T] in
/-- Nor does the filter by a job that is not there change a list. -/
theorem filter_and_of_not_mem {l : List J} {r : J} (hr : r ∉ l) (j : J) :
    l.filter (fun x => x ≠ j ∧ x ≠ r) = l.filter fun x => x ≠ j := by
  refine List.filter_congr fun x hx => ?_
  have hxr : x ≠ r := fun he => hr (he ▸ hx)
  simp [hxr]

end Cancel

/-! ## The one drain -/

omit [DecidableEq T] in
theorem Pc.hand_of_not_holds {p : Pc T J P} (hp : p.holds = false) :
    p.hand.ahead = .null ∧ p.hand.aside = [] ∧ p.hand.last = none := by
  cases p <;> simp at hp <;> simp

omit [DecidableEq T] in
/-- While a thread has the lock and walks no stack, no thread does. -/
theorem Turn.settled (ht : Turn s) (hpc : (s.pc t).holds = true)
    (hl : (s.pc t).hand.last = none) : Settled s := by
  intro u
  cases hu : (s.pc u).holds with
  | true =>
    obtain rfl := ht.one u t hu hpc
    exact hl
  | false => exact (Pc.hand_of_not_holds hu).2.2

omit [DecidableEq T] in
theorem Places.no_rest (h : Places s loc S W) (ht : Turn s) (hpc : (s.pc t).holds = true)
    (hl : (s.pc t).hand.ahead = .null) (j : J) (u : T) : loc j ≠ .rest u := by
  have hu : (s.pc u).hand.ahead = .null := by
    cases hu : (s.pc u).holds with
    | true =>
      obtain rfl := ht.one u t hu hpc
      exact hl
    | false => exact (Pc.hand_of_not_holds hu).1
  have hW := h.walk u
  rw [hu] at hW
  rw [ne_eq, ← h.memWalk, (Chain.eq_nil_iff hW).mpr rfl]
  exact List.not_mem_nil

end Delegate
