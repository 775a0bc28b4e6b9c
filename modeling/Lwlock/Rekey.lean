import Lwlock.DList
import Lwlock.RwBitlockOrder

/-!
# Rekeying a bitlock

`lw_bitlock64_rekey` moves all that waits for one bitlock to another one. Both
locks are held by the caller, on words of 64 bits and with the same three bits.
The waiters are taken off the wait list of the old word while the list is
walked, collected in a list of their own, and appended one by one to the wait
list of the new word – which may be the list they came from. The bits follow
from what was found, by masked swaps that may fail and are not looked at.

The lists are those of `DList`, with their links: the walk reads the link to the
next waiter before it takes one off.
-/

namespace Rekey

open DList

variable {A ι ν : Type*} [DecidableEq A] [DecidableEq ι] [DecidableEq ν]

/-- The three bits of the locks, and the wait list of each word. -/
structure Config (A ι : Type*) where
  lockAt : ℕ
  waitAt : ℕ
  cvAt : ℕ
  hash : A → ι
  lockAt_lt : lockAt < 64
  waitAt_lt : waitAt < 64
  cvAt_lt : cvAt < 64
  lock_ne_wait : lockAt ≠ waitAt
  lock_ne_cv : lockAt ≠ cvAt
  wait_ne_cv : waitAt ≠ cvAt

namespace Config

variable (cfg : Config A ι)

/-- `lock_mask`. -/
def lockMask : BitVec 64 := Word.bit 64 cfg.lockAt

/-- `wait_mask`. -/
def waitMask : BitVec 64 := Word.bit 64 cfg.waitAt

/-- `cv_mask`. -/
def cvMask : BitVec 64 := Word.bit 64 cfg.cvAt

/-- `wait_tag`. -/
def waitTag : BitVec 64 := cfg.lockMask ||| cfg.waitMask

/-- `cv_tag`. -/
def cvTag : BitVec 64 := cfg.lockMask ||| cfg.cvMask

end Config

/-- The words, the wait lists and the waiters. -/
structure State (A ι ν : Type*) where
  /-- The words, by address. -/
  word : A → BitVec 64
  /-- The links of the waiters. -/
  links : Links ν
  /-- The headers of the wait lists. -/
  lists : ι → Header ν
  /-- `wait_src` of the waiters. -/
  src : ν → Option A
  /-- `event.tag` of the waiters. -/
  tag : ν → BitVec 64

/-- The local variables of the call. -/
structure Locals (ν : Type*) where
  /-- `waiters_to_move`. -/
  toMove : Header ν
  haveLockWaiter : Bool
  haveCvWaiter : Bool

namespace State

variable (cfg : Config A ι) (bad : ν)

/-- Whether the walk takes a waiter off the list. -/
def waitsFor (s : State A ι ν) (lock : A) (w : ν) : Bool :=
  decide (s.src w = some lock) && (decide (s.tag w = cfg.cvTag) || decide (s.tag w = cfg.waitTag))

/-- A waiter goes from the wait list to the list of those to move, and waits for
the new lock. -/
def takeWaiter (s : State A ι ν) (x : Locals ν) (lock newlock : A) (w : ν) :
    State A ι ν × Locals ν :=
  let r := remove bad s.links (s.lists (cfg.hash lock)) w
  let q := appendAtEnd r.1 x.toMove w
  ({ s with
      links := q.1
      lists := Function.update s.lists (cfg.hash lock) r.2
      src := Function.update s.src w (some newlock) },
    { toMove := q.2
      haveLockWaiter := x.haveLockWaiter || decide (s.tag w = cfg.waitTag)
      haveCvWaiter := x.haveCvWaiter || decide (s.tag w = cfg.cvTag) })

/-- **The walk through the wait list of the old lock**, for as many turns as
`fuel` allows. -/
def walk (lock newlock : A) : ℕ → Option ν → State A ι ν × Locals ν → Option (State A ι ν × Locals ν)
  | _, none, p => some p
  | 0, some _, _ => none
  | fuel + 1, some w, p =>
    let next := p.1.links.next w
    walk lock newlock fuel next
      (if p.1.waitsFor cfg lock w then p.1.takeWaiter cfg bad p.2 lock newlock w else p)

/-- A waiter goes from the list of those to move to the wait list of the new
lock. -/
def putWaiter (s : State A ι ν) (x : Locals ν) (newlock : A) (w : ν) : State A ι ν × Locals ν :=
  let r := remove bad s.links x.toMove w
  let q := appendAtEnd r.1 (s.lists (cfg.hash newlock)) w
  ({ s with links := q.1, lists := Function.update s.lists (cfg.hash newlock) q.2 },
    { x with toMove := r.2 })

/-- **The loop that empties the list of those to move**, for as many turns as
`fuel` allows. -/
def putAll (newlock : A) : ℕ → Option ν → State A ι ν × Locals ν → Option (State A ι ν × Locals ν)
  | _, none, p => some p
  | 0, some _, _ => none
  | fuel + 1, some w, p =>
    let next := p.1.links.next w
    putAll newlock fuel next (p.1.putWaiter cfg bad p.2 newlock w)

/-- A masked swap of the bits of a mask, whose result is ignored. -/
def swapIgnore (s : State A ι ν) (a : A) (mask old new : BitVec 64) : State A ι ν :=
  { s with
    word := Function.update s.word a
      ((Word.swapWithMask (s.word a) (~~~mask) old new).getD (s.word a)) }

/-- One of the two bits goes to the new lock. -/
def moveBit (s : State A ι ν) (lock newlock : A) (mask : BitVec 64) : State A ι ν :=
  (s.swapIgnore newlock mask 0 mask).swapIgnore lock mask mask 0

/-- **`lw_bitlock64_rekey`**; none where its check fails, or `fuel` does not
suffice for the loops. -/
def rekey (fuel : ℕ) (s : State A ι ν) (lock newlock : A) : Option (State A ι ν) :=
  if s.word lock &&& cfg.waitMask = 0 ∧ s.word lock &&& cfg.cvMask = 0 then some s
  else
    (walk cfg bad lock newlock fuel (s.lists (cfg.hash lock)).head
      (s, ⟨Header.init, false, false⟩)).bind fun p =>
    if p.2.toMove.count = 0 then none
    else
      (putAll cfg bad newlock fuel p.2.toMove.head p).map fun p =>
        let s := if p.2.haveLockWaiter then p.1.moveBit lock newlock cfg.waitMask else p.1
        if p.2.haveCvWaiter then s.moveBit lock newlock cfg.cvMask else s

end State

open State

/-! ## What is asked for -/

/-- The lists that the headers and the links stand for, a waiter being on one of
them. -/
structure Lists (s : State A ι ν) (toMove : Header ν) (L : ι → List ν) (M : List ν) : Prop where
  rep : ∀ i, (s.lists i).Rep s.links (L i)
  move : toMove.Rep s.links M
  apart : ∀ i j, i ≠ j → ∀ w ∈ L i, w ∉ L j
  apart_move : ∀ i, ∀ w ∈ L i, w ∉ M

/-- Somebody waits for a lock with a tag. -/
def HasWaiter (cfg : Config A ι) (s : State A ι ν) (L : ι → List ν) (a : A) (tag : BitVec 64) :
    Prop :=
  ∃ w ∈ L (cfg.hash a), s.src w = some a ∧ s.tag w = tag

instance (cfg : Config A ι) (s : State A ι ν) (L : ι → List ν) (a : A) (tag : BitVec 64) :
    Decidable (HasWaiter cfg s L a tag) :=
  inferInstanceAs (Decidable (∃ w ∈ L (cfg.hash a), s.src w = some a ∧ s.tag w = tag))

/-- **The bits of a lock agree with the wait list**: each of the two bits is set
exactly if a waiter of its kind is in the list, and the waiters of the lock are
in the list of its word. -/
structure Agrees (cfg : Config A ι) (s : State A ι ν) (L : ι → List ν) (a : A) : Prop where
  wait : (s.word a).getLsbD cfg.waitAt = true ↔ HasWaiter cfg s L a cfg.waitTag
  cv : (s.word a).getLsbD cfg.cvAt = true ↔ HasWaiter cfg s L a cfg.cvTag
  home : ∀ i, ∀ w ∈ L i, s.waitsFor cfg a w = true → i = cfg.hash a

/-- The waiters of the old lock, in the order of its list. -/
def moved (cfg : Config A ι) (s : State A ι ν) (L : ι → List ν) (lock : A) : List ν :=
  (L (cfg.hash lock)).filter (s.waitsFor cfg lock)

/-- The lists without the waiters of the old lock. -/
def left (cfg : Config A ι) (s : State A ι ν) (L : ι → List ν) (lock : A) : ι → List ν :=
  Function.update L (cfg.hash lock) ((L (cfg.hash lock)).filter fun w => !s.waitsFor cfg lock w)

/-- The lists with these waiters behind those of the new lock's list. -/
def rekeyed (cfg : Config A ι) (s : State A ι ν) (L : ι → List ν) (lock newlock : A) :
    ι → List ν :=
  Function.update (left cfg s L lock) (cfg.hash newlock)
    (left cfg s L lock (cfg.hash newlock) ++ moved cfg s L lock)

/-- **What a rekey leaves.** -/
structure Rekeyed (cfg : Config A ι) (s s' : State A ι ν) (L : ι → List ν) (lock newlock : A) :
    Prop where
  /-- The waiters of the old lock stand behind the others of the new lock's list,
  in their order; nobody else moves. -/
  lists : Lists s' Header.init (rekeyed cfg s L lock newlock) []
  /-- They wait for the new lock. -/
  src : ∀ w, s'.src w = if w ∈ moved cfg s L lock then some newlock else s.src w
  tag : s'.tag = s.tag
  /-- Nobody is left that waits for the old lock. -/
  none_left : ∀ i, ∀ w ∈ rekeyed cfg s L lock newlock i, s'.waitsFor cfg lock w = false
  /-- A waiter of a reader-writer bitlock is not one of them. -/
  rw_stays : ∀ w, (RwBitlock.tagOfWord (s.tag w)).rwUniq = true → w ∉ moved cfg s L lock
  /-- The two bits of the old lock are clear, and its other bits as before. -/
  old_word : ∀ b, (s'.word lock).getLsbD b =
    ((s.word lock).getLsbD b && !decide (b = cfg.waitAt) && !decide (b = cfg.cvAt))
  /-- The two bits of the new lock say whether somebody waits for it now. -/
  new_wait : (s'.word newlock).getLsbD cfg.waitAt = true ↔
    HasWaiter cfg s' (rekeyed cfg s L lock newlock) newlock cfg.waitTag
  new_cv : (s'.word newlock).getLsbD cfg.cvAt = true ↔
    HasWaiter cfg s' (rekeyed cfg s L lock newlock) newlock cfg.cvTag
  /-- Its other bits, and the other words, are as before. -/
  new_word : ∀ b, b ≠ cfg.waitAt → b ≠ cfg.cvAt →
    (s'.word newlock).getLsbD b = (s.word newlock).getLsbD b
  other_words : ∀ a, a ≠ lock → a ≠ newlock → s'.word a = s.word a

/-! ## The two loops -/

variable {cfg : Config A ι} {bad : ν} {s : State A ι ν} {x : Locals ν} {L : ι → List ν}
  {M P R : List ν} {lock newlock : A} {w : ν}

omit [DecidableEq A] in
/-- **A waiter is taken off the wait list.** -/
theorem Lists.takeWaiter (h : Lists s x.toMove L M) (bad : ν) (newlock : A) (hL : L (cfg.hash lock) = P ++ w :: R) :
    Lists (s.takeWaiter cfg bad x lock newlock w).1 (s.takeWaiter cfg bad x lock newlock w).2.toMove
      (Function.update L (cfg.hash lock) (P ++ R)) (M ++ [w]) := by
  have hrep := h.rep (cfg.hash lock)
  rw [hL] at hrep
  have hwL : w ∈ L (cfg.hash lock) := by
    rw [hL]
    exact List.mem_append_right _ List.mem_cons_self
  have hwM : w ∉ M := h.apart_move _ w hwL
  have hnd := hrep.nodup
  have hwPR : w ∉ P ++ R := (List.nodup_cons.mp (List.nodup_middle.mp hnd)).1
  have hsub : ∀ y, y ∈ P ++ R → y ∈ L (cfg.hash lock) := by
    intro y hy
    rw [hL]
    rcases List.mem_append.mp hy with hy | hy
    · exact List.mem_append_left _ hy
    · exact List.mem_append_right _ (List.mem_cons_of_mem _ hy)
  have hmove : x.toMove.Rep (remove bad s.links (s.lists (cfg.hash lock)) w).1 M := by
    have hframe : ∀ y ∈ M, y ∉ P ++ w :: R := fun y hy hyL =>
      h.apart_move _ y (hL ▸ hyL) hy
    exact h.move.congr (fun y hy => (hrep.remove_frame bad (hframe y hy)).1)
      fun y hy => (hrep.remove_frame bad (hframe y hy)).2
  have hcut := hrep.remove bad
  refine ⟨fun i => ?_, hmove.append hwM, ?_, ?_⟩
  · show (Function.update s.lists (cfg.hash lock) _ i).Rep _ (Function.update L _ _ i)
    by_cases hi : i = cfg.hash lock
    · subst hi
      rw [Function.update_self, Function.update_self]
      have hframe : ∀ y ∈ P ++ R, y ≠ w ∧ y ∉ M := fun y hy =>
        ⟨ne_of_mem_of_not_mem hy hwPR, h.apart_move _ y (hsub y hy)⟩
      exact hcut.congr (fun y hy => (hmove.append_frame (hframe y hy).1 (hframe y hy).2).1)
        fun y hy => (hmove.append_frame (hframe y hy).1 (hframe y hy).2).2
    · rw [Function.update_of_ne hi, Function.update_of_ne hi]
      have hnot : ∀ y ∈ L i, y ∉ P ++ w :: R := fun y hy hyL => h.apart i _ hi y hy (hL ▸ hyL)
      have hframe : ∀ y ∈ L i, y ≠ w ∧ y ∉ M := fun y hy =>
        ⟨fun hyw => h.apart i _ hi y hy (hyw ▸ hwL), h.apart_move i y hy⟩
      refine (h.rep i).congr (fun y hy => ?_) fun y hy => ?_
      · exact (hmove.append_frame (hframe y hy).1 (hframe y hy).2).1.trans
          (hrep.remove_frame bad (hnot y hy)).1
      · exact (hmove.append_frame (hframe y hy).1 (hframe y hy).2).2.trans
          (hrep.remove_frame bad (hnot y hy)).2
  · intro i j hij y hy
    have hmem : ∀ k, y ∈ Function.update L (cfg.hash lock) (P ++ R) k → y ∈ L k := by
      intro k hk
      by_cases hk' : k = cfg.hash lock
      · subst hk'
        rw [Function.update_self] at hk
        exact hsub y hk
      · rwa [Function.update_of_ne hk'] at hk
    exact fun hyj => h.apart i j hij y (hmem i hy) (hmem j hyj)
  · intro i y hy
    rw [List.mem_append, List.mem_singleton]
    rintro (hyM | rfl)
    · by_cases hi : i = cfg.hash lock
      · subst hi
        rw [Function.update_self] at hy
        exact h.apart_move _ y (hsub y hy) hyM
      · rw [Function.update_of_ne hi] at hy
        exact h.apart_move i y hy hyM
    · by_cases hi : i = cfg.hash lock
      · subst hi
        rw [Function.update_self] at hy
        exact hwPR hy
      · rw [Function.update_of_ne hi] at hy
        exact h.apart i _ hi y hy hwL

omit [DecidableEq A] in
/-- **A waiter is put into the wait list of the new lock.** -/
theorem Lists.putWaiter (h : Lists s x.toMove L (w :: M)) (cfg : Config A ι) (bad : ν)
    (newlock : A) :
    Lists (s.putWaiter cfg bad x newlock w).1 (s.putWaiter cfg bad x newlock w).2.toMove
      (Function.update L (cfg.hash newlock) (L (cfg.hash newlock) ++ [w])) M := by
  have hmove : x.toMove.Rep s.links ([] ++ w :: M) := h.move
  have hnd := hmove.nodup
  have hwM : w ∉ M := (List.nodup_cons.mp hnd).1
  have hwL : ∀ i, w ∉ L i := fun i hi => h.apart_move i w hi List.mem_cons_self
  have hcut := hmove.remove bad
  have hrep : ∀ i, (s.lists i).Rep (remove bad s.links x.toMove w).1 (L i) := by
    intro i
    have hframe : ∀ y ∈ L i, y ∉ [] ++ w :: M := fun y hy => h.apart_move i y hy
    exact (h.rep i).congr (fun y hy => (hmove.remove_frame bad (hframe y hy)).1)
      fun y hy => (hmove.remove_frame bad (hframe y hy)).2
  have hnew := hrep (cfg.hash newlock)
  refine ⟨fun i => ?_, ?_, ?_, ?_⟩
  · show (Function.update s.lists (cfg.hash newlock) _ i).Rep _ (Function.update L _ _ i)
    by_cases hi : i = cfg.hash newlock
    · subst hi
      rw [Function.update_self, Function.update_self]
      exact hnew.append (hwL _)
    · rw [Function.update_of_ne hi, Function.update_of_ne hi]
      have hframe : ∀ y ∈ L i, y ≠ w ∧ y ∉ L (cfg.hash newlock) := fun y hy =>
        ⟨ne_of_mem_of_not_mem hy (hwL i), h.apart i _ hi y hy⟩
      exact (hrep i).congr (fun y hy => (hnew.append_frame (hframe y hy).1 (hframe y hy).2).1)
        fun y hy => (hnew.append_frame (hframe y hy).1 (hframe y hy).2).2
  · have hframe : ∀ y ∈ M, y ≠ w ∧ y ∉ L (cfg.hash newlock) := fun y hy =>
      ⟨ne_of_mem_of_not_mem hy hwM,
        fun hyL => h.apart_move _ y hyL (List.mem_cons_of_mem _ hy)⟩
    exact Header.Rep.congr (L := M) hcut
      (fun y hy => (hnew.append_frame (hframe y hy).1 (hframe y hy).2).1)
      fun y hy => (hnew.append_frame (hframe y hy).1 (hframe y hy).2).2
  · have hmem : ∀ k, ∀ y ∈ Function.update L (cfg.hash newlock) (L (cfg.hash newlock) ++ [w]) k,
        y ∈ L k ∨ y = w ∧ k = cfg.hash newlock := by
      intro k y hy
      by_cases hk : k = cfg.hash newlock
      · subst hk
        rw [Function.update_self, List.mem_append, List.mem_singleton] at hy
        exact hy.imp_right fun hy => ⟨hy, rfl⟩
      · rw [Function.update_of_ne hk] at hy
        exact .inl hy
    intro i j hij y hy hyj
    rcases hmem i y hy with hi | ⟨rfl, hi⟩
    · rcases hmem j y hyj with hj | ⟨rfl, -⟩
      · exact h.apart i j hij y hi hj
      · exact hwL i hi
    · rcases hmem j y hyj with hj | ⟨-, hj⟩
      · exact hwL j hj
      · exact hij (hi.trans hj.symm)
  · intro i y hy hyM
    by_cases hi : i = cfg.hash newlock
    · subst hi
      rw [Function.update_self, List.mem_append, List.mem_singleton] at hy
      rcases hy with hy | rfl
      · exact h.apart_move _ y hy (List.mem_cons_of_mem _ hyM)
      · exact hwM hyM
    · rw [Function.update_of_ne hi] at hy
      exact h.apart_move i y hy (List.mem_cons_of_mem _ hyM)

/-- **The walk**, from a place `P` of the list on: the waiters of the lock in the
rest of the list are taken, and what they are found to wait for is noted. -/
theorem walk_spec {fuel : ℕ} (bad : ν) (newlock : A) (h : Lists s x.toMove L M) (hL : L (cfg.hash lock) = P ++ R)
    (hfuel : R.length ≤ fuel) :
    ∃ s' x', walk cfg bad lock newlock fuel R.head? (s, x) = some (s', x') ∧
      Lists s' x'.toMove
        (Function.update L (cfg.hash lock) (P ++ R.filter fun w => !s.waitsFor cfg lock w))
        (M ++ R.filter (s.waitsFor cfg lock)) ∧
      s'.word = s.word ∧ s'.tag = s.tag ∧
      (∀ w, s'.src w = if w ∈ R ∧ s.waitsFor cfg lock w = true then some newlock else s.src w) ∧
      x'.haveLockWaiter = (x.haveLockWaiter ||
        (R.filter (s.waitsFor cfg lock)).any fun w => decide (s.tag w = cfg.waitTag)) ∧
      x'.haveCvWaiter = (x.haveCvWaiter ||
        (R.filter (s.waitsFor cfg lock)).any fun w => decide (s.tag w = cfg.cvTag)) := by
  induction R generalizing s x L M P fuel with
  | nil =>
    refine ⟨s, x, by cases fuel <;> rfl, ?_, rfl, rfl, fun w => ?_, ?_, ?_⟩
    · rw [List.filter_nil, List.filter_nil, List.append_nil, List.append_nil]
      rw [List.append_nil] at hL
      rw [← hL, Function.update_eq_self]
      exact h
    · rw [if_neg fun hw => List.not_mem_nil hw.1]
    · rw [List.filter_nil, List.any_nil, Bool.or_false]
    · rw [List.filter_nil, List.any_nil, Bool.or_false]
  | cons w R ih =>
    obtain ⟨fuel, rfl⟩ : ∃ n, fuel = n + 1 := ⟨fuel - 1, by rw [List.length_cons] at hfuel; omega⟩
    replace hfuel : _ ≤ fuel := Nat.le_of_succ_le_succ hfuel
    have hrep := h.rep (cfg.hash lock)
    rw [hL] at hrep
    have hnext : s.links.next w = R.head? := hrep.next
    have hwR : w ∉ R := by
      have hnd := (List.nodup_append.mp hrep.nodup).2.1
      exact (List.nodup_cons.mp hnd).1
    rw [List.head?_cons, walk]
    dsimp only
    rw [hnext]
    by_cases hw : s.waitsFor cfg lock w = true
    · -- the waiter is taken; those behind it are as before
      rw [if_pos hw]
      have htake := h.takeWaiter bad newlock hL
      have hsrc : (s.takeWaiter cfg bad x lock newlock w).1.src =
        Function.update s.src w (some newlock) := rfl
      have htag : (s.takeWaiter cfg bad x lock newlock w).1.tag = s.tag := rfl
      have hwait : ∀ y ∈ R, (s.takeWaiter cfg bad x lock newlock w).1.waitsFor cfg lock y =
          s.waitsFor cfg lock y := by
        intro y hy
        simp only [State.waitsFor, hsrc, htag, Function.update_of_ne (ne_of_mem_of_not_mem hy hwR)]
      have hfilter := List.filter_congr hwait
      have hfilter' := List.filter_congr (p := fun y =>
        !(s.takeWaiter cfg bad x lock newlock w).1.waitsFor cfg lock y)
        (q := fun y => !s.waitsFor cfg lock y) (l := R) fun y hy => by rw [hwait y hy]
      obtain ⟨s', x', hwalk, hlists, hword, htag', hsrc', hlock, hcv⟩ :=
        ih htake (Function.update_self ..) hfuel
      rw [hfilter, hfilter', Function.update_idem, List.append_assoc] at hlists
      refine ⟨s', x', hwalk, ?_, hword, htag'.trans htag, fun y => ?_, ?_, ?_⟩
      · rw [List.filter_cons_of_neg (by simp [hw]), List.filter_cons_of_pos hw]
        exact hlists
      · rw [hsrc' y, hsrc]
        by_cases hyw : y = w
        · subst hyw
          rw [if_neg fun hy => hwR hy.1, Function.update_self, if_pos ⟨List.mem_cons_self, hw⟩]
        · simp only [Function.update_of_ne hyw, List.mem_cons, hyw, false_or]
          by_cases hy : y ∈ R
          · rw [hwait y hy]
          · simp only [hy, false_and]
      · rw [hlock, hfilter, htag, List.filter_cons_of_pos hw, List.any_cons, ← Bool.or_assoc]
        rfl
      · rw [hcv, hfilter, htag, List.filter_cons_of_pos hw, List.any_cons, ← Bool.or_assoc]
        rfl
    · rw [if_neg hw]
      obtain ⟨s', x', hwalk, hlists, hword, htag', hsrc', hlock, hcv⟩ :=
        ih (P := P ++ [w]) h (by rw [hL, List.append_assoc, List.singleton_append]) hfuel
      refine ⟨s', x', hwalk, ?_, hword, htag', fun y => ?_, ?_, ?_⟩
      · rw [List.filter_cons_of_pos (by simp [hw]), List.filter_cons_of_neg hw]
        rw [List.append_assoc] at hlists
        exact hlists
      · rw [hsrc' y]
        by_cases hyw : y = w
        · subst hyw
          rw [if_neg fun hy => hw hy.2, if_neg fun hy => hw hy.2]
        · simp only [List.mem_cons, hyw, false_or]
      · rw [hlock, List.filter_cons_of_neg hw]
      · rw [hcv, List.filter_cons_of_neg hw]

omit [DecidableEq A] in
/-- **The second loop** appends all that was taken. -/
theorem putAll_spec {fuel : ℕ} (cfg : Config A ι) (bad : ν) (newlock : A)
    (h : Lists s x.toMove L M) (hfuel : M.length ≤ fuel) :
    ∃ s' x', putAll cfg bad newlock fuel M.head? (s, x) = some (s', x') ∧
      Lists s' x'.toMove
        (Function.update L (cfg.hash newlock) (L (cfg.hash newlock) ++ M)) [] ∧
      s'.word = s.word ∧ s'.tag = s.tag ∧ s'.src = s.src ∧
      x'.haveLockWaiter = x.haveLockWaiter ∧ x'.haveCvWaiter = x.haveCvWaiter := by
  induction M generalizing s x L fuel with
  | nil =>
    refine ⟨s, x, by cases fuel <;> rfl, ?_, rfl, rfl, rfl, rfl, rfl⟩
    rw [List.append_nil, Function.update_eq_self]
    exact h
  | cons w M ih =>
    obtain ⟨fuel, rfl⟩ : ∃ n, fuel = n + 1 := ⟨fuel - 1, by rw [List.length_cons] at hfuel; omega⟩
    replace hfuel : _ ≤ fuel := Nat.le_of_succ_le_succ hfuel
    have hnext : s.links.next w = M.head? := Header.Rep.next (L := []) h.move
    have hput := h.putWaiter cfg bad newlock
    obtain ⟨s', x', hputs, hlists, hword, htag, hsrc, hlock, hcv⟩ :=
      ih hput hfuel
    rw [Function.update_self, Function.update_idem, List.append_assoc] at hlists
    refine ⟨s', x', ?_, hlists, hword, htag, hsrc, hlock, hcv⟩
    rw [List.head?_cons, putAll]
    dsimp only
    rw [hnext]
    exact hputs

/-! ## The bits -/

omit [DecidableEq ι] [DecidableEq ν] in
/-- A bit is set where it is clear, and left where it is set. -/
theorem getLsbD_set (s : State A ι ν) (a : A) {i : ℕ} (hi : i < 64) (b : ℕ) :
    ((s.swapIgnore a (Word.bit 64 i) 0 (Word.bit 64 i)).word a).getLsbD b =
      ((s.word a).getLsbD b || decide (b = i)) := by
  have hbit : ∀ j, (Word.bit 64 i).getLsbD j = decide (i = j) := fun j => Word.getLsbD_bit hi
  rw [State.swapIgnore]
  dsimp only
  rw [Function.update_self]
  by_cases hset : (s.word a).getLsbD i = true
  · rw [Word.swapWithMask_neg (i := i) (by rw [hbit, decide_eq_true rfl])
      (by simp [hset]), Option.getD_none]
    grind
  · rw [Word.swapWithMask_pos, Option.getD_some, Word.getLsbD_replace, hbit]
    · grind
    · intro j hj
      rw [hbit, decide_eq_true_eq] at hj
      rw [← hj, Bool.eq_false_iff.mpr hset]
      simp

omit [DecidableEq ι] [DecidableEq ν] in
/-- A bit is cleared where it is set, and left where it is clear. -/
theorem getLsbD_clear (s : State A ι ν) (a : A) {i : ℕ} (hi : i < 64) (b : ℕ) :
    ((s.swapIgnore a (Word.bit 64 i) (Word.bit 64 i) 0).word a).getLsbD b =
      ((s.word a).getLsbD b && !decide (b = i)) := by
  have hbit : ∀ j, (Word.bit 64 i).getLsbD j = decide (i = j) := fun j => Word.getLsbD_bit hi
  rw [State.swapIgnore]
  dsimp only
  rw [Function.update_self]
  by_cases hset : (s.word a).getLsbD i = true
  · rw [Word.swapWithMask_pos, Option.getD_some, Word.getLsbD_replace, hbit]
    · have hzero : (0#64).getLsbD b = false := BitVec.getLsbD_zero
      grind
    · intro j hj
      rw [hbit, decide_eq_true_eq] at hj
      rw [← hj, hset, hbit, decide_eq_true rfl]
  · rw [Word.swapWithMask_neg (i := i) (by rw [hbit, decide_eq_true rfl])
      (by rw [hbit, decide_eq_true rfl]; exact hset), Option.getD_none]
    grind

omit [DecidableEq ι] [DecidableEq ν] in
/-- **A bit goes over**: it is set in the new word and clear in the old one. -/
theorem getLsbD_moveBit (s : State A ι ν) {lock newlock : A} (hne : lock ≠ newlock)
    (mask : BitVec 64) {i : ℕ} (hmask : mask = Word.bit 64 i) (hi : i < 64) (b : ℕ) :
    ((s.moveBit lock newlock mask).word lock).getLsbD b =
        ((s.word lock).getLsbD b && !decide (b = i)) ∧
      ((s.moveBit lock newlock mask).word newlock).getLsbD b =
        ((s.word newlock).getLsbD b || decide (b = i)) ∧
      ∀ a, a ≠ lock → a ≠ newlock → (s.moveBit lock newlock mask).word a = s.word a := by
  subst hmask
  have hold : (s.swapIgnore newlock (Word.bit 64 i) 0 (Word.bit 64 i)).word lock = s.word lock :=
    Function.update_of_ne hne _ _
  have hnew : (s.moveBit lock newlock (Word.bit 64 i)).word newlock =
      (s.swapIgnore newlock (Word.bit 64 i) 0 (Word.bit 64 i)).word newlock :=
    Function.update_of_ne hne.symm _ _
  refine ⟨?_, ?_, fun a hl hn => ?_⟩
  · rw [State.moveBit, getLsbD_clear _ _ hi, hold]
  · rw [hnew, getLsbD_set _ _ hi]
  · show Function.update (Function.update s.word newlock _) lock _ a = _
    rw [Function.update_of_ne hl, Function.update_of_ne hn]

omit [DecidableEq ι] [DecidableEq ν] in
/-- The bits after the two moves that were called for. -/
theorem getLsbD_moveBits (cfg : Config A ι) (s : State A ι ν) {lock newlock : A}
    (hne : lock ≠ newlock) (p q : Bool) (b : ℕ) :
    let s₁ := if p then s.moveBit lock newlock cfg.waitMask else s
    let s₂ := if q then s₁.moveBit lock newlock cfg.cvMask else s₁
    (s₂.word lock).getLsbD b = ((s.word lock).getLsbD b && !(p && decide (b = cfg.waitAt)) &&
        !(q && decide (b = cfg.cvAt))) ∧
      (s₂.word newlock).getLsbD b = ((s.word newlock).getLsbD b ||
        (p && decide (b = cfg.waitAt)) || (q && decide (b = cfg.cvAt))) ∧
      (∀ a, a ≠ lock → a ≠ newlock → s₂.word a = s.word a) ∧
      s₂.links = s.links ∧ s₂.lists = s.lists ∧ s₂.src = s.src ∧ s₂.tag = s.tag := by
  have hwait := getLsbD_moveBit s hne cfg.waitMask rfl cfg.waitAt_lt b
  have hcv := fun s : State A ι ν => getLsbD_moveBit s hne cfg.cvMask rfl cfg.cvAt_lt b
  cases p with
  | false =>
    cases q with
    | false => simp
    | true =>
      obtain ⟨h₁, h₂, h₃⟩ := hcv s
      exact ⟨by simpa using h₁, by simpa using h₂, h₃, rfl, rfl, rfl, rfl⟩
  | true =>
    cases q with
    | false =>
      obtain ⟨h₁, h₂, h₃⟩ := hwait
      exact ⟨by simpa using h₁, by simpa using h₂, h₃, rfl, rfl, rfl, rfl⟩
    | true =>
      obtain ⟨h₁, h₂, h₃⟩ := hcv (s.moveBit lock newlock cfg.waitMask)
      refine ⟨?_, ?_, fun a hl hn => (h₃ a hl hn).trans (hwait.2.2 a hl hn), rfl, rfl, rfl, rfl⟩
      · simp only [if_true, Bool.true_and]
        rw [← hwait.1]
        exact h₁
      · simp only [if_true, Bool.true_and]
        rw [← hwait.2.1]
        exact h₂

/-! ## The rekey -/

omit [DecidableEq ι] [DecidableEq ν] in
/-- The waiters of a lock are those of either kind. -/
theorem waitsFor_iff {a : A} : s.waitsFor cfg a w = true ↔
    s.src w = some a ∧ (s.tag w = cfg.cvTag ∨ s.tag w = cfg.waitTag) := by
  rw [State.waitsFor, Bool.and_eq_true, Bool.or_eq_true, decide_eq_true_eq, decide_eq_true_eq,
    decide_eq_true_eq]

omit [DecidableEq ι] [DecidableEq ν] in
/-- Whether a waiter of a kind is found is whether there is one. -/
theorem any_moved (lock : A) (tag : BitVec 64) (htag : tag = cfg.cvTag ∨ tag = cfg.waitTag) :
    ((moved cfg s L lock).any fun w => decide (s.tag w = tag)) = true ↔
      HasWaiter cfg s L lock tag := by
  rw [List.any_eq_true]
  constructor
  · rintro ⟨w, hw, ht⟩
    obtain ⟨hw, hwait⟩ := List.mem_filter.mp hw
    exact ⟨w, hw, (waitsFor_iff.mp hwait).1, of_decide_eq_true ht⟩
  · rintro ⟨w, hw, hsrc, ht⟩
    exact ⟨w, List.mem_filter.mpr ⟨hw, waitsFor_iff.mpr ⟨hsrc, by rwa [ht]⟩⟩, decide_eq_true ht⟩

omit [DecidableEq ν] in
/-- Who is where after a rekey was there before, or was moved. -/
theorem mem_rekeyed {i : ι} : w ∈ rekeyed cfg s L lock newlock i ↔
    (w ∈ L i ∧ (i = cfg.hash lock → s.waitsFor cfg lock w = false)) ∨
      (i = cfg.hash newlock ∧ w ∈ moved cfg s L lock) := by
  have hleft : ∀ j, w ∈ left cfg s L lock j ↔
      w ∈ L j ∧ (j = cfg.hash lock → s.waitsFor cfg lock w = false) := by
    intro j
    rw [left]
    by_cases hj : j = cfg.hash lock
    · subst hj
      rw [Function.update_self, List.mem_filter, Bool.not_eq_true']
      simp only [true_implies]
    · rw [Function.update_of_ne hj]
      simp only [hj, false_implies, and_true]
  rw [rekeyed]
  by_cases hi : i = cfg.hash newlock
  · subst hi
    rw [Function.update_self, List.mem_append, hleft]
    simp only [true_and]
  · rw [Function.update_of_ne hi, hleft]
    simp only [hi, false_and, or_false]

omit [DecidableEq ι] [DecidableEq ν] in
/-- A tag of the mutex is not one of a reader-writer bitlock. -/
theorem rwUniq_of_moved (hw : w ∈ moved cfg s L lock) :
    (RwBitlock.tagOfWord (s.tag w)).rwUniq = false := by
  refine RwBitlock.MutexTag.rwUniq ?_
  rcases (waitsFor_iff.mp (List.mem_filter.mp hw).2).2 with ht | ht
  · exact ⟨cfg.lockAt, cfg.cvAt, by rw [ht]; rfl⟩
  · exact ⟨cfg.lockAt, cfg.waitAt, by rw [ht]; rfl⟩

/-- **What is left to show of a rekey**: the lists are right, the waiters moved
wait for the new lock, and each bit went over if it had to. -/
theorem rekeyed_of_bits {s' : State A ι ν} (hne : lock ≠ newlock) (hold : Agrees cfg s L lock)
    (hnew : Agrees cfg s L newlock) (hl : Lists s' Header.init (rekeyed cfg s L lock newlock) [])
    (hsrc : ∀ w, s'.src w = if w ∈ moved cfg s L lock then some newlock else s.src w)
    (htag : s'.tag = s.tag) {p q : Bool} (hp : p = true ↔ HasWaiter cfg s L lock cfg.waitTag)
    (hq : q = true ↔ HasWaiter cfg s L lock cfg.cvTag)
    (hbits : ∀ b, (s'.word lock).getLsbD b = ((s.word lock).getLsbD b &&
        !(p && decide (b = cfg.waitAt)) && !(q && decide (b = cfg.cvAt))) ∧
      (s'.word newlock).getLsbD b = ((s.word newlock).getLsbD b ||
        (p && decide (b = cfg.waitAt)) || (q && decide (b = cfg.cvAt))))
    (hother : ∀ a, a ≠ lock → a ≠ newlock → s'.word a = s.word a) :
    Rekeyed cfg s s' L lock newlock := by
  -- who waits for the new lock now, waited for it or was moved
  have hwaits : ∀ tag, tag = cfg.cvTag ∨ tag = cfg.waitTag →
      (HasWaiter cfg s' (rekeyed cfg s L lock newlock) newlock tag ↔
        HasWaiter cfg s L newlock tag ∨ HasWaiter cfg s L lock tag) := by
    intro tag hkind
    rw [← any_moved lock tag hkind, List.any_eq_true]
    constructor
    · rintro ⟨w, hw, hs, ht⟩
      rw [htag] at ht
      rw [hsrc] at hs
      by_cases hm : w ∈ moved cfg s L lock
      · exact .inr ⟨w, hm, decide_eq_true ht⟩
      · rw [if_neg hm] at hs
        rcases mem_rekeyed.mp hw with ⟨hw, -⟩ | ⟨-, hw⟩
        · exact .inl ⟨w, hw, hs, ht⟩
        · exact absurd hw hm
    · rintro (⟨w, hw, hs, ht⟩ | ⟨w, hw, ht⟩)
      · have hnot : s.waitsFor cfg lock w = false := by
          rw [← Bool.not_eq_true]
          exact fun h => hne (Option.some.inj ((waitsFor_iff.mp h).1.symm.trans hs))
        have hm : w ∉ moved cfg s L lock := fun hm => by
          rw [(List.mem_filter.mp hm).2] at hnot
          cases hnot
        exact ⟨w, mem_rekeyed.mpr (.inl ⟨hw, fun _ => hnot⟩), by rw [hsrc, if_neg hm, hs],
          by rw [htag, ht]⟩
      · exact ⟨w, mem_rekeyed.mpr (.inr ⟨rfl, hw⟩), by rw [hsrc, if_pos hw],
          by rw [htag]; exact of_decide_eq_true ht⟩
  constructor
  case lists => exact hl
  case src => exact hsrc
  case tag => exact htag
  case none_left =>
    intro i w hw
    rw [← Bool.not_eq_true, waitsFor_iff, htag, hsrc]
    rintro ⟨hs, hkind⟩
    by_cases hm : w ∈ moved cfg s L lock
    · rw [if_pos hm] at hs
      exact hne (Option.some.inj hs).symm
    · rw [if_neg hm] at hs
      have hwait : s.waitsFor cfg lock w = true := waitsFor_iff.mpr ⟨hs, hkind⟩
      rcases mem_rekeyed.mp hw with ⟨hwL, -⟩ | ⟨-, hw⟩
      · have hi := hold.home i w hwL hwait
        exact hm (List.mem_filter.mpr ⟨hi ▸ hwL, hwait⟩)
      · exact hm hw
  case rw_stays =>
    intro w hu hw
    rw [rwUniq_of_moved hw] at hu
    cases hu
  case old_word =>
    intro b
    rw [(hbits b).1]
    -- where a bit is not cleared, no waiter was found, and the bit was clear
    have hp' : p = false → (s.word lock).getLsbD cfg.waitAt = false := fun hpf => by
      rw [← Bool.not_eq_true, hold.wait, ← hp, hpf]
      exact Bool.false_ne_true
    have hq' : q = false → (s.word lock).getLsbD cfg.cvAt = false := fun hqf => by
      rw [← Bool.not_eq_true, hold.cv, ← hq, hqf]
      exact Bool.false_ne_true
    by_cases hbw : b = cfg.waitAt
    · subst hbw
      cases p with
      | false => simp [hp' rfl]
      | true => simp
    · by_cases hbc : b = cfg.cvAt
      · subst hbc
        cases q with
        | false => simp [hq' rfl]
        | true => simp
      · simp [hbw, hbc]
  case new_wait =>
    rw [(hbits _).2, hwaits _ (.inr rfl), ← hnew.wait, ← hp]
    simp [cfg.wait_ne_cv]
  case new_cv =>
    rw [(hbits _).2, hwaits _ (.inl rfl), ← hnew.cv, ← hq]
    simp [cfg.wait_ne_cv.symm]
  case new_word =>
    intro b hbw hbc
    rw [(hbits b).2]
    simp [hbw, hbc]
  case other_words => exact hother

/-- **Rekeying moves all waiters and nothing else.** With as many turns as the
list is long, the loops end; then the waiters of the old lock stand behind those
of the new one, and the bits agree with the lists again. -/
theorem rekey_moves {fuel : ℕ} (cfg : Config A ι) (bad : ν) (hne : lock ≠ newlock) (hl : Lists s Header.init L [])
    (hold : Agrees cfg s L lock) (hnew : Agrees cfg s L newlock)
    (hfuel : (L (cfg.hash lock)).length ≤ fuel) :
    ∃ s', s.rekey cfg bad fuel lock newlock = some s' ∧ Rekeyed cfg s s' L lock newlock := by
  have hwaitbit : s.word lock &&& cfg.waitMask = 0 ↔ ¬ HasWaiter cfg s L lock cfg.waitTag := by
    rw [← hold.wait, Bool.not_eq_true]
    exact Word.and_bit_eq_zero cfg.waitAt_lt
  have hcvbit : s.word lock &&& cfg.cvMask = 0 ↔ ¬ HasWaiter cfg s L lock cfg.cvTag := by
    rw [← hold.cv, Bool.not_eq_true]
    exact Word.and_bit_eq_zero cfg.cvAt_lt
  by_cases hbits : s.word lock &&& cfg.waitMask = 0 ∧ s.word lock &&& cfg.cvMask = 0
  · -- nobody waits, and nothing happens
    have hnowait := hwaitbit.mp hbits.1
    have hnocv := hcvbit.mp hbits.2
    have hnot : ∀ w ∈ L (cfg.hash lock), s.waitsFor cfg lock w = false := by
      intro w hw
      rw [← Bool.not_eq_true, waitsFor_iff]
      rintro ⟨hs, ht | ht⟩
      · exact hnocv ⟨w, hw, hs, ht⟩
      · exact hnowait ⟨w, hw, hs, ht⟩
    have hmoved : moved cfg s L lock = [] :=
      List.filter_eq_nil_iff.mpr fun w hw => by rw [hnot w hw]; exact Bool.false_ne_true
    have hleft : left cfg s L lock = L := by
      rw [left, List.filter_eq_self.mpr fun w hw => by rw [hnot w hw]; rfl,
        Function.update_eq_self]
    have hsame : rekeyed cfg s L lock newlock = L := by
      rw [rekeyed, hleft, hmoved, List.append_nil, Function.update_eq_self]
    refine ⟨s, if_pos hbits, rekeyed_of_bits hne hold hnew (by rw [hsame]; exact hl) (fun w => ?_) rfl
      (p := false) (q := false) ?_ ?_ (fun b => ?_) fun _ _ _ => rfl⟩
    · rw [hmoved, if_neg List.not_mem_nil]
    · simp only [Bool.false_eq_true, hnowait]
    · simp only [Bool.false_eq_true, hnocv]
    · simp
  · have hmove : Lists s (Locals.mk (Header.init : Header ν) false false).toMove L [] := hl
    obtain ⟨s₁, x₁, hwalk, hlists₁, hword₁, htag₁, hsrc₁, hlock₁, hcv₁⟩ :=
      walk_spec bad newlock (P := []) hmove rfl hfuel
    have hhead := (hl.rep (cfg.hash lock)).head
    rw [← hhead] at hwalk
    -- a waiter was found, since one of the bits is set
    have hsome : moved cfg s L lock ≠ [] := by
      intro hnil
      refine hbits ⟨hwaitbit.mpr fun hw => ?_, hcvbit.mpr fun hw => ?_⟩
      · rw [← any_moved _ _ (.inr rfl), hnil] at hw
        cases hw
      · rw [← any_moved _ _ (.inl rfl), hnil] at hw
        cases hw
    have hcount : x₁.toMove.count ≠ 0 := by
      rw [hlists₁.move.count, List.nil_append]
      exact fun h0 => hsome (List.eq_nil_of_length_eq_zero h0)
    have hlen : ([] ++ moved cfg s L lock).length ≤ fuel :=
      (List.length_filter_le _ _).trans hfuel
    obtain ⟨s₂, x₂, hput, hlists₂, hword₂, htag₂, hsrc₂, hlock₂, hcv₂⟩ :=
      putAll_spec cfg bad newlock hlists₁ hlen
    have hhead₁ := hlists₁.move.head
    rw [← hhead₁] at hput
    rw [Bool.false_or] at hlock₁ hcv₁
    have hword : s₂.word = s.word := hword₂.trans hword₁
    let s₃ := if x₂.haveLockWaiter then s₂.moveBit lock newlock cfg.waitMask else s₂
    let s₄ := if x₂.haveCvWaiter then s₃.moveBit lock newlock cfg.cvMask else s₃
    have hmv : ∀ b, (s₄.word lock).getLsbD b = ((s.word lock).getLsbD b &&
          !(x₂.haveLockWaiter && decide (b = cfg.waitAt)) &&
          !(x₂.haveCvWaiter && decide (b = cfg.cvAt))) ∧
        (s₄.word newlock).getLsbD b = ((s.word newlock).getLsbD b ||
          (x₂.haveLockWaiter && decide (b = cfg.waitAt)) ||
          (x₂.haveCvWaiter && decide (b = cfg.cvAt))) ∧
        (∀ a, a ≠ lock → a ≠ newlock → s₄.word a = s.word a) ∧
        s₄.links = s₂.links ∧ s₄.lists = s₂.lists ∧ s₄.src = s₂.src ∧ s₄.tag = s₂.tag := by
      intro b
      rw [← hword]
      exact getLsbD_moveBits cfg s₂ hne x₂.haveLockWaiter x₂.haveCvWaiter b
    obtain ⟨-, -, hothers, hlinks, hheaders, hsrc, htag⟩ := hmv 0
    refine ⟨s₄, ?_, rekeyed_of_bits hne hold hnew ?_ (fun w => ?_) ?_ (p := x₂.haveLockWaiter)
      (q := x₂.haveCvWaiter) ?_ ?_ (fun b => ⟨(hmv b).1, (hmv b).2.1⟩) hothers⟩
    · rw [State.rekey, if_neg hbits, hwalk, Option.bind_some, if_neg hcount, hput, Option.map_some]
    · refine ⟨fun i => ?_, Header.rep_init, hlists₂.apart, fun _ _ _ => List.not_mem_nil⟩
      rw [hheaders, hlinks]
      exact hlists₂.rep i
    · rw [hsrc, hsrc₂, hsrc₁]
      simp only [moved, List.mem_filter]
    · exact htag.trans (htag₂.trans htag₁)
    · rw [hlock₂, hlock₁]
      exact any_moved _ _ (.inr rfl)
    · rw [hcv₂, hcv₁]
      exact any_moved _ _ (.inl rfl)

/-- Two locks whose words share the one wait list there is: a waiter of the new
lock, one of the old lock, one of a reader-writer bitlock in the old word, and one
that waits for the old lock's condition. -/
def shared : State Bool Unit (Fin 5) where
  word := fun a => if a then 0xA3#64 else 0x57#64
  links := ⟨fun w => if w < 3 then some (w + 1) else none,
    fun w => if 0 < w ∧ w < 4 then some (w - 1) else none⟩
  lists := fun _ => ⟨some 0, some 3, 4⟩
  src := fun w => some (decide (w = 0))
  tag := fun w => if w = 3 then 5#64 else if w = 2 then 0xE0C3#64 else 3#64

/-- Both waiters of the old lock go behind those that stay, in one list. -/
theorem rekey_moves_shared :
    ∃ (cfg : Config Bool Unit) (s' : State Bool Unit (Fin 5)),
      shared.rekey cfg 4 4 false true = some s' ∧
      rekeyed cfg shared (fun _ => [0, 1, 2, 3]) false true () = [0, 2, 1, 3] ∧
      Rekeyed cfg shared s' (fun _ => [0, 1, 2, 3]) false true := by
  let cfg : Config Bool Unit :=
    ⟨0, 1, 2, fun _ => (), by decide, by decide, by decide, by decide, by decide, by decide⟩
  have hlists : Lists shared Header.init (fun _ => [0, 1, 2, 3]) [] :=
    ⟨fun _ => ⟨⟨rfl, rfl, rfl, rfl, rfl, rfl, rfl, rfl, rfl⟩, rfl, rfl⟩, Header.rep_init,
      fun _ _ h => absurd rfl h, fun _ _ _ => List.not_mem_nil⟩
  obtain ⟨s', hs', hr⟩ := rekey_moves cfg 4 (Bool.false_ne_true) hlists
    ⟨by decide, by decide, fun _ _ _ _ => rfl⟩ ⟨by decide, by decide, fun _ _ _ _ => rfl⟩
    (le_refl 4)
  exact ⟨cfg, s', hs', by decide, hr⟩

end Rekey
