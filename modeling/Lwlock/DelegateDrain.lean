import Lwlock.Delegate
import Lwlock.DListHeap

/-!
# Draining the incoming stack

The stack of a delegate is last in, first out, and its jobs are to run in the order in
which they came. `drain_incoming` takes the whole stack and inserts each job before the one
inserted last, so that the jobs come to stand behind the queue in reverse. The link of a job
is the link of the stack until the job is reached, and a link of a list from then on: it is
read before the job is put anywhere.

A request to cancel or to unblock a job is set aside on a list of its own, and runs when
the queue is complete. The lists are those of a heap, and the drain is read link by link
here, by one thread that holds the lock of the delegate.
-/

namespace Drain

open Delegate (Func Word)

/-- The lists of a drain. -/
inductive Which
  | queued | blocked | immediate
  deriving DecidableEq

variable {J P : Type}

/-- **What a drain works on.** -/
structure State (J P : Type) where
  heap : DList.Heap Which J
  incomingStack : Option J
  word : Word P
  /-- `job->delegate == delegate`. -/
  owned : J → Bool
  isBlocked : J → Bool
  /-- `cancel_result` of a request to cancel: `true` for `0`, `false` for `EALREADY`. -/
  cancelResult : J → Option Bool
  /-- How often the event of a job was signalled. -/
  signals : J → ℕ
  /-- History: the requests whose function was called. -/
  ran : List J

/-- The functions of the jobs, and the marker of an element off its list. -/
structure Config (J : Type) where
  func : J → Func J
  bad : J

/-- A request to cancel or to unblock. -/
def Config.immediate (cfg : Config J) (j : J) : Bool :=
  match cfg.func j with
  | .user => false
  | _ => true

variable [DecidableEq J]

namespace State

/-- An operation on a list. -/
def onHeap (cfg : Config J) (s : State J P) (op : DList.Op Which J) : Option (State J P) :=
  (s.heap.run cfg.bad op).map fun p => { s with heap := p.1 }

/-- The list that `job_still_with_delegate` looks through. -/
def listOf (s : State J P) (job : J) : Which := if s.isBlocked job then .blocked else .queued

/-- **`job_still_with_delegate`**, which removes the job that it finds. -/
def jobStillWithDelegate (cfg : Config J) (rounds : ℕ) (s : State J P) (job : J) :
    Option (State J P × Bool) :=
  if s.owned job = false then some (s, false)
  else
    (DList.elemIsInList s.heap.links (s.heap.lists (s.listOf job)) job rounds).bind fun found =>
      if found then (s.onHeap cfg (.remove (s.listOf job) job)).map fun s => (s, true)
      else some (s, false)

/-- **`delegate_cancel_job`.** -/
def delegateCancelJob (cfg : Config J) (rounds : ℕ) (s : State J P) (request job : J) :
    Option (State J P) :=
  (s.jobStillWithDelegate cfg rounds job).map fun p =>
    { p.1 with cancelResult := Function.update p.1.cancelResult request (some p.2) }

/-- **`job_to_unblock_another_job`.** -/
def jobToUnblockAnotherJob (cfg : Config J) (s : State J P) (job : J) : Option (State J P) :=
  if s.owned job ∧ s.isBlocked job then
    (s.onHeap cfg (.remove .blocked job)).bind fun s =>
      { s with isBlocked := Function.update s.isBlocked job false }.onHeap cfg
        (.appendAtEnd .queued job)
  else none

/-- The function of a request. -/
def call (cfg : Config J) (rounds : ℕ) (s : State J P) (request : J) : Option (State J P) :=
  match cfg.func request with
  | .user => none
  | .cancelJob job => s.delegateCancelJob cfg rounds request job
  | .unblockJob job => s.jobToUnblockAnotherJob cfg job

/-- A request was called, and its event is signalled. -/
def signal (s : State J P) (request : J) : State J P :=
  { s with
    ran := s.ran ++ [request]
    signals := Function.update s.signals request (s.signals request + 1) }

end State

/-- **The loop over the stack.** -/
def queueLoop (cfg : Config J) : ℕ → Option J → Option J → State J P → Option (State J P)
  | _, none, _, s => some s
  | 0, some _, _, _ => none
  | rounds + 1, some job, lastInserted, s =>
    let nextToProcess := s.heap.links.next job
    (s.onHeap cfg (.initElem job)).bind fun s =>
      if cfg.immediate job then
        (s.onHeap cfg (.appendAtEnd .immediate job)).bind (queueLoop cfg rounds nextToProcess lastInserted)
      else
        (s.onHeap cfg (match lastInserted with
          | none => .appendAtEnd .queued job
          | some last => .insertBefore .queued last job)).bind
          (queueLoop cfg rounds nextToProcess (some job))

/-- **The loop over the requests.** -/
def immediateLoop (cfg : Config J) (walk : ℕ) : ℕ → State J P → Option (State J P)
  | 0, _ => none
  | rounds + 1, s =>
    match s.heap.run cfg.bad (.dequeue .immediate) with
    | none => none
    | some (h, none) => some { s with heap := h }
    | some (h, some job) =>
      ({ s with heap := h }.call cfg walk job).bind fun s =>
        immediateLoop cfg walk rounds (s.signal job)

/-- The stack is taken, with the incoming bit cleared before. -/
def take (cfg : Config J) (s : State J P) : Option (State J P) :=
  (s.onHeap cfg (.init .immediate)).map fun s =>
    { s with word := { s.word with incoming := false }, incomingStack := none }

/-- **`drain_incoming`**; no loop of it takes more than a number of rounds. -/
def drainIncoming (cfg : Config J) (rounds : ℕ) (s : State J P) : Option (State J P) :=
  if s.word.incoming = false then some s
  else
    ((take cfg s).bind (queueLoop cfg rounds s.incomingStack none)).bind
      (immediateLoop cfg rounds rounds)

/-! ## What the lists hold -/

/-- The three lists. -/
def contents (Q B I : List J) : Which → List J
  | .queued => Q
  | .blocked => B
  | .immediate => I

/-- **What the stack and the lists of a delegate hold**, each job in one place and marked
accordingly. The list for the requests is not there yet. -/
structure Content (s : State J P) (S Q B : List J) : Prop where
  stack : Chain s.heap.links.next s.incomingStack S
  queued : (s.heap.lists .queued).Rep s.heap.links Q
  blocked : (s.heap.lists .blocked).Rep s.heap.links B
  nodup : (S ++ Q ++ B).Nodup
  owned : ∀ j ∈ S ++ Q ++ B, s.owned j = true
  isBlocked : ∀ j ∈ S ++ Q, s.isBlocked j = false
  isBlocked' : ∀ j ∈ B, s.isBlocked j = true

/-- What the lists hold later in the drain. -/
structure Lists (s : State J P) (Q B I : List J) : Prop where
  rep : s.heap.Rep (contents Q B I)
  queued : ∀ j ∈ Q, s.owned j = true ∧ s.isBlocked j = false
  blocked : ∀ j ∈ B, s.owned j = true ∧ s.isBlocked j = true

/-- **A blocked job is not cancelled in between**: what a request unblocks is blocked, and no
request that is newer is about it. -/
structure Unblockable (cfg : Config J) (S B : List J) : Prop where
  blocked : ∀ u ∈ S, ∀ j, cfg.func u = .unblockJob j → j ∈ B
  newest : S.Pairwise fun x u => ∀ j, cfg.func u = .unblockJob j →
    cfg.func x ≠ .cancelJob j ∧ cfg.func x ≠ .unblockJob j

/-- What a request does to the queue and to the blocked jobs. -/
def served (cfg : Config J) (p : List J × List J) (request : J) : List J × List J :=
  match cfg.func request with
  | .user => p
  | .cancelJob job => (p.1.erase job, p.2.erase job)
  | .unblockJob job => (p.1 ++ [job], p.2.erase job)

/-! ## The queue -/

variable {cfg : Config J} {s : State J P} {c : Which → List J} {Q Q' B B' F I I' R S : List J}
  {p last : Option J} {j job request : J} {rounds walk : ℕ}

omit [DecidableEq J] in
theorem update_queued : Function.update (contents Q B I) .queued Q' = contents Q' B I := by
  funext k
  cases k <;> rfl

omit [DecidableEq J] in
theorem update_blocked : Function.update (contents Q B I) .blocked B' = contents Q B' I := by
  funext k
  cases k <;> rfl

omit [DecidableEq J] in
theorem update_immediate : Function.update (contents Q B I) .immediate I' = contents Q B I' := by
  funext k
  cases k <;> rfl

/-- An operation on a list, with what it leaves alone. -/
theorem State.onHeap_spec (cfg : Config J) (op : DList.Op Which J) (hR : s.heap.Rep c)
    (hop : op.Legal c) :
    ∃ h, s.onHeap cfg op = some { s with heap := h } ∧ h.Rep (op.effect c) ∧
      ∀ x, (∀ k, x ∉ c k) → op.elem ≠ some x → h.links.next x = s.heap.links.next x := by
  obtain ⟨h, hrun, hR', -⟩ := hR.run cfg.bad hop
  refine ⟨h, ?_, hR', fun x hx hxe => (hR.run_frame hop hrun hx hxe).1⟩
  rw [onHeap, hrun, Option.map_some]

/-- Where the job inserted last is. -/
theorem idxOf_first {f : J} (h : (Q ++ f :: F).Nodup) : (Q ++ f :: F).idxOf f = Q.length := by
  have hfQ : f ∉ Q := fun hf => List.disjoint_of_nodup_append h hf List.mem_cons_self
  rw [List.idxOf_append_of_notMem hfQ, List.idxOf_cons_self, Nat.add_zero]

/-- A job comes to stand before those that came after it. -/
theorem State.queue_spec (cfg : Config J) (hR : s.heap.Rep (contents (Q ++ F) B I)) (hlast : last = F.head?)
    (hjob : ∀ k, job ∉ contents (Q ++ F) B I k) :
    ∃ h, s.onHeap cfg (match last with
        | none => .appendAtEnd .queued job
        | some last => .insertBefore .queued last job) = some { s with heap := h } ∧
      h.Rep (contents (Q ++ job :: F) B I) ∧
      ∀ x, (∀ k, x ∉ contents (Q ++ F) B I k) → x ≠ job →
        h.links.next x = s.heap.links.next x := by
  subst hlast
  cases F with
  | nil =>
    obtain ⟨h, hrun, hR', hframe⟩ := s.onHeap_spec cfg (.appendAtEnd .queued job) hR hjob
    refine ⟨h, hrun, ?_, fun x hx hxj => hframe x hx fun he => hxj (Option.some.inj he).symm⟩
    rw [DList.Op.effect, update_queued, contents, List.append_nil] at hR'
    exact hR'
  | cons f F =>
    have hmem : f ∈ contents (Q ++ f :: F) B I .queued := List.mem_append_right Q List.mem_cons_self
    obtain ⟨h, hrun, hR', hframe⟩ := s.onHeap_spec cfg (.insertBefore .queued f job) hR ⟨hmem, hjob⟩
    refine ⟨h, hrun, ?_, fun x hx hxj => hframe x hx fun he => hxj (Option.some.inj he).symm⟩
    rw [DList.Op.effect, update_queued, contents, idxOf_first (hR.rep .queued).nodup,
      insertIdx_append_length] at hR'
    exact hR'

/-- **The loop over the stack**: the ordinary jobs stand behind the queue, the oldest first, and
the requests are set aside. -/
theorem queueLoop_spec (cfg : Config J) (hR : s.heap.Rep (contents (Q ++ F) B I))
    (hstack : Chain s.heap.links.next p R)
    (hoff : ∀ x ∈ R, ∀ k, x ∉ contents (Q ++ F) B I k) (hlast : last = F.head?)
    (hr : R.length ≤ rounds) :
    ∃ h, queueLoop cfg rounds p last s = some { s with heap := h } ∧
      h.Rep (contents (Q ++ ((R.filter fun x => !cfg.immediate x).reverse ++ F)) B
        (I ++ R.filter cfg.immediate)) := by
  induction R generalizing s p F I last rounds with
  | nil =>
    obtain rfl : p = none := hstack
    rw [queueLoop, List.filter_nil, List.filter_nil, List.append_nil]
    exact ⟨s.heap, rfl, hR⟩
  | cons job R ih =>
    have hnd := hstack.nodup
    obtain ⟨rfl, hrest⟩ := hstack
    obtain ⟨rounds, rfl⟩ : ∃ n, rounds = n + 1 :=
      Nat.exists_eq_add_one.mpr (Nat.lt_of_lt_of_le (Nat.succ_pos R.length) hr)
    have hjobR : job ∉ R := (List.nodup_cons.mp hnd).1
    have hjob := hoff job List.mem_cons_self
    have hne : ∀ x ∈ R, x ≠ job := fun x hx => ne_of_mem_of_not_mem hx hjobR
    have hoffR : ∀ x ∈ R, ∀ k, x ∉ contents (Q ++ F) B I k :=
      fun x hx => hoff x (List.mem_cons_of_mem job hx)
    obtain ⟨h₁, hrun₁, hR₁, hframe₁⟩ := s.onHeap_spec cfg (.initElem job) hR hjob
    have hrest₁ : Chain h₁.links.next (s.heap.links.next job) R :=
      hrest.congr fun x hx => hframe₁ x (hoffR x hx) fun he => hne x hx (Option.some.inj he).symm
    simp only [queueLoop, hrun₁, Option.bind_some]
    cases himm : cfg.immediate job with
    | true =>
      obtain ⟨h₂, hrun₂, hR₂, hframe₂⟩ := State.onHeap_spec (s := { s with heap := h₁ }) cfg
        (.appendAtEnd .immediate job) hR₁ hjob
      rw [DList.Op.effect, DList.Op.effect, update_immediate] at hR₂
      have hrest₂ : Chain h₂.links.next (s.heap.links.next job) R :=
        hrest₁.congr fun x hx => hframe₂ x (hoffR x hx) fun he => hne x hx (Option.some.inj he).symm
      have hoff₂ : ∀ x ∈ R, ∀ k, x ∉ contents (Q ++ F) B (I ++ [job]) k := by
        intro x hx k
        cases k with
        | immediate =>
          rw [contents, List.mem_append, List.mem_singleton, not_or]
          exact ⟨hoffR x hx .immediate, hne x hx⟩
        | queued => exact hoffR x hx .queued
        | blocked => exact hoffR x hx .blocked
      obtain ⟨h₃, hrun₃, hR₃⟩ := ih (s := { s with heap := h₂ }) hR₂ hrest₂ hoff₂ hlast
        (Nat.le_of_succ_le_succ hr)
      rw [if_pos rfl, hrun₂, Option.bind_some]
      refine ⟨h₃, hrun₃, ?_⟩
      rw [List.filter_cons_of_neg (by rw [himm]; decide), List.filter_cons_of_pos himm,
        List.append_cons]
      exact hR₃
    | false =>
      obtain ⟨h₂, hrun₂, hR₂, hframe₂⟩ := State.queue_spec (s := { s with heap := h₁ }) cfg hR₁ hlast hjob
      have hrest₂ : Chain h₂.links.next (s.heap.links.next job) R :=
        hrest₁.congr fun x hx => hframe₂ x (hoffR x hx) (hne x hx)
      have hoff₂ : ∀ x ∈ R, ∀ k, x ∉ contents (Q ++ job :: F) B I k := by
        intro x hx k
        cases k with
        | queued =>
          have hxQ := hoffR x hx .queued
          rw [contents, List.mem_append, not_or] at hxQ
          rw [contents, List.mem_append, List.mem_cons, not_or, not_or]
          exact ⟨hxQ.1, hne x hx, hxQ.2⟩
        | immediate => exact hoffR x hx .immediate
        | blocked => exact hoffR x hx .blocked
      obtain ⟨h₃, hrun₃, hR₃⟩ := ih (s := { s with heap := h₂ }) (F := job :: F) hR₂ hrest₂ hoff₂ rfl
        (Nat.le_of_succ_le_succ hr)
      rw [if_neg Bool.false_ne_true, hrun₂, Option.bind_some]
      refine ⟨h₃, hrun₃, ?_⟩
      rw [List.filter_cons_of_pos (by rw [himm]; decide),
        List.filter_cons_of_neg (by rw [himm]; decide), List.reverse_cons, List.append_assoc]
      exact hR₃

/-- **Taking the stack** leaves a list of no requests. -/
theorem Content.take (cfg : Config J) (hc : Content s S Q B) : ∃ h, take cfg s = some
      { s with heap := h, word := { s.word with incoming := false }, incomingStack := none } ∧
    h.links = s.heap.links ∧ h.Rep (contents Q B []) := by
  refine ⟨s.heap.put .immediate (s.heap.links, DList.Header.init), rfl, rfl, ⟨fun k => ?_, ?_⟩⟩
  · cases k with
    | queued => exact hc.queued
    | blocked => exact hc.blocked
    | immediate => exact DList.Header.rep_init
  · have hnd := hc.nodup
    rw [List.append_assoc] at hnd
    have hdis := List.disjoint_of_nodup_append (List.nodup_append.mp hnd).2.1
    intro k k' hk e he
    cases k with
    | queued =>
      cases k' with
      | queued => exact absurd rfl hk
      | blocked => exact fun he' => hdis he he'
      | immediate => exact List.not_mem_nil
    | blocked =>
      cases k' with
      | queued => exact fun he' => hdis he' he
      | blocked => exact absurd rfl hk
      | immediate => exact List.not_mem_nil
    | immediate => cases he

/-! ## The requests -/

omit [DecidableEq J] in
/-- A queued job is not blocked. -/
theorem Lists.notMem_blocked (hL : Lists s Q B I) (hj : j ∈ Q) : j ∉ B := fun hB =>
  hL.rep.apart .queued .blocked (by decide) j hj hB

/-- **The result of a search**, with the job removed if it was found. -/
theorem Lists.jobStillWithDelegate (cfg : Config J) (hL : Lists s Q B I) (hw : Q.length + B.length ≤ walk) (job : J) :
    ∃ h, s.jobStillWithDelegate cfg walk job
        = some ({ s with heap := h }, decide (job ∈ Q ∨ job ∈ B)) ∧
      h.Rep (contents (Q.erase job) (B.erase job) I) := by
  rw [State.jobStillWithDelegate]
  by_cases hown : s.owned job = false
  · have hQ : job ∉ Q := fun hj => by simpa [hown] using (hL.queued job hj).1
    have hB : job ∉ B := fun hj => by simpa [hown] using (hL.blocked job hj).1
    rw [if_pos hown, List.erase_of_not_mem hQ, List.erase_of_not_mem hB,
      decide_eq_false (not_or.mpr ⟨hQ, hB⟩)]
    exact ⟨s.heap, rfl, hL.rep⟩
  · rw [if_neg hown]
    -- the flag of the job names the only list that it can be on
    obtain ⟨k, hk, hother, hmem, herase⟩ : ∃ k, s.listOf job = k ∧
        (contents Q B I k).length ≤ walk ∧
        (job ∈ contents Q B I k ↔ job ∈ Q ∨ job ∈ B) ∧
        Function.update (contents Q B I) k ((contents Q B I k).erase job)
          = contents (Q.erase job) (B.erase job) I := by
      cases hb : s.isBlocked job with
      | true =>
        have hQ : job ∉ Q := fun hj => by simpa [hb] using (hL.queued job hj).2
        refine ⟨.blocked, by rw [State.listOf, hb]; rfl, Nat.le_trans (Nat.le_add_left _ _) hw,
          ⟨.inr, fun h => h.resolve_left hQ⟩, ?_⟩
        rw [update_blocked, List.erase_of_not_mem hQ]
        rfl
      | false =>
        have hB : job ∉ B := fun hj => by simpa [hb] using (hL.blocked job hj).2
        refine ⟨.queued, by rw [State.listOf, hb]; rfl, Nat.le_trans (Nat.le_add_right _ _) hw,
          ⟨.inl, fun h => h.resolve_right hB⟩, ?_⟩
        rw [update_queued, List.erase_of_not_mem hB]
        rfl
    rw [hk, hL.rep.sequences.member k job walk hother, Option.bind_some, decide_eq_decide.mpr hmem]
    by_cases hj : job ∈ contents Q B I k
    · obtain ⟨h, hrun, hR, -⟩ := s.onHeap_spec cfg (.remove k job) hL.rep hj
      rw [decide_eq_true (hmem.mp hj), if_pos rfl, hrun]
      refine ⟨h, rfl, ?_⟩
      rw [DList.Op.effect, herase] at hR
      exact hR
    · have hnot := fun hQB => hj (hmem.mpr hQB)
      rw [decide_eq_false hnot, if_neg Bool.false_ne_true]
      refine ⟨s.heap, rfl, ?_⟩
      rw [List.erase_of_not_mem fun hQ => hnot (.inl hQ), List.erase_of_not_mem fun hB => hnot (.inr hB)]
      exact hL.rep

/-- **An unblocked job** goes to the end of the queue. -/
theorem Lists.jobToUnblockAnotherJob (cfg : Config J) (hL : Lists s Q B I) (hj : job ∈ B) :
    ∃ h, s.jobToUnblockAnotherJob cfg job
        = some { s with heap := h, isBlocked := Function.update s.isBlocked job false } ∧
      h.Rep (contents (Q ++ [job]) (B.erase job) I) := by
  obtain ⟨h₁, hrun₁, hR₁, -⟩ := s.onHeap_spec cfg (.remove .blocked job) hL.rep hj
  rw [DList.Op.effect, update_blocked] at hR₁
  have hoff : ∀ k, job ∉ contents Q (B.erase job) I k := by
    intro k
    cases k with
    | queued => exact fun hQ => hL.notMem_blocked hQ hj
    | blocked => exact (hL.rep.rep .blocked).nodup.not_mem_erase
    | immediate => exact hL.rep.apart .blocked .immediate (by decide) job hj
  obtain ⟨h₂, hrun₂, hR₂, -⟩ := State.onHeap_spec
    (s := { s with heap := h₁, isBlocked := Function.update s.isBlocked job false }) cfg
    (.appendAtEnd .queued job) hR₁ hoff
  rw [DList.Op.effect, update_queued] at hR₂
  refine ⟨h₂, ?_, hR₂⟩
  rw [State.jobToUnblockAnotherJob, if_pos (hL.blocked job hj), hrun₁, Option.bind_some]
  exact hrun₂

/-- **What a request does**, with what it leaves alone. -/
structure Called (cfg : Config J) (s s' : State J P) (Q B I : List J) (request : J) : Prop where
  lists : Lists s' (served cfg (Q, B) request).1 (served cfg (Q, B) request).2 I
  result : ∀ j, cfg.func request = .cancelJob j →
    s'.cancelResult request = some (decide (j ∈ Q ∨ j ∈ B))
  others : ∀ r, r ≠ request → s'.cancelResult r = s.cancelResult r
  ran : s'.ran = s.ran
  signals : s'.signals = s.signals
  stack : s'.incomingStack = s.incomingStack
  word : s'.word = s.word

theorem Lists.call (hL : Lists s Q B I) (hw : Q.length + B.length ≤ walk)
    (himm : cfg.immediate request = true)
    (hu : ∀ j, cfg.func request = .unblockJob j → j ∈ B) :
    ∃ s', s.call cfg walk request = some s' ∧ Called cfg s s' Q B I request := by
  rw [State.call]
  cases hf : cfg.func request with
  | user =>
    rw [Config.immediate, hf] at himm
    cases himm
  | cancelJob job =>
    obtain ⟨h, hrun, hR⟩ := hL.jobStillWithDelegate cfg hw job
    refine ⟨{ s with
      heap := h
      cancelResult := Function.update s.cancelResult request (some (decide (job ∈ Q ∨ job ∈ B))) },
      ?_, ⟨?_, ?_, ?_⟩, ?_, fun r hr => Function.update_of_ne hr _ _, rfl, rfl, rfl, rfl⟩
    · show (s.jobStillWithDelegate cfg walk job).map _ = _
      rw [hrun, Option.map_some]
    · rw [served, hf]
      exact hR
    · rw [served, hf]
      exact fun j hj => hL.queued j (List.mem_of_mem_erase hj)
    · rw [served, hf]
      exact fun j hj => hL.blocked j (List.mem_of_mem_erase hj)
    · rintro j hj
      obtain rfl : job = j := by
        rw [hf] at hj
        exact Func.cancelJob.inj hj
      exact Function.update_self ..
  | unblockJob job =>
    have hj := hu job hf
    obtain ⟨h, hrun, hR⟩ := hL.jobToUnblockAnotherJob cfg hj
    refine ⟨{ s with heap := h, isBlocked := Function.update s.isBlocked job false }, hrun,
      ⟨?_, ?_, ?_⟩, ?_, fun _ _ => rfl, rfl, rfl, rfl, rfl⟩
    · rw [served, hf]
      exact hR
    · rw [served, hf]
      intro j hjQ
      rcases List.mem_append.mp hjQ with hjQ | hjQ
      · have hne : j ≠ job := fun he => hL.notMem_blocked hjQ (he ▸ hj)
        refine ⟨(hL.queued j hjQ).1, ?_⟩
        exact (Function.update_of_ne hne _ _).trans (hL.queued j hjQ).2
      · obtain rfl := List.mem_singleton.mp hjQ
        exact ⟨(hL.blocked j hj).1, Function.update_self ..⟩
    · rw [served, hf]
      intro j hjB
      have hne : j ≠ job := fun he => (hL.rep.rep .blocked).nodup.not_mem_erase (he ▸ hjB)
      have hflags := hL.blocked j (List.mem_of_mem_erase hjB)
      exact ⟨hflags.1, (Function.update_of_ne hne _ _).trans hflags.2⟩
    · rintro j hj'
      rw [hf] at hj'
      cases hj'

/-- Where a job is that no request cancelled. -/
theorem mem_served (hne : cfg.func request ≠ .cancelJob j)
    (hu : ∀ j, cfg.func request = .unblockJob j → j ∈ B) :
    j ∈ (served cfg (Q, B) request).1 ∨ j ∈ (served cfg (Q, B) request).2 ↔ j ∈ Q ∨ j ∈ B := by
  rw [served]
  cases hf : cfg.func request with
  | user => exact Iff.rfl
  | cancelJob job =>
    have hj : j ≠ job := fun he => hne (by rw [hf, he])
    exact or_congr (List.mem_erase_of_ne hj) (List.mem_erase_of_ne hj)
  | unblockJob job =>
    by_cases hj : j = job
    · subst hj
      exact iff_of_true (.inl (List.mem_append_right _ (List.mem_singleton_self j))) (.inr (hu j hf))
    · refine or_congr ?_ (List.mem_erase_of_ne hj)
      rw [List.mem_append, List.mem_singleton, or_iff_left hj]

/-- A cancelled job is nowhere. -/
theorem Lists.notMem_served (hL : Lists s Q B I) (hf : cfg.func request = .cancelJob j) :
    ¬ (j ∈ (served cfg (Q, B) request).1 ∨ j ∈ (served cfg (Q, B) request).2) := by
  rw [served, hf, not_or]
  exact ⟨(hL.rep.rep .queued).nodup.not_mem_erase, (hL.rep.rep .blocked).nodup.not_mem_erase⟩

/-- The lists do not grow. -/
theorem length_served (hu : ∀ j, cfg.func request = .unblockJob j → j ∈ B) :
    (served cfg (Q, B) request).1.length + (served cfg (Q, B) request).2.length
      ≤ Q.length + B.length := by
  rw [served]
  cases hf : cfg.func request with
  | user => exact le_refl _
  | cancelJob job => exact Nat.add_le_add (List.length_erase_le ..) (List.length_erase_le ..)
  | unblockJob job =>
    have hj := hu job hf
    have hpos := List.length_pos_of_mem hj
    show (Q ++ [job]).length + (B.erase job).length ≤ _
    rw [List.length_append, List.length_singleton, List.length_erase_of_mem hj]
    omega

/-- The requests that are left can be served. -/
theorem Unblockable.tail (hu : Unblockable cfg (request :: I) B) :
    Unblockable cfg I (served cfg (Q, B) request).2 := by
  obtain ⟨hnewest, hpair⟩ := List.pairwise_cons.mp hu.newest
  refine ⟨fun u hu' j hf => ?_, hpair⟩
  have hB := hu.blocked u (List.mem_cons_of_mem request hu') j hf
  obtain ⟨hcancel, hunblock⟩ := hnewest u hu' j hf
  rw [served]
  cases hf' : cfg.func request with
  | user => exact hB
  | cancelJob job => exact (List.mem_erase_of_ne fun he => hcancel (by rw [hf', he])).mpr hB
  | unblockJob job => exact (List.mem_erase_of_ne fun he => hunblock (by rw [hf', he])).mpr hB

theorem State.signals_signal (s : State J P) (request j : J) :
    (s.signal request).signals j = s.signals j + if request == j then 1 else 0 := by
  rw [signal]
  by_cases hj : j = request
  · subst hj
    rw [if_pos (beq_self_eq_true j)]
    exact Function.update_self ..
  · rw [if_neg fun he => hj (eq_of_beq he).symm]
    exact Function.update_of_ne hj ..

/-- **The loop over the requests**: each is called once, in order, and signalled. -/
theorem Lists.immediateLoop (hL : Lists s Q B I) (hu : Unblockable cfg I B)
    (himm : ∀ x ∈ I, cfg.immediate x = true) (hw : Q.length + B.length ≤ walk)
    (hr : I.length < rounds) :
    ∃ s', immediateLoop cfg walk rounds s = some s' ∧
      Lists s' (I.foldl (served cfg) (Q, B)).1 (I.foldl (served cfg) (Q, B)).2 [] ∧
      s'.ran = s.ran ++ I ∧ (∀ j, s'.signals j = s.signals j + I.count j) ∧
      s'.incomingStack = s.incomingStack ∧ s'.word = s.word ∧
      (∀ r ∉ I, s'.cancelResult r = s.cancelResult r) ∧
      ∀ X r Y j, I = X ++ r :: Y → cfg.func r = .cancelJob j →
        s'.cancelResult r
          = some (decide ((j ∈ Q ∨ j ∈ B) ∧ ∀ x ∈ X, cfg.func x ≠ .cancelJob j)) := by
  induction I generalizing s Q B rounds with
  | nil =>
    obtain ⟨rounds, rfl⟩ : ∃ n, rounds = n + 1 := Nat.exists_eq_add_one.mpr hr
    obtain ⟨h, hrun, hR, -⟩ := hL.rep.run cfg.bad
      (show (DList.Op.dequeue Which.immediate).Legal _ from trivial)
    rw [DList.Op.effect, update_immediate] at hR
    have hnone : DList.Op.returns (contents Q B []) (.dequeue .immediate) = none := rfl
    rw [hnone] at hrun
    refine ⟨{ s with heap := h }, ?_, ⟨hR, hL.queued, hL.blocked⟩, (List.append_nil _).symm,
      fun j => rfl, rfl, rfl, fun r _ => rfl, fun X r Y j hX => ?_⟩
    · simp only [Drain.immediateLoop, hrun]
    · exact absurd hX.symm (List.append_ne_nil_of_right_ne_nil X (List.cons_ne_nil r Y))
  | cons request I ih =>
    obtain ⟨rounds, rfl⟩ : ∃ n, rounds = n + 1 :=
      Nat.exists_eq_add_one.mpr (Nat.lt_of_le_of_lt (Nat.zero_le _) hr)
    have hnd : (request :: I).Nodup := (hL.rep.rep .immediate).nodup
    have hnotin : request ∉ I := (List.nodup_cons.mp hnd).1
    obtain ⟨h, hrun, hR, -⟩ := hL.rep.run cfg.bad
      (show (DList.Op.dequeue Which.immediate).Legal _ from trivial)
    rw [DList.Op.effect, update_immediate] at hR
    have hsome : DList.Op.returns (contents Q B (request :: I)) (.dequeue .immediate)
        = some request := rfl
    rw [hsome] at hrun
    have hL₁ : Lists { s with heap := h } Q B I := ⟨hR, hL.queued, hL.blocked⟩
    have hub := hu.blocked request List.mem_cons_self
    obtain ⟨s₂, hcall, hcalled⟩ := hL₁.call hw (himm request List.mem_cons_self) hub
    have hL₂ : Lists (s₂.signal request) (served cfg (Q, B) request).1
        (served cfg (Q, B) request).2 I :=
      ⟨hcalled.lists.rep, hcalled.lists.queued, hcalled.lists.blocked⟩
    obtain ⟨s', hloop, hlists, hran, hsig, hstack, hword, hothers, hresult⟩ := ih hL₂ hu.tail
      (fun x hx => himm x (List.mem_cons_of_mem request hx))
      (Nat.le_trans (length_served hub) hw) (Nat.lt_of_succ_lt_succ hr)
    refine ⟨s', ?_, hlists, ?_, fun j => ?_, hstack.trans hcalled.stack, hword.trans hcalled.word,
      fun r hr' => ?_, fun X r Y j hX hf => ?_⟩
    · simp only [Drain.immediateLoop, hrun, hcall, Option.bind_some, hloop]
    · rw [hran, State.signal, hcalled.ran, List.append_assoc]
      rfl
    · rw [hsig, State.signals_signal, hcalled.signals, List.count_cons]
      show s.signals j + _ + _ = s.signals j + _
      omega
    · rw [List.mem_cons, not_or] at hr'
      rw [hothers r hr'.2]
      exact hcalled.others r hr'.1
    · cases X with
      | nil =>
        obtain ⟨rfl, rfl⟩ := List.cons.inj hX
        rw [hothers request hnotin]
        refine (hcalled.result j hf).trans (congrArg some (decide_eq_decide.mpr ?_))
        exact (and_iff_left (by simp)).symm
      | cons x X =>
        obtain ⟨rfl, rfl⟩ := List.cons.inj hX
        rw [hresult X r Y j rfl hf]
        refine congrArg some (decide_eq_decide.mpr ?_)
        rw [List.forall_mem_cons]
        by_cases hx : cfg.func request = .cancelJob j
        · exact iff_of_false (fun h => hL₁.notMem_served hx h.1) fun h => h.2.1 hx
        · rw [mem_served hx hub, and_iff_right (a := cfg.func request ≠ .cancelJob j) hx]

/-! ## The drain -/

omit [DecidableEq J] in
/-- A request to cancel does not wait in the queue. -/
theorem Config.immediate_of_cancelJob (hf : cfg.func request = .cancelJob j) :
    cfg.immediate request = true := by
  rw [immediate, hf]

omit [DecidableEq J] in
/-- The requests of a stack, where one of them is. -/
theorem filter_around {X Y : List J} {r : J} (hr : cfg.immediate r = true) :
    (X ++ r :: Y).filter cfg.immediate
      = X.filter cfg.immediate ++ r :: Y.filter cfg.immediate := by
  rw [List.filter_append, List.filter_cons_of_pos hr]

/-- A job, a request to cancel it and another job on the stack, the other one on top. -/
def threeJobs : Config ℕ := ⟨fun j => if j = 2 then .cancelJob 1 else .user, 0⟩

/-- The delegate of the three jobs, which owns each job. -/
def threeJobsState : State ℕ Unit where
  heap := ⟨⟨fun j => if j = 3 then some 2 else if j = 2 then some 1 else none, fun _ => none⟩,
    fun _ => DList.Header.init⟩
  incomingStack := some 3
  word := ⟨true, true, false, false, ()⟩
  owned := fun _ => true
  isBlocked := fun _ => false
  cancelResult := fun _ => none
  signals := fun _ => 0
  ran := []

end Drain
