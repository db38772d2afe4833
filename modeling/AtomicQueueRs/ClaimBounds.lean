import AtomicQueueRs.Indexing
import AtomicQueueRs.Tickets

/-! Queues that claim by `compare_exchange`, used without the blocking calls.
The bound on the counters is carried through what every pending call has
loaded: a stale load is below the counter and its claim is lost. -/
namespace AtomicQueueRs

set_option autoImplicit false

open Interleaving (Trace Run Action)

variable {w : Nat} {T V C U O : Type}

/-- Calls that return whatever the queue holds. -/
def Call.nonBlocking : Call T → Prop
  | .push _ | .pop => False
  | _ => True

instance : DecidablePred (Call.nonBlocking (T := T)) := fun operation =>
  match operation with
  | .push _ | .pop => isFalse id
  | .tryPush _ | .tryPop | .observe _ => isTrue trivial

/-- No thread calls `push` or `pop`. -/
def nonBlockingCalls : Trace (Event w T V) → State w T C U O → Action (Call T) → Prop
  | _, _, .call _ operation => operation.nonBlocking
  | _, _, .step _ => True

instance (trace : Trace (Event w T V)) (s : State w T C U O) (action : Action (Call T)) :
    Decidable (nonBlockingCalls trace s action) :=
  match action with
  | .call _ operation => inferInstanceAs (Decidable operation.nonBlocking)
  | .step _ => isTrue trivial

namespace ClaimBounds

/-- What a pending call knows about `n` claimed producer positions, `m`
claimed consumer positions and the capacity. -/
def Pending (n m capacity : Nat) : Pc w T U O → Prop
  | .tryPushLoadTail _ head => head.toNat ≤ n
  | .tryPushClaim _ head => head.toNat ≤ n ∧ (head.toNat = n → n < m + capacity)
  | .tryPopLoadHead tail => tail.toNat ≤ m
  | .tryPopClaim tail => tail.toNat ≤ m ∧ (tail.toNat = m → m < n)
  | .popSlot _ position _ _ => position.toNat < n
  | .pushClaim _ | .popClaim => False
  | _ => True

variable {n m capacity : Nat}

/-- Another claim from `head` takes nothing away from what a call knows: a stale
load only becomes staler. -/
theorem Pending.succ_left {pc : Pc w T U O} (h : Pending n m capacity pc) :
    Pending (n + 1) m capacity pc := by
  cases pc <;> simp only [Pending] at h ⊢ <;> omega

/-- Another claim from `tail` neither; a `try_pop` that has tested `tail`
against `head` then fails its exchange. -/
theorem Pending.succ_right {pc : Pc w T U O} (h : Pending n m capacity pc) :
    Pending n (m + 1) capacity pc := by
  cases pc <;> simp only [Pending] at h ⊢ <;> omega

/-- A call that does not block has loaded nothing when it starts. -/
theorem pending_start {operation : Call T} (h : operation.nonBlocking) :
    Pending n m capacity (Queue.start operation : Pc w T U O) := by
  cases operation <;> first | exact h.elim | exact trivial

variable {q : Queue w} {code : SlotCode T V C U O}

/-- Loads keep what is known, given what the counters hold. -/
theorem pending_quiet {σ : Memory w C} {pc pc' : Pc w T U O} {es : List (Event w T V)}
    (hHead : σ.head.toNat = n) (hTail : σ.tail.toNat = m) (hLe : m ≤ n)
    (h : q.Quiet σ pc pc' es) (hPending : Pending n m q.capacity.toNat pc) :
    Pending n m q.capacity.toNat pc' := by
  cases h with
  | tryPushLoadHead element => exact hHead.le
  | tryPushProceed element head hSpace =>
      refine ⟨hPending, fun hCurrent => ?_⟩
      have hSize : (head - σ.tail).toNat = n - m := by
        rw [BitVec.toNat_sub_of_le (by rw [BitVec.le_def]; omega), hCurrent, hTail]
      rw [BitVec.le_def, hSize] at hSpace
      omega
  | tryPopLoadTail => exact hTail.le
  | tryPopProceed tail hSome =>
      refine ⟨hPending, fun hCurrent => ?_⟩
      have hNe : m ≠ n := fun hEq => hSome (BitVec.eq_of_toNat_eq (by omega))
      omega
  | _ => exact trivial

/-- A producer that has its position needs to know nothing any more: it does not
look at the counters again. -/
theorem pending_enterPush (blocking : Bool) (position : Usize w) (element : T) :
    Pending n m capacity (q.enterPush (V := V) code blocking position element).1 := by
  unfold Queue.enterPush
  split <;> exact trivial

/-- A consumer keeps that its position is below `head`, which is what bounds its
wait. -/
theorem pending_enterPop (blocking : Bool) {position : Usize w} (hPosition : position.toNat < n) :
    Pending n m capacity (q.enterPop code blocking position).1 := by
  unfold Queue.enterPop
  split
  · exact hPosition
  · exact trivial

/-- While it is at the slot nothing changes for a producer. -/
theorem pending_afterPush (blocking : Bool) (position : Usize w) (slot : Nat)
    (outcome : Outcome U Unit) : Pending n m capacity
      (Queue.afterPush (T := T) (V := V) (O := O) blocking position slot outcome).1 := by
  cases outcome <;> exact trivial

/-- Nor for a consumer, whose position stays the one it claimed. -/
theorem pending_afterPop (blocking : Bool) {position : Usize w} (slot : Nat)
    (outcome : Outcome O V) (hPosition : position.toNat < n) : Pending n m capacity
      (Queue.afterPop (T := T) (U := U) blocking position slot outcome).1 := by
  cases outcome with
  | goto pc => exact hPosition
  | _ => exact trivial

/-- The counters and every pending call, over `n` and `m` claimed positions. -/
structure Bounded (capacity n m : Nat) (s : State w T C U O) : Prop where
  tail_le : m ≤ n
  head_le : n ≤ m + capacity
  pending : ∀ thread, Pending n m capacity (s.threads thread)

/-- One thread moves on and the counters with it, if the bounds still hold and
no other call is hurt by that. -/
theorem Bounded.update {s : State w T C U O} (h : Bounded capacity n m s) {n' m' : Nat}
    {thread : Nat} {pc : Pc w T U O} (shared : Memory w C) (hLe : m' ≤ n') (hFull : n' ≤ m' + capacity)
    (hPc : Pending n' m' capacity pc)
    (hRest : ∀ pc : Pc w T U O, Pending n m capacity pc → Pending n' m' capacity pc) :
    Bounded capacity n' m' ⟨shared, Function.update s.threads thread pc⟩ := by
  refine ⟨hLe, hFull, fun other => ?_⟩
  by_cases hOther : other = thread
  · subst hOther
    simpa using hPc
  · simpa [Function.update_of_ne hOther] using hRest _ (h.pending other)

/-- One step of any thread keeps the bounds. -/
theorem Bounded.step {s : State w T C U O} {thread : Nat} {pc : Pc w T U O} {shared : Memory w C}
    {es : List (Event w T V)} (hOrder : q.totalOrder = true)
    (h : Bounded q.capacity.toNat n m s) (hHead : s.shared.head.toNat = n)
    (hTail : s.shared.tail.toNat = m)
    (hStep : q.Step code (s.threads thread) s.shared pc shared es) :
    Bounded q.capacity.toNat (n + (es.filterMap Event.headClaim).length)
      (m + (es.filterMap Event.tailClaim).length)
      ⟨shared, Function.update s.threads thread pc⟩ := by
  have hPending := h.pending thread
  generalize hPc : s.threads thread = before at hStep hPending
  cases hStep with
  | quiet hQuiet =>
      rw [headClaim_eq_nil hQuiet.claimsNothing, tailClaim_eq_nil hQuiet.claimsNothing]
      exact h.update _ h.tail_le h.head_le
        (pending_quiet hHead hTail h.tail_le hQuiet hPending) fun _ => id
  | claimHead hClaim =>
      obtain ⟨hHeads, hTails⟩ := Queue.enterPush_claims _ _ _
      rw [hHeads, hTails]
      have hSpace : n < m + q.capacity.toNat := by
        cases hClaim with
        | push => exact hPending.elim
        | compareExchange => exact hPending.2 hHead
        | fetchAdd _ _ hFetch => exact absurd hOrder (by simp [hFetch])
      exact h.update _ (Nat.le_succ_of_le h.tail_le) hSpace (pending_enterPush _ _ _)
        fun _ => Pending.succ_left
  | @claimTail _ _ blocking position hClaim =>
      obtain ⟨hHeads, hTails⟩ := Queue.enterPop_claims _ _
      rw [hHeads, hTails]
      have hSome : m < n ∧ position = s.shared.tail := by
        cases hClaim with
        | pop => exact hPending.elim
        | compareExchange => exact ⟨hPending.2 hTail, rfl⟩
        | fetchAdd _ hFetch => exact absurd hOrder (by simp [hFetch])
      have hHeadLe : n ≤ m + 1 + q.capacity.toNat := Nat.le_trans h.head_le (by omega)
      refine h.update _ hSome.1 hHeadLe (pending_enterPop _ ?_)
        fun _ => Pending.succ_right
      rw [hSome.2, hTail]
      exact hSome.1
  | pushSlot blocking position slot pc =>
      have hNothing := Queue.afterPush_claimsNothing (T := T) (V := V) (O := O) blocking position slot
        (code.pushStep pc (s.shared.slots slot)).2.1 (code.pushStep pc (s.shared.slots slot)).2.2
      rw [headClaim_eq_nil hNothing, tailClaim_eq_nil hNothing]
      exact h.update _ h.tail_le h.head_le (pending_afterPush _ _ _ _) fun _ => id
  | popSlot blocking position slot pc =>
      have hNothing := Queue.afterPop_claimsNothing (T := T) (U := U) blocking position slot
        (code.popStep pc (s.shared.slots slot)).2.1 (code.popStep pc (s.shared.slots slot)).2.2
      rw [headClaim_eq_nil hNothing, tailClaim_eq_nil hNothing]
      exact h.update _ h.tail_le h.head_le (pending_afterPop _ _ _ hPending) fun _ => id

variable {empty : C}

/-- In every run of calls that do not block `tail` is at most `head` and `head`
at most a capacity ahead. Before `head` wraps a word that is unchanged since it
was loaded has not moved either, so that an exchange succeeds only on a fresh
test. -/
theorem bounded_of_run (hOrder : q.totalOrder = true) {trace : Trace (Event w T V)}
    {s : State w T C U O}
    (run : Run (q.threadCode code) nonBlockingCalls (initial w empty) trace s)
    (hUsed : (headClaims trace).length < 2 ^ w) :
    Bounded q.capacity.toNat (headClaims trace).length (tailClaims trace).length s := by
  revert hUsed
  refine run.invariant (fun trace s => (headClaims trace).length < 2 ^ w →
    Bounded q.capacity.toNat (headClaims trace).length (tailClaims trace).length s) ?_ ?_ ?_
  · intro _
    exact ⟨Nat.le_refl 0, Nat.zero_le _, fun _ => trivial⟩
  · intro trace s thread operation pc es _ ih hAllowed hCall hUsed
    obtain ⟨_, rfl, rfl⟩ := Queue.call_cases hCall
    rw [headClaims_call] at hUsed
    rw [headClaims_call, tailClaims_call]
    have h := ih hUsed
    exact h.update _ h.tail_le h.head_le (pending_start hAllowed) fun _ => id
  · intro trace s thread pc shared es prior ih _ hStep hUsed
    rw [headClaims_append, List.length_append, List.length_map] at hUsed
    rw [headClaims_append, tailClaims_append, List.length_append, List.length_append,
      List.length_map, List.length_map]
    have h := ih (by omega)
    have hCounted := counted_of_run prior
    have hTailLe := h.tail_le
    refine h.step hOrder ?_ ?_ (Queue.step_cases hStep)
    · rw [hCounted.head, BitVec.toNat_ofNat, Nat.mod_eq_of_lt (by omega)]
    · rw [hCounted.tail, BitVec.toNat_ofNat, Nat.mod_eq_of_lt (by omega)]

end ClaimBounds

/-- The counters never cross nor drift apart by more than the capacity, every
position below a counter was claimed from it exactly once and no other was,
and a consumer at a slot holds a position some producer has claimed. -/
structure ClaimsSound (capacity : Usize w) (trace : Trace (Event w T V)) (s : State w T C U O) :
    Prop where
  tail_le_head : s.shared.tail.toNat ≤ s.shared.head.toNat
  size_le_capacity : s.shared.head.toNat - s.shared.tail.toNat ≤ capacity.toNat
  head_claims : ∀ position, ((headClaims trace).map Prod.snd).count position =
    if position < s.shared.head then 1 else 0
  tail_claims : ∀ position, ((tailClaims trace).map Prod.snd).count position =
    if position < s.shared.tail then 1 else 0
  waiting : ∀ thread blocking position slot pc,
    s.threads thread = .popSlot blocking position slot pc →
      position ∈ (headClaims trace).map Prod.snd

/-- In every run of calls that do not block, on a queue that claims by
`compare_exchange`, with fewer than `2 ^ (w - 1)` positions used: the counters
are never more than a capacity apart, also between the loads and the claim of a
call, and no position is taken twice. -/
theorem claimsSound_of_nonBlocking {target : Target w} {q : Queue w}
    (hq : IsTotallyOrdered target q) (code : SlotCode T V C U O) (empty : C)
    {trace : Trace (Event w T V)} {s : State w T C U O}
    (run : Run (q.threadCode code) nonBlockingCalls (initial w empty) trace s)
    (hUsed : (headClaims trace).length < 2 ^ (w - 1)) : ClaimsSound q.capacity trace s := by
  have hWord : (headClaims trace).length < 2 ^ w :=
    Nat.lt_of_lt_of_le hUsed (Nat.pow_le_pow_right (by omega) (Nat.sub_le w 1))
  have hBounded := ClaimBounds.bounded_of_run hq.totalOrder_eq run hWord
  have hOrdered := ordered_of_run (fun _ _ action _ => by
    cases action with
    | call => exact trivial
    | step => exact Or.inl hq.totalOrder_eq) run
  have hTailLe := hBounded.tail_le
  have hHeadLe := hBounded.head_le
  have hHead : s.shared.head.toNat = (headClaims trace).length := by
    rw [hOrdered.head, BitVec.toNat_ofNat, Nat.mod_eq_of_lt hWord]
  have hTail : s.shared.tail.toNat = (tailClaims trace).length := by
    rw [hOrdered.tail, BitVec.toNat_ofNat, Nat.mod_eq_of_lt (by omega)]
  refine ⟨by omega, by omega, fun position => ?_, fun position => ?_, ?_⟩
  · rw [hOrdered.heads, count_positions hWord, hOrdered.head]
  · rw [hOrdered.tails, count_positions (by omega), hOrdered.tail]
  · intro thread blocking position slot pc hPc
    have hPending := hBounded.pending thread
    rw [hPc] at hPending
    rw [hOrdered.heads, positions, List.mem_map]
    exact ⟨position.toNat, List.mem_range.mpr hPending, by rw [BitVec.ofNat_toNat, BitVec.setWidth_eq]⟩

/-- The one slot has been filled and claimed by a consumer that has not emptied
it. -/
theorem claimsSound_oneSlot : ∃ trace, ∃ s : AtomicQueue.Config 64 (BitVec 64),
    s.shared.head = 1#64 ∧ s.shared.tail = 1#64 ∧
      ClaimsSound (V := BitVec 64) AtomicQueue.oneSlot.capacity trace s := by
  refine ⟨_, _, ?_, ?_, claimsSound_of_nonBlocking (.atomic (.fixed _ AtomicQueue.new_oneSlot))
    (AtomicQueue.slotCode 64 (BitVec 64) false) (AtomicValue.new 64)
    (Run.ofExec 2 (fun trace s action => decide (nonBlockingCalls trace s action))
      (fun _ _ _ _ => of_decide_eq_true)
      [.call 0 (.tryPush 7#64), .step 0, .step 0, .step 0, .step 0,
        .call 1 .tryPop, .step 1, .step 1, .step 1] (by decide) (by decide +kernel)) ?_⟩
  · decide +kernel
  · decide +kernel
  · decide +kernel

end AtomicQueueRs
