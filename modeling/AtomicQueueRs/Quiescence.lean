import AtomicQueueRs.Accesses
import AtomicQueueRs.Mpmc
import AtomicQueueRs.Refusal

/-! Tickets and flags of the MPMC branch. A claimed position is filled or
still owed by the thread that claimed it, and a slot's flag is what its fills
exceed its drains by. With no call in progress nothing is owed. -/
namespace AtomicQueueRs

set_option autoImplicit false

open Interleaving (Trace Run Action Balanced anyAction exec due due_none count_singleton_eq)

variable {w : Nat} {T : Type}

def Flag.toNat : Flag → Nat
  | .empty => 0
  | .full => 1

theorem Flag.eq_empty {flag : Flag} (h : flag ≠ .full) : flag = .empty := by
  cases flag with
  | empty => rfl
  | full => exact (h rfl).elim

theorem Flag.eq_full {flag : Flag} (h : flag ≠ .empty) : flag = .full := by
  cases flag with
  | empty => exact (h rfl).elim
  | full => rfl

theorem Flag.toNat_eq_one_iff (flag : Flag) : flag.toNat = 1 ↔ flag = .full := by
  cases flag <;> simp [toNat]

theorem Flag.toNat_le_one (flag : Flag) : flag.toNat ≤ 1 := by
  cases flag <;> simp [toNat]

namespace Mpmc

open AtomicQueue2 (Local Config)

/-- The claimed position whose slot this call has yet to fill. -/
def owesFill : Local w T → Option (Usize w)
  | .pushSlot _ position _ (.compareExchange _) => some position
  | _ => none

/-- The claimed position whose slot this call has yet to drain. -/
def owesDrain : Local w T → Option (Usize w)
  | .popSlot _ position _ .compareExchange => some position
  | .popSlot _ position _ .spin => some position
  | _ => none

variable {q : Queue w}

/-- A step away from the slots changes neither what the thread owes nor a
flag. -/
theorem quiet_owes {σ : Memory w (Slot T)} {pc pc' : Local w T} {es : List (Event w T (Option T))}
    (h : q.Quiet σ pc pc' es) :
    owesFill pc = none ∧ owesFill pc' = none ∧ owesDrain pc = none ∧ owesDrain pc' = none ∧
      es.filterMap Event.slotFill = [] ∧ es.filterMap Event.slotDrain = [] := by
  cases h <;> exact ⟨rfl, rfl, rfl, rfl, rfl, rfl⟩

theorem claimsHead_owes {σ : Memory w (Slot T)} {pc : Local w T} {blocking : Bool}
    {position : Usize w} {value : T} (h : q.ClaimsHead σ pc blocking position value) :
    owesFill pc = none ∧ owesDrain pc = none := by
  cases h <;> exact ⟨rfl, rfl⟩

theorem claimsTail_owes {σ : Memory w (Slot T)} {pc : Local w T} {blocking : Bool}
    {position : Usize w} (h : q.ClaimsTail σ pc blocking position) :
    owesFill pc = none ∧ owesDrain pc = none := by
  cases h <;> exact ⟨rfl, rfl⟩

/-- A step pays for a claim with a fill, or owes it. -/
theorem Step.fills (hIndexed : q.Indexed) {pc pc' : Local w T} {σ σ' : Memory w (Slot T)}
    {es : List (Event w T (Option T))} (h : Step q pc σ pc' σ' es) (position : Usize w) :
    (es.filterMap Event.headClaim).count position + due (owesFill pc) position =
      (es.filterMap Event.slotFill).count position + due (owesFill pc') position := by
  cases h with
  | quiet h =>
      obtain ⟨hBefore, hAfter, _, _, hFills, _⟩ := quiet_owes h
      rw [headClaim_eq_nil h.claimsNothing, hBefore, hAfter, hFills]
  | claimHead h =>
      rw [(claimsHead_owes h).1]
      exact (Nat.add_comm _ _).trans (congrArg _ (count_singleton_eq _ _))
  | claimTail h =>
      rw [(claimsTail_owes h).1]
      rfl
  | @pushPanic _ _ _ claimed _ _ hSlot =>
      obtain ⟨slot, _, hSome⟩ := hIndexed.exists_getSlot claimed
      rw [hSlot] at hSome
      contradiction
  | popPanic h =>
      rw [(claimsTail_owes h).1]
      rfl
  | fill => exact (Nat.add_comm _ _).trans (congrArg (· + 0) (count_singleton_eq _ _).symm)
  | pushWait | write | popWait | drain | read => rfl

/-- A step pays for a claim with a drain, or owes it. -/
theorem Step.drains (hIndexed : q.Indexed) {pc pc' : Local w T} {σ σ' : Memory w (Slot T)}
    {es : List (Event w T (Option T))} (h : Step q pc σ pc' σ' es) (position : Usize w) :
    (es.filterMap Event.tailClaim).count position + due (owesDrain pc) position =
      (es.filterMap Event.slotDrain).count position + due (owesDrain pc') position := by
  cases h with
  | quiet h =>
      obtain ⟨_, _, hBefore, hAfter, _, hDrains⟩ := quiet_owes h
      rw [tailClaim_eq_nil h.claimsNothing, hBefore, hAfter, hDrains]
  | claimHead h =>
      rw [(claimsHead_owes h).2]
      rfl
  | claimTail h =>
      rw [(claimsTail_owes h).2]
      exact (Nat.add_comm _ _).trans (congrArg _ (count_singleton_eq _ _))
  | pushPanic h =>
      rw [(claimsHead_owes h).2]
      rfl
  | @popPanic _ _ _ claimed _ hSlot =>
      obtain ⟨slot, _, hSome⟩ := hIndexed.exists_getSlot claimed
      rw [hSlot] at hSome
      contradiction
  | drain => exact (Nat.add_comm _ _).trans (congrArg (· + 0) (count_singleton_eq _ _).symm)
  | popWait hPc hPc' => rcases hPc with rfl | rfl <;> rcases hPc' with rfl | rfl <;> rfl
  | pushWait | fill | write | read => rfl

/-- A flag turns full by a fill and empty by a drain of its own slot. -/
theorem Step.flags {pc pc' : Local w T} {σ σ' : Memory w (Slot T)}
    {es : List (Event w T (Option T))} (h : Step q pc σ pc' σ' es) (hPlaced : Placed q pc)
    (slot : Nat) :
    (es.filterMap Event.slotFill).countP (q.atSlot slot) + (σ.slots slot).state.toNat =
      (es.filterMap Event.slotDrain).countP (q.atSlot slot) + (σ'.slots slot).state.toNat := by
  cases h with
  | quiet h =>
      obtain ⟨_, _, _, _, hFills, hDrains⟩ := quiet_owes h
      rw [hFills, hDrains]
  | @fill blocking position own value σ hEmpty =>
      have hOwn := hPlaced.1
      by_cases hSlot : slot = own
      · subst hSlot
        simp [Event.slotFill, Event.slotDrain, Queue.atSlot, hOwn, hEmpty, Flag.toNat]
      · simp [Event.slotFill, Event.slotDrain, Queue.atSlot, hOwn, Ne.symm hSlot, hSlot]
  | @drain blocking position own σ hFull =>
      have hOwn := hPlaced.1
      by_cases hSlot : slot = own
      · subst hSlot
        simp [Event.slotFill, Event.slotDrain, Queue.atSlot, hOwn, hFull, Flag.toNat]
      · simp [Event.slotFill, Event.slotDrain, Queue.atSlot, hOwn, Ne.symm hSlot, hSlot]
  | @write blocking position own value σ =>
      by_cases hSlot : slot = own
      · subst hSlot
        simp only [Function.update_self]
        rfl
      · simp only [Function.update_of_ne hSlot]
        rfl
  | claimHead | claimTail | pushPanic | popPanic | pushWait | popWait | read => rfl

/-- Every claim is filled or owed, and every flag is explained. -/
structure Accounted (q : Queue w) (trace : Trace (Event w T (Option T))) (s : Config w T) :
    Prop where
  fills : Balanced Event.headClaim Event.slotFill owesFill trace s.threads
  drains : Balanced Event.tailClaim Event.slotDrain owesDrain trace s.threads
  flags : ∀ slot, ((AtomicQueueRs.fills trace).map Prod.snd).countP (q.atSlot slot) =
    ((AtomicQueueRs.drains trace).map Prod.snd).countP (q.atSlot slot) + (s.shared.slots slot).state.toNat

variable {maximizeThroughput : Bool}
  {allowed : Trace (Event w T (Option T)) → Config w T → Action (Call T) → Prop}

theorem owes_start (operation : Call T) : owesFill (Queue.start operation : Local w T) = none ∧
    owesDrain (Queue.start operation : Local w T) = none := by
  cases operation <;> exact ⟨rfl, rfl⟩

/-- In every run of the MPMC branch, however many threads claimed the same
position: what was claimed of a slot is what was filled and what threads still
owe it. -/
theorem accounted_of_run (hIndexed : q.Indexed) {trace : Trace (Event w T (Option T))}
    {s : Config w T}
    (run : Run (q.threadCode (AtomicQueue2.slotCode T maximizeThroughput false)) allowed
      (initial w (Slot.new T)) trace s) : Accounted q trace s := by
  refine invariant_of_run (Accounted q)
    ⟨.nil fun _ => rfl, .nil fun _ => rfl, fun _ => rfl⟩ ?_ ?_ run
  · intro trace s actor operation ih hIdle _
    obtain ⟨hFill, hDrain⟩ := owes_start (w := w) operation
    refine ⟨ih.fills.append fun position => ?_, ih.drains.append fun position => ?_, fun slot => ?_⟩
    · rw [hIdle, hFill]
      rfl
    · rw [hIdle, hDrain]
      rfl
    · rw [fills_call, drains_call]
      exact ih.flags slot
  · intro trace s actor pc shared es _ ih _ hPlaced hStep
    refine ⟨ih.fills.append (hStep.fills hIndexed), ih.drains.append (hStep.drains hIndexed),
      fun slot => ?_⟩
    have hBefore := ih.flags slot
    have hFlags := hStep.flags hPlaced slot
    simp only [fills_append, drains_append, List.map_append, List.map_map, List.countP_append,
      Function.comp_def, List.map_id'] at *
    omega

/-- What a state with no call in progress looks like: at most `capacity`
positions are claimed from `head` only, and their slots are the full ones. -/
structure Consistent (q : Queue w) (trace : Trace (Event w T (Option T))) (s : Config w T) :
    Prop where
  tail_le_head : (tailClaims trace).length ≤ (headClaims trace).length
  size_eq : (s.shared.head - s.shared.tail).toNat =
    (headClaims trace).length - (tailClaims trace).length
  size_le_capacity : s.shared.head - s.shared.tail ≤ q.capacity
  full_iff : ∀ slot < q.capacity.toNat, (s.shared.slots slot).state = .full ↔
    ∃ position ∈ s.shared.window, q.getSlot position = some slot

theorem owes_of_quiescent {s : Config w T} (hQuiescent : Quiescent s) (thread : Nat) :
    owesFill (s.threads thread) = none ∧ owesDrain (s.threads thread) = none := by
  rcases hQuiescent thread with hPc | hPc <;> rw [hPc] <;> exact ⟨rfl, rfl⟩

/-- Between calls, `head` has passed the slot as often as `tail`, and once more
if the slot is full. -/
theorem Accounted.visits (hIndexed : q.Indexed) {trace : Trace (Event w T (Option T))}
    {s : Config w T} (h : Accounted q trace s) (hOrdered : Ordered trace s)
    (hQuiescent : Quiescent s) (slot : Nat) :
    Ring.visits q.slotAt slot (headClaims trace).length =
      Ring.visits q.slotAt slot (tailClaims trace).length +
        (s.shared.slots slot).state.toNat := by
  have hFills : (headClaims trace).Perm (AtomicQueueRs.fills trace) :=
    h.fills.perm fun thread => (owes_of_quiescent hQuiescent thread).1
  have hDrains : (tailClaims trace).Perm (AtomicQueueRs.drains trace) :=
    h.drains.perm fun thread => (owes_of_quiescent hQuiescent thread).2
  calc Ring.visits q.slotAt slot (headClaims trace).length
      = ((headClaims trace).map Prod.snd).countP (q.atSlot slot) := by
        rw [← hIndexed.countP_positions, hOrdered.heads]
    _ = ((AtomicQueueRs.drains trace).map Prod.snd).countP (q.atSlot slot) +
          (s.shared.slots slot).state.toNat := by rw [(hFills.map Prod.snd).countP_eq, h.flags]
    _ = Ring.visits q.slotAt slot (tailClaims trace).length +
          (s.shared.slots slot).state.toNat := by
        rw [← (hDrains.map Prod.snd).countP_eq, ← hIndexed.countP_positions, hOrdered.tails]

/-- Every slot balances the visits of both counters with its flag, and the
bounds on the counters follow by adding up. The run may be of any length. -/
theorem consistent_of_quiescent (hIndexed : q.Indexed) {trace : Trace (Event w T (Option T))}
    {s : Config w T} (h : Accounted q trace s) (hOrdered : Ordered trace s)
    (hQuiescent : Quiescent s) : Consistent q trace s := by
  have hBalance : ∀ slot < q.capacity.toNat, _ :=
    fun slot _ => h.visits hIndexed hOrdered hQuiescent slot
  have hFlag : ∀ slot < q.capacity.toNat, (s.shared.slots slot).state.toNat ≤ 1 :=
    fun slot _ => Flag.toNat_le_one _
  have hLe := Ring.le_of_balanced hIndexed.slotAt_lt hBalance
  have hLength := Ring.length_le_of_balanced hIndexed.slotAt_lt hBalance hFlag
  have hWord : (headClaims trace).length - (tailClaims trace).length < 2 ^ w := by
    have hCapacity := q.capacity.isLt
    omega
  have hSize : (s.shared.head - s.shared.tail).toNat =
      (headClaims trace).length - (tailClaims trace).length := by
    rw [hOrdered.head, hOrdered.tail, Usize.toNat_ofNat_sub_ofNat hLe hWord]
  refine ⟨hLe, hSize, ?_, fun slot hSlot => ?_⟩
  · rw [BitVec.le_def, hSize]
    omega
  · rw [← Flag.toNat_eq_one_iff, Ring.full_iff_of_balanced hBalance hFlag hSlot]
    simp only [AtomicQueueCommon.mem_window hOrdered.head hOrdered.tail hLe hWord]
    constructor
    · rintro ⟨p, hLower, hUpper, hp⟩
      exact ⟨_, ⟨p, hLower, hUpper, rfl⟩, by rw [hIndexed.getSlot_ofNat, hp]⟩
    · rintro ⟨_, ⟨p, hLower, hUpper, rfl⟩, hp⟩
      rw [hIndexed.getSlot_ofNat] at hp
      exact ⟨p, hLower, hUpper, Option.some.inj hp⟩

end Mpmc

/-- Any mix of calls on a queue that claims by `compare_exchange`. Blocking
calls may have passed the other counter on the way; when all have returned it
has caught up. -/
theorem consistent_of_totalOrder {target : Target w} {q : Queue w}
    (hq : IsAtomicQueue2 target true q) (hPos : 0 < q.capacity.toNat) (maximizeThroughput : Bool)
    {trace : Trace (Event w T (Option T))} {s : AtomicQueue2.Config w T}
    (run : Run (q.threadCode (AtomicQueue2.slotCode T maximizeThroughput false)) anyAction
      (initial w (Slot.new T)) trace s)
    (hQuiescent : Quiescent s) : Mpmc.Consistent q trace s := by
  have hIndexed := hq.indexed hPos
  have hOrdered := ordered_of_run (fun _ _ action _ => by
    cases action with
    | call => exact trivial
    | step => exact Or.inl hq.totalOrder_eq) run
  exact Mpmc.consistent_of_quiescent hIndexed (Mpmc.accounted_of_run hIndexed run) hOrdered
    hQuiescent

theorem consistent_twoSlots : ∃ trace, ∃ s : AtomicQueue2.Config 64 Nat,
    s.shared.head = 2#64 ∧ s.shared.tail = 1#64 ∧
      Mpmc.Consistent (AtomicQueue2.twoSlots true) trace s := by
  have hRun : (exec ((AtomicQueue2.twoSlots true).threadCode
      (AtomicQueue2.slotCode Nat true false)) (fun _ _ _ => true)
      [.call 0 (.push 7), .step 0, .call 1 (.tryPush 8), .step 1, .call 2 .pop, .step 2, .step 2,
        .step 1, .step 1, .step 0, .step 0, .step 2, .step 2, .step 2, .step 1, .step 1] []
      (initial 64 (Slot.new Nat))).isSome := by decide +kernel
  refine ⟨_, _, ?_, ?_, consistent_of_totalOrder (.fixed _ _ (AtomicQueue2.new_twoSlots true))
    (by decide) true (Run.ofExec 3 _ (fun _ _ _ _ _ => trivial) _ (by decide) hRun)
    (quiescent_of_exec (Option.some_get hRun).symm 3 (by decide) (by decide +kernel +revert))⟩
  · decide +kernel +revert
  · decide +kernel +revert

namespace Mpmc

open AtomicQueue2 (Local Config)

variable {q : Queue w} {maximizeThroughput : Bool}

/-- Positions are filled and drained once each, and nothing is lost between
calls. -/
structure UniqueTickets (q : Queue w) (trace : Trace (Event w T (Option T))) (s : Config w T) :
    Prop where
  fills : ((fills trace).map Prod.snd).Subperm (positions w (headClaims trace).length)
  drains : ((drains trace).map Prod.snd).Subperm (positions w (tailClaims trace).length)
  consistent : Quiescent s → Consistent q trace s

/-- Non-blocking calls, each of whose claims takes the position its counter
holds at that moment. -/
def currentClaims (q : Queue w) (trace : Trace (Event w T (Option T))) (s : Config w T)
    (action : Action (Call T)) : Prop :=
  nonBlockingCalls trace s action ∧ CurrentClaim q s action

end Mpmc

/-- The default configuration, as long as no `fetch_add` of a `try_push` or
`try_pop` comes after the counter has moved on from the loaded value. Otherwise
such a call takes the loaded position, which another thread has, and one is left
out. -/
theorem uniqueTickets_of_currentClaims {target : Target w} {q : Queue w}
    (hq : IsAtomicQueue2 target false q) (maximizeThroughput : Bool)
    {trace : Trace (Event w T (Option T))} {s : AtomicQueue2.Config w T}
    (run : Run (q.threadCode (AtomicQueue2.slotCode T maximizeThroughput false))
      (Mpmc.currentClaims q) (initial w (Slot.new T)) trace s) : Mpmc.UniqueTickets q trace s := by
  rcases Nat.eq_zero_or_pos q.capacity.toNat with hZero | hPos
  · have hCapacity : q.capacity = 0#w := BitVec.eq_of_toNat_eq (by simpa using hZero)
    have hNothing := untouched_of_run hCapacity (run.weaken fun _ _ _ hAllowed => hAllowed.1)
    obtain ⟨hHeads, hTails⟩ := claims_eq_nil hNothing
    obtain ⟨hFills, hDrains⟩ := accesses_eq_nil hNothing
    have hCounted := counted_of_run run
    have hSize : s.shared.head - s.shared.tail = 0#w := by
      rw [hCounted.head, hCounted.tail, hHeads, hTails, BitVec.sub_self]
    refine ⟨by simp [hFills], by simp [hDrains], fun _ => ⟨by simp [hHeads, hTails], ?_, ?_, ?_⟩⟩
    · simp [hSize, hHeads]
    · rw [hSize]
      exact Nat.zero_le _
    · intro slot hSlot
      omega
  · have hIndexed := hq.indexed hPos
    have hOrdered := ordered_of_run (fun _ _ _ hAllowed => hAllowed.2) run
    have hAccounted := Mpmc.accounted_of_run hIndexed run
    refine ⟨?_, ?_, Mpmc.consistent_of_quiescent hIndexed hAccounted hOrdered⟩
    · rw [← hOrdered.heads]
      obtain ⟨paid, hPerm, hSublist⟩ := hAccounted.fills.subperm
      exact ⟨paid.map Prod.snd, hPerm.map _, hSublist.map _⟩
    · rw [← hOrdered.tails]
      obtain ⟨paid, hPerm, hSublist⟩ := hAccounted.drains.subperm
      exact ⟨paid.map Prod.snd, hPerm.map _, hSublist.map _⟩

theorem uniqueTickets_twoSlots : ∃ trace, ∃ s : AtomicQueue2.Config 64 Nat,
    s.shared.head = 2#64 ∧ s.shared.tail = 1#64 ∧
      Mpmc.UniqueTickets (AtomicQueue2.twoSlots false) trace s := by
  refine ⟨_, _, ?_, ?_, uniqueTickets_of_currentClaims
    (.fixed _ _ (AtomicQueue2.new_twoSlots false)) true
    (Run.ofExec 3 (fun trace s action => decide (nonBlockingCalls trace s action) &&
        decide (CurrentClaim (AtomicQueue2.twoSlots false) s action))
      (fun _ _ _ _ h => by simpa only [Mpmc.currentClaims, Bool.and_eq_true, decide_eq_true_eq] using h)
      [.call 0 (.tryPush 7), .step 0, .step 0, .call 1 .tryPop, .step 1, .step 0,
        .call 2 .tryPop, .step 2, .step 2, .step 2, .step 0, .step 0, .step 2, .step 2,
        .call 0 (.tryPush 8), .step 0, .step 0, .step 0, .step 0, .step 0]
      (by decide) (by decide +kernel))⟩
  · decide +kernel
  · decide +kernel

/-- Two producers load the same `head` before either moves it, and a consumer
empties the slot between their fills. -/
def staleHead : Option (Trace (Event 64 Nat (Option Nat)) × AtomicQueue2.Config 64 Nat) :=
  exec ((AtomicQueue2.twoSlots false).threadCode (AtomicQueue2.slotCode Nat true false))
    (fun trace s action => decide (nonBlockingCalls trace s action))
    [.call 0 (.tryPush 7), .step 0, .call 1 (.tryPush 8), .step 1, .step 0, .step 1, .step 0,
      .step 1, .step 0, .step 0, .call 2 .tryPop, .step 2, .step 2, .step 2, .step 2, .step 2,
      .step 1, .step 1] [] (initial 64 (Slot.new Nat))

theorem staleHead_isSome : staleHead.isSome := by decide +kernel

/-- Position 0 is filled twice and position 1 never, although `head` has moved
past both. -/
theorem staleHead_filled_twice : ∃ trace, ∃ s : AtomicQueue2.Config 64 Nat,
    Run ((AtomicQueue2.twoSlots false).threadCode (AtomicQueue2.slotCode Nat true false))
        nonBlockingCalls (initial 64 (Slot.new Nat)) trace s ∧
      Quiescent s ∧ ¬ ((fills trace).map Prod.snd).Nodup ∧
      ¬ Mpmc.Consistent (AtomicQueue2.twoSlots false) trace s := by
  have hWindow : 1#64 ∈ (staleHead.get staleHead_isSome).2.shared.window := by decide +kernel
  have hEmpty : ((staleHead.get staleHead_isSome).2.shared.slots 1).state = .empty := by
    decide +kernel
  refine ⟨_, _, Run.ofExec 3 _ (fun _ _ _ _ => of_decide_eq_true) _ (by decide) staleHead_isSome,
    quiescent_of_exec (Option.some_get staleHead_isSome).symm 3 (by decide) (by decide +kernel),
    by decide +kernel, fun h => ?_⟩
  have hFull := (h.full_iff 1 (by decide)).mpr ⟨1#64, hWindow, by decide⟩
  exact absurd (hEmpty.symm.trans hFull) (by decide)

end AtomicQueueRs
