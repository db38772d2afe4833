import AtomicQueueRs.DeadlockFreedom
import AtomicQueueRs.Delivery

/-! Calls that do not block, on a queue of atomic words, while stores find empty
slots and consumers take from a slot one at a time. Whatever has happened, some
call in progress can go on without breaking either rule, until all have ended. -/
namespace AtomicQueueRs

set_option autoImplicit false

open Interleaving (Trace Run Action OwnedBy onlySteps busy card_busy_update_lt card_busy_update_le
  sum_update_lt exists_settled act_of_step exec)

variable {w : Nat} {T U O : Type}

instance : DecidablePred (Pc.Landed (w := w) (T := T) (U := U) (O := O)) := fun pc =>
  match pc with
  | .idle | .panicked | .pushSlot _ _ _ _ | .popSlot _ _ _ _ => isTrue trivial
  | .tryPushLoadHead _ | .tryPushLoadTail _ _ | .tryPushClaim _ _ | .pushClaim _
  | .tryPopLoadTail | .tryPopLoadHead _ | .tryPopClaim _ | .popClaim
  | .observeLoadHead _ | .observeLoadTail _ _ => isFalse id

namespace Cells

open AtomicQueue (Local Config)

/-- The steps to the end of the call, not counting those that wait. -/
def stepsLeft : Local w T → Nat
  | .tryPushLoadHead _ | .tryPopLoadTail => 5
  | .tryPushLoadTail _ _ | .tryPopLoadHead _ => 4
  | .tryPushClaim _ _ | .pushClaim _ | .tryPopClaim _ | .popClaim => 3
  | .popSlot _ _ _ .load | .observeLoadHead _ => 2
  | .pushSlot _ _ _ _ | .popSlot _ _ _ (.clear _) | .observeLoadTail _ _ => 1
  | .idle | .panicked => 0

/-- A call that stores next does not load next; the two guards never bind the
same step. -/
theorem loadsFrom_eq_none_of_storesTo {pc : Local w T} {slot : Nat} (h : storesTo pc = some slot) :
    loadsFrom pc = none := by
  cases pc with
  | pushSlot => rfl
  | _ => contradiction

/-- Nor the other way round. -/
theorem storesTo_eq_none_of_loadsFrom {pc : Local w T} {slot : Nat} (h : loadsFrom pc = some slot) :
    storesTo pc = none := by
  cases pc with
  | popSlot => rfl
  | _ => contradiction

/-- A consumer that has taken nothing yet is about to load. -/
theorem loadsFrom_of_emptying {pc : Local w T} {slot : Nat} (h : emptying pc = some slot)
    (hHands : inHand slot pc = none) : loadsFrom pc = some slot := by
  cases pc with
  | popSlot blocking position own pc =>
      cases pc with
      | load => exact h
      | clear current =>
          obtain rfl := Option.some.inj h
          simp [inHand] at hHands
  | _ => contradiction

/-- A call at a slot is a producer about to store there or a consumer that has
not emptied it yet. -/
theorem atSlot_iff {pc : Local w T} :
    pc.AtSlot ↔ ∃ slot, storesTo pc = some slot ∨ emptying pc = some slot := by
  cases pc <;> simp [Pc.AtSlot, storesTo, emptying]

variable [Element T] {q : Queue w} {bigEndian : Bool}

/-- Every step leads on but for that of a consumer that waits, which the
hypothesis excludes: it finds its slot full. -/
theorem Step.stepsLeft_lt {pc pc' : Local w T} {σ σ' : Memory w (Usize w)} {es : List (Event w T T)}
    (h : Step q bigEndian pc σ pc' σ' es)
    (hFull : ∀ slot, loadsFrom pc = some slot → ¬ AtomicValue.Vacant T bigEndian (σ.slots slot)) :
    stepsLeft pc' < stepsLeft pc := by
  cases h with
  | quiet h => cases h <;> simp [stepsLeft]
  | claimHead h | claimTail h | pushPanic h | popPanic h => cases h <;> simp [stepsLeft]
  | @convertPanic pc σ h =>
      cases pc with
      | pushSlot => simp [stepsLeft]
      | popSlot _ _ _ own => cases own <;> simp [stepsLeft]
      | _ => exact h.elim
  | store | take | clear => simp [stepsLeft]
  | wait hVacant => exact (hFull _ rfl hVacant).elim

/-- The call's next step is within the guards and leads on. -/
structure Ready (bigEndian : Bool) (s : Config w T) (thread : Nat) : Prop where
  busy : ¬ (s.threads thread).Ended
  guarded : Guarded bigEndian s (.step thread)
  full : ∀ slot, loadsFrom (s.threads thread) = some slot →
    ¬ AtomicValue.Vacant T bigEndian (s.shared.slots slot)

/-- A call that is ready has a next step, and one fewer to go after it. No other
thread need do anything in between. -/
theorem Ready.exists_step {s : Config w T} {thread : Nat} (h : Ready bigEndian s thread) :
    ∃ pc' σ' es, q.step (AtomicQueue.slotCode w T bigEndian) (s.threads thread) s.shared =
      some (pc', σ', es) ∧ stepsLeft pc' < stepsLeft (s.threads thread) := by
  obtain ⟨⟨pc', σ', es⟩, hStep⟩ : ∃ next, q.step (AtomicQueue.slotCode w T bigEndian)
    (s.threads thread) s.shared = some next := Queue.exists_step h.busy
  exact ⟨pc', σ', es, hStep, (step_cases (Queue.step_cases hStep)).stepsLeft_lt h.full⟩

/-- A call that neither stores nor loads next is under no guard. -/
theorem ready_of_free {s : Config w T} {thread : Nat} (hBusy : ¬ (s.threads thread).Ended)
    (hStores : storesTo (s.threads thread) = none) (hLoads : loadsFrom (s.threads thread) = none) :
    Ready bigEndian s thread where
  busy := hBusy
  guarded := by simp [Guarded, hStores, hLoads]
  full slot h := by
    rw [hLoads] at h
    contradiction

/-- Nor is one that has not reached its slot. -/
theorem ready_of_not_atSlot {s : Config w T} {thread : Nat} (hBusy : ¬ (s.threads thread).Ended)
    (hFree : ¬ (s.threads thread).AtSlot) : Ready bigEndian s thread := by
  obtain ⟨hStores, hLoads⟩ :
      storesTo (s.threads thread) = none ∧ loadsFrom (s.threads thread) = none := by
    generalize s.threads thread = pc at hFree
    cases pc <;> first | exact ⟨rfl, rfl⟩ | exact (hFree trivial).elim
  exact ready_of_free hBusy hStores hLoads

/-- A consumer that has taken an element empties the slot whatever the others do. -/
theorem ready_of_inHand {s : Config w T} {thread slot : Nat}
    (hHolds : inHand slot (s.threads thread) ≠ none) : Ready bigEndian s thread := by
  generalize hPc : s.threads thread = pc at hHolds
  cases pc with
  | popSlot blocking position own pc =>
      cases pc with
      | clear current => exact ready_of_free (hPc ▸ id) (hPc ▸ rfl) (hPc ▸ rfl)
      | load => exact (hHolds rfl).elim
  | _ => exact (hHolds rfl).elim

/-- A producer is ready once its slot reads as empty. -/
theorem ready_of_storesTo {s : Config w T} {thread slot : Nat}
    (hStores : storesTo (s.threads thread) = some slot)
    (hCell : AtomicValue.Vacant T bigEndian (s.shared.slots slot)) : Ready bigEndian s thread := by
  have hLoads := loadsFrom_eq_none_of_storesTo hStores
  refine ⟨fun hEnded => ?_, by simpa [Guarded, hStores, hLoads] using hCell, by simp [hLoads]⟩
  generalize s.threads thread = pc at hStores hEnded
  cases pc <;> contradiction

/-- A consumer is ready once there is an element that nobody has in hand. -/
theorem ready_of_loadsFrom {s : Config w T} {thread slot : Nat}
    (hLoads : loadsFrom (s.threads thread) = some slot)
    (hHands : ∀ other, inHand slot (s.threads other) = none)
    (hFull : ¬ AtomicValue.Vacant T bigEndian (s.shared.slots slot)) :
    Ready bigEndian s thread := by
  have hStores := storesTo_eq_none_of_loadsFrom hLoads
  refine ⟨fun hEnded => ?_, by simp [Guarded, hStores, hLoads, hHands], fun other hOther => ?_⟩
  · generalize s.threads thread = pc at hLoads hEnded
    cases pc <;> contradiction
  · obtain rfl := Option.some.inj (hLoads.symm.trans hOther)
    exact hFull

/-- Nobody is emptying a slot, producers wait for full slots to be emptied and
consumers for empty ones to be filled. -/
structure Stuck (bigEndian : Bool) (s : Config w T) : Prop where
  hands : ∀ thread slot, inHand slot (s.threads thread) = none
  full : ∀ thread slot, storesTo (s.threads thread) = some slot →
    ¬ AtomicValue.Vacant T bigEndian (s.shared.slots slot)
  empty : ∀ thread slot, loadsFrom (s.threads thread) = some slot →
    AtomicValue.Vacant T bigEndian (s.shared.slots slot)

section Stuck

variable {trace : Trace (Event w T T)} {s : Config w T}

/-- With nothing in anyone's hands a slot is empty or holds the one element
stored there. -/
theorem Contents.phase_of_hands {slot drained : Nat} {cell : Usize w} {writes reads : List T}
    {owner : Option Nat} (h : Contents bigEndian slot s.threads cell writes reads drained owner)
    (hHands : ∀ thread, inHand slot (s.threads thread) = none) :
    Phase bigEndian cell writes reads drained none := by
  obtain rfl := h.owned.eq_none fun thread hClearing => hClearing (hHands thread)
  exact h.phase

/-- If nobody has anything in hand and no call is ready, then it is the guards
alone that hold all of them up. -/
theorem stuck_of_not_ready
    (hHands : ∀ thread slot, inHand slot (s.threads thread) = none)
    (hNone : ∀ thread, ¬ Ready bigEndian s thread) : Stuck bigEndian s where
  hands := hHands
  full thread _ hStores hCell := hNone thread (ready_of_storesTo hStores hCell)
  empty thread slot hLoads := by
    by_contra hFull
    exact hNone thread (ready_of_loadsFrom hLoads (fun other => hHands other slot) hFull)

variable (hIndexed : q.Indexed) (hSettled : Settled q trace s) (hOrdered : Ordered trace s)

omit [Element T] in
include hIndexed hOrdered in
/-- The claims on a slot. -/
theorem count_slotOf_eq (slot : Nat) :
    (trace.select fun _ => Event.slotOf q Event.headClaim).count slot =
        Ring.visits q.slotAt slot (headClaims trace).length ∧
      (trace.select fun _ => Event.slotOf q Event.tailClaim).count slot =
        Ring.visits q.slotAt slot (tailClaims trace).length := by
  rw [count_slotOf, count_slotOf, ← headClaims, ← tailClaims, hOrdered.heads, hOrdered.tails,
    hIndexed.countP_positions, hIndexed.countP_positions]
  exact ⟨rfl, rfl⟩

variable (hStuck : Stuck bigEndian s)
  (hPhase : ∀ slot, Phase bigEndian (s.shared.slots slot) (writesAt slot trace)
    (readsAt slot trace) (drainsAt slot trace).length none)

include hIndexed hSettled hOrdered hStuck hPhase

/-- Where a producer is stuck, two claims from `head` are a lap apart. -/
theorem Stuck.visits_of_storesTo {thread slot : Nat}
    (hStores : storesTo (s.threads thread) = some slot) :
    Ring.visits q.slotAt slot (tailClaims trace).length + 2 ≤
      Ring.visits q.slotAt slot (headClaims trace).length := by
  obtain ⟨hHeads, hTails⟩ := count_slotOf_eq hIndexed hOrdered slot
  have hWrites := hSettled.storesTo.count_lt hStores
  have hDrains : (trace.select fun _ => Event.slotOf q Event.tailClaim).count slot =
      (trace.select fun _ => Event.emptied).count slot :=
    hSettled.emptied.count_eq fun other hEmptying => hStuck.full thread slot hStores
      (hStuck.empty other slot (loadsFrom_of_emptying hEmptying (hStuck.hands other slot)))
  rw [hHeads, count_storedTo] at hWrites
  rw [hTails, count_emptied] at hDrains
  cases hPhase slot with
  | empty hCell => exact (hStuck.full thread slot hStores hCell).elim
  | stored _ _ _ hReads hDrained =>
      rw [hReads, List.length_append, List.length_singleton] at hWrites
      omega

/-- Where a consumer is stuck, fewer positions are claimed from `head`. -/
theorem Stuck.visits_of_emptying {thread slot : Nat}
    (hEmptying : emptying (s.threads thread) = some slot) :
    Ring.visits q.slotAt slot (headClaims trace).length <
      Ring.visits q.slotAt slot (tailClaims trace).length := by
  obtain ⟨hHeads, hTails⟩ := count_slotOf_eq hIndexed hOrdered slot
  have hCell := hStuck.empty thread slot (loadsFrom_of_emptying hEmptying (hStuck.hands thread slot))
  have hDrains := hSettled.emptied.count_lt hEmptying
  have hWrites : (trace.select fun _ => Event.slotOf q Event.headClaim).count slot =
      (trace.select fun _ => Event.storedTo).count slot :=
    hSettled.storesTo.count_eq fun other hStores => hStuck.full other slot hStores hCell
  rw [hTails, count_emptied] at hDrains
  rw [hHeads, count_storedTo] at hWrites
  cases hPhase slot with
  | empty _ hReads hDrained =>
      rw [hReads] at hWrites
      omega
  | stored _ _ hFull => exact (hFull hCell).elim

/-- With the counters within a capacity of each other nobody is stuck. -/
theorem Stuck.not_atSlot (hLe : (tailClaims trace).length ≤ (headClaims trace).length)
    (hRoom : (headClaims trace).length ≤ (tailClaims trace).length + q.capacity.toNat)
    (hHeads : (headClaims trace).length < 2 ^ w) (thread : Nat) : ¬ (s.threads thread).AtSlot := by
  rw [atSlot_iff]
  rintro ⟨slot, hStores | hEmptying⟩
  · obtain ⟨p, p', hLower, hLt, hUpper, hp, hp'⟩ := Ring.exists_two_of_visits
      (hStuck.visits_of_storesTo hIndexed hSettled hOrdered hPhase hStores)
    have hRest := (hIndexed.slotAt_eq_iff_of_lt (by omega) (by omega)).mp (hp.trans hp'.symm)
    have hEq := Ring.eq_of_mod_eq hLt.le (by omega) hRest
    omega
  · have hMore := hStuck.visits_of_emptying hIndexed hSettled hOrdered hPhase hEmptying
    have hMono : Ring.visits q.slotAt slot (tailClaims trace).length ≤
        Ring.visits q.slotAt slot (headClaims trace).length := Ring.visits_mono hLe
    omega

end Stuck

section Run

variable {trace : Trace (Event w T T)} {s : Config w T}

/-- As long as calls are in progress one of them is ready. -/
theorem exists_ready (hIndexed : q.Indexed) (hBits : Element.bits T = w)
    (hZero : Element.ZeroDefault T) (hOrder : q.totalOrder = true)
    (run : Run (q.threadCode (AtomicQueue.slotCode w T bigEndian)) (guardedCalls bigEndian)
      (initial w (AtomicValue.new w)) trace s)
    (hUsed : (headClaims trace).length < 2 ^ w) {thread : Nat} (hBusy : ¬ (s.threads thread).Ended) :
    ∃ thread, Ready bigEndian s thread := by
  by_cases hHands : ∀ thread slot, inHand slot (s.threads thread) = none
  · have hPhase (slot : Nat) : Phase bigEndian (s.shared.slots slot) (writesAt slot trace)
        (readsAt slot trace) (drainsAt slot trace).length none := by
      obtain ⟨owner, hContents⟩ := contents_of_run hBits hZero (fun _ _ _ hAllowed => hAllowed.2.1)
        (fun _ _ _ hAllowed => hAllowed.2.2) run slot
      exact hContents.phase_of_hands fun thread => hHands thread slot
    by_contra hNone
    rw [not_exists] at hNone
    have hStuck := stuck_of_not_ready hHands hNone
    have hBounded := ClaimBounds.bounded_of_run hOrder (run.weaken fun _ _ _ h => h.1) hUsed
    have hOrdered := ordered_of_totalOrder hOrder run
    have hFree := hStuck.not_atSlot hIndexed (settled_of_run hBits run) hOrdered hPhase
      hBounded.tail_le hBounded.head_le hUsed thread
    exact hNone thread (ready_of_not_atSlot hBusy hFree)
  · simp only [not_forall] at hHands
    obtain ⟨holder, slot, hHolds⟩ := hHands
    exact ⟨holder, ready_of_inHand hHolds⟩

/-- Steps of calls in progress that keep to the guards. -/
def guardedSteps (bigEndian : Bool) (trace : Trace (Event w T T)) (s : Config w T)
    (action : Action (Call T)) : Prop :=
  onlySteps trace s action ∧ Guarded bigEndian s action

/-- A guarded run, by the threads below a bound, with positions left for the
calls in progress. -/
def Underway (q : Queue w) (bigEndian : Bool) (bound : Nat) (s : Config w T) : Prop :=
  ∃ trace, Run (q.threadCode (AtomicQueue.slotCode w T bigEndian)) (guardedCalls bigEndian)
      (initial w (AtomicValue.new w)) trace s ∧
    (headClaims trace).length + (busy Pc.Landed bound s.threads).card < 2 ^ w ∧
    ∀ thread, bound ≤ thread → (s.threads thread).Ended

/-- One step of a call that is ready: within the guards still, and with fewer
steps to go over all threads. A claim uses up the position kept for the call
that makes it. -/
theorem Underway.step {bound thread : Nat} (h : Underway q bigEndian bound s)
    (hReady : Ready bigEndian s thread) :
    ∃ trace s', Run (q.threadCode (AtomicQueue.slotCode w T bigEndian)) (guardedSteps bigEndian) s
        trace s' ∧
      Underway q bigEndian bound s' ∧
      ((Finset.range bound).sum fun thread => stepsLeft (s'.threads thread)) <
        (Finset.range bound).sum fun thread => stepsLeft (s.threads thread) := by
  obtain ⟨trace, run, hUsed, hOthers⟩ := h
  obtain ⟨pc', σ', es, hStep, hLower⟩ := hReady.exists_step
  have hThread : thread < bound := by
    by_contra hBeyond
    exact hReady.busy (hOthers thread (Nat.le_of_not_lt hBeyond))
  have hAlone : guardedSteps bigEndian [] s (.step thread) := ⟨trivial, hReady.guarded⟩
  have hAllowed : guardedCalls bigEndian trace s (.step thread) := ⟨trivial, trivial, hReady.guarded⟩
  refine ⟨_, _, Run.ofStep hAlone hStep,
    ⟨_, run.succ hAllowed (act_of_step hStep), ?_, fun other hBeyond => ?_⟩,
    sum_update_lt hThread hLower⟩
  · rw [headClaims_append, List.length_append, List.length_map]
    dsimp only
    rcases (Queue.step_cases hStep).claims with ⟨hSilent, hStays⟩ | ⟨hBefore, hAfter, hOne⟩
    · have hFewer : (busy Pc.Landed bound (Function.update s.threads thread pc')).card ≤
          (busy Pc.Landed bound s.threads).card := card_busy_update_le hStays
      rw [hSilent, List.length_nil]
      omega
    · have hFewer := card_busy_update_lt hThread hBefore hAfter
      omega
  · have hOther : other ≠ thread := by omega
    simp only [Function.update_of_ne hOther]
    exact hOthers other hBeyond

end Run

end Cells

/-- The consumer has taken the first element, and the second producer may not
store before the slot is empty. -/
def heldBack : Option (Trace (Event 64 (BitVec 64) (BitVec 64)) × AtomicQueue.Config 64 (BitVec 64)) :=
  exec (AtomicQueue.oneSlot.threadCode (AtomicQueue.slotCode 64 (BitVec 64) false))
    (fun trace s action => decide (nonBlockingCalls trace s action) &&
      Cells.guardedTest false 3 s action)
    [.call 0 (.tryPush 7#64), .step 0, .step 0, .step 0, .step 0, .call 1 .tryPop, .step 1, .step 1,
      .step 1, .step 1, .call 2 (.tryPush 8#64), .step 2, .step 2, .step 2] []
    (initial 64 (AtomicValue.new 64))

theorem heldBack_isSome : heldBack.isSome := by decide +kernel

end AtomicQueueRs
