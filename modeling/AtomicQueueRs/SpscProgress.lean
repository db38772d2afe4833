import AtomicQueueRs.Progress
import AtomicQueueRs.SpscLinearizability

/-! One producer and one consumer left to themselves. Both may block; with no
new call, the calls in progress come to their ends, or one side waits where the
other has nothing left to do. -/
namespace AtomicQueueRs

set_option autoImplicit false

open Interleaving (Trace Run Action onlySteps exists_settled)

variable {w : Nat} {T : Type}

namespace Spsc

open AtomicQueue2 (Local Config)

variable {q : Queue w} {σ σ' : Memory w (Slot T)} {pc pc' : Local w T}
  {es : List (Event w T (Option T))}

/-- The producer has found its slot full. -/
def WaitsToPush (σ : Memory w (Slot T)) : Local w T → Prop
  | .pushSlot _ _ slot (.loadState _) => (σ.slots slot).state = .full
  | _ => False

/-- The consumer has found its slot empty. -/
def WaitsToPop (σ : Memory w (Slot T)) : Local w T → Prop
  | .popSlot _ _ slot .loadState => (σ.slots slot).state = .empty
  | _ => False

/-- The steps to the end of the call, not counting those that wait. -/
def stepsLeft : Local w T → Nat
  | .tryPushLoadHead _ | .tryPopLoadTail => 6
  | .tryPushLoadTail _ _ | .tryPopLoadHead _ => 5
  | .tryPushClaim _ _ | .pushClaim _ | .tryPopClaim _ | .popClaim => 4
  | .pushSlot _ _ _ (.loadState _) | .popSlot _ _ _ .loadState => 3
  | .pushSlot _ _ _ (.writeElement _) | .popSlot _ _ _ .readElement | .observeLoadHead _ => 2
  | .pushSlot _ _ _ .storeFull | .popSlot _ _ _ (.storeEmpty _) | .observeLoadTail _ _ => 1
  | _ => 0

/-- The positions that the call has still to claim from `head`. -/
def unclaimed : Local w T → Nat
  | .tryPushLoadHead _ | .tryPushLoadTail _ _ | .tryPushClaim _ _ | .pushClaim _ => 1
  | _ => 0

theorem unclaimed_le_one (pc : Local w T) : unclaimed pc ≤ 1 := by
  cases pc <;> simp [unclaimed]

/-- A step that does not wait brings its call nearer to the end. -/
theorem Step.stepsLeft_le (h : Step q pc σ pc' σ' es) : pc' = pc ∨ stepsLeft pc' < stepsLeft pc := by
  cases h with
  | pushWait | popWait => exact Or.inl rfl
  | quiet h => cases h <;> exact Or.inr (by simp [stepsLeft])
  | claimHead h => cases h <;> exact Or.inr (by simp [stepsLeft])
  | claimTail h => cases h <;> exact Or.inr (by simp [stepsLeft])
  | pushReady | write | fill | popReady | read | drain => exact Or.inr (by simp [stepsLeft])

/-- A call claims from `head` once at most, and steps make no new calls, so the
bound on the claims is kept. -/
theorem Step.heads_le (h : Step q pc σ pc' σ' es) (history : History w T) :
    (es.foldl History.record history).heads + unclaimed pc' ≤ history.heads + unclaimed pc := by
  cases h with
  | quiet h =>
      cases h with
      | observeReturn observer head result hResult =>
          have hSame : [.loadTail σ.tail, .returned result].foldl History.record history = history :=
            History.record_observed hResult history
          rw [hSame]
          exact Nat.le_refl _
      | _ => simp [History.record, unclaimed]
  | claimHead h => cases h <;> exact Nat.le_refl _
  | claimTail h => cases h <;> exact Nat.le_refl _
  | pushWait | pushReady | write | popWait | popReady | read => exact Nat.le_refl _
  | @fill blocking => cases blocking <;> exact Nat.le_refl _
  | @drain blocking => cases blocking <;> exact Nat.le_refl _

/-- A call that neither has ended nor waits has a step that leads on. -/
theorem exists_step (hIndexed : q.Indexed) (maximizeThroughput : Bool) (hPlaced : Placed q pc)
    (hBusy : ¬ pc.Ended) (hPush : ¬ WaitsToPush σ pc) (hPop : ¬ WaitsToPop σ pc) :
    ∃ pc' σ' es, q.step (AtomicQueue2.slotCode T maximizeThroughput true) pc σ = some (pc', σ', es) ∧
      stepsLeft pc' < stepsLeft pc := by
  have hNext : ∃ next, q.step (AtomicQueue2.slotCode T maximizeThroughput true) pc σ = some next :=
    Queue.exists_step hBusy
  obtain ⟨⟨pc', σ', es⟩, hStep⟩ := hNext
  refine ⟨pc', σ', es, hStep, ?_⟩
  have hCases := step_cases hIndexed hPlaced (Queue.step_cases hStep)
  refine hCases.stepsLeft_le.resolve_left fun hSame => ?_
  subst hSame
  cases hCases with
  | quiet h | claimHead h | claimTail h => cases h
  | @pushWait _ _ slot value =>
      have hEmpty := Flag.eq_empty hPush
      simp [Queue.step, AtomicQueue2.slotCode, AtomicQueue2.pushStep, hEmpty, Queue.afterPush] at hStep
  | @popWait _ _ slot =>
      have hFull := Flag.eq_full hPop
      simp [Queue.step, AtomicQueue2.slotCode, AtomicQueue2.popStep, hFull, Queue.afterPop] at hStep

/-- The producer is at no slot to drain. -/
theorem Producing.not_waitsToPop {committed : List T} {heads fills written : Nat}
    (h : Producing q committed heads fills written σ pc) : ¬ WaitsToPop σ pc := by
  cases pc with
  | popSlot => exact h.elim
  | _ => exact id

theorem Consuming.not_waitsToPush {committed : List T} {tails drains taken : Nat}
    (h : Consuming q committed tails drains taken σ pc) : ¬ WaitsToPush σ pc := by
  cases pc with
  | pushSlot => exact h.elim
  | _ => exact id

theorem Consuming.unclaimed_eq {committed : List T} {tails drains taken : Nat}
    (h : Consuming q committed tails drains taken σ pc) : unclaimed pc = 0 := by
  cases pc with
  | tryPushLoadHead | tryPushLoadTail | tryPushClaim | pushClaim => exact h.elim
  | _ => rfl

/-- Between its calls the consumer has drained what it claimed. -/
theorem Consuming.drains_eq_of_ended {committed : List T} {tails drains taken : Nat}
    (h : Consuming q committed tails drains taken σ pc) (hEnded : pc.Ended) : drains = tails := by
  cases pc with
  | idle | panicked => exact h.1
  | _ => exact hEnded.elim

/-- Between its calls the producer has filled what it claimed. -/
theorem Producing.fills_eq_of_ended {committed : List T} {heads fills written : Nat}
    (h : Producing q committed heads fills written σ pc) (hEnded : pc.Ended) : fills = heads := by
  cases pc with
  | idle | panicked => exact h.2.1
  | _ => exact hEnded.elim

section Settled

variable {h : History w T} {producer consumer : Local w T}

/-- A producer that waits is a lap ahead of the consumer. -/
theorem Linked.fills_eq (hIndexed : q.Indexed) (hBound : h.heads < 2 ^ w)
    (hLinked : Linked q h σ producer consumer) (hWaits : WaitsToPush σ producer) :
    h.heads = h.fills + 1 ∧ h.fills = h.drains + q.capacity.toNat := by
  have hPc := hLinked.producing
  cases producer with
  | pushSlot blocking position slot own =>
      obtain ⟨_, rfl, _, hHeads, _⟩ := hPc
      cases own with
      | loadState value =>
          obtain ⟨i, hLower, hUpper, hSlot⟩ := (hLinked.core.full_iff _).mp hWaits
          have hRest := (hIndexed.slotAt_eq_iff_of_lt (by omega) (by omega)).mp hSlot
          have hFills := hLinked.core.fills_le
          by_contra hNot
          have hEq := Ring.eq_of_mod_eq (Nat.le_of_lt hUpper) (by omega) hRest
          omega
      | _ => exact hWaits.elim
  | _ => exact hWaits.elim

/-- A consumer that waits has drained all there is. -/
theorem Linked.drains_eq (hLinked : Linked q h σ producer consumer)
    (hWaits : WaitsToPop σ consumer) : h.tails = h.drains + 1 ∧ h.drains = h.fills := by
  have hPc := hLinked.consuming
  cases consumer with
  | popSlot blocking position slot own =>
      obtain ⟨_, rfl, hTails, _⟩ := hPc
      cases own with
      | loadState =>
          refine ⟨hTails, Nat.le_antisymm hLinked.core.drains_le (Nat.le_of_not_lt fun hLt => ?_)⟩
          have hFull := (hLinked.core.full_iff _).mpr ⟨h.drains, Nat.le_refl _, hLt, rfl⟩
          rw [show (σ.slots _).state = .empty from hWaits] at hFull
          contradiction
      | _ => exact hWaits.elim
  | _ => exact hWaits.elim

/-- A lap of filled positions takes every slot. -/
theorem Linked.full_of_lap (hIndexed : q.Indexed) (hBound : h.heads < 2 ^ w)
    (hLinked : Linked q h σ producer consumer) (hLap : h.fills = h.drains + q.capacity.toNat)
    {slot : Nat} (hSlot : slot < q.capacity.toNat) : (σ.slots slot).state = .full := by
  have hHeads := Nat.le_trans hLinked.core.written_ge hLinked.core.written_le
  have hMaps : Set.MapsTo q.slotAt (Finset.Ico h.drains h.fills) (Finset.range q.capacity.toNat) :=
    fun i _ => Finset.mem_coe.mpr (Finset.mem_range.mpr (hIndexed.slotAt_lt i))
  have hInj : Set.InjOn q.slotAt (Finset.Ico h.drains h.fills) := by
    intro i hi j hj hEq
    rw [Finset.mem_coe, Finset.mem_Ico] at hi hj
    rcases Nat.le_total i j with hLe | hLe
    · exact hLinked.core.slotAt_inj hIndexed hBound hi.1 hLe hj.2 hEq
    · exact (hLinked.core.slotAt_inj hIndexed hBound hj.1 hLe hi.2 hEq.symm).symm
  have hCard : (Finset.range q.capacity.toNat).card ≤ (Finset.Ico h.drains h.fills).card := by
    rw [Finset.card_range, Nat.card_Ico]
    omega
  obtain ⟨i, hi, hEq⟩ := Finset.surjOn_of_injOn_of_card_le _ hMaps hInj hCard
    (Finset.mem_coe.mpr (Finset.mem_range.mpr hSlot))
  rw [Finset.mem_coe, Finset.mem_Ico] at hi
  exact (hLinked.core.full_iff slot).mpr ⟨i, hi.1, hi.2, hEq⟩

end Settled

/-- Both calls have ended, or one waits and the ring has nothing for it: every
slot is full before a producer that waits and empty before a consumer. -/
structure Settled (q : Queue w) (producer consumer : Nat) (s : Config w T) : Prop where
  producing : (s.threads producer).Ended ∨ WaitsToPush s.shared (s.threads producer) ∧
    (s.threads consumer).Ended ∧ ∀ slot < q.capacity.toNat, (s.shared.slots slot).state = .full
  consuming : (s.threads consumer).Ended ∨ WaitsToPop s.shared (s.threads consumer) ∧
    (s.threads producer).Ended ∧ ∀ slot < q.capacity.toNat, (s.shared.slots slot).state = .empty

section Run

variable {producer consumer : Nat} {maximizeThroughput : Bool} {s : Config w T}
  {allowed : Trace (Event w T (Option T)) → Config w T → Action (Call T) → Prop}

/-- Both cannot wait: a producer that waits has a lap of full slots ahead, and a
consumer that waits has none. -/
theorem settled_of_waiting (hIndexed : q.Indexed) {h : History w T} (hBound : h.heads < 2 ^ w)
    (hLinked : Linked q h s.shared (s.threads producer) (s.threads consumer))
    (hProducer : (s.threads producer).Ended ∨ WaitsToPush s.shared (s.threads producer))
    (hConsumer : (s.threads consumer).Ended ∨ WaitsToPop s.shared (s.threads consumer)) :
    Settled q producer consumer s := by
  have hPos := hIndexed.capacity_pos
  constructor
  · refine hProducer.imp_right fun hWaits => ?_
    obtain ⟨_, hLap⟩ := hLinked.fills_eq hIndexed hBound hWaits
    refine ⟨hWaits, hConsumer.resolve_right fun hOther => ?_,
      fun slot hSlot => hLinked.full_of_lap hIndexed hBound hLap hSlot⟩
    have hDrained := (hLinked.drains_eq hOther).2
    omega
  · refine hConsumer.imp_right fun hWaits => ?_
    obtain ⟨_, hDrained⟩ := hLinked.drains_eq hWaits
    refine ⟨hWaits, hProducer.resolve_right fun hOther => ?_, fun slot _ => ?_⟩
    · have hLap := (hLinked.fills_eq hIndexed hBound hOther).2
      omega
    · refine Flag.eq_empty fun hFull => ?_
      obtain ⟨i, hLower, hUpper, _⟩ := (hLinked.core.full_iff slot).mp hFull
      omega

/-- A state of a run in which the calls in progress can still claim. -/
def Underway (q : Queue w) (maximizeThroughput : Bool)
    (allowed : Trace (Event w T (Option T)) → Config w T → Action (Call T) → Prop)
    (producer consumer : Nat) (s : Config w T) : Prop :=
  ∃ trace, Run (q.threadCode (AtomicQueue2.slotCode T maximizeThroughput true)) allowed
      (initial w (Slot.new T)) trace s ∧
    (History.of trace).heads + unclaimed (s.threads producer) + unclaimed (s.threads consumer) < 2 ^ w

/-- A step that leads on, of either thread. -/
theorem Underway.step (hIndexed : q.Indexed) (hNe : producer ≠ consumer)
    (hSteps : ∀ trace s thread, allowed trace s (.step thread))
    (h : Underway q maximizeThroughput allowed producer consumer s) {thread : Nat}
    (hThread : thread = producer ∨ thread = consumer) (hPlaced : Placed q (s.threads thread))
    (hBusy : ¬ (s.threads thread).Ended) (hPush : ¬ WaitsToPush s.shared (s.threads thread))
    (hPop : ¬ WaitsToPop s.shared (s.threads thread)) :
    ∃ trace s', Run (q.threadCode (AtomicQueue2.slotCode T maximizeThroughput true)) onlySteps s
        trace s' ∧ Underway q maximizeThroughput allowed producer consumer s' ∧
      stepsLeft (s'.threads producer) + stepsLeft (s'.threads consumer) <
        stepsLeft (s.threads producer) + stepsLeft (s.threads consumer) := by
  obtain ⟨trace, run, hClaims⟩ := h
  obtain ⟨pc', σ', es, hStep, hLower⟩ :=
    exists_step hIndexed maximizeThroughput hPlaced hBusy hPush hPop
  have hHeads := (step_cases hIndexed hPlaced (Queue.step_cases hStep)).heads_le (History.of trace)
  refine ⟨_, _, Run.single hStep,
    ⟨_, run.succ (hSteps _ _ _) (Interleaving.act_of_step hStep), ?_⟩, ?_⟩
  · rw [History.of_append]
    rcases hThread with rfl | rfl
    · simp only [Function.update_self, Function.update_of_ne hNe.symm]
      omega
    · simp only [Function.update_self, Function.update_of_ne hNe]
      omega
  · rcases hThread with rfl | rfl
    · simp only [Function.update_self, Function.update_of_ne hNe.symm]
      omega
    · simp only [Function.update_self, Function.update_of_ne hNe]
      omega

/-- Steps alone settle the queue, by induction on the steps that are left.
Waiting steps are not counted, and the one who waits is let through by the other
or for ever. -/
theorem Underway.settles (hIndexed : q.Indexed) (hRelease : q.build = .release)
    (hNe : producer ≠ consumer) (hSteps : ∀ trace s thread, allowed trace s (.step thread))
    (hSides : ∀ trace s action, allowed trace s action → spscCalls producer consumer trace s action)
    (h : Underway q maximizeThroughput allowed producer consumer s) :
    ∃ trace s', Run (q.threadCode (AtomicQueue2.slotCode T maximizeThroughput true)) onlySteps s
        trace s' ∧ Underway q maximizeThroughput allowed producer consumer s' ∧
      Settled q producer consumer s' := by
  refine exists_settled (fun _ _ _ _ h => h) (Underway q maximizeThroughput allowed producer consumer)
    (Settled q producer consumer)
    (fun s => stepsLeft (s.threads producer) + stepsLeft (s.threads consumer)) (fun s h => ?_) h
  obtain ⟨trace, run, hClaims⟩ := id h
  have hBound : (History.of trace).heads < 2 ^ w := by omega
  have hServed := served_of_run hIndexed hRelease hNe (run.weaken hSides) hBound
  by_cases hProducer : (s.threads producer).Ended ∨ WaitsToPush s.shared (s.threads producer)
  · by_cases hConsumer : (s.threads consumer).Ended ∨ WaitsToPop s.shared (s.threads consumer)
    · exact Or.inl (settled_of_waiting hIndexed hBound hServed.linked hProducer hConsumer)
    · rw [not_or] at hConsumer
      refine Or.inr (h.step hIndexed hNe hSteps (Or.inr rfl) (hServed.placed consumer) hConsumer.1 ?_
        hConsumer.2)
      exact hServed.linked.consuming.not_waitsToPush
  · rw [not_or] at hProducer
    refine Or.inr (h.step hIndexed hNe hSteps (Or.inl rfl) (hServed.placed producer) hProducer.1
      hProducer.2 ?_)
    exact hServed.linked.producing.not_waitsToPop

/-- Every run has its list, with the phases of both threads. -/
theorem exists_stagedAt (hIndexed : q.Indexed) (hRelease : q.build = .release)
    (hNe : producer ≠ consumer) {trace : Trace (Event w T (Option T))}
    (run : Run (q.threadCode (AtomicQueue2.slotCode T maximizeThroughput true))
      (endpointCalls producer consumer) (initial w (Slot.new T)) trace s)
    (hBound : (History.of trace).heads < 2 ^ w) :
    ∃ phases items, StagedAt q producer consumer trace s phases items := by
  revert hBound
  refine run.invariant (fun trace s => (History.of trace).heads < 2 ^ w →
    ∃ phases items, StagedAt q producer consumer trace s phases items)
    (fun _ => ⟨_, _, stagedAt_start⟩) ?_ ?_
  · intro trace s thread operation pc es _ ih hAllowed hCall hBound
    obtain ⟨hIdle, rfl, rfl⟩ := Queue.call_cases hCall
    obtain ⟨phases, items, hStaged⟩ := ih (Nat.lt_of_le_of_lt (heads_le_append _ _) hBound)
    exact ⟨_, _, (hStaged.call hNe hIdle hAllowed).2⟩
  · intro trace s thread pc shared es prior ih _ hStep hBound
    have hBefore := Nat.lt_of_le_of_lt (heads_le_append _ _) hBound
    obtain ⟨phases, items, hStaged⟩ := ih hBefore
    have hServed := served_of_run hIndexed hRelease hNe (prior.weaken fun _ _ _ h => h.1) hBefore
    obtain ⟨phase, items', _, hNext⟩ := hStaged.step hIndexed hRelease hNe hServed hStep
    exact ⟨_, _, hNext⟩

/-- Calls that do not block have no reason to wait. -/
theorem Underway.quiescent (hIndexed : q.Indexed) (hRelease : q.build = .release)
    (hNe : producer ≠ consumer)
    (h : Underway q maximizeThroughput (endpointCalls producer consumer) producer consumer s)
    (hSettled : Settled q producer consumer s) : Quiescent s := by
  obtain ⟨trace, run, hClaims⟩ := h
  have hBound : (History.of trace).heads < 2 ^ w := by omega
  have hServed := served_of_run hIndexed hRelease hNe (run.weaken fun _ _ _ h => h.1) hBound
  obtain ⟨phases, items, hStaged⟩ := exists_stagedAt hIndexed hRelease hNe run hBound
  have hTails := hStaged.tails_le
  have hHeads := hStaged.heads_le
  have hProducer : (s.threads producer).Ended := by
    refine hSettled.producing.resolve_right fun ⟨hWaits, hOther, _⟩ => ?_
    obtain ⟨hClaimed, hLap⟩ := hServed.linked.fills_eq hIndexed hBound hWaits
    have hDrained := hServed.linked.consuming.drains_eq_of_ended hOther
    omega
  have hConsumer : (s.threads consumer).Ended := by
    refine hSettled.consuming.resolve_right fun ⟨hWaits, hOther, _⟩ => ?_
    obtain ⟨hClaimed, hDrained⟩ := hServed.linked.drains_eq hWaits
    have hFilled := hServed.linked.producing.fills_eq_of_ended hOther
    omega
  rw [quiescent_iff]
  intro thread
  by_cases hThread : thread = producer
  · exact hThread ▸ hProducer
  · by_cases hOther : thread = consumer
    · exact hOther ▸ hConsumer
    · rw [hServed.others thread hThread hOther]
      exact trivial

end Run

end Spsc

/-- Whatever mix of blocking and non-blocking calls is in progress, steps alone
lead to a state in which they have ended or one side waits as it must. -/
theorem settles_of_spsc {target : Target w} {totalOrder : Bool} {q : Queue w}
    (hq : IsAtomicQueue2 target totalOrder q) (hRelease : target.build = .release)
    (hPos : 0 < q.capacity.toNat) (maximizeThroughput : Bool) {producer consumer : Nat}
    (hNe : producer ≠ consumer) {trace : Trace (Event w T (Option T))} {s : AtomicQueue2.Config w T}
    (run : Run (q.threadCode (AtomicQueue2.slotCode T maximizeThroughput true))
      (Spsc.spscCalls producer consumer) (initial w (Slot.new T)) trace s)
    (hUsed : (History.of trace).heads + 1 < 2 ^ w) :
    ∃ trace' s', Run (q.threadCode (AtomicQueue2.slotCode T maximizeThroughput true)) onlySteps s
      trace' s' ∧ Spsc.Settled q producer consumer s' := by
  have hIndexed := hq.indexed hPos
  have hBuild := hq.build_eq.trans hRelease
  have hServed := Spsc.served_of_run hIndexed hBuild hNe run (by omega)
  have hProducer := Spsc.unclaimed_le_one (s.threads producer)
  have hConsumer := hServed.linked.consuming.unclaimed_eq
  obtain ⟨trace', s', hSteps, _, hSettled⟩ := Spsc.Underway.settles hIndexed hBuild hNe
    (fun _ _ _ => trivial) (fun _ _ _ h => h) ⟨trace, run, by omega⟩
  exact ⟨trace', s', hSteps, hSettled⟩

/-- A consumer left waiting behind its producer. -/
theorem settles_twoSlots : ∃ s : AtomicQueue2.Config 64 Nat,
    s.shared.head = 1#64 ∧ s.shared.tail = 1#64 ∧ ∃ trace' s',
      Run ((AtomicQueue2.twoSlots false).threadCode (AtomicQueue2.slotCode Nat true true)) onlySteps s
        trace' s' ∧ Spsc.Settled (AtomicQueue2.twoSlots false) 0 1 s' := by
  refine ⟨_, ?_, ?_, settles_of_spsc (.fixed _ _ (AtomicQueue2.new_twoSlots false)) rfl (by decide)
    true (by decide) (Run.ofExec 2 (fun trace s action => decide (Spsc.spscCalls 0 1 trace s action))
      (fun _ _ _ _ => of_decide_eq_true)
      [.call 1 .pop, .step 1, .step 1, .call 0 (.push 7), .step 0] (by decide) (by decide +kernel)) ?_⟩
  · decide +kernel
  · decide +kernel
  · decide +kernel

/-- Without `push` and `pop` all calls can be brought to their end: a producer
that claims has found room, and a consumer an element, and nobody else takes it
from them. -/
theorem completes_of_spsc {target : Target w} {totalOrder : Bool} {q : Queue w}
    (hq : IsAtomicQueue2 target totalOrder q) (hRelease : target.build = .release)
    (hPos : 0 < q.capacity.toNat) (maximizeThroughput : Bool) {producer consumer : Nat}
    (hNe : producer ≠ consumer) {trace : Trace (Event w T (Option T))} {s : AtomicQueue2.Config w T}
    (run : Run (q.threadCode (AtomicQueue2.slotCode T maximizeThroughput true))
      (Spsc.endpointCalls producer consumer) (initial w (Slot.new T)) trace s)
    (hUsed : (History.of trace).heads + 1 < 2 ^ w) :
    ∃ trace' s', Run (q.threadCode (AtomicQueue2.slotCode T maximizeThroughput true)) onlySteps s
      trace' s' ∧ Quiescent s' := by
  have hIndexed := hq.indexed hPos
  have hBuild := hq.build_eq.trans hRelease
  have hServed := Spsc.served_of_run hIndexed hBuild hNe (run.weaken fun _ _ _ h => h.1) (by omega)
  have hProducer := Spsc.unclaimed_le_one (s.threads producer)
  have hConsumer := hServed.linked.consuming.unclaimed_eq
  obtain ⟨trace', s', hSteps, hUnderway, hSettled⟩ := Spsc.Underway.settles hIndexed hBuild hNe
    (fun _ _ _ => ⟨trivial, trivial⟩) (fun _ _ _ h => h.1) ⟨trace, run, by omega⟩
  exact ⟨trace', s', hSteps, hUnderway.quiescent hIndexed hBuild hNe hSettled⟩

/-- The consumer has claimed the position whose slot is still empty. -/
theorem completes_spsc_twoSlots : ∃ s : AtomicQueue2.Config 64 Nat,
    s.shared.head = 1#64 ∧ s.shared.tail = 1#64 ∧ ∃ trace' s',
      Run ((AtomicQueue2.twoSlots true).threadCode (AtomicQueue2.slotCode Nat true true)) onlySteps s
        trace' s' ∧ Quiescent s' := by
  refine ⟨_, ?_, ?_, completes_of_spsc (.fixed _ _ (AtomicQueue2.new_twoSlots true)) rfl (by decide)
    true (by decide) (Run.ofExec 2 (fun trace s action => decide (Spsc.endpointCalls 0 1 trace s action))
      (fun _ _ _ _ => of_decide_eq_true)
      [.call 0 (.tryPush 7), .step 0, .step 0, .step 0, .call 1 .tryPop, .step 1, .step 1, .step 1,
        .step 1] (by decide) (by decide +kernel)) ?_⟩
  · decide +kernel
  · decide +kernel
  · decide +kernel

end AtomicQueueRs
