import AtomicQueueRs.Indexing
import AtomicQueueRs.Tickets

/-! `AtomicQueue2` and `AtomicQueueB2` with `SPSC = false`: the steps of
`do_push_any` and `do_pop_any` at the slot of their position, each with the
guard under which it is taken. -/
namespace AtomicQueueRs

set_option autoImplicit false

open Interleaving (Trace Run Action)

variable {w : Nat} {T : Type}

namespace Mpmc

open AtomicQueue2 (Local Config)

variable (q : Queue w)

/-- A call at a slot is at the slot of its position, in the MPMC branch. -/
def Placed : Local w T → Prop
  | .pushSlot _ position slot pc => q.getSlot position = some slot ∧
      ((∃ value, pc = .compareExchange value) ∨ ∃ value, pc = .write value)
  | .popSlot _ position slot pc => q.getSlot position = some slot ∧
      (pc = .compareExchange ∨ pc = .spin ∨ pc = .read)
  | _ => True

/-- The steps of a placed call. Failed attempts at a flag change nothing. -/
inductive Step : Local w T → Memory w (Slot T) → Local w T → Memory w (Slot T) →
    List (Event w T (Option T)) → Prop where
  | quiet {pc pc' : Local w T} {σ : Memory w (Slot T)} {es : List (Event w T (Option T))}
      (h : q.Quiet σ pc pc' es) : Step pc σ pc' σ es
  | claimHead {pc : Local w T} {σ : Memory w (Slot T)} {blocking : Bool} {position : Usize w}
      {value : T} {slot : Nat} (h : q.ClaimsHead σ pc blocking position value)
      (hSlot : q.getSlot position = some slot) :
      Step pc σ (.pushSlot blocking position slot (.compareExchange value))
        { σ with head := σ.head + 1#w } [.claimHead position]
  | claimTail {pc : Local w T} {σ : Memory w (Slot T)} {blocking : Bool} {position : Usize w}
      {slot : Nat} (h : q.ClaimsTail σ pc blocking position)
      (hSlot : q.getSlot position = some slot) :
      Step pc σ (.popSlot blocking position slot .compareExchange)
        { σ with tail := σ.tail + 1#w } [.claimTail position]
  | pushPanic {pc : Local w T} {σ : Memory w (Slot T)} {blocking : Bool} {position : Usize w}
      {value : T} (h : q.ClaimsHead σ pc blocking position value)
      (hSlot : q.getSlot position = none) :
      Step pc σ .panicked { σ with head := σ.head + 1#w } [.claimHead position, .panicked]
  | popPanic {pc : Local w T} {σ : Memory w (Slot T)} {blocking : Bool} {position : Usize w}
      (h : q.ClaimsTail σ pc blocking position) (hSlot : q.getSlot position = none) :
      Step pc σ .panicked { σ with tail := σ.tail + 1#w } [.claimTail position, .panicked]
  | pushWait {blocking : Bool} {position : Usize w} {slot : Nat} (value : T)
      {σ : Memory w (Slot T)} (hFull : (σ.slots slot).state = .full) :
      Step (.pushSlot blocking position slot (.compareExchange value)) σ
        (.pushSlot blocking position slot (.compareExchange value)) σ []
  | fill {blocking : Bool} {position : Usize w} {slot : Nat} (value : T) {σ : Memory w (Slot T)}
      (hEmpty : (σ.slots slot).state = .empty) :
      Step (.pushSlot blocking position slot (.compareExchange value)) σ
        (.pushSlot blocking position slot (.write value))
        { σ with slots := Function.update σ.slots slot { σ.slots slot with state := .full } }
        [.access position slot .fill]
  | write {blocking : Bool} {position : Usize w} {slot : Nat} (value : T) {σ : Memory w (Slot T)} :
      Step (.pushSlot blocking position slot (.write value)) σ .idle
        { σ with slots := Function.update σ.slots slot { σ.slots slot with element := some value } }
        [.access position slot (.write value),
          .returned (if blocking then .push else .tryPush true)]
  | popWait {blocking : Bool} {position : Usize w} {slot : Nat} {pc pc' : DoPopAny T}
      {σ : Memory w (Slot T)} (hPc : pc = .compareExchange ∨ pc = .spin)
      (hPc' : pc' = .compareExchange ∨ pc' = .spin) :
      Step (.popSlot blocking position slot pc) σ (.popSlot blocking position slot pc') σ []
  | drain {blocking : Bool} {position : Usize w} {slot : Nat} {σ : Memory w (Slot T)}
      (hFull : (σ.slots slot).state = .full) :
      Step (.popSlot blocking position slot .compareExchange) σ
        (.popSlot blocking position slot .read)
        { σ with slots := Function.update σ.slots slot { σ.slots slot with state := .empty } }
        [.access position slot .drain]
  | read {blocking : Bool} {position : Usize w} {slot : Nat} {σ : Memory w (Slot T)} :
      Step (.popSlot blocking position slot .read) σ .idle σ
        [.access position slot (.read (σ.slots slot).element),
          .returned (if blocking then .pop (σ.slots slot).element
            else .tryPop (some (σ.slots slot).element))]

variable {q}

/-- Every step of a placed call is one of these. -/
theorem step_cases {maximizeThroughput : Bool} {pc pc' : Local w T}
    {σ σ' : Memory w (Slot T)} {es : List (Event w T (Option T))} (hPlaced : Placed q pc)
    (h : q.Step (AtomicQueue2.slotCode T maximizeThroughput false) pc σ pc' σ' es) :
    Step q pc σ pc' σ' es := by
  cases h with
  | quiet h => exact .quiet h
  | @claimHead _ _ _ position _ h =>
      cases hSlot : q.getSlot position with
      | none =>
          simp only [Queue.enterPush, hSlot]
          exact .pushPanic h hSlot
      | some slot =>
          simp only [Queue.enterPush, hSlot]
          exact .claimHead h hSlot
  | @claimTail _ _ _ position h =>
      cases hSlot : q.getSlot position with
      | none =>
          simp only [Queue.enterPop, hSlot]
          exact .popPanic h hSlot
      | some slot =>
          simp only [Queue.enterPop, hSlot]
          exact .claimTail h hSlot
  | pushSlot blocking position slot pc =>
      obtain ⟨_, ⟨value, rfl⟩ | ⟨value, rfl⟩⟩ := hPlaced
      · cases hState : (σ.slots slot).state with
        | empty =>
            simpa [AtomicQueue2.slotCode, AtomicQueue2.pushStep, hState, Queue.afterPush] using
              @Step.fill w T q blocking position slot value σ hState
        | full =>
            simpa [AtomicQueue2.slotCode, AtomicQueue2.pushStep, hState, Queue.afterPush] using
              @Step.pushWait w T q blocking position slot value σ hState
      · exact .write value
  | popSlot blocking position slot pc =>
      obtain ⟨_, rfl | rfl | rfl⟩ := hPlaced
      · cases hState : (σ.slots slot).state with
        | empty =>
            have hPc' : (if maximizeThroughput then DoPopAny.spin else .compareExchange) =
                (DoPopAny.compareExchange : DoPopAny T) ∨
                (if maximizeThroughput then DoPopAny.spin else .compareExchange) =
                  (DoPopAny.spin : DoPopAny T) := by
              cases maximizeThroughput <;> simp
            simpa [AtomicQueue2.slotCode, AtomicQueue2.popStep, hState, Queue.afterPop] using
              @Step.popWait w T q blocking position slot _ _ σ (Or.inl rfl) hPc'
        | full =>
            simpa [AtomicQueue2.slotCode, AtomicQueue2.popStep, hState, Queue.afterPop] using
              @Step.drain w T q blocking position slot σ hState
      · have hPc' : (if (σ.slots slot).state = .empty then DoPopAny.spin else .compareExchange) =
            (DoPopAny.compareExchange : DoPopAny T) ∨
            (if (σ.slots slot).state = .empty then DoPopAny.spin else .compareExchange) =
              (DoPopAny.spin : DoPopAny T) := by
          cases (σ.slots slot).state <;> simp
        simpa [AtomicQueue2.slotCode, AtomicQueue2.popStep, Queue.afterPop] using
          @Step.popWait w T q blocking position slot _ _ σ (Or.inr rfl) hPc'
      · simpa [AtomicQueue2.slotCode, AtomicQueue2.popStep, Queue.afterPop] using
          @Step.read w T q blocking position slot σ

/-- The MPMC branch never reaches a program counter of the SPSC one. -/
theorem Step.placed {pc pc' : Local w T} {σ σ' : Memory w (Slot T)}
    {es : List (Event w T (Option T))} (h : Step q pc σ pc' σ' es) (hPlaced : Placed q pc) :
    Placed q pc' := by
  cases h with
  | quiet h => cases h <;> exact trivial
  | @claimHead _ _ _ _ value _ _ hSlot => exact ⟨hSlot, Or.inl ⟨value, rfl⟩⟩
  | claimTail _ hSlot => exact ⟨hSlot, Or.inl rfl⟩
  | pushWait => exact hPlaced
  | fill value => exact ⟨hPlaced.1, Or.inr ⟨value, rfl⟩⟩
  | popWait _ hPc' =>
      rcases hPc' with rfl | rfl
      · exact ⟨hPlaced.1, Or.inl rfl⟩
      · exact ⟨hPlaced.1, Or.inr (Or.inl rfl)⟩
  | drain => exact ⟨hPlaced.1, Or.inr (Or.inr rfl)⟩
  | pushPanic | popPanic | write | read => exact trivial

theorem placed_start (operation : Call T) : Placed q (Queue.start operation : Local w T) := by
  cases operation <;> exact trivial

variable {maximizeThroughput : Bool}
  {allowed : Trace (Event w T (Option T)) → Config w T → Action (Call T) → Prop}

/-- So the steps of a run can be taken apart by `step_cases`, with no case for
the other branch. -/
theorem placed_of_run {trace : Trace (Event w T (Option T))} {s : Config w T}
    (run : Run (q.threadCode (AtomicQueue2.slotCode T maximizeThroughput false)) allowed
      (initial w (Slot.new T)) trace s) (thread : Nat) : Placed q (s.threads thread) := by
  refine run.invariant_threads (fun _ _ pc => Placed q pc) ?_ (fun _ _ _ _ _ hPlaced _ => hPlaced)
    ?_ ?_ thread
  · intro thread
    exact trivial
  · intro trace s thread operation pc es _ _ _ hCall
    obtain ⟨_, rfl, _⟩ := Queue.call_cases hCall
    exact placed_start operation
  · intro trace s thread pc shared es _ hPlaced _ hStep
    exact (step_cases hPlaced (Queue.step_cases hStep)).placed hPlaced

/-- The invariant rule for the MPMC branch: calls and placed steps preserve
what holds at the start. -/
theorem invariant_of_run (inv : Trace (Event w T (Option T)) → Config w T → Prop)
    (hStart : inv [] (initial w (Slot.new T)))
    (hCall : ∀ trace s thread operation, inv trace s → s.threads thread = .idle →
      allowed trace s (.call thread operation) →
      inv (trace ++ [Event.call operation].map (Prod.mk thread))
        ⟨s.shared, Function.update s.threads thread (Queue.start operation)⟩)
    (hStep : ∀ trace s thread pc shared es, Counted trace s → inv trace s →
      allowed trace s (.step thread) → Placed q (s.threads thread) →
      Step q (s.threads thread) s.shared pc shared es →
      inv (trace ++ es.map (Prod.mk thread)) ⟨shared, Function.update s.threads thread pc⟩)
    {trace : Trace (Event w T (Option T))} {s : Config w T}
    (run : Run (q.threadCode (AtomicQueue2.slotCode T maximizeThroughput false)) allowed
      (initial w (Slot.new T)) trace s) : inv trace s := by
  refine run.invariant inv hStart ?_ ?_
  · intro trace s thread operation pc es _ ih hAllowed h
    obtain ⟨hIdle, rfl, rfl⟩ := Queue.call_cases h
    exact hCall trace s thread operation ih hIdle hAllowed
  · intro trace s thread pc shared es prior ih hAllowed h
    have hPlaced := placed_of_run prior thread
    exact hStep trace s thread pc shared es (counted_of_run prior) ih hAllowed hPlaced
      (step_cases hPlaced (Queue.step_cases h))

end Mpmc

end AtomicQueueRs
