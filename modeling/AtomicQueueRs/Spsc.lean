import AtomicQueueRs.Indexing
import AtomicQueueRs.Tickets

/-! `AtomicQueue2` and `AtomicQueueB2` with `SPSC = true`: the steps of the
branches for one producer and one consumer. The flag is set after the element
is written and cleared after it is read. -/
namespace AtomicQueueRs

set_option autoImplicit false

open Interleaving (Trace Run Action)

variable {w : Nat} {T : Type}

namespace Spsc

open AtomicQueue2 (Local Config)

variable (q : Queue w)

/-- A call at a slot is at the slot of its position, in the SPSC branch. -/
def Placed : Local w T → Prop
  | .pushSlot _ position slot pc => q.getSlot position = some slot ∧
      ((∃ value, pc = .loadState value) ∨ (∃ value, pc = .writeElement value) ∨ pc = .storeFull)
  | .popSlot _ position slot pc => q.getSlot position = some slot ∧
      (pc = .loadState ∨ pc = .readElement ∨ ∃ value, pc = .storeEmpty value)
  | _ => True

/-- The steps of a placed call on a queue whose positions all have slots. -/
inductive Step : Local w T → Memory w (Slot T) → Local w T → Memory w (Slot T) →
    List (Event w T (Option T)) → Prop where
  | quiet {pc pc' : Local w T} {σ : Memory w (Slot T)} {es : List (Event w T (Option T))}
      (h : q.Quiet σ pc pc' es) : Step pc σ pc' σ es
  | claimHead {pc : Local w T} {σ : Memory w (Slot T)} {blocking : Bool} {position : Usize w}
      {value : T} {slot : Nat} (h : q.ClaimsHead σ pc blocking position value)
      (hSlot : q.getSlot position = some slot) :
      Step pc σ (.pushSlot blocking position slot (.loadState value))
        { σ with head := σ.head + 1#w } [.claimHead position]
  | claimTail {pc : Local w T} {σ : Memory w (Slot T)} {blocking : Bool} {position : Usize w}
      {slot : Nat} (h : q.ClaimsTail σ pc blocking position)
      (hSlot : q.getSlot position = some slot) :
      Step pc σ (.popSlot blocking position slot .loadState)
        { σ with tail := σ.tail + 1#w } [.claimTail position]
  | pushWait {blocking : Bool} {position : Usize w} {slot : Nat} (value : T)
      {σ : Memory w (Slot T)} :
      Step (.pushSlot blocking position slot (.loadState value)) σ
        (.pushSlot blocking position slot (.loadState value)) σ []
  | pushReady {blocking : Bool} {position : Usize w} {slot : Nat} (value : T)
      {σ : Memory w (Slot T)} (hEmpty : (σ.slots slot).state = .empty) :
      Step (.pushSlot blocking position slot (.loadState value)) σ
        (.pushSlot blocking position slot (.writeElement value)) σ []
  | write {blocking : Bool} {position : Usize w} {slot : Nat} (value : T) {σ : Memory w (Slot T)} :
      Step (.pushSlot blocking position slot (.writeElement value)) σ
        (.pushSlot blocking position slot .storeFull)
        { σ with slots := Function.update σ.slots slot { σ.slots slot with element := some value } }
        [.access position slot (.write value)]
  | fill {blocking : Bool} {position : Usize w} {slot : Nat} {σ : Memory w (Slot T)} :
      Step (.pushSlot blocking position slot .storeFull) σ .idle
        { σ with slots := Function.update σ.slots slot { σ.slots slot with state := .full } }
        [.access position slot .fill, .returned (if blocking then .push else .tryPush true)]
  | popWait {blocking : Bool} {position : Usize w} {slot : Nat} {σ : Memory w (Slot T)} :
      Step (.popSlot blocking position slot .loadState) σ
        (.popSlot blocking position slot .loadState) σ []
  | popReady {blocking : Bool} {position : Usize w} {slot : Nat} {σ : Memory w (Slot T)}
      (hFull : (σ.slots slot).state = .full) :
      Step (.popSlot blocking position slot .loadState) σ
        (.popSlot blocking position slot .readElement) σ []
  | read {blocking : Bool} {position : Usize w} {slot : Nat} {σ : Memory w (Slot T)} :
      Step (.popSlot blocking position slot .readElement) σ
        (.popSlot blocking position slot (.storeEmpty (σ.slots slot).element)) σ
        [.access position slot (.read (σ.slots slot).element)]
  | drain {blocking : Bool} {position : Usize w} {slot : Nat} (value : Option T)
      {σ : Memory w (Slot T)} :
      Step (.popSlot blocking position slot (.storeEmpty value)) σ .idle
        { σ with slots := Function.update σ.slots slot { σ.slots slot with state := .empty } }
        [.access position slot .drain,
          .returned (if blocking then .pop value else .tryPop (some value))]

variable {q}

/-- Every step of a placed call is one of these. -/
theorem step_cases (hIndexed : q.Indexed) {maximizeThroughput : Bool} {pc pc' : Local w T}
    {σ σ' : Memory w (Slot T)} {es : List (Event w T (Option T))} (hPlaced : Placed q pc)
    (h : q.Step (AtomicQueue2.slotCode T maximizeThroughput true) pc σ pc' σ' es) :
    Step q pc σ pc' σ' es := by
  cases h with
  | quiet h => exact .quiet h
  | @claimHead _ _ _ position _ h =>
      obtain ⟨slot, _, hSlot⟩ := hIndexed.exists_getSlot position
      simp only [Queue.enterPush, hSlot]
      exact .claimHead h hSlot
  | @claimTail _ _ _ position h =>
      obtain ⟨slot, _, hSlot⟩ := hIndexed.exists_getSlot position
      simp only [Queue.enterPop, hSlot]
      exact .claimTail h hSlot
  | pushSlot blocking position slot pc =>
      obtain ⟨_, ⟨value, rfl⟩ | ⟨value, rfl⟩ | rfl⟩ := hPlaced
      · cases hState : (σ.slots slot).state with
        | empty =>
            simpa [AtomicQueue2.slotCode, AtomicQueue2.pushStep, hState, Queue.afterPush] using
              @Step.pushReady w T q blocking position slot value σ hState
        | full =>
            simpa [AtomicQueue2.slotCode, AtomicQueue2.pushStep, hState, Queue.afterPush] using
              @Step.pushWait w T q blocking position slot value σ
      · exact .write value
      · exact .fill
  | popSlot blocking position slot pc =>
      obtain ⟨_, rfl | rfl | ⟨value, rfl⟩⟩ := hPlaced
      · cases hState : (σ.slots slot).state with
        | empty =>
            simpa [AtomicQueue2.slotCode, AtomicQueue2.popStep, hState, Queue.afterPop] using
              @Step.popWait w T q blocking position slot σ
        | full =>
            simpa [AtomicQueue2.slotCode, AtomicQueue2.popStep, hState, Queue.afterPop] using
              @Step.popReady w T q blocking position slot σ hState
      · simpa [AtomicQueue2.slotCode, AtomicQueue2.popStep, Queue.afterPop] using
          @Step.read w T q blocking position slot σ
      · exact .drain value

/-- The SPSC branch never reaches a program counter of the MPMC one. -/
theorem Step.placed {pc pc' : Local w T} {σ σ' : Memory w (Slot T)}
    {es : List (Event w T (Option T))} (h : Step q pc σ pc' σ' es) (hPlaced : Placed q pc) :
    Placed q pc' := by
  cases h with
  | quiet h => cases h <;> exact trivial
  | @claimHead _ _ _ _ value _ _ hSlot => exact ⟨hSlot, Or.inl ⟨value, rfl⟩⟩
  | claimTail _ hSlot => exact ⟨hSlot, Or.inl rfl⟩
  | pushWait | popWait => exact hPlaced
  | pushReady value => exact ⟨hPlaced.1, Or.inr (Or.inl ⟨value, rfl⟩)⟩
  | write => exact ⟨hPlaced.1, Or.inr (Or.inr rfl)⟩
  | popReady => exact ⟨hPlaced.1, Or.inr (Or.inl rfl)⟩
  | read => exact ⟨hPlaced.1, Or.inr (Or.inr ⟨_, rfl⟩)⟩
  | fill | drain => exact trivial

theorem placed_start (operation : Call T) : Placed q (Queue.start operation : Local w T) := by
  cases operation <;> exact trivial

end Spsc

end AtomicQueueRs
