import AtomicQueueRs.AtomicQueue
import AtomicQueueRs.Tickets

/-! `AtomicQueue` and `AtomicQueueB`: the steps at the slot of a position. A
store is unconditional; only consumers wait. -/
namespace AtomicQueueRs

set_option autoImplicit false

open Interleaving (Trace Run Action)

variable {w : Nat} {T : Type} [Element T]

namespace AtomicValue

/-- What is loaded after a store, if neither panics. -/
theorem eq_of_load_store {bigEndian : Bool} {value current : T} {raw : Usize w}
    (hStore : store w bigEndian value = some raw) (hLoad : load bigEndian raw = some current) :
    current = value := by
  have hBits := bits_eq_of_load_store hStore hLoad
  rw [store_eq hBits] at hStore
  obtain rfl := Option.some.inj hStore
  rw [load_raw hBits] at hLoad
  exact (Option.some.inj hLoad).symm

/-- What the wait loops take for an empty slot: it reads as a value that
compares equal to the default one. -/
def Vacant (T : Type) [Element T] (bigEndian : Bool) (raw : Usize w) : Prop :=
  ∃ current : T, load bigEndian raw = some current ∧ Element.IsDefault current

instance (bigEndian : Bool) : DecidablePred (Vacant T bigEndian (w := w)) := fun raw =>
  decidable_of_iff
    ((load bigEndian raw : Option T).any (fun current => decide (Element.IsDefault current)) = true)
    (by simp [Vacant, Option.any_eq_true])

/-- Whoever loads something else knows that the slot is not empty. -/
theorem not_vacant_of_load {bigEndian : Bool} {raw : Usize w} {current : T}
    (hLoad : load bigEndian raw = some current) (hSome : ¬ Element.IsDefault current) :
    ¬ Vacant T bigEndian raw := by
  rintro ⟨current', hLoad', hDefault⟩
  obtain rfl := Option.some.inj (hLoad.symm.trans hLoad')
  exact hSome hDefault

/-- A stored value empties its slot only if it compares equal to the default. -/
theorem not_vacant_of_store {bigEndian : Bool} {raw : Usize w} {value : T}
    (hStore : store w bigEndian value = some raw) (hValue : ¬ Element.IsDefault value) :
    ¬ Vacant T bigEndian raw := by
  rintro ⟨current, hLoad, hDefault⟩
  rw [eq_of_load_store hStore hLoad] at hDefault
  exact hValue hDefault

/-- A new slot reads as empty only because the zero word happens to be a default
value; for elements wider than a word it could not be read at all. -/
theorem vacant_new (hZero : Element.ZeroDefault T) (hBits : Element.bits T ≤ w) (bigEndian : Bool) :
    Vacant T bigEndian (new w) :=
  ⟨_, load_new hBits bigEndian, hZero.zero⟩

/-- An emptied slot reads as empty where `T::default() == T::default()`. -/
theorem vacant_of_store_default (hBits : Element.bits T = w) (hZero : Element.ZeroDefault T)
    {bigEndian : Bool} {raw : Usize w}
    (hStore : store w bigEndian (Element.default : T) = some raw) : Vacant T bigEndian raw := by
  rw [store_eq hBits] at hStore
  obtain rfl := Option.some.inj hStore
  exact ⟨_, load_raw hBits bigEndian _, hZero.self⟩

end AtomicValue

namespace Cells

open AtomicQueue (Local Config)

/-- What a consumer has loaded from the slot that it has not emptied yet. -/
def inHand (slot : Nat) : Local w T → Option T
  | .popSlot _ _ own (.clear current) => if own = slot then some current else none
  | _ => none

/-- The slot that the next step stores an element in. -/
def storesTo : Local w T → Option Nat
  | .pushSlot _ _ slot _ => some slot
  | _ => none

/-- The size of the element type makes the next access at a slot panic. -/
def Unconvertible (bigEndian : Bool) (σ : Memory w (Usize w)) : Local w T → Prop
  | .pushSlot _ _ _ (.store element) => AtomicValue.store w bigEndian element = none
  | .popSlot _ _ slot .load => (AtomicValue.load bigEndian (σ.slots slot) : Option T) = none
  | .popSlot _ _ _ (.clear _) => AtomicValue.store w bigEndian (Element.default : T) = none
  | _ => False

variable (q : Queue w) (bigEndian : Bool)

/-- The steps of a call, each with the guard under which it is taken. -/
inductive Step : Local w T → Memory w (Usize w) → Local w T → Memory w (Usize w) →
    List (Event w T T) → Prop where
  | quiet {pc pc' : Local w T} {σ : Memory w (Usize w)} {es : List (Event w T T)}
      (h : q.Quiet σ pc pc' es) : Step pc σ pc' σ es
  | claimHead {pc : Local w T} {σ : Memory w (Usize w)} {blocking : Bool} {position : Usize w}
      {element : T} {slot : Nat} (h : q.ClaimsHead σ pc blocking position element)
      (hSlot : q.getSlot position = some slot) :
      Step pc σ (.pushSlot blocking position slot (.store element))
        { σ with head := σ.head + 1#w } [.claimHead position]
  | claimTail {pc : Local w T} {σ : Memory w (Usize w)} {blocking : Bool} {position : Usize w}
      {slot : Nat} (h : q.ClaimsTail σ pc blocking position)
      (hSlot : q.getSlot position = some slot) :
      Step pc σ (.popSlot blocking position slot .load)
        { σ with tail := σ.tail + 1#w } [.claimTail position]
  | pushPanic {pc : Local w T} {σ : Memory w (Usize w)} {blocking : Bool} {position : Usize w}
      {element : T} (h : q.ClaimsHead σ pc blocking position element)
      (hSlot : q.getSlot position = none) :
      Step pc σ .panicked { σ with head := σ.head + 1#w } [.claimHead position, .panicked]
  | popPanic {pc : Local w T} {σ : Memory w (Usize w)} {blocking : Bool} {position : Usize w}
      (h : q.ClaimsTail σ pc blocking position) (hSlot : q.getSlot position = none) :
      Step pc σ .panicked { σ with tail := σ.tail + 1#w } [.claimTail position, .panicked]
  | convertPanic {pc : Local w T} {σ : Memory w (Usize w)} (h : Unconvertible bigEndian σ pc) :
      Step pc σ .panicked σ [.panicked]
  | store {blocking : Bool} {position : Usize w} {slot : Nat} (element : T)
      {σ : Memory w (Usize w)} {raw : Usize w}
      (hStore : AtomicValue.store w bigEndian element = some raw) :
      Step (.pushSlot blocking position slot (.store element)) σ .idle
        { σ with slots := Function.update σ.slots slot raw }
        [.access position slot (.write element),
          .returned (if blocking then .push else .tryPush true)]
  | wait {blocking : Bool} {position : Usize w} {slot : Nat} {σ : Memory w (Usize w)}
      (hVacant : AtomicValue.Vacant T bigEndian (σ.slots slot)) :
      Step (.popSlot blocking position slot .load) σ (.popSlot blocking position slot .load) σ []
  | take {blocking : Bool} {position : Usize w} {slot : Nat} (current : T)
      {σ : Memory w (Usize w)} (hLoad : AtomicValue.load bigEndian (σ.slots slot) = some current)
      (hSome : ¬ Element.IsDefault current) :
      Step (.popSlot blocking position slot .load) σ
        (.popSlot blocking position slot (.clear current)) σ
        [.access position slot (.read current)]
  | clear {blocking : Bool} {position : Usize w} {slot : Nat} (current : T)
      {σ : Memory w (Usize w)} {raw : Usize w}
      (hStore : AtomicValue.store w bigEndian (Element.default : T) = some raw) :
      Step (.popSlot blocking position slot (.clear current)) σ .idle
        { σ with slots := Function.update σ.slots slot raw }
        [.access position slot .drain,
          .returned (if blocking then .pop current else .tryPop (some current))]

variable {q} {bigEndian}

/-- Every step is one of these. -/
theorem step_cases {pc pc' : Local w T} {σ σ' : Memory w (Usize w)} {es : List (Event w T T)}
    (h : q.Step (AtomicQueue.slotCode w T bigEndian) pc σ pc' σ' es) :
    Step q bigEndian pc σ pc' σ' es := by
  cases h with
  | quiet h => exact .quiet h
  | @claimHead _ _ _ position _ h =>
      cases hSlot : q.getSlot position with
      | some slot =>
          simp only [Queue.enterPush, hSlot]
          exact .claimHead h hSlot
      | none =>
          simp only [Queue.enterPush, hSlot]
          exact .pushPanic h hSlot
  | @claimTail _ _ _ position h =>
      cases hSlot : q.getSlot position with
      | some slot =>
          simp only [Queue.enterPop, hSlot]
          exact .claimTail h hSlot
      | none =>
          simp only [Queue.enterPop, hSlot]
          exact .popPanic h hSlot
  | pushSlot blocking position slot pc =>
      obtain ⟨element⟩ := pc
      cases hStore : AtomicValue.store w bigEndian element with
      | none =>
          simpa [AtomicQueue.slotCode, AtomicQueue.pushStep, hStore, Queue.afterPush] using
            @Step.convertPanic w T _ q bigEndian (.pushSlot blocking position slot (.store element)) σ
              hStore
      | some raw =>
          simp only [AtomicQueue.slotCode, AtomicQueue.pushStep, hStore]
          exact .store element hStore
  | popSlot blocking position slot pc =>
      cases pc with
      | load =>
          cases hLoad : (AtomicValue.load bigEndian (σ.slots slot) : Option T) with
          | none =>
              simpa [AtomicQueue.slotCode, AtomicQueue.popStep, hLoad, Queue.afterPop] using
                @Step.convertPanic w T _ q bigEndian (.popSlot blocking position slot .load) σ hLoad
          | some current =>
              by_cases hDefault : Element.IsDefault current
              · simpa [AtomicQueue.slotCode, AtomicQueue.popStep, hLoad, hDefault, Queue.afterPop] using
                  @Step.wait w T _ q bigEndian blocking position slot σ ⟨current, hLoad, hDefault⟩
              · simpa [AtomicQueue.slotCode, AtomicQueue.popStep, hLoad, hDefault, Queue.afterPop] using
                  @Step.take w T _ q bigEndian blocking position slot current σ hLoad hDefault
      | clear current =>
          cases hStore : AtomicValue.store w bigEndian (Element.default : T) with
          | none =>
              simpa [AtomicQueue.slotCode, AtomicQueue.popStep, hStore, Queue.afterPop] using
                @Step.convertPanic w T _ q bigEndian (.popSlot blocking position slot (.clear current))
                  σ hStore
          | some raw =>
              simp only [AtomicQueue.slotCode, AtomicQueue.popStep, hStore]
              exact .clear current hStore

end Cells

end AtomicQueueRs
