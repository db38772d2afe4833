import AtomicQueueRs.ElementTypes
import AtomicQueueRs.Endings
import AtomicQueueRs.Indexing

/-! Panics of the operations. The subtraction, the increment and the loads come
before a position is taken; the index arithmetic and the conversions between
elements and cells come after it. -/
namespace AtomicQueueRs

set_option autoImplicit false

open Queue (Ends Step PanicSpec PanicAtomic Reached)

variable {w : Nat} {T : Type}

namespace AtomicQueue

variable [Element T] {q : Queue w} {bigEndian : Bool} {σ final : Memory w (Usize w)}
  {last : Local w T}

/-- An element smaller than its cell cannot be stored, so nothing ever is. -/
theorem pushStep_unchanged (hBits : Element.bits T < w) (pc : StoreElement T) (raw : Usize w) :
    (pushStep bigEndian pc raw).1 = raw := by
  cases pc with
  | store element =>
      rw [pushStep, (AtomicValue.store_eq_none_iff bigEndian element).mpr hBits]

/-- Emptying a cell wider than the element panics, and a load does not write. -/
theorem popStep_unchanged (hBits : Element.bits T < w) (pc : TakeElement T) (raw : Usize w) :
    (popStep bigEndian pc raw).1 = raw := by
  cases pc with
  | load =>
      rw [popStep]
      split
      · rfl
      · split <;> rfl
  | clear current =>
      rw [popStep, (AtomicValue.store_eq_none_iff bigEndian _).mpr hBits]

/-- While nothing can be stored every cell is as it was built. -/
def Untouched (T : Type) [Element T] (slots : Nat → Usize w) : Prop :=
  Element.bits T < w → ∀ slot, slots slot = AtomicValue.new w

/-- Storing to a cell wider than the element panics before the store, so neither
side changes such a cell. -/
theorem untouched_of_step {pc pc' : Local w T} {σ' : Memory w (Usize w)}
    {es : List (Event w T T)} (h : Step q (slotCode w T bigEndian) pc σ pc' σ' es)
    (hBefore : Untouched T σ.slots) : Untouched T σ'.slots := by
  intro hBits slot
  cases h with
  | quiet | claimHead | claimTail => exact hBefore hBits slot
  | pushSlot blocking position own pc =>
      dsimp only
      rw [show ((slotCode w T bigEndian).pushStep pc (σ.slots own)).1 = σ.slots own from
        pushStep_unchanged hBits pc _, Function.update_eq_self]
      exact hBefore hBits slot
  | popSlot blocking position own pc =>
      dsimp only
      rw [show ((slotCode w T bigEndian).popStep pc (σ.slots own)).1 = σ.slots own from
        popStep_unchanged hBits pc _, Function.update_eq_self]
      exact hBefore hBits slot

/-- Slots of a narrower element hold the zero word for ever. -/
theorem untouched_of_reached
    (h : Reached q (slotCode w T bigEndian) (AtomicValue.new w) σ) : Untouched T σ.slots := by
  induction h with
  | new => exact fun _ _ => rfl
  | call operation _ hEnds ih =>
      exact hEnds.invariant (fun _ σ => Untouched T σ.slots)
        (fun _ _ _ _ _ => untouched_of_step) ih

/-- A pop side that is not going to panic: it has returned, it waits, or it is
about to empty the cell of an element of the size of the cell. -/
inductive Calm (blocking : Bool) (position : Usize w) (slot : Nat) :
    Local w T → Memory w (Usize w) → Prop where
  | done (σ : Memory w (Usize w)) : Calm blocking position slot .idle σ
  | waits {σ : Memory w (Usize w)} (hSlots : Untouched T σ.slots) :
      Calm blocking position slot (.popSlot blocking position slot .load) σ
  | clears (current : T) (σ : Memory w (Usize w)) (hBits : Element.bits T = w) :
      Calm blocking position slot (.popSlot blocking position slot (.clear current)) σ

/-- A load never finds an element in a cell wider than it: the cell is still as
constructed and is read as what `hEmpty` says marks an empty slot. -/
theorem calm_load (hBits : Element.bits T ≤ w)
    (hEmpty : Element.bits T < w → Element.IsDefault (Element.ofBits 0#(Element.bits T) : T))
    {blocking : Bool} {position : Usize w} {slot : Nat}
    (hSlots : Untouched T σ.slots)
    {out : Usize w × List (Access T T) × Outcome (TakeElement T) T}
    (hOut : popStep bigEndian .load (σ.slots slot) = out) :
    Calm (T := T) blocking position slot (Queue.afterPop blocking position slot out.2.2).1
      { σ with slots := Function.update σ.slots slot out.1 } := by
  have hSame : Function.update σ.slots slot (σ.slots slot) = σ.slots := Function.update_eq_self _ _
  subst hOut
  cases hLoad : (AtomicValue.load bigEndian (σ.slots slot) : Option T) with
  | none =>
      have hLt := (AtomicValue.load_eq_none_iff bigEndian _).mp hLoad
      exact (Nat.not_lt.mpr hBits hLt).elim
  | some current =>
      by_cases hDefault : Element.IsDefault current
      · simp only [popStep, hLoad, if_pos hDefault, hSame]
        exact .waits hSlots
      · simp only [popStep, hLoad, if_neg hDefault, hSame]
        apply Calm.clears
        apply Nat.le_antisymm hBits
        rw [← Nat.not_lt]
        intro hLt
        rw [hSlots hLt, AtomicValue.load_new hBits] at hLoad
        exact hDefault (Option.some.inj hLoad ▸ hEmpty hLt)

/-- A calm pop side stays calm. It loads again until it finds an element, and it
can store the default value where the element has the size of the cell. -/
theorem calm_of_step (hBits : Element.bits T ≤ w)
    (hEmpty : Element.bits T < w → Element.IsDefault (Element.ofBits 0#(Element.bits T) : T))
    {blocking : Bool} {position : Usize w} {slot : Nat} {pc pc' : Local w T}
    {σ' : Memory w (Usize w)} {es : List (Event w T T)}
    (h : Step q (slotCode w T bigEndian) pc σ pc' σ' es) (hCalm : Calm blocking position slot pc σ) :
    Calm blocking position slot pc' σ' := by
  cases hCalm with
  | done =>
      cases h with
      | quiet h | claimHead h | claimTail h => cases h
  | waits hSlots =>
      cases h with
      | quiet h | claimHead h | claimTail h => cases h
      | popSlot => exact calm_load hBits hEmpty hSlots rfl
  | clears current _ hEq =>
      cases h with
      | quiet h | claimHead h | claimTail h => cases h
      | popSlot =>
          simp only [slotCode, popStep, AtomicValue.store_eq hEq]
          exact .done _

/-- A narrower element panics on the push side, when it is converted for the
store. On the pop side a wider one panics at the load; a narrower one waits
there for ever, unless a new cell is not read as the default value. -/
theorem panicSpec (q : Queue w) (bigEndian : Bool) :
    PanicSpec q (slotCode w T bigEndian) (Untouched T) (Element.bits T < w)
      (w < Element.bits T ∨
        Element.bits T < w ∧ ¬ Element.IsDefault (Element.ofBits 0#(Element.bits T) : T)) where
  push_iff := by
    intro σ blocking position slot element _
    cases hStore : AtomicValue.store w bigEndian element with
    | none =>
        have hStep : q.step (slotCode w T bigEndian)
            (.pushSlot blocking position slot (.store element)) σ =
              some (.panicked, σ, [.panicked]) := by
          simp [Queue.step, slotCode, pushStep, hStore, Queue.afterPush]
        exact iff_of_true ⟨σ, (Queue.ends_iff hStep).mpr (.panicked σ)⟩
          ((AtomicValue.store_eq_none_iff bigEndian element).mp hStore)
    | some raw =>
        refine iff_of_false ?_ ?_
        · rintro ⟨final, hEnds⟩
          rw [Queue.ends_iff (by simp only [Queue.step, slotCode, pushStep, hStore]; rfl)] at hEnds
          have hIdle := (Queue.ends_idle.mp hEnds).1
          contradiction
        · intro hLt
          rw [(AtomicValue.store_eq_none_iff bigEndian element).mpr hLt] at hStore
          contradiction
  pop_iff := by
    intro σ blocking position slot hSlots
    constructor
    · rintro ⟨final, hEnds⟩
      by_contra hFits
      rw [not_or, not_and, not_not, Nat.not_lt] at hFits
      have hCalm := hEnds.invariant (Calm blocking position slot)
        (fun _ _ _ _ _ => calm_of_step hFits.1 hFits.2) (.waits hSlots)
      cases hCalm
    · rintro (hLt | ⟨hLt, hValue⟩)
      · have hLoad := (AtomicValue.load_eq_none_iff (T := T) bigEndian (σ.slots slot)).mpr hLt
        have hStep : q.step (slotCode w T bigEndian) (.popSlot blocking position slot .load) σ =
            some (.panicked, σ, [.panicked]) := by
          simp [Queue.step, slotCode, popStep, hLoad, Queue.afterPop]
        exact ⟨σ, (Queue.ends_iff hStep).mpr (.panicked σ)⟩
      · -- the consumer takes the word of a new slot for an element, and cannot clear it
        have hLoad := AtomicValue.load_new (T := T) hLt.le bigEndian
        rw [← hSlots hLt slot] at hLoad
        have hStore := (AtomicValue.store_eq_none_iff bigEndian (Element.default : T)).mpr hLt
        let zero : T := Element.ofBits 0#(Element.bits T)
        have hTakes : q.step (slotCode w T bigEndian) (.popSlot blocking position slot .load) σ =
            some (.popSlot blocking position slot (.clear zero), σ,
              [.access position slot (.read zero)]) := by
          simp [Queue.step, slotCode, popStep, hLoad, hValue, Queue.afterPop, zero]
        have hPanics : q.step (slotCode w T bigEndian)
            (.popSlot blocking position slot (.clear zero)) σ = some (.panicked, σ, [.panicked]) := by
          simp [Queue.step, slotCode, popStep, hStore, Queue.afterPop]
        exact ⟨σ, .step hTakes (.step hPanics (.panicked σ))⟩

end AtomicQueue

namespace AtomicQueue2

variable {q : Queue w} {maximizeThroughput spsc : Bool} {σ : Memory w (Slot T)}

/-- Neither side of the slot code has a step that panics. -/
theorem pushStep_ne_panic (pc : DoPushAny T) (slot : Slot T) : (pushStep pc slot).2.2 ≠ .panic := by
  cases pc with
  | compareExchange value =>
      rw [pushStep]
      split <;> simp
  | _ => simp [pushStep]

/-- The slot code of `atomic_queue2.rs` compares flags and moves elements, and
neither can panic. -/
theorem popStep_ne_panic (pc : DoPopAny T) (slot : Slot T) :
    (popStep maximizeThroughput pc slot).2.2 ≠ .panic := by
  cases pc with
  | compareExchange =>
      rw [popStep]
      split <;> simp
  | _ => simp [popStep]

/-- A call at a slot of `atomic_queue2.rs` returns or stays at the slot. -/
theorem landed_of_step {pc pc' : Local w T} {σ' : Memory w (Slot T)}
    {es : List (Event w T (Option T))}
    (h : Step q (slotCode T maximizeThroughput spsc) pc σ pc' σ' es)
    (hBefore : pc.Landed ∧ pc ≠ .panicked) : pc'.Landed ∧ pc' ≠ .panicked := by
  refine ⟨(h.landed hBefore.1).1, ?_⟩
  cases h with
  | quiet h | claimHead h | claimTail h => cases h <;> exact hBefore.1.elim
  | pushSlot blocking position slot pc =>
      have hNever := pushStep_ne_panic pc (σ.slots slot)
      cases hOutcome : (pushStep pc (σ.slots slot)).2.2 with
      | panic => exact (hNever hOutcome).elim
      | goto | done => simp [slotCode, hOutcome, Queue.afterPush]
  | popSlot blocking position slot pc =>
      have hNever : (popStep maximizeThroughput pc (σ.slots slot)).2.2 ≠ .panic :=
        popStep_ne_panic pc _
      cases hOutcome : (popStep maximizeThroughput pc (σ.slots slot)).2.2 with
      | panic => exact (hNever hOutcome).elim
      | goto | done => simp [slotCode, hOutcome, Queue.afterPop]

/-- For elements of any type, on both sides and in both branches. -/
theorem panicSpec (q : Queue w) (maximizeThroughput spsc : Bool) :
    PanicSpec q (slotCode T maximizeThroughput spsc) (fun _ => True) False False where
  push_iff := by
    intro σ blocking position slot element _
    refine iff_of_false ?_ id
    rintro ⟨final, hEnds⟩
    have hLanded := hEnds.invariant (fun pc _ => pc.Landed ∧ pc ≠ .panicked)
      (fun _ _ _ _ _ => landed_of_step) ⟨trivial, by simp⟩
    exact hLanded.2 rfl
  pop_iff := by
    intro σ blocking position slot _
    refine iff_of_false ?_ id
    rintro ⟨final, hEnds⟩
    have hLanded := hEnds.invariant (fun pc _ => pc.Landed ∧ pc ≠ .panicked)
      (fun _ _ _ _ _ => landed_of_step) ⟨trivial, by simp⟩
    exact hLanded.2 rfl

end AtomicQueue2

theorem Target.width_pos (target : Target w) : 0 < w := by
  rcases target.width with rfl | rfl <;> decide

/-- In every memory that calls of one thread leave, a panic of the next call is
atomic exactly where the call takes no position, or the position it takes has a
slot and the conversions there go through: of an element no smaller than
`usize` on the push side, and no larger on the pop side. -/
theorem panicAtomic_iff_of_reached (target : Target w) :
    (∀ q : Queue w, IsAtomicQueue target q → ∀ (T : Type) [Element T] (bigEndian : Bool)
      (σ : Memory w (Usize w)) (operation : Call T),
      Reached q (AtomicQueue.slotCode w T bigEndian) (AtomicValue.new w) σ →
      (PanicAtomic q (AtomicQueue.slotCode w T bigEndian) σ operation ↔
        (q.ClaimsHeadNext σ operation → (q.getSlot σ.head).isSome ∧ w ≤ Element.bits T) ∧
        (q.ClaimsNext σ operation → (q.getSlot σ.tail).isSome ∧ Element.bits T ≤ w ∧
          (Element.bits T < w → Element.IsDefault (Element.ofBits 0#(Element.bits T) : T))))) ∧
    ∀ (totalOrder : Bool) (q : Queue w), IsAtomicQueue2 target totalOrder q → ∀ (T : Type)
      (maximizeThroughput spsc : Bool) (σ : Memory w (Slot T)) (operation : Call T),
      Reached q (AtomicQueue2.slotCode T maximizeThroughput spsc) (Slot.new T) σ →
      (PanicAtomic q (AtomicQueue2.slotCode T maximizeThroughput spsc) σ operation ↔
        (q.ClaimsHeadNext σ operation → (q.getSlot σ.head).isSome) ∧
        (q.ClaimsNext σ operation → (q.getSlot σ.tail).isSome)) := by
  have hWidth := target.width_pos
  constructor
  · intro q _ T _ bigEndian σ operation hReached
    rw [(AtomicQueue.panicSpec q bigEndian).panicAtomic_iff hWidth
      (AtomicQueue.untouched_of_reached hReached), Nat.not_lt, not_or, not_and, not_not, Nat.not_lt]
  · intro totalOrder q _ T maximizeThroughput spsc σ operation _
    rw [(AtomicQueue2.panicSpec q maximizeThroughput spsc).panicAtomic_iff hWidth trivial]
    simp only [not_false_eq_true, and_true]

theorem panicAtomic_oneSlot : PanicAtomic AtomicQueue.oneSlot
    (AtomicQueue.slotCode 64 (BitVec 64) false) (Memory.new 64 (AtomicValue.new 64))
    (.push 7#64) := by
  apply ((panicAtomic_iff_of_reached Target.x86_64).1 AtomicQueue.oneSlot
    (.fixed _ AtomicQueue.new_oneSlot) (BitVec 64) false _ _ .new).mpr
  exact ⟨fun _ => ⟨rfl, Nat.le_refl 64⟩, fun hTail => hTail.elim⟩

/-- A `u32` on a 64-bit target: `push` advances `head` and then panics as it
stores the element. A queue of no slots panics at the remainder, as late. -/
theorem oneSlot_push_panics_late :
    (∃ final, Ends AtomicQueue.oneSlot (AtomicQueue.slotCode 64 (BitVec 32) false)
      (Queue.start (.push 7#32)) (Memory.new 64 (AtomicValue.new 64)) .panicked final ∧
        final.head = 1#64 ∧ final.slots 0 = AtomicValue.new 64) ∧
    ¬ PanicAtomic AtomicQueue.oneSlot (AtomicQueue.slotCode 64 (BitVec 32) false)
      (Memory.new 64 (AtomicValue.new 64)) (.push 7#32) ∧
    ∃ q, AtomicQueue2.new Target.x86_64 0#64 false true = some q ∧
      ∃ final, Ends q (AtomicQueue2.slotCode Nat true false) (Queue.start (.push 7))
        (Memory.new 64 (Slot.new Nat)) .panicked final ∧ final.head = 1#64 := by
  have hEnds : ∃ final, Ends AtomicQueue.oneSlot (AtomicQueue.slotCode 64 (BitVec 32) false)
      (Queue.start (.push 7#32)) (Memory.new 64 (AtomicValue.new 64)) .panicked final ∧
        final.head = 1#64 ∧ final.slots 0 = AtomicValue.new 64 :=
    ⟨_, .step rfl (.step rfl (.panicked _)), rfl, rfl⟩
  refine ⟨hEnds, ?_, _, rfl, _, .step rfl (.panicked _), rfl⟩
  intro hAtomic
  obtain ⟨final, hPanics, hHead, _⟩ := hEnds
  rw [hAtomic final hPanics] at hHead
  contradiction

end AtomicQueueRs
