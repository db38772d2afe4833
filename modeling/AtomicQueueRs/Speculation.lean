import AtomicQueueRs.AtomicQueue2
import AtomicQueueRs.Concurrency.Imitation
import AtomicQueueRs.Steps

/-! `MAXIMIZE_THROUGHPUT`. A consumer that waits by loading the flag, and tries
to swap it only when it has seen it full, is one that tries over and over. -/
namespace AtomicQueueRs

set_option autoImplicit false

open Interleaving (Trace Run Imitation Solo State.seen permittedCalls)

variable {w : Nat} {T : Type}

namespace AtomicQueue2

/-- A consumer in the speculative inner loop is about to try again. -/
def withoutSpin : Local w T → Local w T
  | .popSlot blocking position slot .spin => .popSlot blocking position slot .compareExchange
  | pc => pc

variable {q : Queue w} {spsc : Bool}

/-- The steps that do not depend on the flag, and do not lead to the inner loop. -/
theorem step_eq_of_not_popSlot (maximizeThroughput : Bool) {pc : Local w T}
    (hPop : ∀ blocking position slot own, pc ≠ .popSlot blocking position slot own)
    (σ : Memory w (Slot T)) : q.step (slotCode T maximizeThroughput spsc) pc σ =
      q.step (slotCode T false spsc) pc σ := by
  cases pc with
  | popSlot blocking position slot own => exact (hPop _ _ _ _ rfl).elim
  | _ => rfl

theorem withoutSpin_of_step {maximizeThroughput : Bool} {pc pc' : Local w T}
    {σ σ' : Memory w (Slot T)} {es : List (Event w T (Option T))}
    (hPop : ∀ blocking position slot own, pc ≠ .popSlot blocking position slot own)
    (h : q.Step (slotCode T maximizeThroughput spsc) pc σ pc' σ' es) : withoutSpin pc' = pc' := by
  cases h with
  | quiet h => cases h <;> rfl
  | claimHead =>
      unfold Queue.enterPush
      split <;> rfl
  | claimTail =>
      unfold Queue.enterPop
      split
      · cases spsc <;> rfl
      · rfl
  | pushSlot =>
      unfold Queue.afterPush
      split <;> rfl
  | popSlot => exact (hPop _ _ _ _ rfl).elim

theorem imitation_plain (q : Queue w) (spsc : Bool) (permitted : Nat → Call T → Prop) :
    Imitation (q.threadCode (slotCode T true spsc)) (q.threadCode (slotCode T false spsc)) permitted
      withoutSpin where
  call thread operation pc pc' es hPermitted hCall σ := by
    obtain ⟨rfl, rfl, rfl⟩ := Queue.call_cases hCall
    refine Solo.one_call hPermitted ?_ σ
    cases operation <;> rfl
  step thread pc σ pc' σ' es hStep := by
    by_cases hPop : ∀ blocking position slot own, pc ≠ .popSlot blocking position slot own
    · have hView : withoutSpin pc = pc := by
        cases pc with
        | popSlot blocking position slot own => exact (hPop _ _ _ _ rfl).elim
        | _ => rfl
      rw [hView, withoutSpin_of_step hPop (Queue.step_cases hStep)]
      exact Solo.one_step ((step_eq_of_not_popSlot true hPop σ).symm.trans hStep)
    · push Not at hPop
      obtain ⟨blocking, position, slot, own, rfl⟩ := hPop
      simp only [Queue.threadCode, Queue.step, Option.some.injEq, Prod.mk.injEq] at hStep
      obtain ⟨rfl, rfl, rfl⟩ := hStep
      cases own with
      | compareExchange =>
          refine Solo.one_step ?_
          cases hState : (σ.slots slot).state <;>
            simp [Queue.threadCode, Queue.step, slotCode, popStep, withoutSpin, Queue.afterPop, hState]
      | spin =>
          cases hState : (σ.slots slot).state <;>
            simpa [slotCode, popStep, withoutSpin, Queue.afterPop, hState] using Solo.refl
      | loadState =>
          refine Solo.one_step ?_
          cases hState : (σ.slots slot).state <;>
            simp [Queue.threadCode, Queue.step, slotCode, popStep, withoutSpin, Queue.afterPop, hState]
      | readElement | storeEmpty | read => exact Solo.one_step rfl

theorem imitation_speculative (q : Queue w) (spsc : Bool) (permitted : Nat → Call T → Prop) :
    Imitation (q.threadCode (slotCode T false spsc)) (q.threadCode (slotCode T true spsc)) permitted
      id where
  call thread operation pc pc' es hPermitted hCall σ := by
    obtain ⟨rfl, rfl, rfl⟩ := Queue.call_cases hCall
    exact Solo.one_call hPermitted rfl σ
  step thread pc σ pc' σ' es hStep := by
    by_cases hPop : ∀ blocking position slot own, pc ≠ .popSlot blocking position slot own
    · exact Solo.one_step ((step_eq_of_not_popSlot true hPop σ).trans hStep)
    · push Not at hPop
      obtain ⟨blocking, position, slot, own, rfl⟩ := hPop
      cases own with
      | compareExchange =>
          cases hState : (σ.slots slot).state with
          | full =>
              refine Solo.one_step (Eq.trans ?_ hStep)
              simp [Queue.threadCode, Queue.step, slotCode, popStep, hState]
          | empty =>
              -- The failed attempt is skipped.
              simp only [Queue.threadCode, Queue.step, Option.some.injEq, Prod.mk.injEq] at hStep
              obtain ⟨rfl, rfl, rfl⟩ := hStep
              simpa [slotCode, popStep, hState, Queue.afterPop] using Solo.refl
      | _ => exact Solo.one_step hStep

theorem withoutSpin_idem (pc : Local w T) : withoutSpin (withoutSpin pc) = withoutSpin pc := by
  cases pc with
  | popSlot blocking position slot own => cases own <;> rfl
  | _ => rfl

end AtomicQueue2

/-- With and without `MAXIMIZE_THROUGHPUT`, the same calls can be made, return
the same and leave the same memory, in the same order of events; the threads
differ only in how they wait. -/
theorem speculation_invisible (q : Queue w) (spsc : Bool) (permitted : Nat → Call T → Prop)
    (trace : Trace (Event w T (Option T))) (seen : AtomicQueue2.Config w T) :
    (∃ s, Run (q.threadCode (AtomicQueue2.slotCode T true spsc)) (permittedCalls permitted)
        (initial w (Slot.new T)) trace s ∧ s.seen AtomicQueue2.withoutSpin = seen) ↔
      ∃ s, Run (q.threadCode (AtomicQueue2.slotCode T false spsc)) (permittedCalls permitted)
        (initial w (Slot.new T)) trace s ∧ s.seen AtomicQueue2.withoutSpin = seen := by
  constructor
  · rintro ⟨s, run, rfl⟩
    refine ⟨_, (AtomicQueue2.imitation_plain q spsc permitted).run run, ?_⟩
    simp [State.seen, Function.comp_def, AtomicQueue2.withoutSpin_idem]
  · rintro ⟨s, run, rfl⟩
    exact ⟨_, (AtomicQueue2.imitation_speculative q spsc permitted).run run, rfl⟩

end AtomicQueueRs
