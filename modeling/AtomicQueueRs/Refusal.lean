import AtomicQueueRs.Accesses
import AtomicQueueRs.ClaimBounds

/-! Queues of capacity zero. The round-up of a size above half the range wraps
to zero; every non-blocking call on such a queue is refused. -/
namespace AtomicQueueRs

set_option autoImplicit false

open Interleaving (Trace Run Action)

variable {w : Nat} {T V C U O : Type}

/-- Neither claims a position nor accesses a slot. -/
def Event.touchesNothing : Event w T V → Prop
  | .claimHead _ | .claimTail _ | .access _ _ _ => False
  | _ => True

/-- A call that has found no room so far, and nothing to take. -/
def Refused : Pc w T U O → Prop
  | .tryPopLoadHead tail => tail = 0#w
  | .tryPushClaim _ _ | .tryPopClaim _ | .pushClaim _ | .popClaim | .pushSlot _ _ _ _
  | .popSlot _ _ _ _ => False
  | _ => True

/-- Nothing is picked out of a trace that touches nothing. -/
theorem tagged_eq_nil {β : Type} {f : Event w T V → Option β}
    (hf : ∀ e : Event w T V, e.touchesNothing → f e = none) {trace : Trace (Event w T V)}
    (h : ∀ e ∈ trace, e.2.touchesNothing) : trace.tagged f = [] := by
  refine List.filterMap_eq_nil_iff.mpr fun e he => ?_
  exact congrArg (Option.map (Prod.mk e.1)) (hf e.2 (h e he))

theorem claims_eq_nil {trace : Trace (Event w T V)} (h : ∀ e ∈ trace, e.2.touchesNothing) :
    headClaims trace = [] ∧ tailClaims trace = [] := by
  refine ⟨tagged_eq_nil (fun e hNothing => ?_) h, tagged_eq_nil (fun e hNothing => ?_) h⟩
  · cases e <;> first | rfl | exact hNothing.elim
  · cases e <;> first | rfl | exact hNothing.elim

theorem accesses_eq_nil {trace : Trace (Event w T V)} (h : ∀ e ∈ trace, e.2.touchesNothing) :
    fills trace = [] ∧ drains trace = [] := by
  refine ⟨tagged_eq_nil (fun e hNothing => ?_) h, tagged_eq_nil (fun e hNothing => ?_) h⟩
  · cases e <;> first | rfl | exact hNothing.elim
  · cases e <;> first | rfl | exact hNothing.elim

variable {q : Queue w} {code : SlotCode T V C U O} {empty : C}

/-- The quiet steps are those that neither claim a position nor access a
slot. -/
theorem Queue.Quiet.touchesNothing {σ : Memory w C} {pc pc' : Pc w T U O}
    {es : List (Event w T V)} (h : q.Quiet σ pc pc' es) : ∀ e ∈ es, e.touchesNothing := by
  cases h <;> simp [Event.touchesNothing]

/-- With no capacity and both counters at zero, a call that has loaded a counter
has found nothing to do, and its next step keeps to that. -/
theorem refused_quiet (hCapacity : q.capacity = 0#w) {σ : Memory w C} (hHead : σ.head = 0#w)
    (hTail : σ.tail = 0#w) {pc pc' : Pc w T U O} {es : List (Event w T V)}
    (h : q.Quiet σ pc pc' es) (hRefused : Refused pc) : Refused pc' := by
  cases h with
  | tryPushProceed element head hSpace =>
      rw [hCapacity] at hSpace
      exact (hSpace (Nat.zero_le _)).elim
  | tryPopLoadTail => exact hTail
  | tryPopProceed tail hSome => exact hSome (Eq.trans hRefused hHead.symm)
  | _ => exact trivial

/-- Without slots no position is ever claimed and no slot touched. -/
theorem untouched_of_run (hCapacity : q.capacity = 0#w) {trace : Trace (Event w T V)}
    {s : State w T C U O}
    (run : Run (q.threadCode code) nonBlockingCalls (initial w empty) trace s) :
    ∀ e ∈ trace, e.2.touchesNothing := by
  suffices hAll : (∀ e ∈ trace, e.2.touchesNothing) ∧ ∀ thread, Refused (s.threads thread) from
    hAll.1
  refine run.invariant (fun trace s => (∀ e ∈ trace, e.2.touchesNothing) ∧
    ∀ thread, Refused (s.threads thread)) ?_ ?_ ?_
  · exact ⟨by simp, fun _ => trivial⟩
  · intro trace s actor operation pc es _ ih hAllowed hCall
    obtain ⟨_, rfl, rfl⟩ := Queue.call_cases hCall
    rw [List.forall_mem_append, Function.forall_update_iff s.threads fun _ pc => Refused pc]
    refine ⟨⟨ih.1, by simp [Event.touchesNothing]⟩, ?_, fun thread _ => ih.2 thread⟩
    cases operation <;> first | exact hAllowed.elim | exact trivial
  · intro trace s actor pc shared es prior ih _ hStep
    have hCounted := counted_of_run prior
    obtain ⟨hHeads, hTails⟩ := claims_eq_nil ih.1
    have hRefused := ih.2 actor
    have hCases := Queue.step_cases hStep
    rw [List.forall_mem_append, List.forall_mem_map,
      Function.forall_update_iff s.threads fun _ pc => Refused pc]
    generalize s.threads actor = before at hCases hRefused
    cases hCases with
    | quiet h =>
        refine ⟨⟨ih.1, h.touchesNothing⟩, refused_quiet hCapacity ?_ ?_ h hRefused,
          fun thread _ => ih.2 thread⟩
        · rw [hCounted.head, hHeads]
          rfl
        · rw [hCounted.tail, hTails]
          rfl
    | claimHead h | claimTail h => cases h <;> exact hRefused.elim
    | pushSlot | popSlot => exact hRefused.elim

end AtomicQueueRs
