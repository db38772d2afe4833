import AtomicQueueRs.Loads
import AtomicQueueRs.Transparency

/-! The emptiness test of `try_pop`: two counters that differ. It tells that
there is something to take only while `tail` is not past `head`, and a claim by
`compare_exchange` takes what it tested only if `tail` has not wrapped since. -/
namespace AtomicQueueRs

set_option autoImplicit false

open Interleaving (Trace Run Action anyAction)

variable {w : Nat} {T V C U O : Type}

/-- A `try_pop` that loads `head` finds there at least the count that it loaded
from `tail`. Its `compare_exchange` only sees the word of `tail`, which must be
that of the same count; `fetch_add` takes the position loaded in any case. -/
def TimelyTest (q : Queue w) (trace : Trace (Event w T V)) (s : State w T C U O) :
    Action (Call T) → Prop
  | .call _ _ => True
  | .step thread =>
      (∀ tail, s.threads thread = .tryPopLoadHead tail →
        loadedTail thread trace ≤ (headClaims trace).length) ∧
      (q.totalOrder = true → ∀ position, q.ClaimsTail s.shared (s.threads thread) false position →
        (tailClaims trace).length = loadedTail thread trace)

/-- The count a `try_pop` is about to claim by is below that of `head`. -/
def Pc.Tested (thread : Nat) (trace : Trace (Event w T V)) : Pc w T U O → Prop
  | .tryPopClaim _ => loadedTail thread trace < (headClaims trace).length
  | _ => True

variable {q : Queue w} {code : SlotCode T V C U O} {empty : C}

theorem length_headClaims_le (trace : Trace (Event w T V)) (thread : Nat) (es : List (Event w T V)) :
    (headClaims trace).length ≤ (headClaims (trace ++ es.map (Prod.mk thread))).length := by
  rw [headClaims_append, List.length_append]
  exact Nat.le_add_right _ _

/-- Steps of others only add positions to `head`, so a test that was passed
stays true of the counts. -/
theorem Pc.Tested.append_of_ne {thread actor : Nat} {trace : Trace (Event w T V)} {pc : Pc w T U O}
    (h : pc.Tested thread trace) (es : List (Event w T V)) (hOther : actor ≠ thread) :
    pc.Tested thread (trace ++ es.map (Prod.mk actor)) := by
  cases pc with
  | tryPopClaim =>
      rw [Pc.Tested, loadedTail_append_of_ne _ _ _ hOther]
      exact Nat.lt_of_lt_of_le h (length_headClaims_le trace actor es)
  | _ => exact trivial

/-- Counters found apart, in a run in which `tail` was not past `head`. -/
theorem tested_quiet {thread : Nat} {trace : Trace (Event w T V)} {s : State w T C U O}
    (hCounted : Counted trace s) (hLoaded : (s.threads thread).Loaded thread trace)
    (hTimely : TimelyTest q trace s (.step thread)) {pc' : Pc w T U O} {es : List (Event w T V)}
    (hQuiet : q.Quiet s.shared (s.threads thread) pc' es) :
    pc'.Tested thread (trace ++ es.map (Prod.mk thread)) := by
  have hLoad := hTimely.1
  generalize s.threads thread = pc at hLoaded hLoad hQuiet
  cases hQuiet with
  | tryPopProceed tail hSome =>
      have hNe : loadedTail thread trace ≠ (headClaims trace).length := by
        intro hEq
        apply hSome
        rw [hCounted.head, ← hEq]
        exact hLoaded
      have hLt := Nat.lt_of_le_of_ne (hLoad tail rfl) hNe
      rw [Pc.Tested, loadedTail_append_of_none thread trace (by simp [Event.isLoadTail])]
      exact Nat.lt_of_lt_of_le hLt (length_headClaims_le trace thread _)
  | _ => exact trivial

theorem Pc.Tested.of_landed {thread : Nat} {trace : Trace (Event w T V)} {pc : Pc w T U O}
    (h : pc.Landed) : pc.Tested thread trace := by
  cases pc <;> first | exact trivial | exact h.elim

/-- A `try_pop` that is about to exchange has found the loaded count below
`head`, by its own test and not by the words being different. -/
theorem tested_of_run {trace : Trace (Event w T V)} {s : State w T C U O}
    (run : Run (q.threadCode code) (TimelyTest q) (initial w empty) trace s) (thread : Nat) :
    (s.threads thread).Tested thread trace := by
  refine run.invariant_threads (fun trace thread pc => pc.Tested thread trace) (fun _ => trivial)
    (fun _ _ _ _ es h hOther => h.append_of_ne es hOther) ?_ ?_ thread
  · intro trace s thread operation pc es _ _ _ hCall
    obtain ⟨_, rfl, rfl⟩ := Queue.call_cases hCall
    cases operation <;> exact trivial
  · intro trace s thread pc shared es prior _ hTimely hStep
    rcases (Queue.step_cases hStep).quiet_or_landed with hQuiet | hLanded
    · exact tested_quiet (counted_of_run prior) (loaded_of_run prior thread) hTimely hQuiet
    · exact Pc.Tested.of_landed hLanded

/-- Alone, `try_pop` finds nothing to take exactly when the counters agree. -/
theorem tryPop_refused_iff (σ : Memory w C) :
    (∃ fuel, q.perform code fuel .tryPop σ = some (.tryPop none, σ)) ↔ σ.tail = σ.head := by
  constructor
  · rintro ⟨fuel, h⟩
    by_contra hApart
    have hMore := Queue.perform_mono 3 h
    rw [Queue.perform_tryPop, if_neg hApart, Option.bind_eq_some_iff] at hMore
    obtain ⟨next, _, hMore⟩ := hMore
    rw [Queue.popAt, Option.bind_eq_some_iff] at hMore
    obtain ⟨slot, _, hMore⟩ := hMore
    simp at hMore
  · intro hEq
    refine ⟨3, ?_⟩
    rw [Queue.perform_tryPop, if_pos hEq]

def Pc.timely (thread : Nat) (trace : Trace (Event w T V)) : Pc w T U O → Bool
  | .tryPopLoadHead _ => loadedTail thread trace ≤ (headClaims trace).length
  | .tryPopClaim _ => (tailClaims trace).length = loadedTail thread trace
  | _ => true

/-- A form of `TimelyTest` that can be tested. -/
def timelyTest (trace : Trace (Event w T V)) (s : State w T C U O) : Action (Call T) → Bool
  | .call _ _ => true
  | .step thread => (s.threads thread).timely thread trace

/-- The form of the condition that is tested is no weaker. -/
theorem timelyTest_of_test {trace : Trace (Event w T V)} {s : State w T C U O}
    {action : Action (Call T)} (h : timelyTest trace s action = true) :
    TimelyTest q trace s action := by
  cases action with
  | call => exact trivial
  | step thread =>
      rw [timelyTest] at h
      rw [TimelyTest]
      generalize s.threads thread = pc at h ⊢
      constructor
      · rintro tail rfl
        exact of_decide_eq_true h
      · intro _ position hClaim
        cases hClaim <;> exact of_decide_eq_true h

end AtomicQueueRs
