import AtomicQueueRs.Concurrency.Moments
import AtomicQueueRs.Tickets

/-! What the non-blocking calls have loaded. A loaded counter is a residue; the
count it stood for is that of the claims made up to the load. -/
namespace AtomicQueueRs

set_option autoImplicit false

open Interleaving (Trace Run Action)

variable {w : Nat} {T V C U O : Type}

namespace Event

def isCall : Event w T V → Bool
  | .call _ => true
  | _ => false

def isLoadHead : Event w T V → Bool
  | .loadHead _ => true
  | _ => false

def isLoadTail : Event w T V → Bool
  | .loadTail _ => true
  | _ => false

end Event

/-- The positions taken from `head` when the thread last loaded it. -/
def loadedHead (thread : Nat) (trace : Trace (Event w T V)) : Nat :=
  (headClaims (trace.upTo thread Event.isLoadHead)).length

/-- The positions taken from `tail` when the thread last loaded it. -/
def loadedTail (thread : Nat) (trace : Trace (Event w T V)) : Nat :=
  (tailClaims (trace.upTo thread Event.isLoadTail)).length

section Append

variable (thread : Nat) (trace : Trace (Event w T V))

theorem loadedHead_le : loadedHead thread trace ≤ (headClaims trace).length :=
  Trace.length_tagged_upTo_le thread Event.isLoadHead trace Event.headClaim

theorem loadedTail_le : loadedTail thread trace ≤ (tailClaims trace).length :=
  Trace.length_tagged_upTo_le thread Event.isLoadTail trace Event.tailClaim

/-- What a thread has loaded does not change when others take steps. -/
theorem loadedHead_append_of_ne {actor : Nat} (es : List (Event w T V)) (h : actor ≠ thread) :
    loadedHead thread (trace ++ es.map (Prod.mk actor)) = loadedHead thread trace := by
  rw [loadedHead, Trace.upTo_append_of_ne _ _ _ _ h]
  rfl

theorem loadedTail_append_of_ne {actor : Nat} (es : List (Event w T V)) (h : actor ≠ thread) :
    loadedTail thread (trace ++ es.map (Prod.mk actor)) = loadedTail thread trace := by
  rw [loadedTail, Trace.upTo_append_of_ne _ _ _ _ h]
  rfl

/-- A step that loads `head` once more starts the count anew, and no other
does. -/
theorem loadedHead_append_of_none {es : List (Event w T V)} (h : ∀ e ∈ es, e.isLoadHead = false) :
    loadedHead thread (trace ++ es.map (Prod.mk thread)) = loadedHead thread trace := by
  rw [loadedHead, Trace.upTo_append_of_none _ _ _ h]
  rfl

theorem loadedTail_append_of_none {es : List (Event w T V)} (h : ∀ e ∈ es, e.isLoadTail = false) :
    loadedTail thread (trace ++ es.map (Prod.mk thread)) = loadedTail thread trace := by
  rw [loadedTail, Trace.upTo_append_of_none _ _ _ h]
  rfl

@[simp] theorem loadedHead_loadHead (head : Usize w) :
    loadedHead thread (trace ++ [Event.loadHead head].map (Prod.mk thread)) =
      (headClaims trace).length := by
  rw [loadedHead, Trace.upTo_concat _ _ _ (by rfl), headClaims_append]
  simp [Event.headClaim]

@[simp] theorem loadedTail_loadTail (tail : Usize w) :
    loadedTail thread (trace ++ [Event.loadTail tail].map (Prod.mk thread)) =
      (tailClaims trace).length := by
  rw [loadedTail, Trace.upTo_concat _ _ _ (by rfl), tailClaims_append]
  simp [Event.tailClaim]

end Append

/-- The counter a non-blocking call has loaded is the residue of the count it
stood for. -/
def Pc.Loaded (thread : Nat) (trace : Trace (Event w T V)) : Pc w T U O → Prop
  | .tryPushLoadTail _ head | .tryPushClaim _ head => head = BitVec.ofNat w (loadedHead thread trace)
  | .tryPopLoadHead tail | .tryPopClaim tail => tail = BitVec.ofNat w (loadedTail thread trace)
  | _ => True

variable {q : Queue w} {code : SlotCode T V C U O} {empty : C}

/-- The steps of others may move the counter, but not what the thread has
loaded. -/
theorem Pc.Loaded.append_of_ne {thread actor : Nat} {trace : Trace (Event w T V)} {pc : Pc w T U O}
    (h : pc.Loaded thread trace) (es : List (Event w T V)) (hOther : actor ≠ thread) :
    pc.Loaded thread (trace ++ es.map (Prod.mk actor)) := by
  cases pc with
  | tryPushLoadTail | tryPushClaim =>
      rw [Pc.Loaded, loadedHead_append_of_ne _ _ _ hOther]
      exact h
  | tryPopLoadHead | tryPopClaim =>
      rw [Pc.Loaded, loadedTail_append_of_ne _ _ _ hOther]
      exact h
  | _ => exact trivial

/-- The loads of the counters themselves are quiet steps, and note the count of
that moment. -/
theorem loaded_quiet {thread : Nat} {trace : Trace (Event w T V)} {s : State w T C U O}
    (hCounted : Counted trace s) {pc pc' : Pc w T U O} {es : List (Event w T V)}
    (hQuiet : q.Quiet s.shared pc pc' es) (h : pc.Loaded thread trace) :
    pc'.Loaded thread (trace ++ es.map (Prod.mk thread)) := by
  cases hQuiet with
  | tryPushLoadHead =>
      rw [Pc.Loaded, loadedHead_loadHead]
      exact hCounted.head
  | tryPushProceed =>
      rw [Pc.Loaded, loadedHead_append_of_none thread trace (by simp [Event.isLoadHead])]
      exact h
  | tryPopLoadTail =>
      rw [Pc.Loaded, loadedTail_loadTail]
      exact hCounted.tail
  | tryPopProceed =>
      rw [Pc.Loaded, loadedTail_append_of_none thread trace (by simp [Event.isLoadTail])]
      exact h
  | _ => exact trivial

theorem Pc.Loaded.of_landed {thread : Nat} {trace : Trace (Event w T V)} {pc : Pc w T U O}
    (h : pc.Landed) : pc.Loaded thread trace := by
  cases pc <;> first | exact trivial | exact h.elim

/-- In every run, whatever the other calls are: the word that a call has loaded
is read back from the trace as a count, which does not wrap. -/
theorem loaded_of_run {allowed : Trace (Event w T V) → State w T C U O → Action (Call T) → Prop}
    {trace : Trace (Event w T V)} {s : State w T C U O}
    (run : Run (q.threadCode code) allowed (initial w empty) trace s) (thread : Nat) :
    (s.threads thread).Loaded thread trace := by
  refine run.invariant_threads (fun trace thread pc => pc.Loaded thread trace) (fun _ => trivial)
    (fun _ _ _ _ es h hOther => h.append_of_ne es hOther) ?_ ?_ thread
  · intro trace s thread operation pc es _ _ _ hCall
    obtain ⟨_, rfl, rfl⟩ := Queue.call_cases hCall
    cases operation <;> exact trivial
  · intro trace s thread pc shared es prior ih _ hStep
    rcases (Queue.step_cases hStep).quiet_or_landed with hQuiet | hLanded
    · exact loaded_quiet (counted_of_run prior) hQuiet ih
    · exact Pc.Loaded.of_landed hLanded

end AtomicQueueRs
