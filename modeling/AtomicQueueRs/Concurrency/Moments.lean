import AtomicQueueRs.Concurrency.Accounting
import Mathlib.Data.List.DropRight

/-! Moments in a trace. What a thread learnt at its last event of some kind is
a matter of the trace up to that event; what held while it was busy is a matter
of the prefixes since. -/
namespace Interleaving

set_option autoImplicit false

variable {ε β : Type}

/-- The events up to the last one of `thread` that `p` picks. -/
def Trace.upTo (thread : Nat) (p : ε → Bool) (trace : Trace ε) : Trace ε :=
  trace.rdropWhile fun event => !(event.1 == thread && p event.2)

section UpTo

variable (thread : Nat) (p : ε → Bool) (trace : Trace ε)

/-- The moment lies within the trace. -/
theorem Trace.upTo_isPrefix : trace.upTo thread p <+: trace := List.rdropWhile_prefix _ _

/-- Events that are not picked do not move the moment. -/
theorem Trace.upTo_append {events : Trace ε}
    (h : ∀ event ∈ events, event.1 = thread → p event.2 = false) :
    Trace.upTo thread p (trace ++ events) = trace.upTo thread p := by
  have hDropped : ∀ event ∈ events.reverse, !(event.1 == thread && p event.2) := by
    intro event hEvent
    by_cases hThread : event.1 = thread
    · simp [h event (List.mem_reverse.mp hEvent) hThread]
    · simp [hThread]
  rw [upTo, upTo, List.rdropWhile, List.rdropWhile, List.reverse_append,
    List.dropWhile_append_of_pos hDropped]

/-- Nor do the events of another thread. -/
theorem Trace.upTo_append_of_ne {actor : Nat} (es : List ε) (h : actor ≠ thread) :
    Trace.upTo thread p (trace ++ es.map (Prod.mk actor)) = trace.upTo thread p := by
  apply Trace.upTo_append
  intro event hEvent hThread
  obtain ⟨_, _, rfl⟩ := List.mem_map.mp hEvent
  exact (h hThread).elim

/-- Nor do the thread's own events that are not picked. -/
theorem Trace.upTo_append_of_none {es : List ε} (h : ∀ e ∈ es, p e = false) :
    Trace.upTo thread p (trace ++ es.map (Prod.mk thread)) = trace.upTo thread p := by
  apply Trace.upTo_append
  intro event hEvent _
  obtain ⟨e, he, rfl⟩ := List.mem_map.mp hEvent
  exact h e he

/-- An event that is picked is the last one so far. -/
theorem Trace.upTo_concat {e : ε} (h : p e = true) :
    Trace.upTo thread p (trace ++ [e].map (Prod.mk thread)) =
      trace ++ [e].map (Prod.mk thread) := by
  rw [upTo, List.map_singleton, List.rdropWhile_concat_neg]
  simp [h]

/-- Fewer events are picked out of a prefix. -/
theorem Trace.length_tagged_upTo_le (f : ε → Option β) :
    (Trace.tagged f (trace.upTo thread p)).length ≤ (trace.tagged f).length :=
  ((Trace.upTo_isPrefix thread p trace).filterMap _).length_le

end UpTo

/-- Every event is as `P` has it, given the thread and the events before. -/
def Trace.Each (P : Trace ε → Nat → ε → Prop) (trace : Trace ε) : Prop :=
  ∀ before thread e after, trace = before ++ (thread, e) :: after → P before thread e

/-- No event, nothing to hold. -/
theorem Trace.Each.nil {P : Trace ε → Nat → ε → Prop} : Trace.Each P [] := by
  intro before thread e after h
  simp at h

/-- What is granted once stays granted. -/
theorem Trace.Each.append {P : Trace ε → Nat → ε → Prop} {trace : Trace ε} (h : trace.Each P)
    (hMono : ∀ before more thread e, P before thread e → P (before ++ more) thread e)
    {actor : Nat} {es : List ε} (hNow : ∀ e ∈ es, P trace actor e) :
    Trace.Each P (trace ++ es.map (Prod.mk actor)) := by
  intro before thread e after hSplit
  have hNew (more : Trace ε) (hMem : (thread, e) ∈ es.map (Prod.mk actor)) :
      P (trace ++ more) thread e := by
    obtain ⟨e', he, hEq⟩ := List.mem_map.mp hMem
    obtain ⟨rfl, rfl⟩ := Prod.mk.inj hEq
    exact hMono _ _ _ _ (hNow _ he)
  rcases List.append_eq_append_iff.mp hSplit with ⟨more, rfl, hRest⟩ | ⟨more, hTrace, hRest⟩
  · exact hNew more (by simp [hRest])
  · cases more with
    | nil =>
        rw [List.append_nil] at hTrace
        subst hTrace
        rw [← List.append_nil trace]
        exact hNew [] (by simp [← show _ = es.map (Prod.mk actor) from hRest])
    | cons first more =>
        obtain ⟨rfl, _⟩ := List.cons.inj hRest
        exact h before thread e more hTrace

/-- `P` held at some moment after the last event of `thread` that `p` picks. -/
def Trace.Since (thread : Nat) (p : ε → Bool) (P : Trace ε → Prop) (trace : Trace ε) : Prop :=
  ∃ k ≤ trace.length, (∀ event ∈ trace.drop k, event.1 = thread → p event.2 = false) ∧
    P (trace.take k)

/-- The present is one of the moments since the thread became busy. -/
theorem Trace.Since.now {thread : Nat} {p : ε → Bool} {P : Trace ε → Prop} {trace : Trace ε}
    (h : P trace) : trace.Since thread p P := by
  refine ⟨trace.length, Nat.le_refl _, ?_, ?_⟩
  · intro event hEvent
    rw [List.drop_length] at hEvent
    contradiction
  · rw [List.take_length]
    exact h

end Interleaving
