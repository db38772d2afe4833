import AtomicQueueRs.Concurrency.Interleaving

/-! The same code under other names. Memories, program counters and events are
each renamed; where that commutes with the calls and steps of a thread, it
commutes with whole schedules. -/
namespace Interleaving

set_option autoImplicit false

variable {σ σ' π π' ι ε ε' : Type}

/-- What `code` does, renamed, is what `code'` does after renaming. -/
structure Renaming (code : Code σ π ι ε) (code' : Code σ' π' ι ε') (memory : σ → σ')
    (counter : π → π') (event : ε → ε') : Prop where
  call : ∀ operation pc, code'.call operation (counter pc) =
    (code.call operation pc).map fun next => (counter next.1, next.2.map event)
  step : ∀ pc s, code'.step (counter pc) (memory s) =
    (code.step pc s).map fun next => (counter next.1, memory next.2.1, next.2.2.map event)

def State.renamed (memory : σ → σ') (counter : π → π') (s : State σ π) : State σ' π' :=
  ⟨memory s.shared, counter ∘ s.threads⟩

def Trace.renamed (event : ε → ε') (trace : Trace ε) : Trace ε' :=
  trace.map (Prod.map id event)

variable {code : Code σ π ι ε} {code' : Code σ' π' ι ε'} {memory : σ → σ'} {counter : π → π'}
  {event : ε → ε'}

/-- Traces are renamed event by event. -/
theorem Trace.renamed_append (trace trace' : Trace ε) : Trace.renamed event (trace ++ trace') =
    Trace.renamed event trace ++ Trace.renamed event trace' :=
  List.map_append

/-- Renaming keeps the thread of an event. -/
theorem Trace.renamed_map (thread : Nat) (es : List ε) :
    Trace.renamed event (es.map (Prod.mk thread)) = (es.map event).map (Prod.mk thread) := by
  simp [Trace.renamed, Function.comp_def]

/-- An action on a renamed state is the renamed action: it goes through in both
or in neither. -/
theorem Renaming.act_renamed (h : Renaming code code' memory counter event) (s : State σ π)
    (action : Action ι) : act code' (s.renamed memory counter) action =
      (act code s action).map fun next =>
        (next.1.renamed memory counter, Trace.renamed event next.2) := by
  cases action with
  | call thread operation =>
      simp only [act, State.renamed, Function.comp_apply, h.call, Option.map_map]
      congr 1
      funext next
      simp [Trace.renamed_map, Function.comp_update]
  | step thread =>
      simp only [act, State.renamed, Function.comp_apply, h.step, Option.map_map]
      congr 1
      funext next
      simp [Trace.renamed_map, Function.comp_update]

/-- The same schedules go through, to the same states and traces renamed. -/
theorem Renaming.exec_renamed (h : Renaming code code' memory counter event)
    {test : Trace ε → State σ π → Action ι → Bool} {test' : Trace ε' → State σ' π' → Action ι → Bool}
    (hTest : ∀ trace s action,
      test' (Trace.renamed event trace) (s.renamed memory counter) action = test trace s action)
    (schedule : List (Action ι)) (trace : Trace ε) (s : State σ π) :
    exec code' test' schedule (Trace.renamed event trace) (s.renamed memory counter) =
      (exec code test schedule trace s).map fun final =>
        (Trace.renamed event final.1, final.2.renamed memory counter) := by
  induction schedule generalizing trace s with
  | nil => rfl
  | cons action rest ih =>
      simp only [exec, hTest, h.act_renamed]
      cases test trace s action with
      | false => rfl
      | true =>
          cases act code s action with
          | none => rfl
          | some next =>
              rw [if_pos rfl, if_pos rfl, Option.map_some, Option.bind_some, Option.bind_some,
                ← Trace.renamed_append]
              exact ih (trace ++ next.2) next.1

end Interleaving
