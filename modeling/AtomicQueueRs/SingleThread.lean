import AtomicQueueRs.Sequential

/-! Runs in which one thread acts alone. Between its calls they are exactly
the sequences of whole calls, with the same results and the same memory. -/
namespace AtomicQueueRs

set_option autoImplicit false

open Interleaving (Trace Run Action act)
open Refinement (runAll runAll_cons_eq_some runAll_concat runAll_mono)

variable {w : Nat} {T V C U O : Type}

def Event.called : Event w T V → Option (Call T)
  | .call operation => some operation
  | _ => none

/-- The calls made, in order. -/
def called (trace : Trace (Event w T V)) : List (Call T) := trace.select fun _ => Event.called

/-- What was returned, in order. -/
def returned (trace : Trace (Event w T V)) : List (Return w V) :=
  trace.select fun _ => Event.result

theorem called_append (trace : Trace (Event w T V)) (thread : Nat) (es : List (Event w T V)) :
    called (trace ++ es.map (Prod.mk thread)) = called trace ++ es.filterMap Event.called := by
  simp [called]

theorem returned_append (trace : Trace (Event w T V)) (thread : Nat) (es : List (Event w T V)) :
    returned (trace ++ es.map (Prod.mk thread)) = returned trace ++ es.filterMap Event.result := by
  simp [returned]

/-- Only the one thread acts. -/
def onlyThread (thread : Nat) : Trace (Event w T V) → State w T C U O → Action (Call T) → Prop :=
  fun _ _ action => action.thread = thread

/-- All other threads are idle. -/
def alone (thread : Nat) (pc : Pc w T U O) (σ : Memory w C) : State w T C U O :=
  { shared := σ, threads := Function.update (fun _ => .idle) thread pc }

namespace Queue

variable {q : Queue w} {code : SlotCode T V C U O}

/-- Accesses are neither calls nor returns. -/
theorem reports_accesses (position : Usize w) (slot : Nat) (accesses : List (Access T V))
    (es : List (Event w T V)) :
    (accesses.map (Event.access position slot) ++ es).filterMap Event.called =
        es.filterMap Event.called ∧
      (accesses.map (Event.access position slot) ++ es).filterMap Event.result =
        es.filterMap Event.result := by
  induction accesses with
  | nil => exact ⟨rfl, rfl⟩
  | cons a rest ih => exact ih

/-- A step starts no call, and it leaves its thread idle when the call returns. -/
theorem Step.reports {pc pc' : Pc w T U O} {σ σ' : Memory w C} {es : List (Event w T V)}
    (h : Step q code pc σ pc' σ' es) : es.filterMap Event.called = [] ∧
      (es.filterMap Event.result = [] ∧ pc' ≠ .idle ∨
        ∃ result, es.filterMap Event.result = [result] ∧ pc' = .idle) := by
  cases h with
  | quiet h =>
      cases h with
      | tryPushFull | tryPushLost | tryPopEmpty | tryPopLost | observeReturn =>
          exact ⟨rfl, .inr ⟨_, rfl, rfl⟩⟩
      | _ => exact ⟨rfl, .inl ⟨rfl, nofun⟩⟩
  | @claimHead _ _ blocking position element h =>
      unfold enterPush
      cases q.getSlot position <;> exact ⟨rfl, .inl ⟨rfl, nofun⟩⟩
  | @claimTail _ _ blocking position h =>
      unfold enterPop
      cases q.getSlot position <;> exact ⟨rfl, .inl ⟨rfl, nofun⟩⟩
  | pushSlot blocking position slot pc σ =>
      rw [(reports_accesses _ _ _ _).1, (reports_accesses _ _ _ _).2]
      cases (code.pushStep pc (σ.slots slot)).2.2 with
      | done => exact ⟨rfl, .inr ⟨_, rfl, rfl⟩⟩
      | goto | panic => exact ⟨rfl, .inl ⟨rfl, nofun⟩⟩
  | popSlot blocking position slot pc σ =>
      rw [(reports_accesses _ _ _ _).1, (reports_accesses _ _ _ _).2]
      cases (code.popStep pc (σ.slots slot)).2.2 with
      | done => exact ⟨rfl, .inr ⟨_, rfl, rfl⟩⟩
      | goto | panic => exact ⟨rfl, .inl ⟨rfl, nofun⟩⟩

section Finish

variable {pc pc' : Pc w T U O} {σ σ' : Memory w C} {es : List (Event w T V)}

theorem finish_of_step (hStep : step q code pc σ = some (pc', σ', es))
    (hReports : es.filterMap Event.result = []) (fuel : Nat) :
    finish q code (fuel + 1) pc σ = finish q code fuel pc' σ' := by
  rw [finish, hStep, Option.bind_some]
  dsimp only
  rw [← List.head?_filterMap, hReports]
  rfl

theorem finish_of_return (hStep : step q code pc σ = some (pc', σ', es)) {result : Return w V}
    (hReports : es.filterMap Event.result = [result]) (fuel : Nat) :
    finish q code (fuel + 1) pc σ = some (result, σ') := by
  rw [finish, hStep, Option.bind_some]
  dsimp only
  rw [← List.head?_filterMap, hReports]
  rfl

end Finish

end Queue

section Runs

variable {q : Queue w} {code : SlotCode T V C U O} {empty : C} {thread : Nat} {start : State w T C U O}
  {σ σ' : Memory w C} {pc pc' : Pc w T U O} {es : List (Event w T V)} {trace : Trace (Event w T V)}

theorem alone_idle (thread : Nat) (σ : Memory w C) :
    (alone thread .idle σ : State w T C U O) = { shared := σ, threads := fun _ => .idle } := by
  rw [alone, Function.update_eq_self]

section Steps

variable {threads : Nat → Pc w T U O}

theorem act_only_call (operation : Call T) :
    act (q.threadCode code) ⟨σ, Function.update threads thread .idle⟩ (.call thread operation) =
      some (⟨σ, Function.update threads thread (Queue.start operation)⟩,
        [Event.call (V := V) operation].map (Prod.mk thread)) := by
  simp [act, Queue.threadCode, Queue.call]

theorem act_only_step (hStep : q.step code pc σ = some (pc', σ', es)) :
    act (q.threadCode code) ⟨σ, Function.update threads thread pc⟩ (.step thread) =
      some (⟨σ', Function.update threads thread pc'⟩, es.map (Prod.mk thread)) := by
  simp [act, Queue.threadCode, hStep]

theorem run_call
    (run : Run (q.threadCode code) (onlyThread thread) start trace
      ⟨σ, Function.update threads thread .idle⟩)
    (operation : Call T) : Run (q.threadCode code) (onlyThread thread) start
      (trace ++ [Event.call operation].map (Prod.mk thread))
      ⟨σ, Function.update threads thread (Queue.start operation)⟩ := by
  apply run.succ _ (act_only_call operation)
  rfl

theorem run_step
    (run : Run (q.threadCode code) (onlyThread thread) start trace
      ⟨σ, Function.update threads thread pc⟩)
    (hStep : q.step code pc σ = some (pc', σ', es)) : Run (q.threadCode code) (onlyThread thread)
      start (trace ++ es.map (Prod.mk thread)) ⟨σ', Function.update threads thread pc'⟩ := by
  apply run.succ _ (act_only_step hStep)
  rfl

theorem run_of_finish {fuel : Nat} {result : Return w V}
    (run : Run (q.threadCode code) (onlyThread thread) start trace
      ⟨σ, Function.update threads thread pc⟩)
    (h : q.finish code fuel pc σ = some (result, σ')) :
    ∃ es : List (Event w T V),
      Run (q.threadCode code) (onlyThread thread) start (trace ++ es.map (Prod.mk thread))
        ⟨σ', Function.update threads thread .idle⟩ ∧
      es.filterMap Event.called = [] ∧ es.filterMap Event.result = [result] := by
  induction fuel generalizing trace pc σ with
  | zero => contradiction
  | succ fuel ih =>
      cases hStep : q.step code pc σ with
      | none => simp [Queue.finish, hStep] at h
      | some next =>
          obtain ⟨pc', middle, es⟩ := next
          have hRun := run_step run hStep
          obtain ⟨hCalled, ⟨hReports, _⟩ | ⟨result', hReports, rfl⟩⟩ := (Queue.step_cases hStep).reports
          · rw [Queue.finish_of_step hStep hReports] at h
            obtain ⟨es', hRest, hCalled', hReturned⟩ := ih hRun h
            refine ⟨es ++ es', ?_, ?_, ?_⟩
            · rw [List.map_append, ← List.append_assoc]
              exact hRest
            · rw [List.filterMap_append, hCalled, hCalled', List.append_nil]
            · rw [List.filterMap_append, hReports, hReturned, List.nil_append]
          · rw [Queue.finish_of_return hStep hReports] at h
            obtain ⟨rfl, rfl⟩ := Prod.mk.inj (Option.some.inj h)
            exact ⟨es, hRun, hCalled, hReports⟩

/-- In any state an idle thread may make a whole call while the other threads,
wherever they are, take no step. -/
theorem run_of_perform {s : State w T C U O} (hIdle : s.threads thread = .idle) {fuel : Nat}
    {operation : Call T} {result : Return w V}
    (h : q.perform code fuel operation s.shared = some (result, σ')) :
    ∃ trace, Run (q.threadCode code) (onlyThread thread) s trace ⟨σ', s.threads⟩ ∧
      called trace = [operation] ∧ returned trace = [result] := by
  have hSame : Function.update s.threads thread .idle = s.threads := by
    rw [← hIdle, Function.update_eq_self]
  have hStart : Run (q.threadCode code) (onlyThread thread) s []
      ⟨s.shared, Function.update s.threads thread .idle⟩ := by
    rw [hSame]
    exact Run.zero
  obtain ⟨es, hRun, hCalled, hReturned⟩ := run_of_finish (run_call hStart operation) h
  rw [hSame] at hRun
  refine ⟨_, hRun, ?_, ?_⟩
  · rw [called_append, hCalled, List.append_nil]
    rfl
  · rw [returned_append, hReturned]
    rfl

end Steps

/-- Whole calls are runs of the thread that makes them. -/
theorem run_of_runAll {fuel : Nat} {operations : List (Call T)} {results : List (Return w V)}
    (run : Run (q.threadCode code) (onlyThread thread) start trace (alone thread .idle σ))
    (h : runAll (q.perform code fuel) operations σ = some (results, σ')) :
    ∃ trace', Run (q.threadCode code) (onlyThread thread) start trace' (alone thread .idle σ') ∧
      called trace' = called trace ++ operations ∧ returned trace' = returned trace ++ results := by
  induction operations generalizing trace σ results with
  | nil =>
      obtain ⟨rfl, rfl⟩ := Prod.mk.inj (Option.some.inj h)
      exact ⟨trace, run, (List.append_nil _).symm, (List.append_nil _).symm⟩
  | cons operation rest ih =>
      obtain ⟨result, middle, results', hFirst, hRest, rfl⟩ := runAll_cons_eq_some.mp h
      obtain ⟨es, hRun, hCalled, hReturned⟩ :=
        run_of_finish (run_call run operation) hFirst
      obtain ⟨trace', hRun', hCalled', hReturned'⟩ := ih hRun hRest
      refine ⟨trace', hRun', ?_, ?_⟩
      · rw [hCalled', called_append, called_append, hCalled, List.append_nil, List.append_assoc]
        rfl
      · rw [hReturned', returned_append, returned_append, hReturned, List.append_assoc,
          List.append_assoc]
        rfl

/-- Where a thread is that acts alone: between two calls, or in a call that
will return what the whole call returns. -/
inductive Ongoing (q : Queue w) (code : SlotCode T V C U O) (empty : C)
    (trace : Trace (Event w T V)) : Pc w T U O → Memory w C → Prop where
  | idle {σ : Memory w C} (fuel : Nat)
      (hRun : runAll (q.perform code fuel) (called trace) (Memory.new w empty) =
        some (returned trace, σ)) : Ongoing q code empty trace .idle σ
  | busy {pc : Pc w T U O} {σ : Memory w C} (fuel : Nat) (operations : List (Call T))
      (operation : Call T) (before : Memory w C)
      (hRun : runAll (q.perform code fuel) operations (Memory.new w empty) =
        some (returned trace, before))
      (hCalled : called trace = operations ++ [operation])
      (hBusy : pc ≠ .idle)
      (hRest : ∀ rest out, q.finish code rest pc σ = some out →
        ∃ more, q.perform code more operation before = some out) :
      Ongoing q code empty trace pc σ

theorem Ongoing.step (h : Ongoing q code empty trace pc σ)
    (hStep : q.step code pc σ = some (pc', σ', es)) :
    Ongoing q code empty (trace ++ es.map (Prod.mk thread)) pc' σ' := by
  cases h with
  | idle => contradiction
  | busy fuel operations operation before hRun hCalled _ hRest =>
      obtain ⟨hNone, ⟨hReports, hBusy⟩ | ⟨result, hReports, rfl⟩⟩ :=
        (Queue.step_cases hStep).reports
      · refine .busy fuel operations operation before ?_ ?_ hBusy fun rest out hOut => ?_
        · rw [returned_append, hReports, List.append_nil]
          exact hRun
        · rw [called_append, hNone, List.append_nil]
          exact hCalled
        · rw [← Queue.finish_of_step hStep hReports] at hOut
          exact hRest _ _ hOut
      · obtain ⟨more, hPerform⟩ := hRest 1 _ (Queue.finish_of_return hStep hReports 0)
        refine .idle (fuel + more) ?_
        rw [called_append, hNone, List.append_nil, hCalled, returned_append, hReports]
        have hLast := Queue.perform_mono fuel hPerform
        rw [Nat.add_comm] at hLast
        exact runAll_concat (runAll_mono (fun _ _ _ => Queue.perform_mono more) hRun) hLast

theorem ongoing_of_run {s : State w T C U O}
    (run : Run (q.threadCode code) (onlyThread thread) (initial w empty) trace s) :
    Ongoing q code empty trace (s.threads thread) s.shared := by
  refine run.invariant (fun trace s => Ongoing q code empty trace (s.threads thread) s.shared)
    ?_ ?_ ?_
  · exact .idle 0 rfl
  · intro trace s actor operation pc es _ ih hOnly hCall
    obtain rfl : actor = thread := hOnly
    obtain ⟨hIdle, rfl, rfl⟩ := Queue.call_cases hCall
    rw [hIdle] at ih
    cases ih with
    | idle fuel hRun =>
        dsimp only
        rw [Function.update_self]
        refine .busy fuel _ operation s.shared ?_ (called_append _ _ _) ?_
          fun rest out hOut => ⟨rest, hOut⟩
        · rw [returned_append]
          exact hRun.trans (by simp [Event.result])
        · cases operation <;> simp [Queue.start]
    | busy _ _ _ _ _ _ hBusy => contradiction
  · intro trace s actor pc shared es _ ih hOnly hStep
    obtain rfl : actor = thread := hOnly
    dsimp only
    rw [Function.update_self]
    exact ih.step hStep

/-- What one thread's calls return, and leave in memory, is what whole calls
one after the other do. -/
theorem runAll_iff_run (thread : Nat) {operations : List (Call T)} {results : List (Return w V)} :
    (∃ fuel, runAll (q.perform code fuel) operations (Memory.new w empty) = some (results, σ)) ↔
      ∃ trace s, Run (q.threadCode code) (onlyThread thread) (initial w empty) trace s ∧
        s.threads thread = .idle ∧ s.shared = σ ∧ called trace = operations ∧
          returned trace = results := by
  constructor
  · rintro ⟨fuel, hRun⟩
    have hStart : Run (q.threadCode code) (onlyThread thread) (initial w empty) []
        (alone thread .idle (Memory.new w empty)) := by
      rw [alone_idle]
      exact Run.zero
    obtain ⟨trace, hRun', hCalled, hReturned⟩ := run_of_runAll hStart hRun
    exact ⟨trace, _, hRun', by rw [alone_idle], rfl, hCalled, hReturned⟩
  · rintro ⟨trace, s, run, hIdle, rfl, rfl, rfl⟩
    have hOngoing := ongoing_of_run run
    rw [hIdle] at hOngoing
    cases hOngoing with
    | idle fuel hRun => exact ⟨fuel, hRun⟩
    | busy _ _ _ _ _ _ hBusy => contradiction

end Runs

end AtomicQueueRs
