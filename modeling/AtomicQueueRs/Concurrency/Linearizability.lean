import AtomicQueueRs.Concurrency.Interleaving
import AtomicQueueRs.Refinement.Operations

/-! Linearizability. Between its call and its return every operation takes
effect at one moment, and in the order of these moments the operations are
those of a sequential data type. Calls still in progress may have taken effect
or not. -/
namespace Interleaving

set_option autoImplicit false

open Refinement (runAll runAll_append runAll_cons_eq_some)

variable {σ π ι ρ ε α : Type}

/-- A call, its effect with the result it will return, or its return. -/
inductive Mark (ι ρ : Type) where
  | invoke (operation : ι)
  | effect (operation : ι) (result : ρ)
  | respond (result : ρ)

namespace Mark

/-- Effects are not seen from outside. -/
def observed : Mark ι ρ → Option (ι ⊕ ρ)
  | .invoke operation => some (.inl operation)
  | .respond result => some (.inr result)
  | .effect _ _ => none

def effects : Mark ι ρ → Option (ι × ρ)
  | .effect operation result => some (operation, result)
  | _ => none

end Mark

/-- Where a thread stands in its current operation. -/
inductive Phase (ι ρ : Type) where
  | idle
  | invoked (operation : ι)
  | effected (result : ρ)

/-- A thread's marks: calls, each followed by its effect and by the return of
the result the effect had. The last call may lack its return or both. -/
inductive Orderly : Phase ι ρ → List (Mark ι ρ) → Phase ι ρ → Prop where
  | nil (phase : Phase ι ρ) : Orderly phase [] phase
  | invoke {operation : ι} {marks : List (Mark ι ρ)} {last : Phase ι ρ}
      (rest : Orderly (.invoked operation) marks last) :
      Orderly .idle (.invoke operation :: marks) last
  | effect {operation : ι} {result : ρ} {marks : List (Mark ι ρ)} {last : Phase ι ρ}
      (rest : Orderly (.effected result) marks last) :
      Orderly (.invoked operation) (.effect operation result :: marks) last
  | respond {result : ρ} {marks : List (Mark ι ρ)} {last : Phase ι ρ}
      (rest : Orderly .idle marks last) :
      Orderly (.effected result) (.respond result :: marks) last

/-- What one thread does up to some point and from there on. -/
theorem Orderly.append {first middle last : Phase ι ρ} {marks marks' : List (Mark ι ρ)}
    (h : Orderly first marks middle) (h' : Orderly middle marks' last) :
    Orderly first (marks ++ marks') last := by
  induction h with
  | nil => exact h'
  | invoke _ ih => exact .invoke (ih h')
  | effect _ ih => exact .effect (ih h')
  | respond _ ih => exact .respond (ih h')

/-- The marks of one thread. -/
def ofThread (thread : Nat) (marks : Trace (Mark ι ρ)) : List (Mark ι ρ) :=
  marks.select fun actor mark => if actor = thread then some mark else none

/-- What is seen of each thread: `observe` tells calls and returns. -/
def Trace.history (observe : ε → Option (ι ⊕ ρ)) (trace : Trace ε) : List (Nat × (ι ⊕ ρ)) :=
  trace.select fun thread e => (observe e).map (Prod.mk thread)

/-- The effects in the order they happened. -/
def Trace.effects (marks : Trace (Mark ι ρ)) : List (ι × ρ) := marks.select fun _ => Mark.effects

/-- Effects can be put into the history of calls and returns such that every
thread's marks are orderly and the effects are a run of the data type. -/
def Linearizable (spec : ι → α → Option (ρ × α)) (start : α) (history : List (Nat × (ι ⊕ ρ))) :
    Prop :=
  ∃ marks : Trace (Mark ι ρ), marks.history Mark.observed = history ∧
    (∀ thread, ∃ last, Orderly .idle (ofThread thread marks) last) ∧
    ∃ final, runAll spec (marks.effects.map Prod.fst) start =
      some (marks.effects.map Prod.snd, final)

section Append

variable (trace : Trace ε) (marks : Trace (Mark ι ρ)) (actor : Nat)

/-- The history of a trace grows by what a step shows of itself. -/
theorem Trace.history_append (observe : ε → Option (ι ⊕ ρ)) (es : List ε) :
    (trace ++ es.map (Prod.mk actor)).history observe =
      trace.history observe ++ (es.filterMap observe).map (Prod.mk actor) := by
  rw [history, Trace.select_append, Trace.select_map, List.map_filterMap]
  rfl

/-- The effects, in the order in which they take place, regardless of the
thread. -/
theorem Trace.effects_append (more : List (Mark ι ρ)) :
    Trace.effects (marks ++ more.map (Prod.mk actor)) =
      marks.effects ++ more.filterMap Mark.effects := by
  simp [effects]

/-- The marks of a thread grow only by its own steps. -/
theorem ofThread_append (thread : Nat) (more : List (Mark ι ρ)) :
    ofThread thread (marks ++ more.map (Prod.mk actor)) =
      ofThread thread marks ++ if actor = thread then more else [] := by
  rw [ofThread, Trace.select_append, Trace.select_map]
  congr 1
  split_ifs with hThread
  · exact List.filterMap_some
  · exact List.filterMap_eq_nil_iff.mpr fun _ _ => rfl

end Append

/-- Marks that explain a run so far: each thread's phase and the data. -/
structure Explained (spec : ι → α → Option (ρ × α)) (start : α) (marks : Trace (Mark ι ρ))
    (phases : Nat → Phase ι ρ) (data : α) : Prop where
  orderly : ∀ thread, Orderly .idle (ofThread thread marks) (phases thread)
  effects : runAll spec (marks.effects.map Prod.fst) start =
    some (marks.effects.map Prod.snd, data)

/-- Before anything happens there is nothing to explain. -/
theorem explained_nil (spec : ι → α → Option (ρ × α)) (start : α) :
    Explained spec start [] (fun _ => .idle) start :=
  ⟨fun _ => .nil _, rfl⟩

/-- One thread goes on. -/
theorem Explained.append {spec : ι → α → Option (ρ × α)} {start data data' : α}
    {marks : Trace (Mark ι ρ)} {phases : Nat → Phase ι ρ} {actor : Nat} {more : List (Mark ι ρ)}
    {phase : Phase ι ρ} (h : Explained spec start marks phases data)
    (hOrderly : Orderly (phases actor) more phase)
    (hEffects : runAll spec ((more.filterMap Mark.effects).map Prod.fst) data =
      some ((more.filterMap Mark.effects).map Prod.snd, data')) :
    Explained spec start (marks ++ more.map (Prod.mk actor)) (Function.update phases actor phase)
      data' := by
  constructor
  · intro thread
    rw [ofThread_append]
    by_cases hThread : thread = actor
    · subst hThread
      rw [Function.update_self, if_pos rfl]
      exact (h.orderly thread).append hOrderly
    · rw [Function.update_of_ne hThread, if_neg (Ne.symm hThread), List.append_nil]
      exact h.orderly thread
  · rw [Trace.effects_append, List.map_append, List.map_append]
    exact runAll_append h.effects hEffects

/-- What a step of one thread does to its phase and to the data: nothing, the
effect of its operation, its return, or both at once. -/
inductive Explains (spec : ι → α → Option (ρ × α)) :
    Phase ι ρ → α → List (ι ⊕ ρ) → Phase ι ρ → α → Prop where
  | silent (phase : Phase ι ρ) (data : α) : Explains spec phase data [] phase data
  | invoke (operation : ι) (data : α) :
      Explains spec .idle data [.inl operation] (.invoked operation) data
  | effect {operation : ι} {result : ρ} {data data' : α}
      (hSpec : spec operation data = some (result, data')) :
      Explains spec (.invoked operation) data [] (.effected result) data'
  | respond (result : ρ) (data : α) : Explains spec (.effected result) data [.inr result] .idle data
  | answer {operation : ι} {result : ρ} {data data' : α}
      (hSpec : spec operation data = some (result, data')) :
      Explains spec (.invoked operation) data [.inr result] .idle data'

/-- Whatever a step shows, marks can be set for it: the start and the return
where they are seen, and in between the one moment at which the operation takes
effect. -/
theorem Explains.exists_marks {spec : ι → α → Option (ρ × α)} {phase phase' : Phase ι ρ}
    {data data' : α} {seen : List (ι ⊕ ρ)} (h : Explains spec phase data seen phase' data') :
    ∃ marks, Orderly phase marks phase' ∧ marks.filterMap Mark.observed = seen ∧
      runAll spec ((marks.filterMap Mark.effects).map Prod.fst) data =
        some ((marks.filterMap Mark.effects).map Prod.snd, data') := by
  cases h with
  | silent => exact ⟨[], .nil _, rfl, rfl⟩
  | invoke operation => exact ⟨[.invoke operation], .invoke (.nil _), rfl, rfl⟩
  | @effect operation result _ _ hSpec =>
      refine ⟨[.effect operation result], .effect (.nil _), rfl, ?_⟩
      exact runAll_cons_eq_some.mpr ⟨result, data', [], hSpec, rfl, rfl⟩
  | respond result => exact ⟨[.respond result], .respond (.nil _), rfl, rfl⟩
  | @answer operation result _ _ hSpec =>
      refine ⟨[.effect operation result, .respond result], .effect (.respond (.nil _)), rfl, ?_⟩
      exact runAll_cons_eq_some.mpr ⟨result, data', [], hSpec, rfl, rfl⟩

/-- If marks have been set for the whole history, the order of the effects is
the sequential one that linearizability asks for. An operation that has taken
effect but not returned counts, one that has not taken effect does not. -/
theorem Explained.linearizable {spec : ι → α → Option (ρ × α)} {start data : α}
    {marks : Trace (Mark ι ρ)} {phases : Nat → Phase ι ρ} {history : List (Nat × (ι ⊕ ρ))}
    (h : Explained spec start marks phases data)
    (hHistory : Trace.history Mark.observed marks = history) : Linearizable spec start history :=
  ⟨marks, hHistory, fun thread => ⟨phases thread, h.orderly thread⟩, data, h.effects⟩

section Run

variable {code : Code σ π ι ε} {allowed : Trace ε → State σ π → Action ι → Prop}
  {start : State σ π} {spec : ι → α → Option (ρ × α)} {first : α}

/-- The rule for linearizability: a relation between the states of the code
and those of the data type, with the phases of all threads, that every allowed
action keeps while explaining what is seen of it. -/
theorem Run.linearizable (observe : ε → Option (ι ⊕ ρ))
    (related : Trace ε → State σ π → (Nat → Phase ι ρ) → α → Prop)
    (hStart : related [] start (fun _ => .idle) first)
    (hCall : ∀ trace s phases data thread operation pc es,
      related trace s phases data → allowed trace s (.call thread operation) →
      code.call operation (s.threads thread) = some (pc, es) →
      ∃ phase data', Explains spec (phases thread) data (es.filterMap observe) phase data' ∧
        related (trace ++ es.map (Prod.mk thread)) ⟨s.shared, Function.update s.threads thread pc⟩
          (Function.update phases thread phase) data')
    (hStep : ∀ trace s phases data thread pc shared es, Run code allowed start trace s →
      related trace s phases data → allowed trace s (.step thread) →
      code.step (s.threads thread) s.shared = some (pc, shared, es) →
      ∃ phase data', Explains spec (phases thread) data (es.filterMap observe) phase data' ∧
        related (trace ++ es.map (Prod.mk thread)) ⟨shared, Function.update s.threads thread pc⟩
          (Function.update phases thread phase) data')
    {trace : Trace ε} {s : State σ π} (run : Run code allowed start trace s) :
    Linearizable spec first (trace.history observe) := by
  suffices h : ∃ marks phases data, Trace.history Mark.observed marks = trace.history observe ∧
      Explained spec first marks phases data ∧ related trace s phases data by
    obtain ⟨marks, phases, data, hHistory, hExplained, _⟩ := h
    exact hExplained.linearizable hHistory
  refine run.invariant (fun trace s => ∃ marks phases data,
    Trace.history Mark.observed marks = trace.history observe ∧
      Explained spec first marks phases data ∧ related trace s phases data) ?_ ?_ ?_
  · exact ⟨[], _, first, rfl, explained_nil spec first, hStart⟩
  · intro trace s thread operation pc es _ ⟨marks, phases, data, hSeen, hExplained, hRelated⟩
      hAllowed hNext
    obtain ⟨phase, data', hExplains, hRelated'⟩ :=
      hCall trace s phases data thread operation pc es hRelated hAllowed hNext
    obtain ⟨more, hOrderly, hObserved, hEffects⟩ := hExplains.exists_marks
    refine ⟨_, _, data', ?_, hExplained.append hOrderly hEffects, hRelated'⟩
    rw [Trace.history_append, Trace.history_append, hSeen, hObserved]
  · intro trace s thread pc shared es prior ⟨marks, phases, data, hSeen, hExplained, hRelated⟩
      hAllowed hNext
    obtain ⟨phase, data', hExplains, hRelated'⟩ :=
      hStep trace s phases data thread pc shared es prior hRelated hAllowed hNext
    obtain ⟨more, hOrderly, hObserved, hEffects⟩ := hExplains.exists_marks
    refine ⟨_, _, data', ?_, hExplained.append hOrderly hEffects, hRelated'⟩
    rw [Trace.history_append, Trace.history_append, hSeen, hObserved]

end Run

end Interleaving
