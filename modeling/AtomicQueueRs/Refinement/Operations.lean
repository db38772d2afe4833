import Mathlib.Data.Option.Basic

/-! Data types given by their operations. An operation maps a state to its
result and the next state, or does not return. One data type refines another
when a relation between their states survives every operation. -/
namespace Refinement

set_option autoImplicit false

variable {ι ρ σ α : Type}

/-- The results of a sequence of operations, if all of them return. -/
def runAll (step : ι → σ → Option (ρ × σ)) : List ι → σ → Option (List ρ × σ)
  | [], s => some ([], s)
  | operation :: rest, s =>
      (step operation s).bind fun next =>
        (runAll step rest next.2).map fun last => (next.1 :: last.1, last.2)

/-- A run of a sequence takes its first operation and runs the rest from
there. -/
theorem runAll_cons_eq_some {step : ι → σ → Option (ρ × σ)} {operation : ι} {rest : List ι}
    {s s' : σ} {results : List ρ} :
    runAll step (operation :: rest) s = some (results, s') ↔
      ∃ result middle results', step operation s = some (result, middle) ∧
        runAll step rest middle = some (results', s') ∧ results = result :: results' := by
  simp only [runAll, Option.bind_eq_some_iff, Option.map_eq_some_iff, Prod.mk.injEq]
  constructor
  · rintro ⟨⟨result, middle⟩, hStep, ⟨results', last⟩, hRest, rfl, rfl⟩
    exact ⟨result, middle, results', hStep, hRest, rfl⟩
  · rintro ⟨result, middle, results', hStep, hRest, rfl⟩
    exact ⟨(result, middle), hStep, (results', s'), hRest, rfl, rfl⟩

/-- Runs of two sequences, the second from where the first ends, make one
run. -/
theorem runAll_append {step : ι → σ → Option (ρ × σ)} {operations operations' : List ι}
    {s middle s' : σ} {results results' : List ρ}
    (hFirst : runAll step operations s = some (results, middle))
    (hRest : runAll step operations' middle = some (results', s')) :
    runAll step (operations ++ operations') s = some (results ++ results', s') := by
  induction operations generalizing s results with
  | nil =>
      obtain ⟨rfl, rfl⟩ := Prod.mk.inj (Option.some.inj hFirst)
      exact hRest
  | cons first rest ih =>
      obtain ⟨result, next, results'', hStep, hMiddle, rfl⟩ := runAll_cons_eq_some.mp hFirst
      exact runAll_cons_eq_some.mpr ⟨result, next, _, hStep, ih hMiddle, rfl⟩

/-- A run can be extended by one operation at its end. -/
theorem runAll_concat {step : ι → σ → Option (ρ × σ)} {operations : List ι} {operation : ι}
    {s middle s' : σ} {results : List ρ} {result : ρ}
    (hRun : runAll step operations s = some (results, middle))
    (hLast : step operation middle = some (result, s')) :
    runAll step (operations ++ [operation]) s = some (results ++ [result], s') :=
  runAll_append hRun (runAll_cons_eq_some.mpr ⟨result, s', [], hLast, rfl, rfl⟩)

/-- What every operation preserves, a sequence preserves. -/
theorem runAll_preserves {step : ι → σ → Option (ρ × σ)} (inv : σ → Prop)
    (hStep : ∀ operation s result s', inv s → step operation s = some (result, s') → inv s')
    {operations : List ι} {s s' : σ} {results : List ρ} (hStart : inv s)
    (hRun : runAll step operations s = some (results, s')) : inv s' := by
  induction operations generalizing s results with
  | nil =>
      obtain ⟨rfl, rfl⟩ := Prod.mk.inj (Option.some.inj hRun)
      exact hStart
  | cons first rest ih =>
      obtain ⟨result, next, results', hFirst, hRest, rfl⟩ := runAll_cons_eq_some.mp hRun
      exact ih (hStep _ _ _ _ hStart hFirst) hRest

/-- Operations that return more often do not change what has returned. -/
theorem runAll_mono {step step' : ι → σ → Option (ρ × σ)}
    (h : ∀ operation s out, step operation s = some out → step' operation s = some out)
    {operations : List ι} {s s' : σ} {results : List ρ}
    (hRun : runAll step operations s = some (results, s')) :
    runAll step' operations s = some (results, s') := by
  induction operations generalizing s results with
  | nil => exact hRun
  | cons first rest ih =>
      obtain ⟨result, next, results', hFirst, hRest, rfl⟩ := runAll_cons_eq_some.mp hRun
      exact runAll_cons_eq_some.mpr ⟨result, next, results', h _ _ _ hFirst, ih hRest, rfl⟩

/-- The same data type with its states seen otherwise. -/
theorem runAll_view {spec : ι → α → Option (ρ × α)} {impl : ι → σ → Option (ρ × σ)} {view : α → σ}
    (h : ∀ operation a, impl operation (view a) =
      (spec operation a).map fun out => (out.1, view out.2))
    (operations : List ι) (a : α) : runAll impl operations (view a) =
      (runAll spec operations a).map fun out => (out.1, view out.2) := by
  induction operations generalizing a with
  | nil => rfl
  | cons operation rest ih =>
      simp only [runAll, h]
      cases spec operation a with
      | none => rfl
      | some out =>
          simp only [Option.map_some, Option.bind_some, ih out.2, Option.map_map]
          rfl

/-- Whenever the specification returns from an operation that is `ok`, the
implementation returns the same result, and the relation is kept. -/
def Simulates (spec : ι → α → Option (ρ × α)) (impl : ι → σ → Option (ρ × σ)) (ok : ι → Prop)
    (R : α → σ → Prop) : Prop :=
  ∀ operation a s result a', ok operation → R a s → spec operation a = some (result, a') →
    ∃ s', impl operation s = some (result, s') ∧ R a' s'

/-- A simulation carries over to whole sequences. -/
theorem Simulates.runAll {spec : ι → α → Option (ρ × α)} {impl : ι → σ → Option (ρ × σ)}
    {ok : ι → Prop} {R : α → σ → Prop} (h : Simulates spec impl ok R) {operations : List ι}
    (hOk : ∀ operation ∈ operations, ok operation) {a a' : α} {s : σ} {results : List ρ}
    (hRelated : R a s) (hSpec : Refinement.runAll spec operations a = some (results, a')) :
    ∃ s', Refinement.runAll impl operations s = some (results, s') ∧ R a' s' := by
  induction operations generalizing a s results with
  | nil =>
      simp only [Refinement.runAll, Option.some.injEq, Prod.mk.injEq] at hSpec
      obtain ⟨rfl, rfl⟩ := hSpec
      exact ⟨s, rfl, hRelated⟩
  | cons operation rest ih =>
      rw [List.forall_mem_cons] at hOk
      obtain ⟨result, middle, results', hStep, hRest, rfl⟩ := runAll_cons_eq_some.mp hSpec
      obtain ⟨s', hImpl, hMiddle⟩ := h operation a s result middle hOk.1 hRelated hStep
      obtain ⟨s'', hImplRest, hLast⟩ := ih hOk.2 hMiddle hRest
      exact ⟨s'', runAll_cons_eq_some.mpr ⟨result, s', results', hImpl, hImplRest, rfl⟩, hLast⟩

end Refinement
