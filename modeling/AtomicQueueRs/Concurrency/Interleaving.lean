import Mathlib.Logic.Function.Basic
import Mathlib.Data.List.Basic

/-! Sequentially consistent interleaving of any number of threads over one
shared memory. Each thread runs the same code on its own program counter; a
scheduler picks which thread takes its next indivisible step. -/
namespace Interleaving

set_option autoImplicit false

variable {σ π ι ε : Type}

/-- `call` starts an operation on a thread that has none in progress and
`step` is one indivisible access to the shared memory. Both report events. -/
structure Code (σ π ι ε : Type) where
  call : ι → π → Option (π × List ε)
  step : π → σ → Option (π × σ × List ε)

structure State (σ π : Type) where
  shared : σ
  threads : Nat → π

/-- The scheduler's choices. -/
inductive Action (ι : Type) where
  | call (thread : Nat) (operation : ι)
  | step (thread : Nat)

/-- The thread that acts. -/
def Action.thread {ι : Type} : Action ι → Nat
  | .call thread _ => thread
  | .step thread => thread

/-- Events in the order they happened, each with the thread it belongs to. -/
abbrev Trace (ε : Type) := List (Nat × ε)

/-- The events of interest, in order. -/
def Trace.select {α : Type} (f : Nat → ε → Option α) (trace : Trace ε) : List α :=
  trace.filterMap fun event => f event.1 event.2

section Select

variable {α : Type} (f : Nat → ε → Option α)

@[simp] theorem Trace.select_nil : Trace.select f [] = [] := rfl

@[simp] theorem Trace.select_append (trace trace' : Trace ε) :
    Trace.select f (trace ++ trace') = Trace.select f trace ++ Trace.select f trace' :=
  List.filterMap_append

/-- The events of one thread's step. -/
@[simp] theorem Trace.select_map (thread : Nat) (es : List ε) :
    Trace.select f (es.map (Prod.mk thread)) = es.filterMap (f thread) := by
  simp only [select, List.filterMap_map]
  rfl

end Select

/-- Only the acting thread's program counter changes. -/
def act (code : Code σ π ι ε) (s : State σ π) : Action ι → Option (State σ π × Trace ε)
  | .call thread operation =>
      (code.call operation (s.threads thread)).map fun next =>
        (⟨s.shared, Function.update s.threads thread next.1⟩, next.2.map (Prod.mk thread))
  | .step thread =>
      (code.step (s.threads thread) s.shared).map fun next =>
        (⟨next.2.1, Function.update s.threads thread next.1⟩, next.2.2.map (Prod.mk thread))

/-- A call moves one thread and leaves the memory alone; what it reports is
reported under that thread. -/
theorem act_call {code : Code σ π ι ε} {s s' : State σ π} {thread : Nat} {operation : ι}
    {events : Trace ε} (h : act code s (.call thread operation) = some (s', events)) :
    ∃ pc es, code.call operation (s.threads thread) = some (pc, es) ∧
      s' = ⟨s.shared, Function.update s.threads thread pc⟩ ∧ events = es.map (Prod.mk thread) := by
  simp only [act, Option.map_eq_some_iff, Prod.mk.injEq] at h
  obtain ⟨⟨pc, es⟩, hCall, hState, hEvents⟩ := h
  exact ⟨pc, es, hCall, hState.symm, hEvents.symm⟩

/-- A step moves one thread and may change the memory; the other threads are
where they were, whatever they have read of it before. -/
theorem act_step {code : Code σ π ι ε} {s s' : State σ π} {thread : Nat}
    {events : Trace ε} (h : act code s (.step thread) = some (s', events)) :
    ∃ pc shared es, code.step (s.threads thread) s.shared = some (pc, shared, es) ∧
      s' = ⟨shared, Function.update s.threads thread pc⟩ ∧ events = es.map (Prod.mk thread) := by
  simp only [act, Option.map_eq_some_iff, Prod.mk.injEq] at h
  obtain ⟨⟨pc, shared, es⟩, hStep, hState, hEvents⟩ := h
  exact ⟨pc, shared, es, hStep, hState.symm, hEvents.symm⟩

/-- Nobody moves another thread. -/
theorem act_threads_of_ne {code : Code σ π ι ε} {s : State σ π} {action : Action ι}
    {next : State σ π × Trace ε} (h : act code s action = some next) {thread : Nat}
    (hThread : action.thread ≠ thread) : next.1.threads thread = s.threads thread := by
  cases action with
  | call actor operation =>
      obtain ⟨pc, es, _, hState, _⟩ := act_call h
      rw [hState]
      exact Function.update_of_ne hThread.symm _ _
  | step actor =>
      obtain ⟨pc, shared, es, _, hState, _⟩ := act_step h
      rw [hState]
      exact Function.update_of_ne hThread.symm _ _

/-- All finite runs whose every action is allowed, given the events so far
and the state the action is taken in. The trace grows at its end. -/
inductive Run (code : Code σ π ι ε) (allowed : Trace ε → State σ π → Action ι → Prop)
    (start : State σ π) : Trace ε → State σ π → Prop where
  | zero : Run code allowed start [] start
  | succ {trace events : Trace ε} {s s' : State σ π} {action : Action ι}
      (prior : Run code allowed start trace s) (hAllowed : allowed trace s action)
      (last : act code s action = some (s', events)) :
      Run code allowed start (trace ++ events) s'

/-- No restriction on the scheduler or on the calls. -/
def anyAction : Trace ε → State σ π → Action ι → Prop := fun _ _ _ => True

section Invariant

variable {code : Code σ π ι ε} {allowed : Trace ε → State σ π → Action ι → Prop}
  {start : State σ π}

/-- The invariant rule: what holds at the start, and is preserved by every
allowed call and every allowed step, holds throughout every run. -/
theorem Run.invariant (inv : Trace ε → State σ π → Prop) (hStart : inv [] start)
    (hCall : ∀ trace s thread operation pc es, Run code allowed start trace s → inv trace s →
      allowed trace s (.call thread operation) →
      code.call operation (s.threads thread) = some (pc, es) →
      inv (trace ++ es.map (Prod.mk thread)) ⟨s.shared, Function.update s.threads thread pc⟩)
    (hStep : ∀ trace s thread pc shared es, Run code allowed start trace s → inv trace s →
      allowed trace s (.step thread) →
      code.step (s.threads thread) s.shared = some (pc, shared, es) →
      inv (trace ++ es.map (Prod.mk thread)) ⟨shared, Function.update s.threads thread pc⟩)
    {trace : Trace ε} {s : State σ π} (run : Run code allowed start trace s) : inv trace s := by
  induction run with
  | zero => exact hStart
  | @succ trace events s s' action prior hAllowed last ih =>
      cases action with
      | call thread operation =>
          obtain ⟨pc, es, hNext, rfl, rfl⟩ := act_call last
          exact hCall trace s thread operation pc es prior ih hAllowed hNext
      | step thread =>
          obtain ⟨pc, shared, es, hNext, rfl, rfl⟩ := act_step last
          exact hStep trace s thread pc shared es prior ih hAllowed hNext

/-- The same rule for what holds of every thread on its own account: whoever acts
preserves its own part, and nobody's events break another's. -/
theorem Run.invariant_threads (inv : Trace ε → Nat → π → Prop)
    (hStart : ∀ thread, inv [] thread (start.threads thread))
    (hOther : ∀ trace thread actor pc (es : List ε), inv trace thread pc → actor ≠ thread →
      inv (trace ++ es.map (Prod.mk actor)) thread pc)
    (hCall : ∀ trace s thread operation pc es, Run code allowed start trace s →
      inv trace thread (s.threads thread) → allowed trace s (.call thread operation) →
      code.call operation (s.threads thread) = some (pc, es) →
      inv (trace ++ es.map (Prod.mk thread)) thread pc)
    (hStep : ∀ trace s thread pc shared es, Run code allowed start trace s →
      inv trace thread (s.threads thread) → allowed trace s (.step thread) →
      code.step (s.threads thread) s.shared = some (pc, shared, es) →
      inv (trace ++ es.map (Prod.mk thread)) thread pc)
    {trace : Trace ε} {s : State σ π} (run : Run code allowed start trace s) (thread : Nat) :
    inv trace thread (s.threads thread) := by
  revert thread
  refine run.invariant (fun trace s => ∀ thread, inv trace thread (s.threads thread)) hStart ?_ ?_
  · intro trace s actor operation pc es prior ih hAllowed hNext
    rw [Function.forall_update_iff s.threads fun thread pc => inv _ thread pc]
    exact ⟨hCall trace s actor operation pc es prior (ih actor) hAllowed hNext,
      fun thread hNe => hOther trace thread actor _ es (ih thread) hNe.symm⟩
  · intro trace s actor pc shared es prior ih hAllowed hNext
    rw [Function.forall_update_iff s.threads fun thread pc => inv _ thread pc]
    exact ⟨hStep trace s actor pc shared es prior (ih actor) hAllowed hNext,
      fun thread hNe => hOther trace thread actor _ es (ih thread) hNe.symm⟩

/-- A run under a restriction is a run under any weaker one. -/
theorem Run.weaken {allowed' : Trace ε → State σ π → Action ι → Prop}
    {trace : Trace ε} {s : State σ π} (run : Run code allowed start trace s)
    (h : ∀ trace s action, allowed trace s action → allowed' trace s action) :
    Run code allowed' start trace s := by
  induction run with
  | zero => exact Run.zero
  | succ prior hAllowed last ih => exact Run.succ ih (h _ _ _ hAllowed) last

/-- Restrictions on who does what may be dropped. -/
theorem Run.any {trace : Trace ε} {s : State σ π} (run : Run code allowed start trace s) :
    Run code anyAction start trace s :=
  run.weaken fun _ _ _ _ => trivial

/-- What is true of every action of a run may be required of it. -/
theorem Run.strengthen {trace : Trace ε} {s : State σ π} (run : Run code allowed start trace s)
    (required : State σ π → Action ι → Prop)
    (h : ∀ trace s action, Run code allowed start trace s → required s action) :
    Run code (fun trace s action => allowed trace s action ∧ required s action) start trace s := by
  induction run with
  | zero => exact Run.zero
  | succ prior hAllowed last ih => exact Run.succ ih ⟨hAllowed, h _ _ _ prior⟩ last

/-- A run that ends within a bound on traces has kept within it. -/
theorem Run.within {bound : Trace ε → Prop}
    (hPrefix : ∀ trace events, bound (trace ++ events) → bound trace)
    {trace : Trace ε} {s : State σ π} (run : Run code allowed start trace s) (hBound : bound trace) :
    Run code (fun trace s action => allowed trace s action ∧ bound trace) start trace s := by
  induction run with
  | zero => exact Run.zero
  | succ prior hAllowed last ih =>
      have hBefore := hPrefix _ _ hBound
      exact Run.succ (ih hBefore) ⟨hAllowed, hBefore⟩ last

end Invariant

/-- Execute a whole schedule, for runs on concrete inputs. The test decides
at each action whether it is allowed. -/
def exec (code : Code σ π ι ε) (test : Trace ε → State σ π → Action ι → Bool) :
    List (Action ι) → Trace ε → State σ π → Option (Trace ε × State σ π)
  | [], trace, s => some (trace, s)
  | action :: rest, trace, s =>
      if test trace s action then
        (act code s action).bind fun next => exec code test rest (trace ++ next.2) next.1
      else none

section Exec

variable {code : Code σ π ι ε} {test : Trace ε → State σ π → Action ι → Bool}
  {allowed : Trace ε → State σ π → Action ι → Prop} {start : State σ π}

/-- Threads the schedule never picks keep their program counters. -/
theorem exec_threads {schedule : List (Action ι)} {trace trace' : Trace ε} {s s' : State σ π}
    (h : exec code test schedule trace s = some (trace', s')) {thread : Nat}
    (hThread : ∀ action ∈ schedule, action.thread ≠ thread) :
    s'.threads thread = s.threads thread := by
  induction schedule generalizing trace s with
  | nil =>
      simp only [exec, Option.some.injEq, Prod.mk.injEq] at h
      rw [h.2]
  | cons action rest ih =>
      simp only [exec] at h
      split_ifs at h
      obtain ⟨next, hNext, hRest⟩ := Option.bind_eq_some_iff.mp h
      rw [List.forall_mem_cons] at hThread
      rw [ih hRest hThread.2, act_threads_of_ne hNext hThread.1]

/-- What the test has to guarantee, it may show knowing that threads outside
the schedule have not moved. -/
theorem Run.exec {bound : Nat}
    (hTest : ∀ trace s action, (∀ thread, bound ≤ thread → s.threads thread = start.threads thread) →
      test trace s action = true → allowed trace s action)
    {schedule : List (Action ι)} (hSchedule : ∀ action ∈ schedule, action.thread < bound)
    {trace trace' : Trace ε} {s s' : State σ π} (run : Run code allowed start trace s)
    (hRest : ∀ thread, bound ≤ thread → s.threads thread = start.threads thread)
    (h : Interleaving.exec code test schedule trace s = some (trace', s')) :
    Run code allowed start trace' s' := by
  induction schedule generalizing trace s with
  | nil =>
      simp only [Interleaving.exec, Option.some.injEq, Prod.mk.injEq] at h
      obtain ⟨rfl, rfl⟩ := h
      exact run
  | cons action rest ih =>
      rw [List.forall_mem_cons] at hSchedule
      simp only [Interleaving.exec] at h
      split_ifs at h with hAllowed
      obtain ⟨next, hNext, hFinal⟩ := Option.bind_eq_some_iff.mp h
      refine ih hSchedule.2 (Run.succ run (hTest _ _ _ hRest hAllowed) hNext) ?_ hFinal
      intro thread hThread
      rw [act_threads_of_ne hNext (by omega), hRest thread hThread]

/-- The run of a schedule that goes through. -/
theorem Run.ofExec (bound : Nat) (test : Trace ε → State σ π → Action ι → Bool)
    (hTest : ∀ trace s action, (∀ thread, bound ≤ thread → s.threads thread = start.threads thread) →
      test trace s action = true → allowed trace s action)
    (schedule : List (Action ι)) (hSchedule : ∀ action ∈ schedule, action.thread < bound)
    (h : (Interleaving.exec code test schedule [] start).isSome) :
    Run code allowed start ((Interleaving.exec code test schedule [] start).get h).1
      ((Interleaving.exec code test schedule [] start).get h).2 :=
  Run.exec hTest hSchedule Run.zero (fun _ _ => rfl) (Option.some_get h).symm

end Exec

end Interleaving
