import AtomicQueueRs.Concurrency.Interleaving

/-! Two codes in lockstep over differently stored memories. A view reads one
memory as the other; where it commutes with the steps of a thread, it commutes
with whole schedules, and the events are the same. -/
namespace Interleaving

set_option autoImplicit false

variable {σ σ' π ι ε : Type}

/-- Every step of `code'` on a view is the view of a step of `code`. -/
structure Lockstep (code : Code σ π ι ε) (code' : Code σ' π ι ε) (view : σ → σ') : Prop where
  call : ∀ operation pc, code'.call operation pc = code.call operation pc
  step : ∀ pc s, code'.step pc (view s) =
    (code.step pc s).map fun next => (next.1, view next.2.1, next.2.2)

/-- The threads stand where they stood. -/
def State.view (view : σ → σ') (s : State σ π) : State σ' π := ⟨view s.shared, s.threads⟩

variable {code : Code σ π ι ε} {code' : Code σ' π ι ε} {view : σ → σ'}

/-- An action on a state is the same action on its view. -/
theorem Lockstep.act_view (h : Lockstep code code' view) (s : State σ π) (action : Action ι) :
    act code' (s.view view) action =
      (act code s action).map fun next => (next.1.view view, next.2) := by
  cases action with
  | call thread operation =>
      simp only [act, State.view, h.call, Option.map_map]
      rfl
  | step thread =>
      simp only [act, State.view, h.step, Option.map_map]
      rfl

/-- The same schedules go through, with the same trace, to the same state. -/
theorem Lockstep.exec_view (h : Lockstep code code' view)
    {test : Trace ε → State σ π → Action ι → Bool} {test' : Trace ε → State σ' π → Action ι → Bool}
    (hTest : ∀ trace s action, test' trace (s.view view) action = test trace s action)
    (schedule : List (Action ι)) (trace : Trace ε) (s : State σ π) :
    exec code' test' schedule trace (s.view view) =
      (exec code test schedule trace s).map fun final => (final.1, final.2.view view) := by
  induction schedule generalizing trace s with
  | nil => rfl
  | cons action rest ih =>
      simp only [exec, hTest, h.act_view]
      cases test trace s action with
      | false => rfl
      | true =>
          cases act code s action with
          | none => rfl
          | some next => exact ih (trace ++ next.2) next.1

end Interleaving
