import AtomicQueueRs.Concurrency.Interleaving

/-! One code imitating another over the same memory, thread by thread. What
takes a thread one step in the one may take it none or several in the other, as
long as no other thread could tell in between. -/
namespace Interleaving

set_option autoImplicit false

variable {σ π π' ι ε : Type}

/-- The calls that a thread may make. -/
def permittedCalls (permitted : Nat → ι → Prop) : Trace ε → State σ π → Action ι → Prop
  | _, _, .call thread operation => permitted thread operation
  | _, _, .step _ => True

/-- What a thread can do while the others stand still. -/
inductive Solo (code : Code σ π ι ε) (permitted : ι → Prop) (pc : π) (s : σ) :
    π → σ → List ε → Prop where
  | refl : Solo code permitted pc s pc s []
  | call {pc₁ pc₂ : π} {s' : σ} {es es' : List ε} {operation : ι}
      (prior : Solo code permitted pc s pc₁ s' es) (hPermitted : permitted operation)
      (last : code.call operation pc₁ = some (pc₂, es')) :
      Solo code permitted pc s pc₂ s' (es ++ es')
  | step {pc₁ pc₂ : π} {s₁ s₂ : σ} {es es' : List ε}
      (prior : Solo code permitted pc s pc₁ s₁ es) (last : code.step pc₁ s₁ = some (pc₂, s₂, es')) :
      Solo code permitted pc s pc₂ s₂ (es ++ es')

/-- One step for one step, the usual case. -/
theorem Solo.one_step {code : Code σ π ι ε} {permitted : ι → Prop} {pc pc' : π} {s s' : σ}
    {es : List ε} (h : code.step pc s = some (pc', s', es)) : Solo code permitted pc s pc' s' es :=
  Solo.step .refl h

/-- A call is made at the same point of the run, whatever the memory is then. -/
theorem Solo.one_call {code : Code σ π ι ε} {permitted : ι → Prop} {pc pc' : π} {operation : ι}
    {es : List ε} (hPermitted : permitted operation) (h : code.call operation pc = some (pc', es))
    (s : σ) : Solo code permitted pc s pc' s es :=
  Solo.call .refl hPermitted h

section Act

variable {code : Code σ π ι ε} {threads : Nat → π} {thread : Nat} {pc pc' : π} {s s' : σ}
  {es : List ε}

/-- A call by a thread whose place in its call is known, the others being
anywhere. -/
theorem act_update_call {operation : ι} (h : code.call operation pc = some (pc', es)) :
    act code ⟨s, Function.update threads thread pc⟩ (.call thread operation) =
      some (⟨s, Function.update threads thread pc'⟩, es.map (Prod.mk thread)) := by
  simp [act, h]

/-- A step by such a thread. -/
theorem act_update_step (h : code.step pc s = some (pc', s', es)) :
    act code ⟨s, Function.update threads thread pc⟩ (.step thread) =
      some (⟨s', Function.update threads thread pc'⟩, es.map (Prod.mk thread)) := by
  simp [act, h]

end Act

/-- In a run, it does so whatever the others are about. -/
theorem Solo.run {code : Code σ π ι ε} {permitted : Nat → ι → Prop} {start : State σ π}
    {trace : Trace ε} {threads : Nat → π} {thread : Nat} {pc pc' : π} {s s' : σ} {es : List ε}
    (h : Solo code (permitted thread) pc s pc' s' es)
    (run : Run code (permittedCalls permitted) start trace ⟨s, Function.update threads thread pc⟩) :
    Run code (permittedCalls permitted) start (trace ++ es.map (Prod.mk thread))
      ⟨s', Function.update threads thread pc'⟩ := by
  induction h with
  | refl => simpa using run
  | call _ hPermitted last ih =>
      rw [List.map_append, ← List.append_assoc]
      apply Run.succ ih _ (act_update_call last)
      exact hPermitted
  | step _ last ih =>
      rw [List.map_append, ← List.append_assoc]
      apply Run.succ ih _ (act_update_step last)
      trivial

/-- The same memory, with every thread as seen by another code. -/
def State.seen (view : π → π') (s : State σ π) : State σ π' := ⟨s.shared, view ∘ s.threads⟩

/-- The view of a state in which one thread has moved. -/
theorem State.seen_update (view : π → π') (s : σ) (threads : Nat → π) (thread : Nat) (pc : π) :
    State.seen view ⟨s, Function.update threads thread pc⟩ =
      ⟨s, Function.update (view ∘ threads) thread (view pc)⟩ := by
  simp [State.seen, Function.comp_update]

/-- Each call and each step of `code`, as the view shows it, is something that
the thread can do in `code'`, with the same events. -/
structure Imitation (code : Code σ π ι ε) (code' : Code σ π' ι ε) (permitted : Nat → ι → Prop)
    (view : π → π') : Prop where
  call : ∀ thread operation pc pc' es, permitted thread operation →
    code.call operation pc = some (pc', es) →
      ∀ s, Solo code' (permitted thread) (view pc) s (view pc') s es
  step : ∀ thread pc s pc' s' es, code.step pc s = some (pc', s', es) →
    Solo code' (permitted thread) (view pc) s (view pc') s' es

/-- Whole runs, as the view shows them, are runs of the other code. -/
theorem Imitation.run {code : Code σ π ι ε} {code' : Code σ π' ι ε} {permitted : Nat → ι → Prop}
    {view : π → π'} (h : Imitation code code' permitted view) {start s : State σ π} {trace : Trace ε}
    (run : Run code (permittedCalls permitted) start trace s) :
    Run code' (permittedCalls permitted) (start.seen view) trace (s.seen view) := by
  refine run.invariant (fun trace s =>
    Run code' (permittedCalls permitted) (start.seen view) trace (s.seen view)) Run.zero ?_ ?_
  · intro trace s thread operation pc es _ ih hPermitted hCall
    rw [State.seen_update]
    refine (h.call thread operation _ pc es hPermitted hCall s.shared).run ?_
    rw [← State.seen_update, Function.update_eq_self]
    exact ih
  · intro trace s thread pc shared es _ ih _ hStep
    rw [State.seen_update]
    refine (h.step thread _ s.shared pc shared es hStep).run ?_
    rw [← State.seen_update, Function.update_eq_self]
    exact ih

end Interleaving
