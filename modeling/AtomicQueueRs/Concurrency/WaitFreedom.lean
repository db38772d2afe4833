import AtomicQueueRs.Concurrency.Interleaving

/-! Calls that no other thread can hold up. A rank of the program counter that
every own step lowers bounds the steps that are left, however many the others
take in between. -/
namespace Interleaving

set_option autoImplicit false

variable {σ π ι ε : Type}

def Action.isStepOf (thread : Nat) : Action ι → Bool
  | .step actor => actor = thread
  | .call _ _ => false

/-- The steps that the schedule gives the thread. -/
def ownSteps (thread : Nat) (schedule : List (Action ι)) : Nat :=
  schedule.countP (Action.isStepOf thread)

/-- Whatever happens in between, the thread can take its next step, and after
`bound` steps the call it is in has ended. -/
def EndsWithin (code : Code σ π ι ε) (ended : π → Prop) (thread bound : Nat) (s : State σ π) : Prop :=
  ∀ schedule trace s', (∀ operation, .call thread operation ∉ schedule) →
    exec code (fun _ _ _ => true) schedule [] s = some (trace, s') → ¬ ended (s'.threads thread) →
      ownSteps thread schedule < bound ∧ (act code s' (.step thread)).isSome

/-- Inside a call, unless it has ended, each step is possible and lowers the
rank. -/
structure Ranked (code : Code σ π ι ε) (ended inside : π → Prop) (rank : π → Nat) : Prop where
  isSome : ∀ pc s, inside pc → ¬ ended pc → (code.step pc s).isSome
  step : ∀ pc s pc' s' es, inside pc → code.step pc s = some (pc', s', es) →
    inside pc' ∧ rank pc' < rank pc

section Ranked

variable {code : Code σ π ι ε} {ended inside : π → Prop} {rank : π → Nat} {thread : Nat}

theorem Ranked.ownSteps_add_rank_le (h : Ranked code ended inside rank) {schedule : List (Action ι)}
    {trace trace' : Trace ε} {s s' : State σ π} (hInside : inside (s.threads thread))
    (hNoCall : ∀ operation, .call thread operation ∉ schedule)
    (hExec : exec code (fun _ _ _ => true) schedule trace s = some (trace', s')) :
    inside (s'.threads thread) ∧
      ownSteps thread schedule + rank (s'.threads thread) ≤ rank (s.threads thread) := by
  induction schedule generalizing trace s with
  | nil =>
      simp only [exec, Option.some.injEq, Prod.mk.injEq] at hExec
      obtain ⟨_, rfl⟩ := hExec
      exact ⟨hInside, Nat.le_of_eq (Nat.zero_add _)⟩
  | cons action rest ih =>
      simp only [exec, if_true] at hExec
      obtain ⟨next, hNext, hRest⟩ := Option.bind_eq_some_iff.mp hExec
      have hNoCall' : ∀ operation, .call thread operation ∉ rest :=
        fun operation hMem => hNoCall operation (List.mem_cons_of_mem action hMem)
      rw [ownSteps, List.countP_cons, ← ownSteps]
      by_cases hThread : action.thread = thread
      · cases action with
        | call actor operation =>
            subst hThread
            exact absurd List.mem_cons_self (hNoCall operation)
        | step actor =>
            obtain rfl : actor = thread := hThread
            obtain ⟨pc, shared, es, hStep, hState, _⟩ := act_step hNext
            obtain ⟨hInside', hLower⟩ := h.step _ _ _ _ _ hInside hStep
            have hPc : next.1.threads actor = pc := by
              rw [hState]
              exact Function.update_self _ _ _
            obtain ⟨hFinal, hLe⟩ := ih (hPc ▸ hInside') hNoCall' hRest
            rw [hPc] at hLe
            refine ⟨hFinal, ?_⟩
            simp only [Action.isStepOf, decide_true, if_true]
            omega
      · have hSame := act_threads_of_ne hNext hThread
        have hOther : action.isStepOf thread = false := by
          cases action with
          | call => rfl
          | step actor => exact decide_eq_false hThread
        obtain ⟨hFinal, hLe⟩ := ih (hSame ▸ hInside) hNoCall' hRest
        rw [hSame] at hLe
        rw [hOther]
        exact ⟨hFinal, hLe⟩

/-- The rank at the start bounds the steps of the whole call. -/
theorem Ranked.endsWithin (h : Ranked code ended inside rank)
    (hPos : ∀ pc, ¬ ended pc → 0 < rank pc) {s : State σ π} (hInside : inside (s.threads thread)) :
    EndsWithin code ended thread (rank (s.threads thread)) s := by
  intro schedule trace s' hNoCall hExec hEnded
  obtain ⟨hFinal, hLe⟩ := h.ownSteps_add_rank_le hInside hNoCall hExec
  have hLeft := hPos _ hEnded
  refine ⟨by omega, ?_⟩
  rw [act, Option.isSome_map]
  exact h.isSome _ _ hFinal hEnded

end Ranked

end Interleaving
