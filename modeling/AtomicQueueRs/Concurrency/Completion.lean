import AtomicQueueRs.Concurrency.Interleaving
import Mathlib.Algebra.Order.BigOperators.Group.Finset
import Mathlib.Data.Finset.Card
import Mathlib.Data.Finset.Range

/-! Calls in progress left to themselves: no new call is made. Either all of
them can be brought to an end, or some state is reached in which nothing
happens any more. -/
namespace Interleaving

set_option autoImplicit false

variable {σ π ι ε : Type} {code : Code σ π ι ε}

/-- No new call. -/
def onlySteps (_ : Trace ε) (_ : State σ π) : Action ι → Prop
  | .step _ => True
  | .call _ _ => False

/-- Nothing happens any more, however the calls in progress are scheduled. -/
def Stalled (code : Code σ π ι ε) (s : State σ π) : Prop :=
  ∀ trace s', Run code onlySteps s trace s' → trace = []

section Run

variable {allowed allowed' : Trace ε → State σ π → Action ι → Prop} {start middle finish : State σ π}
  {trace trace' : Trace ε}

/-- One run after another. -/
theorem Run.trans (left : Run code allowed start trace middle)
    (right : Run code allowed' middle trace' finish)
    (h : ∀ trace' s action, allowed' trace' s action → allowed (trace ++ trace') s action) :
    Run code allowed start (trace ++ trace') finish := by
  induction right with
  | zero => simpa using left
  | succ prior hAllowed last ih =>
      rw [← List.append_assoc]
      exact Run.succ ih (h _ _ _ hAllowed) last

/-- Runs that start no call go on as such runs. -/
theorem Run.trans_onlySteps (left : Run code onlySteps start trace middle)
    (right : Run code onlySteps middle trace' finish) :
    Run code onlySteps start (trace ++ trace') finish :=
  left.trans right fun _ _ _ h => h

/-- A step of a thread as an action on the whole state. -/
theorem act_of_step {s : State σ π} {thread : Nat} {pc : π} {shared : σ} {es : List ε}
    (h : code.step (s.threads thread) s.shared = some (pc, shared, es)) :
    act code s (.step thread) =
      some (⟨shared, Function.update s.threads thread pc⟩, es.map (Prod.mk thread)) := by
  simp [act, h]

/-- A step of one thread, as a run. -/
theorem Run.ofStep {s : State σ π} {thread : Nat} {pc : π} {shared : σ} {es : List ε}
    (hAllowed : allowed [] s (.step thread))
    (h : code.step (s.threads thread) s.shared = some (pc, shared, es)) :
    Run code allowed s (es.map (Prod.mk thread)) ⟨shared, Function.update s.threads thread pc⟩ :=
  Run.succ Run.zero hAllowed (act_of_step h)

/-- One step is a run without calls. -/
theorem Run.single {s : State σ π} {thread : Nat} {pc : π} {shared : σ} {es : List ε}
    (h : code.step (s.threads thread) s.shared = some (pc, shared, es)) :
    Run code onlySteps s (es.map (Prod.mk thread))
      ⟨shared, Function.update s.threads thread pc⟩ :=
  Run.ofStep (show onlySteps [] s (.step thread) from trivial) h

/-- In a stalled state a step that a thread can take is silent. -/
theorem Stalled.eq_nil {s : State σ π} (hStalled : Stalled code s) {thread : Nat} {pc : π}
    {shared : σ} {es : List ε}
    (h : code.step (s.threads thread) s.shared = some (pc, shared, es)) : es = [] :=
  List.map_eq_nil_iff.mp (hStalled _ _ (Run.single h))

/-- And it stays so: silent steps change nothing, for anyone. -/
theorem Stalled.after {s s' : State σ π} (hStalled : Stalled code s)
    (run : Run code onlySteps s trace s') : Stalled code s' := by
  intro trace' s'' rest
  exact (List.append_eq_nil_iff.mp (hStalled _ _ (run.trans_onlySteps rest))).2

end Run

/-- If steps lower a measure from every state of an invariant that is not
settled, they lead to one that is. Which steps may be taken does not depend on
what came before. -/
theorem exists_settled {allowed : Trace ε → State σ π → Action ι → Prop}
    (hFree : ∀ trace trace' s action, allowed trace s action → allowed trace' s action)
    (inv settled : State σ π → Prop) (measure : State σ π → Nat)
    (h : ∀ s, inv s → settled s ∨ ∃ trace s', Run code allowed s trace s' ∧ inv s' ∧
      measure s' < measure s)
    {s : State σ π} (hInv : inv s) :
    ∃ trace s', Run code allowed s trace s' ∧ inv s' ∧ settled s' := by
  induction hMeasure : measure s using Nat.strong_induction_on generalizing s with
  | _ n ih =>
      rcases h s hInv with hSettled | ⟨trace, middle, run, hMiddle, hLower⟩
      · exact ⟨[], s, Run.zero, hInv, hSettled⟩
      · obtain ⟨trace', s', run', hFinal, hSettled⟩ := ih _ (hMeasure ▸ hLower) hMiddle rfl
        exact ⟨trace ++ trace', s', run.trans run' fun _ _ _ => hFree _ _ _ _, hFinal, hSettled⟩

section Busy

variable (ended : π → Prop) [DecidablePred ended]

/-- The threads below a bound whose call has not ended. -/
def busy (bound : Nat) (threads : Nat → π) : Finset Nat :=
  {thread ∈ Finset.range bound | ¬ ended (threads thread)}

variable {ended} {bound thread : Nat} {threads : Nat → π} {pc : π}

/-- Nobody is busy when all threads below the bound have ended. -/
theorem busy_eq_empty_iff : busy ended bound threads = ∅ ↔ ∀ thread < bound, ended (threads thread) := by
  simp [busy, Finset.filter_eq_empty_iff]

/-- A call that ends leaves one less in progress. -/
theorem card_busy_update_lt (hThread : thread < bound) (hBusy : ¬ ended (threads thread))
    (hEnded : ended pc) :
    (busy ended bound (Function.update threads thread pc)).card < (busy ended bound threads).card := by
  apply Finset.card_lt_card
  rw [Finset.ssubset_iff_of_subset]
  · refine ⟨thread, ?_, ?_⟩
    · simp [busy, hThread, hBusy]
    · simp [busy, hEnded]
  · intro other hOther
    simp only [busy, Finset.mem_filter] at hOther ⊢
    by_cases hSame : other = thread
    · subst hSame
      exact ⟨hOther.1, hBusy⟩
    · rw [Function.update_of_ne hSame] at hOther
      exact hOther

/-- A call that stays on its side of the line. -/
theorem card_busy_update_le (hKeeps : ended (threads thread) → ended pc) :
    (busy ended bound (Function.update threads thread pc)).card ≤ (busy ended bound threads).card := by
  apply Finset.card_le_card
  intro other hOther
  simp only [busy, Finset.mem_filter] at hOther ⊢
  by_cases hSame : other = thread
  · subst hSame
    rw [Function.update_self] at hOther
    exact ⟨hOther.1, fun hBefore => hOther.2 (hKeeps hBefore)⟩
  · rwa [Function.update_of_ne hSame] at hOther

/-- A step that lowers the rank of its thread lowers the sum over all threads. -/
theorem sum_update_lt {rank : π → Nat} (hThread : thread < bound)
    (hLower : rank pc < rank (threads thread)) :
    ((Finset.range bound).sum fun other => rank (Function.update threads thread pc other)) <
      (Finset.range bound).sum fun other => rank (threads other) := by
  refine Finset.sum_lt_sum (fun other _ => ?_)
    ⟨thread, Finset.mem_range.mpr hThread, by rwa [Function.update_self]⟩
  by_cases hSame : other = thread
  · subst hSame
    rw [Function.update_self]
    exact hLower.le
  · rw [Function.update_of_ne hSame]

/-- If from every state of an invariant with calls in progress steps lead to
such a state with fewer, all of them can be ended. -/
theorem exists_completion (inv : State σ π → Prop)
    (h : ∀ s, inv s → busy ended bound s.threads ≠ ∅ → ∃ trace s', Run code onlySteps s trace s' ∧
      inv s' ∧ (busy ended bound s'.threads).card < (busy ended bound s.threads).card)
    {s : State σ π} (hInv : inv s) : ∃ trace s', Run code onlySteps s trace s' ∧ inv s' ∧
      ∀ thread < bound, ended (s'.threads thread) := by
  refine exists_settled (fun _ _ _ _ h => h) inv (fun s => ∀ thread < bound, ended (s.threads thread))
    (fun s => (busy ended bound s.threads).card) (fun s hInv => ?_) hInv
  by_cases hDone : busy ended bound s.threads = ∅
  · exact Or.inl (busy_eq_empty_iff.mp hDone)
  · exact Or.inr (h s hInv hDone)

end Busy

end Interleaving
