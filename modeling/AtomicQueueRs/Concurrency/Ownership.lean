import Mathlib.Logic.Function.Basic

/-! Mutual exclusion read off program counters: at most one thread is where a
predicate holds, and a thread's move takes, keeps or gives up that place. -/
namespace Interleaving

set_option autoImplicit false

variable {π : Type}

/-- The only thread, if any, whose program counter satisfies the predicate. -/
def OwnedBy (at' : π → Prop) (threads : Nat → π) (owner : Option Nat) : Prop :=
  ∀ thread, at' (threads thread) ↔ owner = some thread

variable {at' : π → Prop} {threads : Nat → π} {owner : Option Nat} {thread : Nat} {pc : π}

/-- Whoever is there is the owner. -/
theorem OwnedBy.eq_some (h : OwnedBy at' threads owner) (hThread : at' (threads thread)) :
    owner = some thread :=
  (h thread).mp hThread

/-- Without an owner nobody is there. -/
theorem OwnedBy.not_at (h : OwnedBy at' threads none) (thread : Nat) : ¬ at' (threads thread) :=
  fun hThread => nomatch h.eq_some hThread

/-- And if nobody is there, there is no owner. -/
theorem OwnedBy.eq_none (h : OwnedBy at' threads owner) (hNone : ∀ thread, ¬ at' (threads thread)) :
    owner = none := by
  cases owner with
  | none => rfl
  | some thread => exact (hNone thread ((h thread).mpr rfl)).elim

/-- Two threads cannot be there at once. -/
theorem OwnedBy.unique (h : OwnedBy at' threads owner) {thread' : Nat}
    (hThread : at' (threads thread)) (hThread' : at' (threads thread')) : thread = thread' :=
  Option.some.inj ((h.eq_some hThread).symm.trans (h.eq_some hThread'))

/-- What nobody has come to has no owner. -/
theorem ownedBy_none (h : ∀ thread, ¬ at' (threads thread)) : OwnedBy at' threads none :=
  fun thread => iff_of_false (h thread) (by simp)

/-- A move elsewhere. -/
theorem OwnedBy.frame (h : OwnedBy at' threads owner) (hMove : at' (threads thread) ↔ at' pc) :
    OwnedBy at' (Function.update threads thread pc) owner := by
  intro other
  by_cases hOther : other = thread
  · subst hOther
    rw [Function.update_self, ← hMove]
    exact h other
  · rw [Function.update_of_ne hOther]
    exact h other

/-- A thread may come only if nobody is there, and it is the owner then. -/
theorem OwnedBy.acquire (h : OwnedBy at' threads none) (thread : Nat) (hAfter : at' pc) :
    OwnedBy at' (Function.update threads thread pc) (some thread) := by
  intro other
  by_cases hOther : other = thread
  · subst hOther
    rw [Function.update_self]
    exact iff_of_true hAfter rfl
  · rw [Function.update_of_ne hOther]
    exact iff_of_false (h.not_at other) fun hEq => hOther (Option.some.inj hEq).symm

/-- When the owner leaves, nobody is there any more. -/
theorem OwnedBy.release (h : OwnedBy at' threads (some thread)) (hAfter : ¬ at' pc) :
    OwnedBy at' (Function.update threads thread pc) none := by
  intro other
  by_cases hOther : other = thread
  · subst hOther
    rw [Function.update_self]
    exact iff_of_false hAfter (by simp)
  · rw [Function.update_of_ne hOther]
    exact iff_of_false (fun hAt => hOther (Option.some.inj (h.eq_some hAt)).symm) (by simp)

end Interleaving
