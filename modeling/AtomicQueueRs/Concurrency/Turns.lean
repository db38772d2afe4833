import AtomicQueueRs.Concurrency.Moments

/-! Waiting lines. A thread joins the line when it is charged with an item and
leaves it when it discharges the item. While only the first in line leaves,
items are discharged in the order in which they were charged. -/
namespace Interleaving

set_option autoImplicit false

variable {π ε β : Type}

/-- When `thread` last had an event that `f` picks. -/
def Trace.timeOf (f : ε → Option β) (thread : Nat) (trace : Trace ε) : Nat :=
  (trace.upTo thread fun e => (f e).isSome).length

section TimeOf

variable (f : ε → Option β) (thread : Nat) (trace : Trace ε)

/-- The moment is not in the future. -/
theorem Trace.timeOf_le : trace.timeOf f thread ≤ trace.length :=
  (trace.upTo_isPrefix thread _).length_le

/-- It moves only with an event of the thread itself that `f` picks. -/
theorem Trace.timeOf_append {actor : Nat} {es : List ε} (h : actor ≠ thread ∨ es.filterMap f = []) :
    Trace.timeOf f thread (trace ++ es.map (Prod.mk actor)) = trace.timeOf f thread := by
  unfold timeOf
  rw [Trace.upTo_append]
  intro event hEvent hThread
  obtain ⟨e, he, rfl⟩ := List.mem_map.mp hEvent
  have hNone := List.filterMap_eq_nil_iff.mp (h.resolve_left fun hOther => hOther hThread) e he
  rw [hNone]
  rfl

/-- And then it is the end of the trace. -/
theorem Trace.timeOf_concat {e : ε} (h : (f e).isSome) :
    Trace.timeOf f thread (trace ++ [e].map (Prod.mk thread)) = trace.length + 1 := by
  rw [timeOf, Trace.upTo_concat thread (fun e => (f e).isSome) trace h, List.length_append]
  rfl

end TimeOf

variable (charge discharge : ε → Option β) (owes : π → Option β)

/-- Those charged with an item and not done with it, in the order of the
charges. -/
structure Line (trace : Trace ε) (threads : Nat → π) (line : List (Nat × β)) : Prop where
  charged : trace.tagged charge = trace.tagged discharge ++ line
  mem_iff : ∀ thread item, (thread, item) ∈ line ↔ owes (threads thread) = some item
  ordered : line.Pairwise fun first later =>
    trace.timeOf charge first.1 < trace.timeOf charge later.1

/-- What has been discharged is what was charged first. -/
def InTurns (trace : Trace ε) (threads : Nat → π) : Prop :=
  ∃ line, Line charge discharge owes trace threads line

/-- Every other thread that owes an item was charged with it later. -/
def FirstInLine (trace : Trace ε) (threads : Nat → π) (thread : Nat) : Prop :=
  ∀ other ≠ thread, (owes (threads other)).isSome →
    trace.timeOf charge thread < trace.timeOf charge other

variable {charge discharge owes} {trace : Trace ε} {threads : Nat → π} {line : List (Nat × β)}
  {actor : Nat} {pc : π} {es : List ε} {item : β}

/-- What has been discharged is the beginning of what was charged, item by item
and thread by thread. -/
theorem InTurns.isPrefix (h : InTurns charge discharge owes trace threads) :
    trace.tagged discharge <+: trace.tagged charge := by
  obtain ⟨line, hLine⟩ := h
  exact ⟨line, hLine.charged.symm⟩

/-- The line is empty at the start. -/
theorem InTurns.nil (h : ∀ thread, owes (threads thread) = none) :
    InTurns charge discharge owes [] threads := by
  refine ⟨[], rfl, ?_, List.Pairwise.nil⟩
  intro thread item
  simp [h]

/-- Steps that neither charge nor discharge. -/
theorem InTurns.frame (h : InTurns charge discharge owes trace threads)
    (hCharge : es.filterMap charge = []) (hDischarge : es.filterMap discharge = [])
    (hOwes : owes pc = owes (threads actor)) :
    InTurns charge discharge owes (trace ++ es.map (Prod.mk actor))
      (Function.update threads actor pc) := by
  obtain ⟨line, hLine⟩ := h
  refine ⟨line, ?_, ?_, ?_⟩
  · rw [Trace.tagged_append, Trace.tagged_append, hCharge, hDischarge, List.map_nil,
      List.append_nil, List.append_nil]
    exact hLine.charged
  · intro thread item
    rw [hLine.mem_iff]
    by_cases hThread : thread = actor
    · rw [hThread, Function.update_self, hOwes]
    · rw [Function.update_of_ne hThread]
  · apply hLine.ordered.imp
    intro first later hBefore
    rw [Trace.timeOf_append _ _ _ (Or.inr hCharge), Trace.timeOf_append _ _ _ (Or.inr hCharge)]
    exact hBefore

/-- Whoever is charged joins at the end. -/
theorem InTurns.join (h : InTurns charge discharge owes trace threads) {e : ε}
    (hCharge : charge e = some item) (hDischarge : discharge e = none)
    (hBefore : owes (threads actor) = none) (hAfter : owes pc = some item) :
    InTurns charge discharge owes (trace ++ [e].map (Prod.mk actor))
      (Function.update threads actor pc) := by
  obtain ⟨line, hLine⟩ := h
  have hAbsent : ∀ entry ∈ line, entry.1 ≠ actor := by
    intro entry hEntry hActor
    have hOwes := (hLine.mem_iff entry.1 entry.2).mp hEntry
    rw [hActor, hBefore] at hOwes
    contradiction
  have hSome : (charge e).isSome = true := by rw [hCharge, Option.isSome_some]
  refine ⟨line ++ [(actor, item)], ?_, ?_, ?_⟩
  · rw [Trace.tagged_append, Trace.tagged_append, hLine.charged, List.filterMap_cons_some hCharge,
      List.filterMap_cons_none hDischarge, List.append_assoc]
    simp
  · intro thread item'
    rw [List.mem_append, List.mem_singleton, hLine.mem_iff, Prod.mk.injEq]
    by_cases hThread : thread = actor
    · rw [hThread, Function.update_self, hBefore, hAfter]
      simp [eq_comm]
    · rw [Function.update_of_ne hThread]
      simp [hThread]
  · rw [List.pairwise_append]
    refine ⟨?_, List.pairwise_singleton _ _, ?_⟩
    · apply hLine.ordered.imp_of_mem
      intro first later hFirst hLater hBefore'
      rw [Trace.timeOf_append _ _ _ (Or.inl (hAbsent _ hFirst).symm),
        Trace.timeOf_append _ _ _ (Or.inl (hAbsent _ hLater).symm)]
      exact hBefore'
    · intro first hFirst later hLater
      obtain rfl := List.mem_singleton.mp hLater
      rw [Trace.timeOf_append _ _ _ (Or.inl (hAbsent _ hFirst).symm),
        Trace.timeOf_concat _ _ _ hSome]
      exact Nat.lt_succ_of_le (Trace.timeOf_le _ _ _)

/-- Nobody in line is before the one charged first. -/
theorem Line.eq_cons (h : Line charge discharge owes trace threads line)
    (hOwes : owes (threads actor) = some item)
    (hFirst : FirstInLine charge owes trace threads actor) :
    ∃ rest, line = (actor, item) :: rest := by
  have hMem := (h.mem_iff actor item).mpr hOwes
  cases line with
  | nil => contradiction
  | cons entry rest =>
      rcases List.mem_cons.mp hMem with hEq | hRest
      · exact ⟨rest, by rw [hEq]⟩
      · have hEntry := (h.mem_iff entry.1 entry.2).mp List.mem_cons_self
        have hEarlier := (List.pairwise_cons.mp h.ordered).1 _ hRest
        have hOther : entry.1 ≠ actor := by
          rintro rfl
          exact Nat.lt_irrefl _ hEarlier
        have hLater := hFirst entry.1 hOther (by rw [hEntry, Option.isSome_some])
        exact (Nat.lt_asymm hEarlier hLater).elim

/-- The first in line discharges its item. -/
theorem InTurns.serve (h : InTurns charge discharge owes trace threads)
    (hCharge : es.filterMap charge = []) (hDischarge : es.filterMap discharge = [item])
    (hBefore : owes (threads actor) = some item) (hAfter : owes pc = none)
    (hFirst : FirstInLine charge owes trace threads actor) :
    InTurns charge discharge owes (trace ++ es.map (Prod.mk actor))
      (Function.update threads actor pc) := by
  obtain ⟨line, hLine⟩ := h
  obtain ⟨rest, rfl⟩ := hLine.eq_cons hBefore hFirst
  obtain ⟨hEarliest, hOrdered⟩ := List.pairwise_cons.mp hLine.ordered
  have hGone (item' : β) : (actor, item') ∉ rest := by
    intro hRest
    exact absurd (hEarliest (actor, item') hRest) (Nat.lt_irrefl _)
  refine ⟨rest, ?_, ?_, ?_⟩
  · rw [Trace.tagged_append, Trace.tagged_append, hCharge, hDischarge, hLine.charged]
    simp
  · intro thread item'
    have hMem := hLine.mem_iff thread item'
    rw [List.mem_cons, Prod.mk.injEq] at hMem
    by_cases hThread : thread = actor
    · rw [hThread, Function.update_self, hAfter]
      simp [hGone item']
    · rw [Function.update_of_ne hThread, ← hMem]
      simp [hThread]
  · apply hOrdered.imp
    intro first later hBefore'
    rw [Trace.timeOf_append _ _ _ (Or.inr hCharge), Trace.timeOf_append _ _ _ (Or.inr hCharge)]
    exact hBefore'

end Interleaving
