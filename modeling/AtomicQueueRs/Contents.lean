import AtomicQueueRs.Accesses
import AtomicQueueRs.Cells
import AtomicQueueRs.Concurrency.Ownership

/-! The word of a slot against the values stored there and taken from it, as
long as stores find empty words and consumers take from a slot one at a time. -/
namespace AtomicQueueRs

set_option autoImplicit false

open Interleaving (Trace Run Action OwnedBy)

variable {w : Nat} {T : Type} [Element T]

namespace Cells

open AtomicQueue (Local Config)

/-- The slot that a consumer's next step loads. -/
def loadsFrom : Local w T → Option Nat
  | .popSlot _ _ slot .load => some slot
  | _ => none

/-- A store finds a slot that reads as empty. A load that finds something else
finds no other consumer between its own load and the store that empties it. -/
def Guarded (bigEndian : Bool) (s : Config w T) : Action (Call T) → Prop
  | .call _ _ => True
  | .step thread =>
      (∀ slot, storesTo (s.threads thread) = some slot →
        AtomicValue.Vacant T bigEndian (s.shared.slots slot)) ∧
      ∀ slot, loadsFrom (s.threads thread) = some slot →
        ¬ AtomicValue.Vacant T bigEndian (s.shared.slots slot) →
          ∀ other, inHand slot (s.threads other) = none

/-- No element offered is one that marks an empty slot. -/
def NonDefault : Action (Call T) → Prop
  | .call _ operation => ∀ element, operation.element = some element → ¬ Element.IsDefault element
  | .step _ => True

/-- The element a call in progress has yet to store. -/
def offered : Local w T → Option T
  | .tryPushLoadHead element | .tryPushLoadTail element _ | .tryPushClaim element _
  | .pushClaim element | .pushSlot _ _ _ (.store element) => some element
  | _ => none

def Clearing (slot : Nat) (pc : Local w T) : Prop := inHand slot pc ≠ none

/-- What the slot's word says, by the consumer that is emptying the slot. -/
inductive Phase (bigEndian : Bool) (cell : Usize w) (writes reads : List T) (drained : Nat) :
    Option Nat → Prop where
  | empty (hCell : AtomicValue.Vacant T bigEndian cell) (hReads : writes = reads)
      (hDrained : drained = reads.length) : Phase bigEndian cell writes reads drained none
  | stored (value : T) (hCell : AtomicValue.store w bigEndian value = some cell)
      (hFull : ¬ AtomicValue.Vacant T bigEndian cell) (hReads : writes = reads ++ [value])
      (hDrained : drained = reads.length) : Phase bigEndian cell writes reads drained none
  | taken (holder : Nat) (hFull : ¬ AtomicValue.Vacant T bigEndian cell) (hReads : writes = reads)
      (hDrained : drained + 1 = reads.length) :
      Phase bigEndian cell writes reads drained (some holder)

structure Contents (bigEndian : Bool) (slot : Nat) (threads : Nat → Local w T) (cell : Usize w)
    (writes reads : List T) (drained : Nat) (owner : Option Nat) : Prop where
  owned : OwnedBy (Clearing slot) threads owner
  phase : Phase bigEndian cell writes reads drained owner

section Contents

variable {bigEndian : Bool} {slot thread : Nat} {threads : Nat → Local w T} {cell : Usize w}
  {writes reads : List T} {drained : Nat} {owner : Option Nat}

/-- A thread that leaves the slot's word and the value taken from it alone. -/
theorem Contents.frame (h : Contents bigEndian slot threads cell writes reads drained owner)
    (pc : Local w T) (hMove : Clearing slot (threads thread) ↔ Clearing slot pc) :
    Contents bigEndian slot (Function.update threads thread pc) cell writes reads drained owner :=
  ⟨h.owned.frame hMove, h.phase⟩

/-- A store into a vacant slot makes its element the one that was written and
not read. No consumer can be emptying the slot then, as it would not be
vacant. -/
theorem Contents.store (h : Contents bigEndian slot threads cell writes reads drained owner)
    (pc : Local w T) (hMove : Clearing slot (threads thread) ↔ Clearing slot pc)
    (hCell : AtomicValue.Vacant T bigEndian cell) {element : T} {raw : Usize w}
    (hStore : AtomicValue.store w bigEndian element = some raw)
    (hElement : ¬ Element.IsDefault element) :
    Contents bigEndian slot (Function.update threads thread pc) raw (writes ++ [element]) reads
      drained owner := by
  refine ⟨h.owned.frame hMove, ?_⟩
  cases h.phase with
  | empty _ hReads hDrained =>
      exact .stored element hStore (AtomicValue.not_vacant_of_store hStore hElement) (by rw [hReads])
        hDrained
  | stored _ _ hFull => exact (hFull hCell).elim
  | taken _ hFull => exact (hFull hCell).elim

/-- A load that finds an element, with no other consumer between its load and
its clearing store, becomes the one that is emptying the slot. -/
theorem Contents.take (h : Contents bigEndian slot threads cell writes reads drained owner)
    (thread : Nat) (pc : Local w T) (hAfter : Clearing slot pc)
    (hHands : ¬ AtomicValue.Vacant T bigEndian cell → ∀ other, inHand slot (threads other) = none)
    {current : T} (hLoad : AtomicValue.load bigEndian cell = some current)
    (hSome : ¬ Element.IsDefault current) :
    Contents bigEndian slot (Function.update threads thread pc) cell writes (reads ++ [current])
      drained (some thread) := by
  have hFull := AtomicValue.not_vacant_of_load hLoad hSome
  obtain rfl := h.owned.eq_none fun other hClearing => hClearing (hHands hFull other)
  refine ⟨h.owned.acquire thread hAfter, ?_⟩
  cases h.phase with
  | empty hCell => exact (hFull hCell).elim
  | stored value hCell _ hReads hDrained =>
      obtain rfl := AtomicValue.eq_of_load_store hCell hLoad
      exact .taken thread hFull hReads (by rw [hDrained, List.length_append, List.length_singleton])

/-- The clearing store ends the take. That the word it writes reads as vacant is
a hypothesis here, since it is the word of the default value. -/
theorem Contents.clear (h : Contents bigEndian slot threads cell writes reads drained owner)
    (pc : Local w T) (hBefore : Clearing slot (threads thread)) (hAfter : ¬ Clearing slot pc)
    {raw : Usize w} (hVacant : AtomicValue.Vacant T bigEndian raw) :
    Contents bigEndian slot (Function.update threads thread pc) raw writes reads
      (drained + 1) none := by
  obtain rfl := h.owned.eq_some hBefore
  refine ⟨h.owned.release hAfter, ?_⟩
  cases h.phase with
  | taken _ _ hReads hDrained => exact .empty hVacant hReads hDrained

end Contents

variable {q : Queue w} {bigEndian : Bool}

theorem not_unconvertible (hBits : Element.bits T = w) {σ : Memory w (Usize w)} {pc : Local w T} :
    ¬ Unconvertible bigEndian σ pc := by
  cases pc with
  | pushSlot blocking position slot pc =>
      obtain ⟨element⟩ := pc
      simp [Unconvertible, AtomicValue.store_eq hBits]
  | popSlot blocking position slot pc =>
      cases pc with
      | load => simp [Unconvertible, AtomicValue.load, transmuteCopy_of_eq hBits.symm]
      | clear current => simp [Unconvertible, AtomicValue.store_eq hBits]
  | _ => exact id

/-- An element in progress was offered by the call. -/
theorem Step.offered {pc pc' : Local w T} {σ σ' : Memory w (Usize w)} {es : List (Event w T T)}
    (h : Step q bigEndian pc σ pc' σ' es) {element : T} (hOffered : Cells.offered pc' = some element) :
    Cells.offered pc = some element := by
  cases h with
  | quiet h => cases h <;> first | exact hOffered | contradiction
  | claimHead h => cases h <;> exact hOffered
  | claimTail | pushPanic | popPanic | convertPanic | store | wait | take | clear => contradiction

omit [Element T] in
/-- Steps that are not at a slot neither access one nor change who is emptying
it. -/
theorem quiet_contents {σ : Memory w (Usize w)} {pc pc' : Local w T} {es : List (Event w T T)}
    (h : q.Quiet σ pc pc' es) (slot : Nat) :
    (Clearing slot pc ↔ Clearing slot pc') ∧ es.filterMap (Event.writeAt slot) = [] ∧
      es.filterMap (Event.readAt slot) = [] ∧ es.filterMap (Event.drainAt slot) = [] := by
  cases h <;> exact ⟨Iff.rfl, rfl, rfl, rfl⟩

omit [Element T] in
theorem claimsHead_not_clearing {σ : Memory w (Usize w)} {pc : Local w T} {blocking : Bool}
    {position : Usize w} {element : T} (h : q.ClaimsHead σ pc blocking position element)
    (slot : Nat) : ¬ Clearing slot pc := by
  cases h <;> exact (· rfl)

omit [Element T] in
theorem claimsTail_not_clearing {σ : Memory w (Usize w)} {pc : Local w T} {blocking : Bool}
    {position : Usize w} (h : q.ClaimsTail σ pc blocking position) (slot : Nat) :
    ¬ Clearing slot pc := by
  cases h <;> exact (· rfl)

/-- One step keeps what is said of every slot. -/
theorem Step.contents (hBits : Element.bits T = w) (hZero : Element.ZeroDefault T)
    {slot thread drained : Nat}
    {threads : Nat → Local w T} {pc' : Local w T} {σ σ' : Memory w (Usize w)}
    {es : List (Event w T T)} {writes reads : List T} {owner : Option Nat}
    (hStep : Step q bigEndian (threads thread) σ pc' σ' es)
    (hStores : storesTo (threads thread) = some slot →
      AtomicValue.Vacant T bigEndian (σ.slots slot))
    (hHands : loadsFrom (threads thread) = some slot →
      ¬ AtomicValue.Vacant T bigEndian (σ.slots slot) → ∀ other, inHand slot (threads other) = none)
    (hElement : ∀ element, Cells.offered (threads thread) = some element →
      ¬ Element.IsDefault element)
    (h : Contents bigEndian slot threads (σ.slots slot) writes reads drained owner) :
    ∃ owner', Contents bigEndian slot (Function.update threads thread pc') (σ'.slots slot)
      (writes ++ es.filterMap (Event.writeAt slot)) (reads ++ es.filterMap (Event.readAt slot))
      (drained + (es.filterMap (Event.drainAt slot)).length) owner' := by
  generalize hPc : threads thread = pc at hStep hStores hHands hElement
  cases hStep with
  | quiet hQuiet =>
      obtain ⟨hMove, hWrites, hReads, hDrains⟩ := quiet_contents hQuiet slot
      rw [hWrites, hReads, hDrains, List.append_nil, List.append_nil]
      exact ⟨owner, h.frame _ (hPc ▸ hMove)⟩
  | claimHead hClaim | pushPanic hClaim =>
      refine ⟨owner, ?_⟩
      simp only [List.filterMap_cons, List.filterMap_nil, Event.writeAt, Event.readAt,
        Event.drainAt, List.append_nil, List.length_nil, Nat.add_zero]
      exact h.frame _ (hPc ▸ iff_of_false (claimsHead_not_clearing hClaim slot) (· rfl))
  | claimTail hClaim | popPanic hClaim =>
      refine ⟨owner, ?_⟩
      simp only [List.filterMap_cons, List.filterMap_nil, Event.writeAt, Event.readAt,
        Event.drainAt, List.append_nil, List.length_nil, Nat.add_zero]
      exact h.frame _ (hPc ▸ iff_of_false (claimsTail_not_clearing hClaim slot) (· rfl))
  | convertPanic hPanic => exact (not_unconvertible hBits hPanic).elim
  | @store blocking position own element _ raw hStore =>
      have hMove : Clearing slot (threads thread) ↔ Clearing slot (.idle : Local w T) := by
        rw [hPc]
        rfl
      refine ⟨owner, ?_⟩
      by_cases hOwn : own = slot
      · have hNext := h.store .idle hMove (hStores (congrArg some hOwn)) hStore (hElement element rfl)
        simpa [List.filterMap_cons, hOwn] using hNext
      · have hNext := h.frame .idle hMove
        simpa [List.filterMap_cons, hOwn, Ne.symm hOwn] using hNext
  | wait =>
      refine ⟨owner, ?_⟩
      simpa using h.frame _ (by rw [hPc])
  | @take blocking position own current _ hLoad hSome =>
      by_cases hOwn : own = slot
      · subst hOwn
        refine ⟨some thread, ?_⟩
        have hNext := h.take thread (.popSlot blocking position own (.clear current))
          (by simp [Clearing, inHand]) (hHands rfl) hLoad hSome
        simpa [List.filterMap_cons] using hNext
      · refine ⟨owner, ?_⟩
        have hNext := h.frame (.popSlot blocking position own (.clear current))
          (by rw [hPc]; simp [Clearing, inHand, hOwn])
        simpa [List.filterMap_cons, hOwn] using hNext
  | @clear blocking position own current _ raw hStore =>
      by_cases hOwn : own = slot
      · refine ⟨none, ?_⟩
        have hNext := h.clear .idle (by rw [hPc]; simp [Clearing, inHand, hOwn])
          (by simp [Clearing, inHand]) (AtomicValue.vacant_of_store_default hBits hZero hStore)
        simpa [List.filterMap_cons, hOwn] using hNext
      · refine ⟨owner, ?_⟩
        have hNext := h.frame .idle (by rw [hPc]; simp [Clearing, inHand, hOwn])
        simpa [List.filterMap_cons, hOwn, Ne.symm hOwn] using hNext

section Runs

variable {allowed : Trace (Event w T T) → Config w T → Action (Call T) → Prop}

/-- The element of a call in progress is the one it was called with, so no call
ever carries one that marks an empty slot. -/
theorem nonDefault_of_run
    (hDefault : ∀ trace s action, allowed trace s action → NonDefault action)
    {trace : Trace (Event w T T)} {s : Config w T}
    (run : Run (q.threadCode (AtomicQueue.slotCode w T bigEndian)) allowed
      (initial w (AtomicValue.new w)) trace s) {thread : Nat} {element : T}
    (hOffered : Cells.offered (s.threads thread) = some element) : ¬ Element.IsDefault element := by
  refine run.invariant_threads (fun _ _ pc => Cells.offered pc = some element →
    ¬ Element.IsDefault element) ?_ (fun _ _ _ _ _ h _ => h) ?_ ?_ thread hOffered
  · intro thread hOffered
    contradiction
  · intro trace s thread operation pc es _ _ hAllowed hCall hOffered
    obtain ⟨_, rfl, _⟩ := Queue.call_cases hCall
    refine hDefault _ _ _ hAllowed element ?_
    cases operation <;> exact hOffered
  · intro trace s thread pc shared es _ ih _ hStep hOffered
    exact ih ((step_cases (Queue.step_cases hStep)).offered hOffered)

/-- The run lemma. `hZero` is for the first store into each slot: a new cell
holds the zero word, and has to read as vacant. -/
theorem contents_of_run (hBits : Element.bits T = w) (hZero : Element.ZeroDefault T)
    (hDefault : ∀ trace s action, allowed trace s action → NonDefault action)
    (hGuarded : ∀ trace s action, allowed trace s action → Guarded bigEndian s action)
    {trace : Trace (Event w T T)} {s : Config w T}
    (run : Run (q.threadCode (AtomicQueue.slotCode w T bigEndian)) allowed
      (initial w (AtomicValue.new w)) trace s) (slot : Nat) :
    ∃ owner, Contents bigEndian slot s.threads (s.shared.slots slot) (writesAt slot trace)
      (readsAt slot trace) (drainsAt slot trace).length owner := by
  refine run.invariant (fun trace s => ∃ owner, Contents bigEndian slot s.threads
    (s.shared.slots slot) (writesAt slot trace) (readsAt slot trace)
    (drainsAt slot trace).length owner) ?_ ?_ ?_
  · exact ⟨none, Interleaving.ownedBy_none fun _ hClearing => hClearing rfl,
      .empty (AtomicValue.vacant_new hZero hBits.le bigEndian) rfl rfl⟩
  · intro trace s thread operation pc es _ ih _ hCall
    obtain ⟨hIdle, rfl, rfl⟩ := Queue.call_cases hCall
    obtain ⟨owner, ih⟩ := ih
    rw [writesAt_call, readsAt_call, drainsAt_call]
    exact ⟨owner, ih.frame (Queue.start operation) (by rw [hIdle]; cases operation <;> rfl)⟩
  · intro trace s thread pc shared es prior ih hAllowed hStep
    obtain ⟨owner, ih⟩ := ih
    obtain ⟨hStores, hHands⟩ := hGuarded _ _ _ hAllowed
    rw [writesAt_append, readsAt_append, drainsAt_append, List.length_append]
    exact Step.contents hBits hZero (step_cases (Queue.step_cases hStep)) (hStores slot) (hHands slot)
      (fun _ hOffered => nonDefault_of_run hDefault prior hOffered) ih

end Runs

end Cells

end AtomicQueueRs
