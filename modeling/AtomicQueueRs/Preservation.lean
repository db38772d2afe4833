import AtomicQueueRs.Cells
import AtomicQueueRs.Concurrency.Moments

/-! Elements of an `AtomicQueue`, slot by slot, under any mix of calls. A
producer never looks at the slot it stores to and `push` not even at `tail`, so
an element survives until it is returned only where every store happens to find
its slot empty, and `push` is kept from a full queue only by its callers. -/
namespace AtomicQueueRs

set_option autoImplicit false

open Interleaving (Trace Run Action anyAction)

variable {w : Nat} {T : Type} [Element T]

namespace Cells

open AtomicQueue (Local Config)

/-- The history of a slot. Elements are numbered from one as they are stored, so
that what is loaded from a new slot has a number of its own; `taken` is what a
thread has loaded and not yet returned. -/
structure Ledger (T : Type) where
  stored : List T
  taken : Nat → Option (T × Nat)
  returned : List (T × Nat)

def Ledger.record (slot : Nat) (ledger : Ledger T) : Nat × Event w T T → Ledger T
  | (_, .access _ own (.write value)) =>
      if own = slot then { ledger with stored := ledger.stored ++ [value] } else ledger
  | (thread, .access _ own (.read value)) =>
      if own = slot then
        let entry := (value, ledger.stored.length)
        { ledger with taken := Function.update ledger.taken thread (some entry) }
      else ledger
  | (thread, .access _ own .drain) =>
      if own = slot then
        { ledger with
          taken := Function.update ledger.taken thread none
          returned := ledger.returned ++ (ledger.taken thread).toList }
      else ledger
  | _ => ledger

def ledger (slot : Nat) (trace : Trace (Event w T T)) : Ledger T :=
  trace.foldl (Ledger.record slot) { stored := [], taken := fun _ => none, returned := [] }

/-- Every element stored in the slot, but for the last, has been returned. -/
def Ledger.Preserved (ledger : Ledger T) : Prop :=
  ledger.stored.dropLast.zipIdx 1 ⊆ ledger.returned

/-- The count of `head` that the thread's last claim found. -/
def claimedHead (thread : Nat) (trace : Trace (Event w T T)) : Nat :=
  (headClaims (trace.upTo thread fun e => e.headClaim.isSome)).length - 1

/-- A push that is about to store has claimed a position that was, and is, less
than a capacity ahead of `tail`. -/
def HasRoom (q : Queue w) (trace : Trace (Event w T T)) (thread : Nat) : Local w T → Prop
  | .pushSlot true position _ _ =>
      position = BitVec.ofNat w (claimedHead thread trace) ∧
        claimedHead thread trace < (tailClaims trace).length + q.capacity.toNat
  | _ => True

/-- A slot that has been stored to holds the word that consumers leave, and the
last element stored there is not itself stored as that word. -/
def EmptyForStore (bigEndian : Bool) (ledger : Ledger T) (cell : Usize w) : Prop :=
  ∀ value ∈ ledger.stored.getLast?,
    AtomicValue.store w bigEndian (Element.default : T) = some cell ∧
      AtomicValue.store w bigEndian value ≠ some cell

/-- The store that empties a slot finds no element that came after the one the
consumer has taken. -/
def EmptiesOwn (bigEndian : Bool) (ledger : Ledger T) (cell : Usize w) (thread : Nat) : Prop :=
  ∀ entry ∈ ledger.taken thread, entry.2 = ledger.stored.length ∨
    AtomicValue.store w bigEndian (Element.default : T) = some cell

/-- What the code does not see to: that a push claims only while there is room,
that stores find their slots empty and that nothing new is wiped out. -/
def Heeds (q : Queue w) (bigEndian : Bool) (trace : Trace (Event w T T)) (σ : Memory w (Usize w))
    (thread : Nat) : Local w T → Prop
  | .pushClaim _ => (headClaims trace).length < (tailClaims trace).length + q.capacity.toNat
  | .pushSlot _ _ slot _ => EmptyForStore bigEndian (ledger slot trace) (σ.slots slot)
  | .popSlot _ _ slot (.clear _) => EmptiesOwn bigEndian (ledger slot trace) (σ.slots slot) thread
  | _ => True

def Considerate (q : Queue w) (bigEndian : Bool) (trace : Trace (Event w T T)) (s : Config w T) :
    Action (Call T) → Prop
  | .call _ _ => True
  | .step thread => Heeds q bigEndian trace s.shared thread (s.threads thread)

instance (bigEndian : Bool) (ledger : Ledger T) (cell : Usize w) :
    Decidable (EmptyForStore bigEndian ledger cell) :=
  inferInstanceAs (Decidable (∀ value ∈ ledger.stored.getLast?, _ ∧ _))

instance (bigEndian : Bool) (ledger : Ledger T) (cell : Usize w) (thread : Nat) :
    Decidable (EmptiesOwn bigEndian ledger cell thread) :=
  inferInstanceAs (Decidable (∀ entry ∈ ledger.taken thread, _ ∨ _))

instance (q : Queue w) (bigEndian : Bool) (trace : Trace (Event w T T)) (σ : Memory w (Usize w))
    (thread : Nat) : DecidablePred (Heeds q bigEndian trace σ thread) := fun pc =>
  match pc with
  | .pushClaim _ => Nat.decLt _ _
  | .pushSlot _ _ slot _ =>
      inferInstanceAs (Decidable (EmptyForStore bigEndian (ledger slot trace) (σ.slots slot)))
  | .popSlot _ _ slot (.clear _) =>
      inferInstanceAs (Decidable (EmptiesOwn bigEndian (ledger slot trace) (σ.slots slot) thread))
  | .idle | .panicked | .tryPushLoadHead _ | .tryPushLoadTail _ _ | .tryPushClaim _ _
  | .tryPopLoadTail | .tryPopLoadHead _ | .tryPopClaim _ | .popClaim | .popSlot _ _ _ .load
  | .observeLoadHead _ | .observeLoadTail _ _ => isTrue trivial

instance (q : Queue w) (bigEndian : Bool) (trace : Trace (Event w T T)) (s : Config w T) :
    DecidablePred (Considerate q bigEndian trace s) := fun action =>
  match action with
  | .call _ _ => isTrue trivial
  | .step thread =>
      inferInstanceAs (Decidable (Heeds q bigEndian trace s.shared thread (s.threads thread)))

section Ledger

variable (slot thread : Nat)

omit [Element T] in
/-- The ledger is a fold over the trace, so a step adds its own events to it. -/
theorem ledger_append (trace : Trace (Event w T T)) (es : List (Event w T T)) :
    ledger slot (trace ++ es.map (Prod.mk thread)) =
      (es.map (Prod.mk thread)).foldl (Ledger.record slot) (ledger slot trace) :=
  List.foldl_append

omit [Element T] in
/-- Steps that are not at a slot leave no entry in its ledger. -/
theorem ledger_quiet {q : Queue w} {σ : Memory w (Usize w)} {pc pc' : Local w T}
    {es : List (Event w T T)} (h : q.Quiet σ pc pc' es) (before : Ledger T) :
    (es.map (Prod.mk thread)).foldl (Ledger.record slot) before = before ∧
      inHand slot pc' = none := by
  cases h <;> exact ⟨rfl, rfl⟩

end Ledger

/-- All but the last element stored have been returned, and the last one has or
is in the slot. Where a consumer has the `n`th element in hand, its return is all
that is missing of the first `n`. -/
structure Kept (bigEndian : Bool) (slot : Nat) (threads : Nat → Local w T) (cell : Usize w)
    (ledger : Ledger T) : Prop where
  cell : ledger.stored.zipIdx 1 ⊆ ledger.returned ∨
    ∃ earlier value, ledger.stored = earlier ++ [value] ∧
      AtomicValue.store w bigEndian value = some cell ∧ earlier.zipIdx 1 ⊆ ledger.returned
  taken : ∀ thread current, inHand slot (threads thread) = some current →
    ∃ n ≤ ledger.stored.length, ledger.taken thread = some (current, n) ∧
      (ledger.stored.take n).zipIdx 1 ⊆ (current, n) :: ledger.returned

section Kept

variable {bigEndian : Bool} {slot thread : Nat} {threads : Nat → Local w T} {cell : Usize w}
  {before : Ledger T} {pc : Local w T}

/-- What is asked of the ledger alone: the invariant also speaks of the cell and
of who is emptying it. -/
theorem Kept.preserved (h : Kept bigEndian slot threads cell before) : before.Preserved := by
  rcases h.cell with hReturned | ⟨earlier, value, hStored, _, hReturned⟩
  · rcases List.eq_nil_or_concat before.stored with hNil | ⟨earlier, value, hStored⟩
    · rw [Ledger.Preserved, hNil]
      exact List.nil_subset _
    · rw [hStored, List.concat_eq_append, List.zipIdx_append] at hReturned
      rw [Ledger.Preserved, hStored, List.concat_eq_append, List.dropLast_concat]
      exact List.Subset.trans (List.subset_append_left _ _) hReturned
  · rw [Ledger.Preserved, hStored, List.dropLast_concat]
    exact hReturned

/-- A thread that does not leave with a value of the slot. -/
theorem Kept.frame (h : Kept bigEndian slot threads cell before) (thread : Nat) (pc : Local w T)
    (hAfter : inHand slot pc = none) :
    Kept bigEndian slot (Function.update threads thread pc) cell before := by
  refine ⟨h.cell, fun other current hHand => ?_⟩
  by_cases hOther : other = thread
  · rw [hOther, Function.update_self, hAfter] at hHand
    contradiction
  · rw [Function.update_of_ne hOther] at hHand
    exact h.taken other current hHand

/-- A producer stores an element in a slot that is empty. -/
theorem Kept.store (h : Kept bigEndian slot threads cell before) (thread : Nat) (pc : Local w T)
    (hAfter : inHand slot pc = none) (hEmpty : EmptyForStore bigEndian before cell) {element : T}
    {raw : Usize w} (hStore : AtomicValue.store w bigEndian element = some raw) :
    Kept bigEndian slot (Function.update threads thread pc) raw
      { before with stored := before.stored ++ [element] } := by
  refine ⟨Or.inr ⟨before.stored, element, rfl, hStore, ?_⟩, fun other current hHand => ?_⟩
  · rcases h.cell with hReturned | ⟨earlier, value, hStored, hWord, _⟩
    · exact hReturned
    · -- the last element is still in the slot, whose word is that of an emptied one
      exact absurd hWord (hEmpty value (by rw [hStored, List.getLast?_concat]; rfl)).2
  · obtain ⟨n, hLe, hTaken, hReturned⟩ := (h.frame thread pc hAfter).taken other current hHand
    refine ⟨n, hLe.trans (by simp), hTaken, ?_⟩
    rwa [List.take_append_of_le_length hLe]

/-- A consumer loads the element of the slot. -/
theorem Kept.take (h : Kept bigEndian slot threads cell before) (thread : Nat) (pc : Local w T)
    {current : T} (hAfter : inHand slot pc = some current)
    (hLoad : AtomicValue.load bigEndian cell = some current) :
    Kept bigEndian slot (Function.update threads thread pc) cell
      { before with
        taken := Function.update before.taken thread (some (current, before.stored.length)) } := by
  refine ⟨h.cell, fun other current' hHand => ?_⟩
  by_cases hOther : other = thread
  · rw [hOther, Function.update_self, hAfter] at hHand
    obtain rfl := Option.some.inj hHand
    refine ⟨before.stored.length, le_rfl, by simp [hOther], ?_⟩
    rw [List.take_length]
    rcases h.cell with hReturned | ⟨earlier, value, hStored, hWord, hReturned⟩
    · exact List.subset_cons_of_subset _ hReturned
    · obtain rfl := AtomicValue.eq_of_load_store hWord hLoad
      rw [hStored, List.zipIdx_append, List.length_append, Nat.add_comm 1]
      refine List.append_subset.mpr ⟨List.subset_cons_of_subset _ hReturned, ?_⟩
      exact List.cons_subset.mpr ⟨List.mem_cons_self, List.nil_subset _⟩
  · rw [Function.update_of_ne hOther] at hHand
    dsimp only
    rw [Function.update_of_ne hOther]
    exact h.taken other current' hHand

/-- A consumer empties the slot and returns the element it has in hand. -/
theorem Kept.clear (h : Kept bigEndian slot threads cell before) (pc : Local w T) {current : T}
    (hBefore : inHand slot (threads thread) = some current) (hAfter : inHand slot pc = none)
    (hOwn : EmptiesOwn bigEndian before cell thread) {raw : Usize w}
    (hStore : AtomicValue.store w bigEndian (Element.default : T) = some raw) :
    Kept bigEndian slot (Function.update threads thread pc) raw
      { before with
        taken := Function.update before.taken thread none
        returned := before.returned ++ (before.taken thread).toList } := by
  obtain ⟨n, _, hTaken, hMine⟩ := h.taken thread current hBefore
  have hMore : before.returned ⊆ before.returned ++ (before.taken thread).toList :=
    List.subset_append_left _ _
  refine ⟨?_, fun other current' hHand => ?_⟩
  · rcases hOwn _ hTaken with hLast | hSame
    · -- the element returned is the last one stored
      left
      obtain rfl : n = before.stored.length := hLast
      rw [List.take_length] at hMine
      refine List.Subset.trans hMine (List.cons_subset.mpr ⟨?_, hMore⟩)
      simp [hTaken]
    · obtain rfl := Option.some.inj (hSame.symm.trans hStore)
      exact h.cell.imp (fun hReturned => List.Subset.trans hReturned hMore)
        fun ⟨earlier, value, hStored, hWord, hReturned⟩ =>
          ⟨earlier, value, hStored, hWord, List.Subset.trans hReturned hMore⟩
  · by_cases hOther : other = thread
    · rw [hOther, Function.update_self, hAfter] at hHand
      contradiction
    · rw [Function.update_of_ne hOther] at hHand
      dsimp only
      rw [Function.update_of_ne hOther]
      obtain ⟨m, hLe, hTheirs, hReturned⟩ := h.taken other current' hHand
      exact ⟨m, hLe, hTheirs, List.Subset.trans hReturned (List.cons_subset_cons _ hMore)⟩

/-- One step keeps every slot in this condition. -/
theorem Step.kept {q : Queue w} {trace : Trace (Event w T T)} {pc' : Local w T}
    {σ σ' : Memory w (Usize w)} {es : List (Event w T T)}
    (hStep : Step q bigEndian (threads thread) σ pc' σ' es)
    (hHeeds : Heeds q bigEndian trace σ thread (threads thread))
    (h : Kept bigEndian slot threads (σ.slots slot) (ledger slot trace)) :
    Kept bigEndian slot (Function.update threads thread pc') (σ'.slots slot)
      (ledger slot (trace ++ es.map (Prod.mk thread))) := by
  rw [ledger_append]
  generalize hPc : threads thread = pc at hStep hHeeds
  cases hStep with
  | quiet hQuiet =>
      obtain ⟨hSame, hHand⟩ := ledger_quiet slot thread hQuiet (ledger slot trace)
      rw [hSame]
      exact h.frame thread _ hHand
  | claimHead | claimTail | pushPanic | popPanic | convertPanic => exact h.frame thread _ rfl
  | @store blocking position own element _ raw hStore =>
      by_cases hSlot : own = slot
      · subst hSlot
        have hNext := h.store thread .idle rfl hHeeds hStore
        simpa [Ledger.record] using hNext
      · have hNext := h.frame thread .idle rfl
        simpa [Ledger.record, hSlot, Ne.symm hSlot] using hNext
  | wait => exact h.frame thread _ rfl
  | @take blocking position own current _ hLoad hSome =>
      by_cases hSlot : own = slot
      · subst hSlot
        have hNext := h.take thread (.popSlot blocking position own (.clear current)) (if_pos rfl) hLoad
        simpa [Ledger.record] using hNext
      · have hNext := h.frame thread (.popSlot blocking position own (.clear current)) (if_neg hSlot)
        simpa [Ledger.record, hSlot] using hNext
  | @clear blocking position own current _ raw hStore =>
      by_cases hSlot : own = slot
      · subst hSlot
        have hBefore : inHand own (threads thread) = some current := by rw [hPc]; exact if_pos rfl
        have hNext := h.clear .idle hBefore rfl hHeeds hStore
        simpa [Ledger.record] using hNext
      · have hNext := h.frame thread .idle rfl
        simpa [Ledger.record, hSlot, Ne.symm hSlot] using hNext

end Kept

section Run

variable {q : Queue w} {bigEndian : Bool} {trace : Trace (Event w T T)} {s : Config w T}

/-- The run lemma. What it uses of the condition is what it asks of the two
kinds of stores; loads and claims put nothing in a slot. -/
theorem kept_of_run (run : Run (q.threadCode (AtomicQueue.slotCode w T bigEndian))
      (Considerate q bigEndian) (initial w (AtomicValue.new w)) trace s) (slot : Nat) :
    Kept bigEndian slot s.threads (s.shared.slots slot) (ledger slot trace) := by
  refine run.invariant (fun trace s =>
    Kept bigEndian slot s.threads (s.shared.slots slot) (ledger slot trace)) ?_ ?_ ?_
  · exact ⟨Or.inl (List.nil_subset _), fun _ _ hHand => nomatch hHand⟩
  · intro trace s thread operation pc es _ ih _ hCall
    obtain ⟨_, rfl, rfl⟩ := Queue.call_cases hCall
    rw [ledger_append]
    exact ih.frame thread _ (by cases operation <;> rfl)
  · intro trace s thread pc shared es _ ih hAllowed hStep
    exact Step.kept (step_cases (Queue.step_cases hStep)) hAllowed ih

omit [Element T] in
/-- The position a thread took last is its own, whatever others claim
meanwhile. -/
theorem claimedHead_append_of_ne {thread actor : Nat} (es : List (Event w T T)) (h : actor ≠ thread) :
    claimedHead thread (trace ++ es.map (Prod.mk actor)) = claimedHead thread trace := by
  rw [claimedHead, Trace.upTo_append_of_ne _ _ _ _ h]
  rfl

omit [Element T] in
@[simp] theorem claimedHead_claimHead (thread : Nat) (position : Usize w) :
    claimedHead thread (trace ++ [Event.claimHead position].map (Prod.mk thread)) =
      (headClaims trace).length := by
  rw [claimedHead, Trace.upTo_concat _ _ _ (by rfl), headClaims_append]
  simp [Event.headClaim]

omit [Element T] in
/-- The others only make room. -/
theorem HasRoom.append_of_ne {thread actor : Nat} {pc : Local w T} (h : HasRoom q trace thread pc)
    (es : List (Event w T T)) (hOther : actor ≠ thread) :
    HasRoom q (trace ++ es.map (Prod.mk actor)) thread pc := by
  cases pc with
  | pushSlot blocking position slot pc =>
      cases blocking with
      | false => trivial
      | true =>
          rw [HasRoom, claimedHead_append_of_ne es hOther, tailClaims_append, List.length_append]
          exact ⟨h.1, h.2.trans_le (by omega)⟩
  | _ => trivial

/-- A call that has a position keeps the room it found: `tail` only advances, so
what was free at the claim stays free. -/
theorem hasRoom_of_run (run : Run (q.threadCode (AtomicQueue.slotCode w T bigEndian))
      (Considerate q bigEndian) (initial w (AtomicValue.new w)) trace s) (thread : Nat) :
    HasRoom q trace thread (s.threads thread) := by
  refine run.invariant_threads (HasRoom q) ?_ (fun _ _ _ _ es h hOther => h.append_of_ne es hOther)
    ?_ ?_ thread
  · exact fun _ => trivial
  · intro trace s thread operation pc es _ _ _ hCall
    obtain ⟨_, rfl, rfl⟩ := Queue.call_cases hCall
    cases operation <;> trivial
  · intro trace s thread pc shared es prior _ hAllowed hStep
    simp only [Considerate] at hAllowed
    generalize s.threads thread = before at hStep hAllowed
    cases step_cases (Queue.step_cases hStep) with
    | quiet hQuiet => cases hQuiet <;> trivial
    | @claimHead _ _ blocking position element slot hClaim =>
        cases hClaim with
        | push element =>
            have hRoom : (headClaims trace).length < (tailClaims trace).length + q.capacity.toNat :=
              hAllowed
            rw [HasRoom, claimedHead_claimHead, tailClaims_append, List.length_append]
            exact ⟨(counted_of_run prior).head, by omega⟩
        | compareExchange | fetchAdd => trivial
    | _ => trivial

end Run

end Cells

/-- As long as callers push only while there is room, stores find their slots
empty and no consumer wipes out an element that it has not taken: whatever was
stored in a slot has been returned by the time the next element is stored there,
and no push goes ahead at a position that the queue has no room for. -/
theorem preserved_of_considerate (q : Queue w) (bigEndian : Bool) {trace : Trace (Event w T T)}
    {s : AtomicQueue.Config w T}
    (run : Run (q.threadCode (AtomicQueue.slotCode w T bigEndian)) (Cells.Considerate q bigEndian)
      (initial w (AtomicValue.new w)) trace s) :
    (∀ slot, (Cells.ledger slot trace).Preserved) ∧
      ∀ thread, Cells.HasRoom q trace thread (s.threads thread) :=
  ⟨fun slot => (Cells.kept_of_run run slot).preserved, Cells.hasRoom_of_run run⟩

/-- The consumer comes first and waits; the slot is used twice, and the second
producer is about to store. -/
theorem preserved_oneSlot : ∃ trace : Trace (Event 64 (BitVec 64) (BitVec 64)),
    ∃ s : AtomicQueue.Config 64 (BitVec 64), (Cells.ledger 0 trace).stored = [7#64] ∧
      (Cells.ledger 0 trace).returned = [(7#64, 1)] ∧
      s.threads 0 = .pushSlot true 1#64 0 (.store 8#64) ∧
      (∀ slot, (Cells.ledger slot trace).Preserved) ∧
      ∀ thread, Cells.HasRoom AtomicQueue.oneSlot trace thread (s.threads thread) := by
  refine ⟨_, _, ?_, ?_, ?_, preserved_of_considerate AtomicQueue.oneSlot false
    (Run.ofExec 2 (fun trace s action =>
        decide (Cells.Considerate AtomicQueue.oneSlot false trace s action))
      (fun _ _ _ _ => of_decide_eq_true)
      [.call 1 .pop, .step 1, .step 1, .call 0 (.push 7#64), .step 0, .step 0, .step 1, .step 1,
        .call 0 (.push 8#64), .step 0]
      (by decide) (by decide +kernel))⟩
  · decide +kernel
  · decide +kernel
  · decide +kernel

/-- The queue is full; the second push returns at once and the first element
is gone before any consumer has come. -/
theorem oneSlot_push_overwrites : ∃ trace, ∃ s : AtomicQueue.Config 64 (BitVec 64),
    Run (AtomicQueue.oneSlot.threadCode (AtomicQueue.slotCode 64 (BitVec 64) false))
        anyAction (initial 64 (AtomicValue.new 64)) trace s ∧
      AtomicQueue.oneSlot.capacity = 1#64 ∧ s.threads 0 = .idle ∧ tailClaims trace = [] ∧
      (Cells.ledger 0 trace).stored = [7#64, 8#64] ∧ (Cells.ledger 0 trace).returned = [] ∧
      ¬ (Cells.ledger 0 trace).Preserved := by
  refine ⟨_, _, Run.ofExec 1 (fun _ _ _ => true) (fun _ _ _ _ _ => trivial)
    [.call 0 (.push 7#64), .step 0, .step 0, .call 0 (.push 8#64), .step 0, .step 0]
    (by decide) (by decide +kernel), rfl, ?_, ?_, ?_, ?_, ?_⟩
  · decide +kernel
  · decide +kernel
  · decide +kernel
  · decide +kernel
  · intro hPreserved
    have hMem : (7#64, 1) ∈ (Cells.ledger 0 _).returned := hPreserved (by decide +kernel)
    revert hMem
    decide +kernel

end AtomicQueueRs
