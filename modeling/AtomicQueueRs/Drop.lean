import AtomicQueueRs.Ring.Ledger
import AtomicQueueRs.SequentialFifo

/-! `Drop` of `AtomicQueue2` and `AtomicQueueB2`. The loop looks at slots by
their remapped index, not by position, and drops the element of each full one. -/
namespace AtomicQueueRs

set_option autoImplicit false

variable {w : Nat} {T : Type}

/-- The first `n` turns of the loop of `drop`: the slots whose element it drops
in place, with what it finds there. `slotOf` is the slot of a turn's index, and
`none` a panic. -/
def dropLoop (slotOf : Usize w → Option Nat) (slots : Nat → Slot T) :
    Nat → Option (List (Nat × Option T))
  | 0 => some []
  | n + 1 => do
      let dropped ← dropLoop slotOf slots n
      let slot ← slotOf (BitVec.ofNat w n)
      if (slots slot).state = .full then some (dropped ++ [(slot, (slots slot).element)])
      else some dropped

namespace AtomicQueue2

/-- The index is remapped as it is; the slice accesses are checked. -/
def dropSlot (capacity : Usize w) (shuffleBits : Nat) (index : Usize w) : Option Nat :=
  let remappedIndex := remapIndex index shuffleBits
  if remappedIndex < capacity then some remappedIndex.toNat else none

/-- Freeing the boxed slices afterwards drops no element. -/
def drop (capacity : Usize w) (shuffleBits : Nat) (slots : Nat → Slot T) :
    Option (List (Nat × Option T)) :=
  dropLoop (dropSlot capacity shuffleBits) slots capacity.toNat

end AtomicQueue2

namespace AtomicQueueB2

/-- The index is masked and remapped as in `get_slot`. Dropping the states does
nothing, and the layouts to deallocate are those of the constructor. -/
def drop (build : Build) (capacity : Usize w) (shuffleBits : Nat) (slots : Nat → Slot T) :
    Option (List (Nat × Option T)) :=
  dropLoop (getSlot build capacity shuffleBits) slots capacity.toNat

end AtomicQueueB2

/-- What `drop` did, against what was accepted and popped before: no slot was
touched twice, and none that is not full; each storage was written to; and what
was dropped is what was accepted and not popped. -/
structure Released (capacity : Nat) (slots : Nat → Slot T) (accepted : List T)
    (popped : List (Option T)) (dropped : List (Nat × Option T)) : Prop where
  nodup : (dropped.map Prod.fst).Nodup
  mem_iff : ∀ slot element, (slot, element) ∈ dropped ↔
    slot < capacity ∧ slots slot = { state := .full, element := element }
  written : ∀ entry ∈ dropped, entry.2.isSome
  perm : (accepted.map some).Perm (popped ++ dropped.map Prod.snd)

section Loop

variable {slots : Nat → Slot T}

/-- A slot and what a pop would find in it. -/
def droppedAt (slots : Nat → Slot T) (slot : Nat) : Option (Nat × Option T) :=
  (AtomicQueue2.content (slots slot)).map (Prod.mk slot)

/-- What is dropped at a slot is what its storage holds, and only if its flag is
full. -/
theorem droppedAt_eq_some_iff {slot : Nat} {entry : Nat × Option T} :
    droppedAt slots slot = some entry ↔
      slot = entry.1 ∧ slots slot = { state := .full, element := entry.2 } := by
  rw [droppedAt, Option.map_eq_some_iff]
  constructor
  · rintro ⟨element, hContent, rfl⟩
    obtain ⟨hState, rfl⟩ := AtomicQueue2.content_eq_some_iff.mp hContent
    exact ⟨rfl, by rw [← hState]⟩
  · rintro ⟨rfl, hSlot⟩
    exact ⟨entry.2, AtomicQueue2.content_eq_some_iff.mpr (by rw [hSlot]; exact ⟨rfl, rfl⟩), rfl⟩

/-- The loop without its accumulator. The walk has to be given for every index,
as one index out of the slice would panic. -/
theorem dropLoop_eq {slotOf : Usize w → Option Nat} {slot : Nat → Nat} {n : Nat}
    (hWalk : ∀ i < n, slotOf (BitVec.ofNat w i) = some (slot i)) :
    dropLoop slotOf slots n = some (((List.range n).map slot).filterMap (droppedAt slots)) := by
  induction n with
  | zero => rfl
  | succ n ih =>
      rw [dropLoop, ih fun i hi => hWalk i (Nat.lt_succ_of_lt hi), hWalk n (Nat.lt_succ_self n),
        List.range_succ, List.map_append, List.filterMap_append]
      by_cases hFull : (slots (slot n)).state = .full
      · simp [droppedAt, AtomicQueue2.content, hFull]
      · simp [droppedAt, AtomicQueue2.content, hFull]

/-- A loop that visits every slot once drops what has not been popped. -/
theorem released_of_walk {capacity : Nat} {accepted : List T} {popped : List (Option T)}
    {visited : List Nat} (hVisited : visited.Perm (List.range capacity))
    (h : Ring.Conserved capacity (AtomicQueue2.content ∘ slots) (accepted.map some) popped) :
    Released capacity slots accepted popped (visited.filterMap (droppedAt slots)) := by
  have hMem (slot : Nat) (element : Option T) :
      (slot, element) ∈ visited.filterMap (droppedAt slots) ↔
        slot < capacity ∧ slots slot = { state := .full, element := element } := by
    rw [List.mem_filterMap, ← List.mem_range, ← hVisited.mem_iff]
    constructor
    · rintro ⟨_, hVisit, hDropped⟩
      obtain ⟨rfl, hSlot⟩ := droppedAt_eq_some_iff.mp hDropped
      exact ⟨hVisit, hSlot⟩
    · rintro ⟨hVisit, hSlot⟩
      exact ⟨slot, hVisit, droppedAt_eq_some_iff.mpr ⟨rfl, hSlot⟩⟩
  have hElements : (visited.filterMap (droppedAt slots)).map Prod.snd =
      visited.filterMap (AtomicQueue2.content ∘ slots) := by
    rw [List.map_filterMap]
    congr 1
    funext slot
    simp [droppedAt, Function.comp_def]
  have hPerm : (accepted.map some).Perm
      (popped ++ (visited.filterMap (droppedAt slots)).map Prod.snd) := by
    rw [hElements]
    exact h.trans ((hVisited.filterMap _).symm.append_left popped)
  refine ⟨?_, hMem, ?_, hPerm⟩
  · rw [List.map_filterMap]
    apply (hVisited.nodup_iff.mpr List.nodup_range).filterMap
    intro slot slot' visit hFirst hSecond
    obtain ⟨entry, hEntry, rfl⟩ := Option.map_eq_some_iff.mp hFirst
    obtain ⟨entry', hEntry', hSame⟩ := Option.map_eq_some_iff.mp hSecond
    rw [(droppedAt_eq_some_iff.mp hEntry).1, (droppedAt_eq_some_iff.mp hEntry').1, hSame]
  · intro entry hEntry
    have hDropped : entry.2 ∈ accepted.map some :=
      hPerm.mem_iff.mpr (List.mem_append_right _ (List.mem_map_of_mem hEntry))
    obtain ⟨element, _, hElement⟩ := List.mem_map.mp hDropped
    rw [← hElement]
    rfl

end Loop

section Walk

variable {target : Target w} {size : Usize w} {totalOrder : Bool} {q : Queue w}

/-- The slots that a loop over all indices visits, when they are the slots of
the first positions. -/
theorem Queue.Indexed.walk_perm (h : q.Indexed) :
    ((List.range q.capacity.toNat).map q.slotAt).Perm (List.range q.capacity.toNat) := by
  apply Ring.walk_perm fun i _ => h.slotAt_lt i
  intro i hi j hj hEq
  have hCapacity := q.capacity.isLt
  have hSame := (h.slotAt_eq_iff_of_lt (by omega) (by omega)).mp hEq
  rwa [Nat.mod_eq_of_lt hi, Nat.mod_eq_of_lt hj] at hSame

/-- Below the capacity the remainder that `get_slot` takes changes nothing. -/
theorem AtomicQueue2.dropSlot_eq {minimizeContention : Bool}
    (h : AtomicQueue2.new target size minimizeContention totalOrder = some q) {i : Nat}
    (hi : i < q.capacity.toNat) :
    AtomicQueue2.dropSlot q.capacity (getIndexShuffleBits minimizeContention q.capacity
      (target.cacheLineSize / target.sizeOfPaddedState)) (BitVec.ofNat w i) = some (q.slotAt i) := by
  have hGetSlot := (AtomicQueue2.new_indexed h (by omega)).getSlot_ofNat i
  obtain ⟨_, _, _, hEq, _⟩ := AtomicQueue2.new_eq_some h
  have hNonzero : q.capacity ≠ 0#w := fun hZero => by simp [hZero] at hi
  have hRest : BitVec.ofNat w i % q.capacity = BitVec.ofNat w i := by
    apply BitVec.umod_eq_of_lt
    rw [BitVec.lt_def, BitVec.toNat_ofNat]
    exact Nat.lt_of_le_of_lt (Nat.mod_le _ _) hi
  rw [hEq, AtomicQueue2.getSlot, if_neg hNonzero, hRest] at hGetSlot
  exact hGetSlot

/-- Both loops visit the slots of the first positions. -/
theorem AtomicQueue2.drop_eq {minimizeContention : Bool}
    (h : AtomicQueue2.new target size minimizeContention totalOrder = some q)
    (slots : Nat → Slot T) :
    AtomicQueue2.drop q.capacity (getIndexShuffleBits minimizeContention q.capacity
      (target.cacheLineSize / target.sizeOfPaddedState)) slots =
      some (((List.range q.capacity.toNat).map q.slotAt).filterMap (droppedAt slots)) :=
  dropLoop_eq fun _ hi => AtomicQueue2.dropSlot_eq h hi

/-- This `drop` masks the index before it remaps it, and visits the same
slots. -/
theorem AtomicQueueB2.drop_eq (h : AtomicQueueB2.new target size totalOrder = some q)
    (slots : Nat → Slot T) :
    AtomicQueueB2.drop target.build q.capacity (getIndexShuffleBits true q.capacity
      (target.cacheLineSize / target.sizeOfPaddedState)) slots =
      some (((List.range q.capacity.toNat).map q.slotAt).filterMap (droppedAt slots)) := by
  apply dropLoop_eq
  intro i hi
  obtain ⟨_, _, _, hEq, _⟩ := AtomicQueueB2.new_eq_some h
  rw [← hEq]
  exact (AtomicQueueB2.new_indexed h (by omega)).getSlot_ofNat i

end Walk

end AtomicQueueRs
