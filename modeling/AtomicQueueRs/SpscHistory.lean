import AtomicQueueRs.Ring.Occupancy
import AtomicQueueRs.Spsc

/-! What a run on an SPSC queue has done so far, and the memory that goes with
it: the filled positions not yet drained are an interval; their slots are the
full ones and hold the values committed at these positions. -/
namespace AtomicQueueRs

set_option autoImplicit false

open Interleaving (Trace)

variable {w : Nat} {T : Type}

/-- What a run has done so far: the values whose enqueueing was committed, how
far each side has claimed, filled and drained, every access to an element with
its position and slot, and the values handed back. -/
structure History (w : Nat) (T : Type) where
  committed : List T
  heads : Nat
  tails : Nat
  fills : Nat
  drains : Nat
  writes : List (Usize w × Nat × T)
  reads : List (Usize w × Nat × Option T)
  returned : List (Option T)

namespace History

def new (w : Nat) (T : Type) : History w T :=
  { committed := [], heads := 0, tails := 0, fills := 0, drains := 0,
    writes := [], reads := [], returned := [] }

def recordAccess (h : History w T) (position : Usize w) (slot : Nat) :
    Access T (Option T) → History w T
  | .fill => { h with fills := h.fills + 1 }
  | .drain => { h with drains := h.drains + 1 }
  | .write value => { h with writes := h.writes ++ [(position, slot, value)] }
  | .read value => { h with reads := h.reads ++ [(position, slot, value)] }

/-- A blocking push is committed by its call, a non-blocking one by passing
the test for a full queue. -/
def record (h : History w T) : Event w T (Option T) → History w T
  | .call (.push value) | .proceed value => { h with committed := h.committed ++ [value] }
  | .claimHead _ => { h with heads := h.heads + 1 }
  | .claimTail _ => { h with tails := h.tails + 1 }
  | .access position slot a => h.recordAccess position slot a
  | .returned (.pop value) | .returned (.tryPop (some value)) =>
      { h with returned := h.returned ++ [value] }
  | _ => h

def of (trace : Trace (Event w T (Option T))) : History w T :=
  trace.foldl (fun h event => h.record event.2) (new w T)

/-- The history is a fold over the trace, so a step adds its own events to
it. -/
theorem of_append (trace : Trace (Event w T (Option T))) (thread : Nat)
    (es : List (Event w T (Option T))) :
    of (trace ++ es.map (Prod.mk thread)) = es.foldl record (of trace) := by
  simp only [of, List.foldl_append, List.foldl_map]

/-- Observers hand back no element. -/
theorem record_observed {build : Build} {capacity head tail : Usize w} {observer : Observer}
    {result : Return w (Option T)} (hResult : observer.result build capacity head tail = some result)
    (h : History w T) : h.record (.returned result) = h := by
  have hObservation := Observer.isObservation_of_result hResult
  cases result <;> first | rfl | exact hObservation.elim

end History

namespace Spsc

variable {q : Queue w}

/-- The first `n` committed values with the positions and slots due to them. -/
def entries (q : Queue w) (committed : List T) (n : Nat) : List (Usize w × Nat × T) :=
  (List.range n).filterMap fun i =>
    committed[i]?.map fun value => (BitVec.ofNat w i, q.slotAt i, value)

/-- The next entry is due to the next committed value. -/
theorem entries_succ {committed : List T} {n : Nat} {value : T} (h : committed[n]? = some value) :
    entries q committed (n + 1) =
      entries q committed n ++ [(BitVec.ofNat w n, q.slotAt n, value)] := by
  simp [entries, List.range_succ, h]

/-- What is committed later comes after the entries there are. -/
theorem entries_append {committed : List T} {n : Nat} (h : n ≤ committed.length)
    (more : List T) : entries q (committed ++ more) n = entries q committed n := by
  refine List.filterMap_congr fun i hMem => ?_
  rw [List.getElem?_append_left (Nat.lt_of_lt_of_le (List.mem_range.mp hMem) h)]

/-- Entries are listed in the order of their positions. -/
theorem entries_isPrefix {m n : Nat} (h : m ≤ n) (committed : List T) :
    entries q committed m <+: entries q committed n := by
  induction n with
  | zero => rw [Nat.le_zero.mp h]
  | succ n ih =>
      rcases Nat.eq_or_lt_of_le h with rfl | hLt
      · exact List.prefix_refl _
      · refine (ih (Nat.le_of_lt_succ hLt)).trans ?_
        rw [entries, entries, List.range_succ, List.filterMap_append]
        exact List.prefix_append _ _

/-- What a consumer reads at an entry. -/
def asRead (entry : Usize w × Nat × T) : Usize w × Nat × Option T :=
  (entry.1, entry.2.1, some entry.2.2)

/-- The counters and the slots, against what has been done so far. -/
structure Core (q : Queue w) (h : History w T) (σ : Memory w (Slot T)) : Prop where
  head : σ.head = BitVec.ofNat w h.heads
  tail : σ.tail = BitVec.ofNat w h.tails
  drains_le : h.drains ≤ h.fills
  fills_le : h.fills ≤ h.drains + q.capacity.toNat
  written_ge : h.fills ≤ h.writes.length
  written_le : h.writes.length ≤ h.heads
  heads_le : h.heads ≤ h.committed.length
  taken_le : h.reads.length ≤ h.fills
  full_iff : ∀ slot, (σ.slots slot).state = .full ↔
    ∃ i, h.drains ≤ i ∧ i < h.fills ∧ q.slotAt i = slot
  element_eq : ∀ i, h.drains ≤ i → i < h.fills →
    (σ.slots (q.slotAt i)).element = h.committed[i]?
  writes_eq : h.writes = entries q h.committed h.writes.length
  reads_eq : h.reads = (entries q h.committed h.reads.length).map asRead
  returned_eq : h.returned = (h.committed.take h.drains).map some

section Core

variable {h : History w T} {σ : Memory w (Slot T)}

/-- Committing a value changes neither counters nor slots. -/
theorem Core.commit (hCore : Core q h σ) (value : T) :
    Core q { h with committed := h.committed ++ [value] } σ := by
  have hWritten := hCore.written_le
  have hHeads := hCore.heads_le
  have hTaken := hCore.taken_le
  have hFills := hCore.written_ge
  have hDrains := hCore.drains_le
  refine { hCore with heads_le := ?_, element_eq := ?_, writes_eq := ?_, reads_eq := ?_,
                      returned_eq := ?_ }
  · rw [List.length_append]
    exact Nat.le_add_right_of_le hHeads
  · intro i (hLower : h.drains ≤ i) (hUpper : i < h.fills)
    rw [hCore.element_eq i hLower hUpper, List.getElem?_append_left (by omega)]
  · dsimp only
    rw [entries_append (by omega)]
    exact hCore.writes_eq
  · dsimp only
    rw [entries_append (by omega)]
    exact hCore.reads_eq
  · dsimp only
    rw [List.take_append_of_le_length (by omega)]
    exact hCore.returned_eq

/-- A position may be claimed from `head` once there is a committed value for
it. -/
theorem Core.claimHead (hCore : Core q h σ) (hLt : h.heads < h.committed.length) :
    Core q { h with heads := h.heads + 1 } { σ with head := σ.head + 1#w } := by
  refine { hCore with head := ?_, written_le := ?_, heads_le := hLt }
  · rw [hCore.head]
    exact (Usize.ofNat_succ _).symm
  · exact Nat.le_succ_of_le hCore.written_le

/-- A position may be claimed from `tail` at any time, also before `head` gets
there. -/
theorem Core.claimTail (hCore : Core q h σ) :
    Core q { h with tails := h.tails + 1 } { σ with tail := σ.tail + 1#w } := by
  refine { hCore with tail := ?_ }
  rw [hCore.tail]
  exact (Usize.ofNat_succ _).symm

/-- An empty slot holds none of the filled positions. -/
theorem Core.slotAt_ne (hCore : Core q h σ) {slot : Nat} (hEmpty : (σ.slots slot).state = .empty)
    {i : Nat} (hLower : h.drains ≤ i) (hUpper : i < h.fills) : q.slotAt i ≠ slot := by
  intro hSlot
  have hFull := (hCore.full_iff slot).mpr ⟨i, hLower, hUpper, hSlot⟩
  rw [hEmpty] at hFull
  contradiction

/-- The producer writes to a slot that is empty, so the elements in full slots
are not touched. -/
theorem Core.write (hCore : Core q h σ) {value : T}
    (hCommitted : h.committed[h.fills]? = some value) (hWritten : h.writes.length = h.fills)
    (hLt : h.fills < h.heads) (hEmpty : (σ.slots (q.slotAt h.fills)).state = .empty) :
    Core q { h with writes := h.writes ++ [(BitVec.ofNat w h.fills, q.slotAt h.fills, value)] }
      { σ with
        slots := Function.update σ.slots (q.slotAt h.fills)
          { σ.slots (q.slotAt h.fills) with element := some value } } := by
  refine { hCore with written_ge := ?_, written_le := ?_, full_iff := ?_, element_eq := ?_,
                      writes_eq := ?_ }
  · rw [List.length_append, hWritten]
    exact Nat.le_succ _
  · rw [List.length_append, hWritten]
    exact hLt
  · intro slot
    dsimp only
    rw [← hCore.full_iff slot]
    by_cases hSlot : slot = q.slotAt h.fills
    · rw [hSlot, Function.update_self]
    · rw [Function.update_of_ne hSlot]
  · intro i hLower hUpper
    dsimp only
    rw [Function.update_of_ne (hCore.slotAt_ne hEmpty hLower hUpper)]
    exact hCore.element_eq i hLower hUpper
  · rw [List.length_append, List.length_singleton, hWritten, entries_succ hCommitted, ← hWritten,
      ← hCore.writes_eq, hWritten]

/-- A full slot at the consumer's position was filled for that position. -/
theorem Core.front (hCore : Core q h σ) (hFull : (σ.slots (q.slotAt h.drains)).state = .full) :
    h.drains < h.fills := by
  obtain ⟨i, hLower, hUpper, _⟩ := (hCore.full_iff _).mp hFull
  exact Nat.lt_of_le_of_lt hLower hUpper

/-- A full slot at the consumer's position holds the committed value due
there. -/
theorem Core.front_element (hCore : Core q h σ)
    (hFull : (σ.slots (q.slotAt h.drains)).state = .full) : ∃ element,
      (σ.slots (q.slotAt h.drains)).element = some element ∧
        h.committed[h.drains]? = some element := by
  have hHeads := Nat.le_trans hCore.written_ge hCore.written_le
  have hLength := hCore.heads_le
  have hFront := hCore.front hFull
  refine ⟨h.committed.get ⟨h.drains, by omega⟩, ?_, List.getElem?_eq_getElem _⟩
  rw [hCore.element_eq _ (Nat.le_refl _) hFront]
  exact List.getElem?_eq_getElem _

/-- What the consumer reads is the entry of its position. -/
theorem Core.read (hCore : Core q h σ) (hTaken : h.reads.length = h.drains)
    (hFull : (σ.slots (q.slotAt h.drains)).state = .full) :
    Core q { h with reads := h.reads ++ [(BitVec.ofNat w h.drains, q.slotAt h.drains,
      (σ.slots (q.slotAt h.drains)).element)] } σ := by
  obtain ⟨element, hElement, hCommitted⟩ := hCore.front_element hFull
  refine { hCore with taken_le := ?_, reads_eq := ?_ }
  · rw [List.length_append, hTaken]
    exact hCore.front hFull
  · rw [List.length_append, List.length_singleton, hTaken, entries_succ hCommitted,
      List.map_append, ← hTaken, ← hCore.reads_eq, hTaken, hElement]
    rfl

section Window

variable (hIndexed : q.Indexed) (hBound : h.heads < 2 ^ w)

include hIndexed hBound

/-- Filled positions are less than a lap apart. -/
theorem Core.slotAt_inj (hCore : Core q h σ) {i j : Nat} (hLower : h.drains ≤ i) (hLe : i ≤ j)
    (hUpper : j < h.fills) (hSlot : q.slotAt i = q.slotAt j) : i = j := by
  have hHeads := Nat.le_trans hCore.written_ge hCore.written_le
  have hFills := hCore.fills_le
  have hRest := (hIndexed.slotAt_eq_iff_of_lt (by omega) (by omega)).mp hSlot
  exact Ring.eq_of_mod_eq hLe (by omega) hRest

/-- Setting the flag makes the element just written one of those that the full
slots hold. -/
theorem Core.fill (hCore : Core q h σ)
    (hElement : (σ.slots (q.slotAt h.fills)).element = h.committed[h.fills]?)
    (hWritten : h.writes.length = h.fills + 1)
    (hEmpty : (σ.slots (q.slotAt h.fills)).state = .empty) :
    Core q { h with fills := h.fills + 1 }
      { σ with
        slots := Function.update σ.slots (q.slotAt h.fills)
          { σ.slots (q.slotAt h.fills) with state := .full } } := by
  have hHeads := Nat.le_trans hCore.written_ge hCore.written_le
  have hDrains := hCore.drains_le
  have hSpace : h.fills < h.drains + q.capacity.toNat := by
    refine Nat.lt_of_le_of_ne hCore.fills_le fun hEq => ?_
    have hPos := hIndexed.capacity_pos
    refine hCore.slotAt_ne hEmpty (Nat.le_refl h.drains) (by omega) ?_
    rw [hIndexed.slotAt_eq_iff_of_lt (by omega) (by omega), hEq, Nat.add_mod_right]
  refine { hCore with drains_le := Nat.le_succ_of_le hDrains, fills_le := hSpace,
                      written_ge := hWritten.ge, taken_le := Nat.le_succ_of_le hCore.taken_le,
                      full_iff := ?_, element_eq := ?_ }
  · intro slot
    dsimp only
    by_cases hSlot : slot = q.slotAt h.fills
    · subst hSlot
      rw [Function.update_self]
      exact iff_of_true rfl ⟨h.fills, hDrains, Nat.lt_succ_self _, rfl⟩
    · rw [Function.update_of_ne hSlot, hCore.full_iff slot]
      constructor
      · intro ⟨i, hLower, hUpper, hi⟩
        exact ⟨i, hLower, Nat.lt_succ_of_lt hUpper, hi⟩
      · intro ⟨i, hLower, hUpper, hi⟩
        refine ⟨i, hLower, Nat.lt_of_le_of_ne (Nat.le_of_lt_succ hUpper) fun hEq => ?_, hi⟩
        rw [hEq] at hi
        exact hSlot hi.symm
  · intro i hLower hUpper
    dsimp only
    rcases Nat.eq_or_lt_of_le (Nat.le_of_lt_succ hUpper) with rfl | hLt
    · rw [Function.update_self]
      exact hElement
    · rw [Function.update_of_ne (hCore.slotAt_ne hEmpty hLower hLt)]
      exact hCore.element_eq i hLower hLt

/-- Clearing the flag hands back the next committed value, and the slot is free
for the position a lap ahead. -/
theorem Core.drain (hCore : Core q h σ) {element : T}
    (hCommitted : h.committed[h.drains]? = some element)
    (hFull : (σ.slots (q.slotAt h.drains)).state = .full) :
    Core q { h with drains := h.drains + 1, returned := h.returned ++ [some element] }
      { σ with
        slots := Function.update σ.slots (q.slotAt h.drains)
          { σ.slots (q.slotAt h.drains) with state := .empty } } := by
  have hFront := hCore.front hFull
  have hOther : ∀ i, h.drains + 1 ≤ i → i < h.fills → q.slotAt i ≠ q.slotAt h.drains := by
    intro i hLower hUpper hSlot
    have hEq := hCore.slotAt_inj hIndexed hBound (Nat.le_refl _) (by omega) hUpper hSlot.symm
    omega
  refine { hCore with drains_le := hFront, fills_le := ?_, full_iff := ?_, element_eq := ?_,
                      returned_eq := ?_ }
  · exact Nat.le_trans hCore.fills_le (Nat.add_le_add_right (Nat.le_succ _) _)
  · intro slot
    dsimp only
    by_cases hSlot : slot = q.slotAt h.drains
    · subst hSlot
      rw [Function.update_self]
      refine iff_of_false (by simp) ?_
      intro ⟨i, hLower, hUpper, hi⟩
      exact hOther i hLower hUpper hi
    · rw [Function.update_of_ne hSlot, hCore.full_iff slot]
      constructor
      · intro ⟨i, hLower, hUpper, hi⟩
        refine ⟨i, Nat.lt_of_le_of_ne hLower fun hEq => ?_, hUpper, hi⟩
        rw [← hEq] at hi
        exact hSlot hi.symm
      · intro ⟨i, hLower, hUpper, hi⟩
        exact ⟨i, Nat.le_of_succ_le hLower, hUpper, hi⟩
  · intro i hLower hUpper
    dsimp only
    rw [Function.update_of_ne (hOther i hLower hUpper)]
    exact hCore.element_eq i (Nat.le_of_succ_le hLower) hUpper
  · rw [hCore.returned_eq, List.take_add_one, List.map_append, hCommitted]
    rfl

end Window

end Core

end Spsc

end AtomicQueueRs
