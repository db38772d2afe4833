import AtomicQueueRs.Indexing
import AtomicQueueRs.Sequential

/-! What the queues are for: a bounded first-in first-out list. Used by one
thread, a queue with a power-of-two capacity refines it over any number of
calls, also after the counters have wrapped. -/
namespace AtomicQueueRs

set_option autoImplicit false

open Refinement (runAll Simulates)

variable {w : Nat} {T V C U O : Type}

/-- The bounded list queue. `push` on a full and `pop` on an empty list do not
return. `embed` is how a pop presents an element. -/
def listQueue (w capacity : Nat) (embed : T → V) :
    Call T → List T → Option (Return w V × List T)
  | .tryPush element, items =>
      if items.length < capacity then some (.tryPush true, items ++ [element])
      else some (.tryPush false, items)
  | .push element, items =>
      if items.length < capacity then some (.push, items ++ [element]) else none
  | .tryPop, [] => some (.tryPop none, [])
  | .tryPop, item :: items => some (.tryPop (some (embed item)), items)
  | .pop, [] => none
  | .pop, item :: items => some (.pop (embed item), items)
  | .observe .wasSize, items => some (.wasSize (BitVec.ofNat w items.length), items)
  | .observe .wasEmpty, items => some (.wasEmpty items.isEmpty, items)
  | .observe .wasFull, items => some (.wasFull (items.length == capacity), items)

/-- What the slot code does to a slot of its own: `content` is what a pop finds
in a slot, and the elements of `ok` can be told from an empty slot. -/
structure SlotSpec (code : SlotCode T V C U O) (content : C → Option V) (embed : T → V)
    (ok : T → Prop) : Prop where
  push : ∀ fuel element slot, ok element → content slot = none →
    ∃ slot', code.runPush (fuel + 3) (code.doPush element) slot = some slot' ∧
      content slot' = some (embed element)
  pop : ∀ fuel value slot, content slot = some value →
    ∃ slot', code.runPop (fuel + 3) code.doPop slot = some (value, slot') ∧ content slot' = none

/-- The memory holds the list, from the position that `tail` shows. -/
def Represents (q : Queue w) (content : C → Option V) (embed : T → V) (items : List T)
    (σ : Memory w C) : Prop :=
  ∃ start, σ.tail = BitVec.ofNat w start ∧ σ.head = BitVec.ofNat w (start + items.length) ∧
    Ring.Holds q.slotAt q.capacity.toNat (content ∘ σ.slots) start (items.map embed)

/-- The same with the position known. -/
def RepresentsFrom (q : Queue w) (content : C → Option V) (embed : T → V) (start : Nat)
    (items : List T) (σ : Memory w C) : Prop :=
  σ.tail = BitVec.ofNat w start ∧ σ.head = BitVec.ofNat w (start + items.length) ∧
    Ring.Holds q.slotAt q.capacity.toNat (content ∘ σ.slots) start (items.map embed)

section Represents

variable {q : Queue w} {code : SlotCode T V C U O} {content : C → Option V} {embed : T → V}
  {ok : T → Prop} {items : List T} {σ : Memory w C} {start : Nat}

/-- A new queue represents the empty list, at position 0. -/
theorem represents_new {empty : C} (h : content empty = none) :
    Represents q content embed ([] : List T) (Memory.new w empty) :=
  ⟨0, rfl, rfl, Ring.holds_nil fun _ _ => h⟩

theorem Represents.exists_start (h : Represents q content embed items σ) :
    ∃ start, RepresentsFrom q content embed start items σ :=
  h

/-- The wrapped difference of the counters is the length. -/
theorem RepresentsFrom.size (h : RepresentsFrom q content embed start items σ) :
    (σ.head - σ.tail).toNat = items.length ∧ items.length ≤ q.capacity.toNat := by
  obtain ⟨hTail, hHead, hHolds⟩ := h
  have hLength := hHolds.length_le
  rw [List.length_map] at hLength
  have hCapacity := q.capacity.isLt
  refine ⟨?_, hLength⟩
  rw [hTail, hHead, Usize.toNat_ofNat_sub_ofNat (Nat.le_add_right _ _) (by omega),
    Nat.add_sub_cancel_left]

/-- The counters are equal only for the empty list: a list of a whole range of
the counters would not fit into the slots. -/
theorem RepresentsFrom.tail_eq_head_iff (h : RepresentsFrom q content embed start items σ) :
    σ.tail = σ.head ↔ items = [] := by
  obtain ⟨hTail, hHead, hHolds⟩ := h
  have hLength := hHolds.length_le
  rw [List.length_map] at hLength
  have hCapacity := q.capacity.isLt
  rw [hTail, hHead]
  constructor
  · intro hEq
    have hSame := Usize.eq_of_ofNat_eq (Nat.le_add_right _ _) (by omega) hEq
    exact List.length_eq_zero_iff.mp (by omega)
  · rintro rfl
    rfl

/-- The test of `try_push` finds the queue full exactly when the list is,
although it is made on counters that may have wrapped. -/
theorem RepresentsFrom.le_size_iff (h : RepresentsFrom q content embed start items σ) :
    q.capacity ≤ σ.head - σ.tail ↔ ¬ items.length < q.capacity.toNat := by
  rw [BitVec.le_def, h.size.1, Nat.not_lt]

variable (code) in
/-- A non-blocking push that is not refused goes to its slot. -/
theorem RepresentsFrom.perform_tryPush (h : RepresentsFrom q content embed start items σ)
    (hRelease : q.build = .release) (fuel : Nat) (element : T) :
    q.perform code (fuel + 3) (.tryPush element) σ =
      if items.length < q.capacity.toNat then
        q.pushAt code fuel false σ.head element { σ with head := σ.head + 1#w }
      else some (.tryPush false, σ) := by
  rw [Queue.perform_tryPush, hRelease, Usize.sub_release, Option.bind_some,
    Queue.advance_release hRelease, Option.bind_some]
  split_ifs with hFull hLt hLt
  · exact (h.le_size_iff.mp hFull hLt).elim
  · rfl
  · rfl
  · exact (hFull (h.le_size_iff.mpr hLt)).elim

variable (code) in
/-- `try_pop` refuses exactly on the empty list, and otherwise goes on to the
slot of the position it takes. Three steps lead there. -/
theorem RepresentsFrom.perform_tryPop (h : RepresentsFrom q content embed start items σ)
    (hRelease : q.build = .release) (fuel : Nat) :
    q.perform code (fuel + 3) .tryPop σ =
      if items = [] then some (.tryPop none, σ)
      else q.popAt code fuel false σ.tail { σ with tail := σ.tail + 1#w } := by
  rw [Queue.perform_tryPop, Queue.advance_release hRelease, Option.bind_some]
  exact if_congr h.tail_eq_head_iff rfl rfl

/-- The slots in use are those of the positions from `tail` up to `head`. -/
theorem Represents.occupied_iff (h : Represents q content embed items σ) (hIndexed : q.Indexed)
    {slot : Nat} (hSlot : slot < q.capacity.toNat) :
    content (σ.slots slot) ≠ none ↔ ∃ position ∈ σ.window, q.getSlot position = some slot := by
  obtain ⟨start, hFrom⟩ := h.exists_start
  obtain ⟨hSize, hLength⟩ := hFrom.size
  obtain ⟨hTail, hHead, hHolds⟩ := hFrom
  have hOccupied := hHolds.occupied_iff hSlot
  rw [Function.comp_apply, List.length_map] at hOccupied
  have hCapacity := q.capacity.isLt
  have hWindow (position : Usize w) := AtomicQueueCommon.mem_window hHead hTail
    (Nat.le_add_right _ _) (by omega) position
  rw [hOccupied]
  constructor
  · rintro ⟨p, hLower, hUpper, rfl⟩
    exact ⟨_, (hWindow _).mpr ⟨p, hLower, hUpper, rfl⟩, hIndexed.getSlot_ofNat p⟩
  · rintro ⟨position, hMem, hGet⟩
    obtain ⟨p, hLower, hUpper, rfl⟩ := (hWindow position).mp hMem
    exact ⟨p, hLower, hUpper, Option.some.inj ((hIndexed.getSlot_ofNat p).symm.trans hGet)⟩

variable (hIndexed : q.Indexed) (hSpec : SlotSpec code content embed ok)

include hIndexed hSpec in
/-- A push at `head`, if the list's positions and the next one have different
slots. -/
theorem RepresentsFrom.push (h : RepresentsFrom q content embed start items σ)
    (hLt : items.length < q.capacity.toNat)
    (hInj : Set.InjOn q.slotAt (Set.Ico start (start + (items.length + 1))))
    {element : T} (hOk : ok element) (fuel : Nat) (blocking : Bool) :
    ∃ σ', q.pushAt code (fuel + 3) blocking σ.head element { σ with head := σ.head + 1#w } =
        some (if blocking then .push else .tryPush true, σ') ∧
      RepresentsFrom q content embed start (items ++ [element]) σ' := by
  obtain ⟨hTail, hHead, hHolds⟩ := h
  have hMapped : (items.map embed).length = items.length := List.length_map _
  rw [← hMapped] at hInj hLt
  have hNext := hHolds.next hInj (hIndexed.slotAt_lt _)
  have hPush := hHolds.push hLt hInj (embed element)
  rw [hMapped] at hNext hPush
  obtain ⟨slot', hRun, hContent⟩ := hSpec.push fuel element _ hOk hNext
  refine ⟨{ σ with
    head := σ.head + 1#w
    slots := Function.update σ.slots (q.slotAt (start + items.length)) slot' }, ?_, ?_⟩
  · rw [Queue.pushAt, hHead, hIndexed.getSlot_ofNat, Option.bind_some, hRun]
    rfl
  · refine ⟨hTail, ?_, ?_⟩
    · rw [List.length_append, List.length_singleton, ← Nat.add_assoc]
      exact (congrArg (· + 1#w) hHead).trans (Usize.ofNat_succ _).symm
    · dsimp only
      rw [Function.comp_update, hContent, List.map_append]
      exact hPush

include hIndexed hSpec in
/-- A pop at its slot finds the first element of the list. That the slots of the
list's positions are apart is a hypothesis here, as it can fail at the wrap. -/
theorem RepresentsFrom.pop {item : T}
    (h : RepresentsFrom q content embed start (item :: items) σ)
    (hInj : Set.InjOn q.slotAt (Set.Ico start (start + (items.length + 1)))) (fuel : Nat)
    (blocking : Bool) :
    ∃ σ', q.popAt code (fuel + 3) blocking σ.tail { σ with tail := σ.tail + 1#w } =
        some (if blocking then .pop (embed item) else .tryPop (some (embed item)), σ') ∧
      RepresentsFrom q content embed (start + 1) items σ' := by
  obtain ⟨hTail, hHead, hHolds⟩ := h
  have hMapped : (items.map embed).length = items.length := List.length_map _
  rw [← hMapped] at hInj
  obtain ⟨slot', hRun, hContent⟩ := hSpec.pop fuel (embed item) _ hHolds.front
  refine ⟨{ σ with
    tail := σ.tail + 1#w
    slots := Function.update σ.slots (q.slotAt start) slot' }, ?_, ?_⟩
  · rw [Queue.popAt, hTail, hIndexed.getSlot_ofNat, Option.bind_some, hRun]
    rfl
  · refine ⟨?_, ?_, ?_⟩
    · exact (congrArg (· + 1#w) hTail).trans (Usize.ofNat_succ _).symm
    · rw [hHead, List.length_cons, Nat.add_assoc, Nat.add_comm 1]
    · dsimp only
      rw [Function.comp_update, hContent]
      exact hHolds.pop hInj

variable (hLayout : Ring.Layout q.slotAt q.capacity.toNat)

include hIndexed hLayout hSpec in
/-- A push at its slot finds it empty if the list is not full, and appends to
the list. -/
theorem Represents.push (h : Represents q content embed items σ) (hLt : items.length < q.capacity.toNat)
    {element : T} (hOk : ok element) (fuel : Nat) (blocking : Bool) :
    ∃ σ', q.pushAt code (fuel + 3) blocking σ.head element { σ with head := σ.head + 1#w } =
        some (if blocking then .push else .tryPush true, σ') ∧
      Represents q content embed (items ++ [element]) σ' := by
  obtain ⟨start, hFrom⟩ := h.exists_start
  obtain ⟨σ', hPush, hAfter⟩ :=
    hFrom.push hIndexed hSpec hLt (hLayout.injOn hLt) hOk fuel blocking
  exact ⟨σ', hPush, start, hAfter⟩

include hIndexed hLayout hSpec in
/-- A pop at its slot takes the first element off the list. -/
theorem Represents.pop {item : T} (h : Represents q content embed (item :: items) σ) (fuel : Nat)
    (blocking : Bool) :
    ∃ σ', q.popAt code (fuel + 3) blocking σ.tail { σ with tail := σ.tail + 1#w } =
        some (if blocking then .pop (embed item) else .tryPop (some (embed item)), σ') ∧
      Represents q content embed items σ' := by
  obtain ⟨start, hFrom⟩ := h.exists_start
  obtain ⟨σ', hPop, hAfter⟩ :=
    hFrom.pop hIndexed hSpec (hLayout.injOn hFrom.size.2) fuel blocking
  exact ⟨σ', hPop, start + 1, hAfter⟩

include hIndexed hLayout hSpec in
/-- Every call on its own does what the bounded list does. -/
theorem simulates (hRelease : q.build = .release) (fuel : Nat) :
    Simulates (listQueue w q.capacity.toNat embed) (q.perform code (fuel + 6))
      (fun operation => ∀ element, operation.element = some element → ok element)
      (Represents q content embed) := by
  intro operation items σ result items' hOk h hList
  obtain ⟨start, hFrom⟩ := h.exists_start
  have hSize := hFrom.size.1
  have hWord : σ.head - σ.tail = BitVec.ofNat w items.length := by
    rw [← hSize, BitVec.ofNat_toNat, BitVec.setWidth_eq]
  cases operation with
  | tryPush element =>
      rw [hFrom.perform_tryPush code hRelease]
      simp only [listQueue] at hList
      split_ifs at hList with hLt
      · obtain ⟨rfl, rfl⟩ := Prod.mk.inj (Option.some.inj hList)
        rw [if_pos hLt]
        exact h.push hIndexed hSpec hLayout hLt (hOk element rfl) fuel false
      · obtain ⟨rfl, rfl⟩ := Prod.mk.inj (Option.some.inj hList)
        exact ⟨σ, if_neg hLt, h⟩
  | push element =>
      simp only [listQueue] at hList
      split_ifs at hList with hLt
      obtain ⟨rfl, rfl⟩ := Prod.mk.inj (Option.some.inj hList)
      rw [Queue.perform_push]
      exact h.push hIndexed hSpec hLayout hLt (hOk element rfl) (fuel + 2) true
  | tryPop =>
      rw [hFrom.perform_tryPop code hRelease]
      cases items with
      | nil =>
          obtain ⟨rfl, rfl⟩ := Prod.mk.inj (Option.some.inj hList)
          exact ⟨σ, if_pos rfl, h⟩
      | cons item items =>
          obtain ⟨rfl, rfl⟩ := Prod.mk.inj (Option.some.inj hList)
          rw [if_neg (List.cons_ne_nil item items)]
          exact h.pop hIndexed hSpec hLayout fuel false
  | pop =>
      cases items with
      | nil => contradiction
      | cons item items =>
          obtain ⟨rfl, rfl⟩ := Prod.mk.inj (Option.some.inj hList)
          rw [Queue.perform_pop]
          exact h.pop hIndexed hSpec hLayout (fuel + 2) true
  | observe observer =>
      rw [Queue.perform_observe, hRelease]
      cases observer with
      | wasSize =>
          obtain ⟨rfl, rfl⟩ := Prod.mk.inj (Option.some.inj hList)
          exact ⟨σ, by rw [Observer.result, Usize.sub_release, hWord]; rfl, h⟩
      | wasEmpty =>
          obtain ⟨rfl, rfl⟩ := Prod.mk.inj (Option.some.inj hList)
          have hEmpty : (σ.head == σ.tail) = items.isEmpty := by
            rw [Bool.eq_iff_iff, beq_iff_eq, List.isEmpty_iff, eq_comm]
            exact hFrom.tail_eq_head_iff
          exact ⟨σ, by rw [Observer.result, hEmpty]; rfl, h⟩
      | wasFull =>
          obtain ⟨rfl, rfl⟩ := Prod.mk.inj (Option.some.inj hList)
          have hSame : (σ.head - σ.tail == q.capacity) = (items.length == q.capacity.toNat) := by
            rw [Bool.eq_iff_iff, beq_iff_eq, beq_iff_eq, ← BitVec.toNat_inj, hSize]
          exact ⟨σ, by rw [Observer.result, Usize.sub_release, Option.map_some, hSame]; rfl, h⟩

/-- From the new queue on, every sequence of calls that the list queue returns
from returns with the same results, and the memory holds the list. -/
theorem represents_of_runAll (hPower : ∃ k, q.capacity.toNat = 2 ^ k)
    (hIndexed : 0 < q.capacity.toNat → q.Indexed) (hSpec : SlotSpec code content embed ok)
    (hRelease : q.build = .release) {empty : C} (hEmpty : content empty = none)
    {operations : List (Call T)}
    (hOk : ∀ operation ∈ operations, ∀ element, operation.element = some element → ok element)
    {results : List (Return w V)}
    (hList : runAll (listQueue w q.capacity.toNat embed) operations [] = some (results, items)) :
    ∃ σ, runAll (q.perform code 6) operations (Memory.new w empty) = some (results, σ) ∧
      Represents q content embed items σ := by
  have hPos : 0 < q.capacity.toNat := by
    obtain ⟨k, hk⟩ := hPower
    rw [hk]
    exact Nat.two_pow_pos k
  have hSimulates := simulates (hIndexed hPos) hSpec ((hIndexed hPos).layout hPower) hRelease 0
  exact hSimulates.runAll hOk (represents_new hEmpty) hList

end Represents

end AtomicQueueRs
