import AtomicQueueRs.Cells
import AtomicQueueRs.ListQueue

/-! Both families of queues, used by one thread, are the bounded list queue of
their capacity. A slot of the flagged queues holds an element while its flag is
set; a slot of the others while its word is not the empty one. -/
namespace AtomicQueueRs

set_option autoImplicit false

open Refinement (runAll runAll_cons_eq_some)

variable {w : Nat} {T : Type}

namespace AtomicQueue2

/-- What a pop finds in a slot. -/
def content (slot : Slot T) : Option (Option T) :=
  if slot.state = .full then some slot.element else none

theorem content_new : content (Slot.new T) = none := rfl

theorem content_eq_none_iff {slot : Slot T} : content slot = none ↔ slot.state = .empty := by
  unfold content
  cases slot.state <;> simp

theorem content_eq_some_iff {slot : Slot T} {value : Option T} :
    content slot = some value ↔ slot.state = .full ∧ slot.element = value := by
  unfold content
  cases slot.state <;> simp

/-- Without other threads no loop of `do_push_any` and `do_pop_any` turns. -/
theorem slotSpec (maximizeThroughput spsc : Bool) :
    SlotSpec (slotCode T maximizeThroughput spsc) content some fun _ => True where
  push := by
    intro fuel element slot _ hVacant
    have hState := content_eq_none_iff.mp hVacant
    refine ⟨{ state := .full, element := some element }, ?_, rfl⟩
    cases spsc <;> simp [SlotCode.runPush, slotCode, pushStep, hState]
  pop := by
    intro fuel value slot hFull
    obtain ⟨hState, hElement⟩ := content_eq_some_iff.mp hFull
    refine ⟨{ slot with state := .empty }, ?_, rfl⟩
    cases spsc <;> simp [SlotCode.runPop, slotCode, popStep, hState, hElement]

section Waits

variable {maximizeThroughput spsc : Bool}

/-- At a full slot a push waits for ever. -/
theorem runPush_eq_none {slot : Slot T} (hFull : slot.state = .full) (fuel : Nat) (value : T) :
    (slotCode T maximizeThroughput spsc).runPush fuel
      ((slotCode T maximizeThroughput spsc).doPush value) slot = none := by
  induction fuel with
  | zero => rfl
  | succ fuel ih =>
      cases spsc with
      | true => simpa [SlotCode.runPush, slotCode, pushStep, hFull] using ih
      | false => simpa [SlotCode.runPush, slotCode, pushStep, hFull] using ih

/-- At an empty slot a pop waits for ever, in one loop or the other. -/
theorem runPop_eq_none {slot : Slot T} (hEmpty : slot.state = .empty) (fuel : Nat)
    {pc : DoPopAny T} (hPc : pc = .loadState ∨ pc = .compareExchange ∨ pc = .spin) :
    (slotCode T maximizeThroughput spsc).runPop fuel pc slot = none := by
  induction fuel generalizing pc with
  | zero => rfl
  | succ fuel ih =>
      rcases hPc with rfl | rfl | rfl
      · simpa [SlotCode.runPop, slotCode, popStep, hEmpty] using ih (.inl rfl)
      · cases maximizeThroughput with
        | true => simpa [SlotCode.runPop, slotCode, popStep, hEmpty] using ih (.inr (.inr rfl))
        | false => simpa [SlotCode.runPop, slotCode, popStep, hEmpty] using ih (.inr (.inl rfl))
      · simpa [SlotCode.runPop, slotCode, popStep, hEmpty] using ih (.inr (.inr rfl))

/-- A push returns only from an empty slot, and fills it. -/
theorem runPush_eq_some {fuel : Nat} {value : T} {slot slot' : Slot T}
    (h : (slotCode T maximizeThroughput spsc).runPush fuel
      ((slotCode T maximizeThroughput spsc).doPush value) slot = some slot') :
    slot.state = .empty ∧ slot' = { state := .full, element := some value } := by
  cases hState : slot.state with
  | full =>
      rw [runPush_eq_none hState] at h
      contradiction
  | empty =>
      refine ⟨rfl, ?_⟩
      rcases fuel with _ | _ | _ | fuel <;> cases spsc <;>
        simp [SlotCode.runPush, slotCode, pushStep, hState] at h <;> exact h.symm

/-- A pop returns only from a full slot, and takes what it holds. -/
theorem runPop_eq_some {fuel : Nat} {value : Option T} {slot slot' : Slot T}
    (h : (slotCode T maximizeThroughput spsc).runPop fuel
      (slotCode T maximizeThroughput spsc).doPop slot = some (value, slot')) :
    slot.state = .full ∧ value = slot.element ∧ slot' = { slot with state := .empty } := by
  cases hState : slot.state with
  | empty =>
      have hPc : (slotCode T maximizeThroughput spsc).doPop = .loadState ∨
          (slotCode T maximizeThroughput spsc).doPop = .compareExchange ∨
          (slotCode T maximizeThroughput spsc).doPop = .spin := by
        cases spsc <;> simp [slotCode]
      rw [runPop_eq_none hState fuel hPc] at h
      contradiction
  | full =>
      refine ⟨rfl, ?_⟩
      rcases fuel with _ | _ | _ | fuel <;> cases spsc <;>
        simp [SlotCode.runPop, slotCode, popStep, hState] at h <;> exact ⟨h.1.symm, h.2.symm⟩

end Waits

end AtomicQueue2

/-- A queue with a power-of-two capacity, used by one thread, returns from
every call within six steps and hands back what the list queue does. -/
theorem fifo_of_powerOfTwo {target : Target w} {totalOrder : Bool} {q : Queue w}
    (hq : IsAtomicQueue2 target totalOrder q) (hRelease : target.build = .release)
    (hPower : ∃ k, q.capacity.toNat = 2 ^ k) (maximizeThroughput spsc : Bool)
    {operations : List (Call T)} {results : List (Return w (Option T))} {items : List T}
    (hList : runAll (listQueue w q.capacity.toNat some) operations [] = some (results, items)) :
    ∃ σ, runAll (q.perform (AtomicQueue2.slotCode T maximizeThroughput spsc) 6) operations
      (Memory.new w (Slot.new T)) = some (results, σ) := by
  obtain ⟨σ, hRun, _⟩ := represents_of_runAll hPower hq.indexed
    (AtomicQueue2.slotSpec maximizeThroughput spsc) (hq.build_eq.trans hRelease)
    AtomicQueue2.content_new (fun _ _ _ _ => trivial) hList
  exact ⟨σ, hRun⟩

/-- A full queue refuses, an empty one has nothing, and elements leave in order. -/
theorem fifo_twoSlots : ∃ σ, runAll
    ((AtomicQueue2.twoSlots false).perform (AtomicQueue2.slotCode Nat true false) 6)
    [.tryPush 7, .push 8, .tryPush 9, .observe .wasFull, .pop, .tryPush 9, .observe .wasSize,
      .tryPop, .tryPop, .tryPop, .observe .wasEmpty] (Memory.new 64 (Slot.new Nat)) =
    some ([.tryPush true, .push, .tryPush false, .wasFull true, .pop (some 7), .tryPush true,
      .wasSize 2#64, .tryPop (some (some 8)), .tryPop (some (some 9)), .tryPop none,
      .wasEmpty true], σ) :=
  fifo_of_powerOfTwo (.fixed _ _ (AtomicQueue2.new_twoSlots false)) rfl ⟨1, rfl⟩ true false rfl

section Words

variable [Element T]

namespace AtomicQueue

/-- What a pop finds in a slot. -/
def content (bigEndian : Bool) (raw : Usize w) : Option T :=
  (AtomicValue.load bigEndian raw).filter (¬ Element.IsDefault ·)

theorem content_eq_some_iff {bigEndian : Bool} {raw : Usize w} {value : T} :
    content bigEndian raw = some value ↔
      AtomicValue.load bigEndian raw = some value ∧ ¬ Element.IsDefault value := by
  rw [content, Option.filter_eq_some_iff, decide_eq_true_eq]

theorem content_eq_none_of_vacant {bigEndian : Bool} {raw : Usize w}
    (hVacant : AtomicValue.Vacant T bigEndian raw) : (content bigEndian raw : Option T) = none := by
  rw [Option.eq_none_iff_forall_ne_some]
  intro value hSome
  obtain ⟨hLoad, hValue⟩ := content_eq_some_iff.mp hSome
  exact AtomicValue.not_vacant_of_load hLoad hValue hVacant

/-- A slot is occupied when it does not read as empty. -/
theorem content_ne_none_iff (hBits : Element.bits T = w) {bigEndian : Bool} {raw : Usize w} :
    (content bigEndian raw : Option T) ≠ none ↔ ¬ AtomicValue.Vacant T bigEndian raw := by
  constructor
  · exact fun hContent hVacant => hContent (content_eq_none_of_vacant hVacant)
  · intro hFull hNone
    have hLoad : AtomicValue.load bigEndian raw =
        some (Element.ofBits (raw.setWidth (Element.bits T)) : T) := by
      rw [AtomicValue.load, transmuteCopy_of_eq hBits.symm, Option.map_some]
    refine hFull ⟨_, hLoad, ?_⟩
    by_contra hValue
    rw [content_eq_some_iff.mpr ⟨hLoad, hValue⟩] at hNone
    contradiction

/-- A push returns at once, whatever its slot holds, and leaves the element's
word there. -/
theorem runPush_eq_some (hBits : Element.bits T = w) {bigEndian : Bool} {fuel : Nat} {element : T}
    {raw raw' : Usize w}
    (h : (slotCode w T bigEndian).runPush fuel (.store element) raw = some raw') :
    raw' = AtomicValue.raw w element := by
  cases fuel with
  | zero => contradiction
  | succ fuel =>
      simp only [SlotCode.runPush, slotCode, pushStep, AtomicValue.store_eq hBits,
        Option.some.injEq] at h
      exact h.symm

/-- A consumer leaves its wait loop only with a value that does not compare
equal to the default, and it leaves the word of the default value behind. -/
theorem runPop_eq_some {bigEndian : Bool} {fuel : Nat} {value : T} {raw raw' : Usize w}
    (h : (slotCode w T bigEndian).runPop fuel .load raw = some (value, raw')) :
    AtomicValue.load bigEndian raw = some value ∧ ¬ Element.IsDefault value ∧
      AtomicValue.store w bigEndian (Element.default : T) = some raw' := by
  induction fuel with
  | zero => contradiction
  | succ fuel ih =>
      simp only [SlotCode.runPop, slotCode, popStep] at h
      cases hLoad : (AtomicValue.load bigEndian raw : Option T) with
      | none => simp [hLoad] at h
      | some current =>
          simp only [hLoad] at h
          split_ifs at h with hDefault
          · exact hLoad ▸ ih h
          · cases fuel with
            | zero => contradiction
            | succ fuel =>
                simp only [SlotCode.runPop, popStep] at h
                cases hStore : AtomicValue.store w bigEndian (Element.default : T) with
                | none => simp [hStore] at h
                | some stored =>
                    simp only [hStore, Option.some.injEq, Prod.mk.injEq] at h
                    obtain ⟨rfl, rfl⟩ := h
                    exact ⟨rfl, hDefault, rfl⟩

/-- A consumer that finds an element does not wait. -/
theorem exists_runPop (hBits : Element.bits T = w) {bigEndian : Bool} {value : T} {raw : Usize w}
    (hLoad : AtomicValue.load bigEndian raw = some value) (hValue : ¬ Element.IsDefault value)
    (fuel : Nat) : (slotCode w T bigEndian).runPop (fuel + 3) .load raw =
      some (value, AtomicValue.raw w (Element.default : T)) := by
  simp [SlotCode.runPop, slotCode, popStep, hLoad, hValue, AtomicValue.store_eq hBits]

/-- Storing an element that does not compare equal to the default occupies a
slot, and emptying the slot leaves one that reads as empty. -/
theorem slotSpec (hBits : Element.bits T = w) (hZero : Element.ZeroDefault T) (bigEndian : Bool) :
    SlotSpec (slotCode w T bigEndian) (content bigEndian) id (¬ Element.IsDefault ·) where
  push := by
    intro fuel element raw hValue _
    refine ⟨AtomicValue.raw w element, ?_, ?_⟩
    · simp [SlotCode.runPush, slotCode, pushStep, AtomicValue.store_eq hBits]
    · exact content_eq_some_iff.mpr ⟨AtomicValue.load_raw hBits bigEndian element, hValue⟩
  pop := by
    intro fuel value raw hOccupied
    obtain ⟨hLoad, hValue⟩ := content_eq_some_iff.mp hOccupied
    refine ⟨AtomicValue.raw w (Element.default : T), exists_runPop hBits hLoad hValue fuel, ?_⟩
    exact content_eq_none_of_vacant
      (AtomicValue.vacant_of_store_default hBits hZero (AtomicValue.store_eq hBits bigEndian _))

/-- A requested size up to half the range of `usize` is rounded up as asked. -/
theorem capacity_of_size_le {target : Target w} {q : Queue w} {size : Usize w}
    (hq : new target size = some q ∨ AtomicQueueB.new target size = some q)
    (hSize : size.toNat ≤ 2 ^ (w - 1)) : ∃ k, q.capacity.toNat = 2 ^ k := by
  rcases hq with hq | hq
  · exact exists_two_pow_of_le target.width (new_eq_some hq).1 hSize
  · exact exists_two_pow_of_le target.width (AtomicQueueB.new_eq_some hq).1
      (AtomicQueueB.raised_le target.width hSize)

/-- The bounded list queue, for one thread that offers no element that compares
equal to the default: all calls return, with the list's results, and afterwards
the slots of the positions from `tail` up to `head` and no others are occupied. -/
def ActsAsFifo (q : Queue w) (T : Type) [Element T] (bigEndian : Bool) : Prop :=
  ∀ (operations : List (Call T)) (results : List (Return w T)) (items : List T),
    (∀ operation ∈ operations, ∀ element,
      operation.element = some element → ¬ Element.IsDefault element) →
    runAll (listQueue w q.capacity.toNat id) operations [] = some (results, items) →
    ∃ σ, runAll (q.perform (slotCode w T bigEndian) 6) operations
        (Memory.new w (AtomicValue.new w)) = some (results, σ) ∧
      ∀ slot < q.capacity.toNat, ¬ AtomicValue.Vacant T bigEndian (σ.slots slot) ↔
        ∃ position ∈ σ.window, q.getSlot position = some slot

section Fifo

variable {q : Queue w} {bigEndian : Bool}

/-- Where the zero word and the default value both read as empty. -/
theorem actsAsFifo_of_zeroDefault (hIndexed : 0 < q.capacity.toNat → q.Indexed)
    (hPower : ∃ k, q.capacity.toNat = 2 ^ k) (hRelease : q.build = .release)
    (hBits : Element.bits T = w) (hZero : Element.ZeroDefault T) : ActsAsFifo q T bigEndian := by
  intro operations results items hOperations hList
  obtain ⟨σ, hRun, hRepresents⟩ := represents_of_runAll hPower hIndexed
    (slotSpec hBits hZero bigEndian) hRelease
    (content_eq_none_of_vacant (AtomicValue.vacant_new hZero hBits.le bigEndian)) hOperations hList
  refine ⟨σ, hRun, fun slot hSlot => ?_⟩
  rw [← content_ne_none_iff hBits]
  exact hRepresents.occupied_iff (hIndexed (Nat.zero_lt_of_lt hSlot)) hSlot

theorem window_eq_nil {common : AtomicQueueCommon w} (h : common.tail = common.head) :
    common.window = [] := by
  rw [AtomicQueueCommon.window, h, BitVec.sub_self]
  rfl

/-- With no call made, no slot may be occupied. -/
theorem ActsAsFifo.zero (h : ActsAsFifo q T bigEndian) (hPos : 0 < q.capacity.toNat)
    (hBits : Element.bits T = w) : Element.IsDefault (Element.ofBits 0#(Element.bits T) : T) := by
  obtain ⟨σ, hRun, hSlots⟩ := h [] [] [] (by simp) rfl
  obtain ⟨_, rfl⟩ := Prod.mk.inj (Option.some.inj hRun)
  by_contra hValue
  obtain ⟨position, hMem, _⟩ := (hSlots 0 hPos).mp
    (AtomicValue.not_vacant_of_load (AtomicValue.load_new hBits.le bigEndian) hValue)
  rw [window_eq_nil rfl] at hMem
  contradiction

/-- Were `T::default()` not equal to itself, it could be pushed and popped, and
the emptied slot would read as occupied. -/
theorem ActsAsFifo.self (h : ActsAsFifo q T bigEndian) (hIndexed : q.Indexed)
    (hPos : 0 < q.capacity.toNat) (hBits : Element.bits T = w) :
    Element.IsDefault (Element.default : T) := by
  by_contra hValue
  obtain ⟨σ, hRun, hSlots⟩ := h [.push Element.default, .pop] [.push, .pop Element.default] []
    (by simp [Call.element, hValue]) (by simp [runAll, listQueue, hPos])
  obtain ⟨_, middle, _, hPush, hRest, _⟩ := runAll_cons_eq_some.mp hRun
  obtain ⟨_, last, _, hPop, hNil, _⟩ := runAll_cons_eq_some.mp hRest
  obtain ⟨_, rfl⟩ := Prod.mk.inj (Option.some.inj hNil)
  obtain ⟨own, hLt, hOwn⟩ := hIndexed.exists_getSlot 0#w
  rw [Queue.perform_push, Queue.pushAt, Option.bind_eq_some_iff] at hPush
  obtain ⟨_, _, hPush⟩ := hPush
  obtain ⟨_, _, hMiddle⟩ := Option.map_eq_some_iff.mp hPush
  obtain ⟨_, rfl⟩ := Prod.mk.inj hMiddle
  rw [Queue.perform_pop, Queue.popAt, show (Memory.new w (AtomicValue.new w)).tail = 0#w from rfl,
    hOwn, Option.bind_some] at hPop
  obtain ⟨⟨_, raw⟩, hTaken, hLast⟩ := Option.map_eq_some_iff.mp hPop
  obtain ⟨_, rfl⟩ := Prod.mk.inj hLast
  have hStore := (runPop_eq_some hTaken).2.2
  rw [AtomicValue.store_eq hBits] at hStore
  obtain rfl := Option.some.inj hStore
  obtain ⟨position, hMem, _⟩ := (hSlots own hLt).mp (by
    dsimp only
    rw [Function.update_self]
    exact AtomicValue.not_vacant_of_load (AtomicValue.load_raw hBits bigEndian _) hValue)
  rw [window_eq_nil rfl] at hMem
  contradiction

end Fifo

end AtomicQueue

/-- Queues of words are the bounded list queue of their capacity exactly for the
element types whose default value marks both the new slots and the emptied ones. -/
theorem fifo_iff_zeroDefault {target : Target w} {q : Queue w} {size : Usize w}
    (hq : AtomicQueue.new target size = some q ∨ AtomicQueueB.new target size = some q)
    (hSize : size.toNat ≤ 2 ^ (w - 1)) (hRelease : target.build = .release)
    (hBits : Element.bits T = w) (bigEndian : Bool) :
    AtomicQueue.ActsAsFifo q T bigEndian ↔ Element.ZeroDefault T := by
  have hIs : IsAtomicQueue target q := hq.elim (.fixed size) (.runtime size)
  have hPower := AtomicQueue.capacity_of_size_le hq hSize
  have hPos : 0 < q.capacity.toNat := by
    obtain ⟨k, hk⟩ := hPower
    rw [hk]
    exact Nat.two_pow_pos k
  constructor
  · exact fun h => ⟨h.zero hPos hBits, h.self (hIs.indexed hPos) hPos hBits⟩
  · exact AtomicQueue.actsAsFifo_of_zeroDefault hIs.indexed hPower (hIs.build_eq.trans hRelease) hBits

end Words

theorem fifo_oneSlot : ∃ σ, runAll
    (AtomicQueue.oneSlot.perform (AtomicQueue.slotCode 64 (BitVec 64) false) 6)
    [.push 7#64, .tryPush 8#64, .observe .wasFull, .tryPop, .tryPop, .tryPush 9#64,
      .observe .wasSize, .pop, .observe .wasEmpty, .push 7#64]
    (Memory.new 64 (AtomicValue.new 64)) =
    some ([.push, .tryPush false, .wasFull true, .tryPop (some 7#64), .tryPop none, .tryPush true,
      .wasSize 1#64, .pop 9#64, .wasEmpty true, .push], σ) ∧
    ∀ slot < 1, ¬ AtomicValue.Vacant (BitVec 64) false (σ.slots slot) ↔
      ∃ position ∈ σ.window, AtomicQueue.oneSlot.getSlot position = some slot :=
  (fifo_iff_zeroDefault (.inl AtomicQueue.new_oneSlot) (by decide) rfl rfl false).mpr
    (Element.zeroDefault 64) _ _ _ (by simp [Call.element]) rfl

/-- An element type of a user of the crate. No handle has the number
`usize::MAX`, so that is the default one. -/
structure Handle where
  number : BitVec 64
  deriving DecidableEq

instance : Element Handle where
  bits := 64
  toBits handle := handle.number
  ofBits number := ⟨number⟩
  default := ⟨BitVec.allOnes 64⟩
  eq handle handle' := handle.number == handle'.number
  ofBits_toBits _ := rfl

/-- On a new queue of handles every slot is already occupied, by a handle with
the number 0 that nobody has pushed; `pop` would return it. -/
theorem oneSlot_new_occupied :
    (∀ slot, AtomicValue.load false ((Memory.new 64 (AtomicValue.new 64)).slots slot) =
      some (⟨0#64⟩ : Handle)) ∧
    (Memory.new 64 (AtomicValue.new 64)).window = [] ∧
    (∃ σ, AtomicQueue.oneSlot.perform (AtomicQueue.slotCode 64 Handle false) 6 .pop
      (Memory.new 64 (AtomicValue.new 64)) = some (.pop ⟨0#64⟩, σ)) ∧
    ¬ AtomicQueue.ActsAsFifo AtomicQueue.oneSlot Handle false := by
  refine ⟨fun _ => rfl, rfl, ⟨_, rfl⟩, fun hFifo => ?_⟩
  have hDefault : Element.IsDefault (⟨0#64⟩ : Handle) := hFifo.zero (by decide) rfl
  revert hDefault
  decide

end AtomicQueueRs
