import AtomicQueueRs.Arch
import AtomicQueueRs.Common

/-! `src/atomic_queue2.rs`: queues for elements of any type. A slot is a flag
and uninitialised storage for one element, accessed in separate steps. -/
namespace AtomicQueueRs

set_option autoImplicit false

variable {w : Nat} {T : Type}

/-- The two values an `AtomicU8` state takes. -/
inductive Flag where
  | empty
  | full
  deriving DecidableEq, Repr

/-- `element` is a `MaybeUninit`: `none` is storage never written to. -/
structure Slot (T : Type) where
  state : Flag
  element : Option T
  deriving DecidableEq, Repr

def Slot.new (T : Type) : Slot T := { state := .empty, element := none }

/-- Program counters of `do_push_any`; the first three are its `SPSC` branch. -/
inductive DoPushAny (T : Type) where
  | loadState (value : T)
  | writeElement (value : T)
  | storeFull
  | compareExchange (value : T)
  | write (value : T)
  deriving DecidableEq, Repr

/-- Program counters of `do_pop_any`; the first three are its `SPSC` branch.
`spin` is the speculative inner loop. -/
inductive DoPopAny (T : Type) where
  | loadState
  | readElement
  | storeEmpty (value : Option T)
  | compareExchange
  | spin
  | read
  deriving DecidableEq, Repr

namespace AtomicQueue2

/-- A step of `do_push_any`. Pausing between attempts is not a step. -/
def pushStep : DoPushAny T → Slot T → Slot T × List (Access T (Option T)) × Outcome (DoPushAny T) Unit
  | .loadState value, slot =>
      (slot, [], .goto (if slot.state = .empty then .writeElement value else .loadState value))
  | .writeElement value, slot =>
      ({ slot with element := some value }, [.write value], .goto .storeFull)
  | .storeFull, slot => ({ slot with state := .full }, [.fill], .done ())
  | .compareExchange value, slot =>
      if slot.state = .empty then ({ slot with state := .full }, [.fill], .goto (.write value))
      else (slot, [], .goto (.compareExchange value))
  | .write value, slot => ({ slot with element := some value }, [.write value], .done ())

/-- A step of `do_pop_any`. Reading moves the bytes out and leaves them. -/
def popStep (maximizeThroughput : Bool) :
    DoPopAny T → Slot T → Slot T × List (Access T (Option T)) × Outcome (DoPopAny T) (Option T)
  | .loadState, slot =>
      (slot, [], .goto (if slot.state = .full then .readElement else .loadState))
  | .readElement, slot => (slot, [.read slot.element], .goto (.storeEmpty slot.element))
  | .storeEmpty value, slot => ({ slot with state := .empty }, [.drain], .done value)
  | .compareExchange, slot =>
      if slot.state = .full then ({ slot with state := .empty }, [.drain], .goto .read)
      else (slot, [], .goto (if maximizeThroughput then .spin else .compareExchange))
  | .spin, slot => (slot, [], .goto (if slot.state = .empty then .spin else .compareExchange))
  | .read, slot => (slot, [.read slot.element], .done slot.element)

/-- `do_push_any` and `do_pop_any`, which both queues repeat word for word. -/
def slotCode (T : Type) (maximizeThroughput spsc : Bool) :
    SlotCode T (Option T) (Slot T) (DoPushAny T) (DoPopAny T) where
  doPush value := if spsc then .loadState value else .compareExchange value
  doPop := if spsc then .loadState else .compareExchange
  pushStep := pushStep
  popStep := popStep maximizeThroughput

abbrev Local (w : Nat) (T : Type) := Pc w T (DoPushAny T) (DoPopAny T)

abbrev Config (w : Nat) (T : Type) := State w T (Slot T) (DoPushAny T) (DoPopAny T)

/-- Remainder by zero and both slice accesses are checked. -/
def getSlot (capacity : Usize w) (shuffleBits : Nat) (index : Usize w) : Option Nat :=
  if capacity = 0#w then none
  else
    let remappedIndex := remapIndex (index % capacity) shuffleBits
    if remappedIndex < capacity then some remappedIndex.toNat else none

/-- Round up only if minimizing contention. -/
def capacity (build : Build) (minimizeContention : Bool) (size : Usize w) : Option (Usize w) :=
  if minimizeContention then roundUpToPowerOf2 build size else some size

def new (target : Target w) (size : Usize w) (minimizeContention totalOrder : Bool) :
    Option (Queue w) := do
  let capacity ← capacity target.build minimizeContention size
  let elementsPerCacheLine := target.cacheLineSize / target.sizeOfPaddedState
  let shuffleBits := getIndexShuffleBits minimizeContention capacity elementsPerCacheLine
  if target.allocates capacity then
    some
      { build := target.build
        capacity
        getSlot := getSlot capacity shuffleBits
        totalOrder }
  else none

/-- `AtomicQueue2<_, 2>`, whose two slots are not shuffled. -/
def twoSlots (totalOrder : Bool) : Queue 64 where
  build := .release
  capacity := 2#64
  getSlot := getSlot 2#64 0
  totalOrder

theorem new_twoSlots (totalOrder : Bool) :
    new Target.x86_64 2#64 true totalOrder = some (twoSlots totalOrder) := rfl

end AtomicQueue2

namespace AtomicQueueB2

/-- The raw pointer offset is not checked against the capacity. -/
def getSlot (build : Build) (capacity : Usize w) (shuffleBits : Nat) (index : Usize w) :
    Option Nat := do
  let mask ← Usize.sub build capacity 1#w
  some (remapIndex (index &&& mask) shuffleBits).toNat

def new (target : Target w) (size : Usize w) (totalOrder : Bool) : Option (Queue w) := do
  let capacity ← roundUpToPowerOf2 target.build size
  let elementsPerCacheLine := target.cacheLineSize / target.sizeOfPaddedState
  let shuffleBits := getIndexShuffleBits true capacity elementsPerCacheLine
  if target.allocates capacity then
    some
      { build := target.build
        capacity
        getSlot := getSlot target.build capacity shuffleBits
        totalOrder }
  else none

end AtomicQueueB2

/-- A queue built by `AtomicQueue2::new` or `AtomicQueueB2::new`. -/
inductive IsAtomicQueue2 (target : Target w) (totalOrder : Bool) (q : Queue w) : Prop where
  | fixed (size : Usize w) (minimizeContention : Bool)
      (h : AtomicQueue2.new target size minimizeContention totalOrder = some q)
  | runtime (size : Usize w) (h : AtomicQueueB2.new target size totalOrder = some q)

end AtomicQueueRs
