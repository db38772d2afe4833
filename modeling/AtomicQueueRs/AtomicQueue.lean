import AtomicQueueRs.Arch
import AtomicQueueRs.Common

/-! `src/atomic_queue.rs`: queues whose slots are single atomic words. There
is no flag; a slot that holds the default value counts as empty. -/
namespace AtomicQueueRs

set_option autoImplicit false

variable {w : Nat}

/-- The `Element` trait with its supertraits: the bytes of a value as one bit
string of `8 * size_of` bits (`Copy`), `Default::default` and `PartialEq::eq`.
Reading a value's own bytes gives the value; nothing else ties these together,
as a type outside the crate may implement them in any way. -/
class Element (T : Type) where
  bits : Nat
  toBits : T → BitVec bits
  ofBits : BitVec bits → T
  default : T
  eq : T → T → Bool
  ofBits_toBits : ∀ value, ofBits (toBits value) = value

namespace Element

variable {T : Type} [Element T]

/-- Values are told apart by their bytes, whatever `PartialEq` makes of them. -/
theorem toBits_inj {value value' : T} : toBits value = toBits value' ↔ value = value' := by
  constructor
  · intro h
    rw [← ofBits_toBits value, h, ofBits_toBits]
  · exact congrArg toBits

instance (priority := low) : DecidableEq T := fun value value' =>
  decidable_of_iff (toBits value = toBits value') toBits_inj

/-- `value == T::default()`, by which the wait loops know an empty slot. -/
def IsDefault (value : T) : Prop := eq value default = true

instance : DecidablePred (IsDefault (T := T)) := fun value =>
  inferInstanceAs (Decidable (eq value default = true))

/-- Zero bytes, which `AtomicValue::new` stores, and `T::default()` itself both
compare equal to `T::default()`. Then new slots and emptied slots read as empty. -/
structure ZeroDefault (T : Type) [Element T] : Prop where
  zero : IsDefault (ofBits 0#(bits T) : T)
  self : IsDefault (default : T)

end Element

/-- The integer types, signed or unsigned, by their width in bits. -/
instance (n : Nat) : Element (BitVec n) where
  bits := n
  toBits value := value
  ofBits value := value
  default := 0#n
  eq value value' := value == value'
  ofBits_toBits _ := rfl

/-- On integers `==` is equality and the default is zero. -/
@[simp] theorem Element.isDefault_iff {n : Nat} (value : BitVec n) : IsDefault value ↔ value = 0#n :=
  beq_iff_eq

/-- All types that the crate implements `Element` for have a default that marks
new slots and emptied ones alike. -/
theorem Element.zeroDefault (n : Nat) : ZeroDefault (BitVec n) :=
  ⟨(isDefault_iff _).mpr rfl, (isDefault_iff _).mpr rfl⟩

/-- The first `n` bits in memory of an `m`-bit value; `none` is the panic of
`transmute_copy` on a destination larger than its source. -/
def transmuteCopy (bigEndian : Bool) {m : Nat} (n : Nat) (src : BitVec m) : Option (BitVec n) :=
  if m < n then none
  else some (if bigEndian then (src >>> (m - n)).setWidth n else src.setWidth n)

/-- A copy into more bits than there are panics; one into fewer drops some. -/
theorem transmuteCopy_eq_none_iff {m n : Nat} (bigEndian : Bool) (src : BitVec m) :
    transmuteCopy bigEndian n src = none ↔ m < n := by
  unfold transmuteCopy
  split_ifs with hLt
  · exact iff_of_true rfl hLt
  · exact iff_of_false (by simp) hLt

/-- Between equal sizes the byte order does not show. -/
theorem transmuteCopy_of_eq {m n : Nat} (h : m = n) (bigEndian : Bool) (src : BitVec m) :
    transmuteCopy bigEndian n src = some (src.setWidth n) := by
  subst h
  cases bigEndian <;> simp [transmuteCopy]

/-- The widths are equal but not by definition, so a copy there and back leaves
two casts. -/
theorem setWidth_setWidth_of_eq {m n : Nat} (h : m = n) (src : BitVec m) :
    (src.setWidth n).setWidth m = src := by
  subst h
  simp

namespace AtomicValue

variable {T : Type} [Element T]

/-- The value a stored word is read as. -/
def load (bigEndian : Bool) (raw : Usize w) : Option T :=
  (transmuteCopy bigEndian (Element.bits T) raw).map Element.ofBits

/-- The word that storing a value writes. -/
def store (w : Nat) (bigEndian : Bool) (value : T) : Option (Usize w) :=
  transmuteCopy bigEndian w (Element.toBits value)

def new (w : Nat) : Usize w := 0#w

/-- The word of a value whose size is that of `usize`. -/
def raw (w : Nat) (value : T) : Usize w := (Element.toBits value).setWidth w

/-- An element of the size of `usize` is stored without a panic, as the word
that `raw` says, in either byte order. -/
theorem store_eq (hBits : Element.bits T = w) (bigEndian : Bool) (value : T) :
    store w bigEndian value = some (raw w value) :=
  transmuteCopy_of_eq hBits bigEndian _

/-- What was stored is loaded again: the bytes of a value give the value
back. -/
theorem load_raw (hBits : Element.bits T = w) (bigEndian : Bool) (value : T) :
    (load bigEndian (raw w value) : Option T) = some value := by
  rw [load, transmuteCopy_of_eq hBits.symm, raw, setWidth_setWidth_of_eq hBits]
  exact congrArg some (Element.ofBits_toBits value)

/-- The copy into a larger word is the one that panics. -/
theorem store_eq_none_iff (bigEndian : Bool) (value : T) :
    store w bigEndian value = none ↔ Element.bits T < w :=
  transmuteCopy_eq_none_iff bigEndian _

/-- The copy out of a smaller word is the one that panics. An element type is on
the wrong side of one of the two unless it has the size of `usize`. -/
theorem load_eq_none_iff (bigEndian : Bool) (raw : Usize w) :
    (load bigEndian raw : Option T) = none ↔ w < Element.bits T := by
  rw [load, Option.map_eq_none_iff]
  exact transmuteCopy_eq_none_iff bigEndian _

/-- What a new slot is read as, if it can be read at all. -/
theorem load_new (hBits : Element.bits T ≤ w) (bigEndian : Bool) :
    load bigEndian (new w) = some (Element.ofBits 0#(Element.bits T) : T) := by
  rw [load, transmuteCopy, if_neg (Nat.not_lt.mpr hBits)]
  cases bigEndian <;> simp [new]

/-- Store and load both go through only if the sizes agree. -/
theorem bits_eq_of_load_store {bigEndian : Bool} {value : T} {raw : Usize w} {current : T}
    (hStore : store w bigEndian value = some raw) (hLoad : load bigEndian raw = some current) :
    Element.bits T = w := by
  have hLe : ¬ Element.bits T < w := by
    rw [← store_eq_none_iff bigEndian value, hStore]
    simp
  have hGe : ¬ w < Element.bits T := by
    rw [← load_eq_none_iff bigEndian raw, hLoad]
    simp
  omega

end AtomicValue

/-- `try_push` and `push` have one access to their slot. -/
inductive StoreElement (T : Type) where
  | store (element : T)
  deriving DecidableEq, Repr

/-- The wait loop of `try_pop` and `pop`, and the store that empties the slot. -/
inductive TakeElement (T : Type) where
  | load
  | clear (current : T)
  deriving DecidableEq, Repr

namespace AtomicQueue

variable {T : Type} [Element T]

def pushStep (bigEndian : Bool) :
    StoreElement T → Usize w → Usize w × List (Access T T) × Outcome (StoreElement T) Unit
  | .store element, raw =>
      match AtomicValue.store w bigEndian element with
      | none => (raw, [], .panic)
      | some raw' => (raw', [.write element], .done ())

def popStep (bigEndian : Bool) :
    TakeElement T → Usize w → Usize w × List (Access T T) × Outcome (TakeElement T) T
  | .load, raw =>
      match (AtomicValue.load bigEndian raw : Option T) with
      | none => (raw, [], .panic)
      | some current =>
          if Element.IsDefault current then (raw, [], .goto .load)
          else (raw, [.read current], .goto (.clear current))
  | .clear current, raw =>
      match AtomicValue.store w bigEndian (Element.default : T) with
      | none => (raw, [], .panic)
      | some raw' => (raw', [.drain], .done current)

/-- The slot accesses of both queues, which repeat them word for word. -/
def slotCode (w : Nat) (T : Type) [Element T] (bigEndian : Bool) :
    SlotCode T T (Usize w) (StoreElement T) (TakeElement T) where
  doPush := .store
  doPop := .load
  pushStep := pushStep bigEndian
  popStep := popStep bigEndian

abbrev Local (w : Nat) (T : Type) := Pc w T (StoreElement T) (TakeElement T)

abbrev Config (w : Nat) (T : Type) := State w T (Usize w) (StoreElement T) (TakeElement T)

/-- Both the mask's subtraction and the slice access are checked. -/
def getElement (build : Build) (capacity index : Usize w) : Option Nat := do
  let mask ← Usize.sub build capacity 1#w
  if index &&& mask < capacity then some (index &&& mask).toNat else none

def new (target : Target w) (size : Usize w) : Option (Queue w) := do
  let capacity ← roundUpToPowerOf2 target.build size
  if target.allocates capacity then
    some
      { build := target.build
        capacity
        getSlot := getElement target.build capacity
        totalOrder := true }
  else none

/-- `AtomicQueue<_, 1>`, where every position falls on the one slot. -/
def oneSlot : Queue 64 where
  build := .release
  capacity := 1#64
  getSlot := getElement .release 1#64
  totalOrder := true

theorem new_oneSlot : new Target.x86_64 1#64 = some oneSlot := rfl

end AtomicQueue

namespace AtomicQueueB

/-- The raw pointer offset is not checked against the capacity. -/
def getElement (build : Build) (capacity index : Usize w) : Option Nat := do
  let mask ← Usize.sub build capacity 1#w
  some (index &&& mask).toNat

/-- The requested size is raised to two first. -/
def new (target : Target w) (size : Usize w) : Option (Queue w) := do
  let capacity ← roundUpToPowerOf2 target.build (if size < 2#w then 2#w else size)
  if target.allocates capacity then
    some
      { build := target.build
        capacity
        getSlot := getElement target.build capacity
        totalOrder := true }
  else none

end AtomicQueueB

/-- A queue built by `AtomicQueue::new` or `AtomicQueueB::new`. -/
inductive IsAtomicQueue (target : Target w) (q : Queue w) : Prop where
  | fixed (size : Usize w) (h : AtomicQueue.new target size = some q)
  | runtime (size : Usize w) (h : AtomicQueueB.new target size = some q)

end AtomicQueueRs
