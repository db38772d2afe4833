import AtomicQueueRs.AtomicQueue

/-! The element types of `src/lib.rs` in the cells of `AtomicQueue`. A cell is
one `usize`, and the conversions either way fit only a type of that size. -/
namespace AtomicQueueRs

set_option autoImplicit false

variable {w : Nat}

/-- The types that implement `Element`. -/
inductive ElementType where
  | u8
  | u16
  | u32
  | u64
  | usize
  | i8
  | i16
  | i32
  | i64
  | isize
  deriving DecidableEq, Repr

namespace ElementType

/-- `8 * size_of`, on a target whose `usize` has `w` bits. -/
def bits (w : Nat) : ElementType → Nat
  | .u8 | .i8 => 8
  | .u16 | .i16 => 16
  | .u32 | .i32 => 32
  | .u64 | .i64 => 64
  | .usize | .isize => w

/-- A value, as its bits in two's complement. Signed and unsigned types have
the same equality and the same default value. -/
abbrev Value (w : Nat) (type : ElementType) := BitVec (type.bits w)

end ElementType

/-- Storing a value in a cell, whatever it held, and loading it again gives the
value back exactly for the types of the size of `usize`: `usize` and `isize`,
and `u64` and `i64` or `u32` and `i32`. -/
theorem cell_faithful_iff (type : ElementType) (bigEndian : Bool) (value : type.Value w)
    (prior : Usize w) :
    (∃ raw, AtomicQueue.pushStep bigEndian (.store value) prior = (raw, [.write value], .done ()) ∧
      ∃ current, AtomicValue.load bigEndian raw = some current ∧ current = value ∧
        (current = (Element.default : type.Value w) ↔ value = Element.default)) ↔
      type.bits w = w := by
  constructor
  · rintro ⟨raw, hPush, current, hLoad, _⟩
    cases hStore : AtomicValue.store w bigEndian value with
    | none => simp [AtomicQueue.pushStep, hStore] at hPush
    | some raw' =>
        obtain rfl : raw' = raw := by simpa [AtomicQueue.pushStep, hStore] using hPush
        exact AtomicValue.bits_eq_of_load_store hStore hLoad
  · intro hBits
    refine ⟨AtomicValue.raw w value, ?_, value, ?_, rfl, Iff.rfl⟩
    · rw [AtomicQueue.pushStep, AtomicValue.store_eq hBits]
    · exact AtomicValue.load_raw hBits bigEndian value

/-- On a 64-bit target a `u32` cannot be stored, and on a 32-bit target a `u64`
can be stored but not loaded. -/
theorem u32_cell_panics :
    AtomicQueue.pushStep false (.store (7#32 : ElementType.Value 64 .u32)) (AtomicValue.new 64) =
        (0#64, [], .panic) ∧
      ∃ raw, AtomicValue.store 32 false (7#64 : ElementType.Value 32 .u64) = some raw ∧
        (AtomicValue.load false raw : Option (ElementType.Value 32 .u64)) = none :=
  ⟨rfl, _, rfl, rfl⟩

end AtomicQueueRs
