import AtomicQueueRs.Cells
import AtomicQueueRs.Refinement.Operations

/-! The operations of `AtomicValue`, those included that the queues do not call.
A value goes into the word and comes out of it through `transmute_copy`. -/
namespace AtomicQueueRs

set_option autoImplicit false

open Refinement (runAll runAll_view)

variable {w : Nat} {T : Type} [Element T]

namespace AtomicValue

/-- The calls on a cell. -/
inductive Operation (T : Type) where
  | load
  | store (value : T)
  | swap (value : T)
  | compareExchange (current new : T)
  deriving DecidableEq, Repr

inductive Answer (T : Type) where
  | loaded (value : T)
  | stored
  | swapped (old : T)
  | exchanged (result : Except T T)

/-- The word that is left, and the old value. The second `transmute_copy` may
panic when the words are exchanged already. -/
def swap (bigEndian : Bool) (value : T) (raw : Usize w) : Usize w × Option T :=
  match store w bigEndian value with
  | none => (raw, none)
  | some raw' => (raw', load bigEndian raw)

def compareExchange (bigEndian : Bool) (current new : T) (raw : Usize w) :
    Usize w × Option (Except T T) :=
  match store w bigEndian current, store w bigEndian new with
  | some currentRaw, some newRaw =>
      if raw = currentRaw then (newRaw, (load bigEndian raw).map .ok)
      else (raw, (load bigEndian raw).map .error)
  | _, _ => (raw, none)

/-- An operation on the word, without an answer if it panics. -/
def perform (bigEndian : Bool) : Operation T → Usize w → Usize w × Option (Answer T)
  | .load, raw => (raw, (load bigEndian raw).map .loaded)
  | .store value, raw =>
      match store w bigEndian value with
      | none => (raw, none)
      | some raw' => (raw', some .stored)
  | .swap value, raw => (swap bigEndian value raw).map id (Option.map .swapped)
  | .compareExchange current new, raw =>
      (compareExchange bigEndian current new raw).map id (Option.map .exchanged)

/-- What an atomic variable of type `T` answers, and holds afterwards. -/
def onVariable : Operation T → T → Answer T × T
  | .load, value => (.loaded value, value)
  | .store value', _ => (.stored, value')
  | .swap value', value => (.swapped value, value')
  | .compareExchange current new, value =>
      if value = current then (.exchanged (.ok value), new) else (.exchanged (.error value), value)

/-- The operation if it does not panic. -/
def returning (bigEndian : Bool) (operation : Operation T) (raw : Usize w) :
    Option (Answer T × Usize w) :=
  (perform bigEndian operation raw).2.map fun answer => (answer, (perform bigEndian operation raw).1)

/-- At the size of `usize` words and values are one to one, so that comparing
words, as `compare_exchange` does, is comparing values by their bytes. -/
theorem raw_inj (hBits : Element.bits T = w) {value value' : T} :
    raw w value = raw w value' ↔ value = value' := by
  constructor
  · intro h
    have hLoad := load_raw hBits false value
    rw [h, load_raw hBits false value'] at hLoad
    exact (Option.some.inj hLoad).symm
  · rintro rfl
    rfl

/-- One operation, on the word of a value. -/
theorem returning_raw (hBits : Element.bits T = w) (bigEndian : Bool) (operation : Operation T)
    (value : T) : returning bigEndian operation (raw w value) =
      (some (onVariable operation value)).map fun out => (out.1, raw w out.2) := by
  cases operation with
  | load => simp [returning, perform, onVariable, load_raw hBits]
  | store value' => simp [returning, perform, onVariable, store_eq hBits]
  | swap value' => simp [returning, perform, swap, onVariable, store_eq hBits, load_raw hBits]
  | compareExchange current new =>
      by_cases hSame : value = current <;>
        simp [returning, perform, compareExchange, onVariable, store_eq hBits, load_raw hBits,
          raw_inj hBits, hSame]

end AtomicValue

/-- Every sequence of operations on a new cell returns what it returns on a
variable that starts as the default, and leaves the word of its value, exactly
for the types of the size of `usize` whose default is the zero word that `new`
stores. -/
theorem actsAsVariable_iff (T : Type) [Element T] (bigEndian : Bool) :
    (∀ operations : List (AtomicValue.Operation T),
      runAll (AtomicValue.returning bigEndian) operations (AtomicValue.new w) =
        (runAll (fun operation value => some (AtomicValue.onVariable operation value)) operations
          Element.default).map fun out => (out.1, AtomicValue.raw w out.2)) ↔
      Element.bits T = w ∧ AtomicValue.raw w (Element.default : T) = AtomicValue.new w := by
  constructor
  · intro h
    refine ⟨?_, ?_⟩
    · by_contra hBits
      have hRun := h [.store Element.default, .load]
      rcases Nat.lt_or_gt_of_ne hBits with hLt | hGt
      · have hStore := (AtomicValue.store_eq_none_iff bigEndian (Element.default : T)).mpr hLt
        simp [runAll, AtomicValue.returning, AtomicValue.perform, AtomicValue.onVariable, hStore] at hRun
      · have hLoad (raw : Usize w) := (AtomicValue.load_eq_none_iff (T := T) bigEndian raw).mpr hGt
        cases hStore : AtomicValue.store w bigEndian (Element.default : T) <;>
          simp [runAll, AtomicValue.returning, AtomicValue.perform, AtomicValue.onVariable, hStore,
            hLoad] at hRun
    · -- no operation has run yet: the cell is as `new` leaves it
      have hNone := h []
      simp only [runAll, Option.map_some, Option.some.injEq, Prod.mk.injEq, true_and] at hNone
      exact hNone.symm
  · rintro ⟨hBits, hNew⟩ operations
    rw [← hNew]
    exact runAll_view (AtomicValue.returning_raw hBits bigEndian) operations Element.default

end AtomicQueueRs
