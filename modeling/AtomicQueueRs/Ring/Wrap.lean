import AtomicQueueRs.Ring.Occupancy
import Mathlib.Data.Set.Function
import Mathlib.Order.Interval.Set.Defs

/-! A ring whose capacity does not divide the range of its counters. When a
counter wraps, the slots of the following positions do not continue the lap: the
last lap before the wrap breaks off after `modulus % capacity` slots. -/
namespace Ring

set_option autoImplicit false

/-- The slot of a position whose counter wraps. -/
def wrappedSlot (modulus capacity p : Nat) : Nat := p % modulus % capacity

variable {modulus capacity m n i l : Nat}

/-- Up to the remainder, stepping back from `n` stays in the broken lap. -/
theorem sub_mod_of_le_mod (hPos : 0 < capacity) (h : i ≤ n % capacity) :
    (n - i) % capacity = n % capacity - i := by
  have hSplit := Nat.div_add_mod n capacity
  have hRest := Nat.mod_lt n hPos
  have hBack : n - i = capacity * (n / capacity) + (n % capacity - i) := by omega
  rw [hBack, Nat.mul_add_mod, Nat.mod_eq_of_lt (by omega)]

/-- Up to the wrap, the positions go round the slots as they do from zero. -/
theorem wrappedSlot_before (h : m % modulus + i < modulus) :
    wrappedSlot modulus capacity (m + i) = (m % modulus + i) % capacity := by
  rw [wrappedSlot, Nat.add_mod, Nat.mod_eq_of_lt (show i < modulus by omega), Nat.mod_eq_of_lt h]

/-- After the wrap they start again at the first slot, wherever the last lap
broke off. -/
theorem wrappedSlot_after (h : modulus ≤ m % modulus + i) (hi : i < capacity)
    (hCapacity : capacity ≤ modulus) :
    wrappedSlot modulus capacity (m + i) = m % modulus + i - modulus := by
  have hRest := Nat.mod_lt m (show 0 < modulus by omega)
  rw [wrappedSlot, Nat.add_mod, Nat.mod_eq_of_lt (show i < modulus by omega),
    Nat.mod_eq_sub_mod h, Nat.mod_eq_of_lt (show m % modulus + i - modulus < modulus by omega),
    Nat.mod_eq_of_lt (by omega)]

/-- A window of at most a lap has different slots exactly if it does not reach
past the wrap, or is no longer than the broken lap. -/
theorem injOn_wrappedSlot_iff (hCapacity : capacity ≤ modulus) (hPos : 0 < capacity)
    (hBroken : 0 < modulus % capacity) (hLap : l ≤ capacity) :
    Set.InjOn (wrappedSlot modulus capacity) (Set.Ico m (m + l)) ↔
      m % modulus + l ≤ modulus ∨ l ≤ modulus % capacity := by
  have hRest := Nat.mod_lt m (show 0 < modulus by omega)
  constructor
  · intro hInj
    by_contra hNot
    rw [not_or, Nat.not_le, Nat.not_le] at hNot
    -- before the wrap the earliest slot that comes up again, and where it does
    obtain ⟨a, ha⟩ : ∃ a, a = modulus - m % modulus := ⟨_, rfl⟩
    have hFirst : wrappedSlot modulus capacity (m + (a - modulus % capacity)) =
        modulus % capacity - min a (modulus % capacity) := by
      rw [wrappedSlot_before (by omega), ← sub_mod_of_le_mod hPos (Nat.min_le_right _ _)]
      congr 1
      omega
    have hSecond : wrappedSlot modulus capacity (m + max a (modulus % capacity)) =
        max a (modulus % capacity) - a := by
      rw [wrappedSlot_after (by omega) (by omega) hCapacity]
      omega
    have hSame := hInj (Set.mem_Ico.mpr ⟨by omega, by omega⟩) (Set.mem_Ico.mpr ⟨by omega, by omega⟩)
      (hFirst.trans (Eq.trans (by omega) hSecond.symm))
    omega
  · intro hFits
    -- it is enough to compare a position with a later one
    have hApart (i j : Nat) (hLt : i < j) (hj : j < l) :
        wrappedSlot modulus capacity (m + i) ≠ wrappedSlot modulus capacity (m + j) := by
      intro hEq
      rcases Nat.lt_or_ge (m % modulus + j) modulus with hBefore | hAfter
      · rw [wrappedSlot_before (by omega), wrappedSlot_before hBefore] at hEq
        have hSame := eq_of_mod_eq (by omega) (by omega) hEq
        omega
      · rw [wrappedSlot_after hAfter (by omega) hCapacity] at hEq
        rcases Nat.lt_or_ge (m % modulus + i) modulus with hBefore | hAfter'
        · have hBack : m % modulus + i = modulus - (modulus - (m % modulus + i)) := by omega
          rw [wrappedSlot_before hBefore, hBack, sub_mod_of_le_mod hPos (by omega)] at hEq
          omega
        · rw [wrappedSlot_after hAfter' (by omega) hCapacity] at hEq
          omega
    intro p hp p' hp' hEq
    rw [Set.mem_Ico] at hp hp'
    obtain ⟨i, rfl⟩ := Nat.exists_eq_add_of_le hp.1
    obtain ⟨j, rfl⟩ := Nat.exists_eq_add_of_le hp'.1
    rcases Nat.lt_trichotomy i j with hLt | rfl | hLt
    · exact (hApart i j hLt (by omega) hEq).elim
    · rfl
    · exact (hApart j i hLt (by omega) hEq.symm).elim

end Ring
