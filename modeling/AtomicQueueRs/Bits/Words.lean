import Mathlib.Data.Nat.Bitwise
import Mathlib.Data.Nat.Size
import Mathlib.Order.Bounds.Basic
import Mathlib.Order.Interval.Finset.Nat

/-! Two bit-level constructions on words of any width: smearing the leading
one downwards by shift-or steps, and exchanging two adjacent bit fields. Windows
of consecutive words wrap. -/
namespace Bits

set_option autoImplicit false

variable {w : Nat}

section Smear

/-- Every bit of `y` is the disjunction of `m` consecutive bits of `x`. -/
def Smears (x y : BitVec w) (m : Nat) : Prop :=
  ∀ i, y.getLsbD i = true ↔ ∃ d < m, x.getLsbD (i + d) = true

/-- At the start of the rounding every bit has been smeared over itself only. -/
theorem smears_refl (x : BitVec w) : Smears x x 1 := by
  intro i
  constructor
  · intro h
    exact ⟨0, Nat.one_pos, h⟩
  · rintro ⟨d, hd, h⟩
    simpa [Nat.lt_one_iff.mp hd] using h

/-- One shift-or step by the width reached so far doubles that width. -/
theorem Smears.orShift {x y : BitVec w} {m : Nat} (h : Smears x y m) :
    Smears x (y ||| y >>> m) (2 * m) := by
  intro i
  rw [BitVec.getLsbD_or, BitVec.getLsbD_ushiftRight, Bool.or_eq_true, h i, h (m + i)]
  constructor
  · rintro (⟨d, hd, hBit⟩ | ⟨d, hd, hBit⟩)
    · exact ⟨d, by omega, hBit⟩
    · exact ⟨m + d, by omega, by rwa [show i + (m + d) = m + i + d by omega]⟩
  · rintro ⟨d, hd, hBit⟩
    by_cases hLow : d < m
    · exact Or.inl ⟨d, hLow, hBit⟩
    · exact Or.inr ⟨d - m, by omega, by rwa [show m + i + (d - m) = i + d by omega]⟩

/-- Smearing over the whole width leaves exactly the bits up to the leading
one. -/
theorem Smears.toNat_eq {x y : BitVec w} {m : Nat} (h : Smears x y m) (hWidth : w ≤ m) :
    y.toNat = 2 ^ x.toNat.size - 1 := by
  apply Nat.eq_of_testBit_eq
  intro i
  rw [Nat.testBit_two_pow_sub_one, BitVec.testBit_toNat, Bool.eq_iff_iff, h i,
    decide_eq_true_iff, Nat.lt_size]
  constructor
  · rintro ⟨d, _, hBit⟩
    have hLarge := Nat.ge_two_pow_of_testBit hBit
    exact Nat.le_trans (Nat.pow_le_pow_right (by omega) (Nat.le_add_right i d)) hLarge
  · intro hLarge
    obtain ⟨j, hj, hBit⟩ := Nat.exists_ge_and_testBit_of_ge_two_pow hLarge
    have hBound : j < w := BitVec.lt_of_getLsbD (x := x) hBit
    exact ⟨j - i, by omega, by rwa [Nat.add_sub_cancel' hj]⟩

/-- The power of two above the leading one of `n - 1` is the least that is at
least `n`. -/
theorem isLeast_two_pow_size (n : Nat) :
    IsLeast {power | (∃ k, power = 2 ^ k) ∧ max n 1 ≤ power} (2 ^ (n - 1).size) := by
  constructor
  · refine ⟨⟨_, rfl⟩, ?_⟩
    have hBelow := Nat.lt_size_self (n - 1)
    omega
  · rintro power ⟨⟨k, rfl⟩, hLe⟩
    have hBelow : n - 1 < 2 ^ k := by omega
    exact Nat.pow_le_pow_right (by omega) (Nat.size_le.mpr hBelow)

end Smear

section Window

/-- Consecutive words, past the wrap as well, have the residues of a window of
naturals if the modulus divides the range. -/
theorem toNat_add_ofNat_mod {n : Nat} (hDvd : n ∣ 2 ^ w) (start : BitVec w) (d : Nat) :
    (start + BitVec.ofNat w d).toNat % n = (start.toNat + d) % n := by
  rw [BitVec.toNat_add, BitVec.toNat_ofNat, Nat.add_mod_mod, Nat.mod_mod_of_dvd _ hDvd]

/-- If the divisor divides the number of words, the residues of as many
consecutive words are distinct, also where these wrap. -/
theorem injOn_mod_window {n : Nat} (hDvd : n ∣ 2 ^ w) (start : BitVec w) :
    Set.InjOn (fun d : Nat => (start + BitVec.ofNat w d).toNat % n) (Set.Iio n) := by
  intro d hd d' hd' hEq
  rw [Set.mem_Iio] at hd hd'
  simp only [toNat_add_ofNat_mod hDvd] at hEq
  have hSame := Nat.mod_injOn_Ico start.toNat n
    (Finset.mem_coe.mpr (Finset.mem_Ico.mpr ⟨Nat.le_add_right _ d, by omega⟩))
    (Finset.mem_coe.mpr (Finset.mem_Ico.mpr ⟨Nat.le_add_right _ d', by omega⟩)) hEq
  omega

end Window

section Swap

/-- A mask of the low `b` bits, as `(1 << b) - 1`. -/
theorem getLsbD_lowMask {b : Nat} (hb : b < w) (i : Nat) :
    (1#w <<< b - 1#w).getLsbD i = decide (i < b) := by
  have hOne : 1 < 2 ^ w := Nat.one_lt_two_pow (by omega)
  have hPow : 2 ^ b < 2 ^ w := Nat.pow_lt_pow_right (by omega) hb
  have hPos : 0 < 2 ^ b := Nat.two_pow_pos b
  have hShift : (1#w <<< b).toNat = 2 ^ b := by
    rw [BitVec.toNat_shiftLeft, BitVec.toNat_ofNat, Nat.mod_eq_of_lt hOne, Nat.shiftLeft_eq,
      Nat.one_mul, Nat.mod_eq_of_lt hPow]
  have hMask : (1#w <<< b - 1#w).toNat = 2 ^ b - 1 := by
    rw [BitVec.toNat_sub_of_le, hShift, BitVec.toNat_ofNat, Nat.mod_eq_of_lt hOne]
    rw [BitVec.le_def, hShift, BitVec.toNat_ofNat, Nat.mod_eq_of_lt hOne]
    omega
  rw [← BitVec.testBit_toNat, hMask, Nat.testBit_two_pow_sub_one]

/-- The xor-mix of the two lowest `b`-bit fields. -/
def swapMix (x : BitVec w) (b : Nat) : BitVec w := (x ^^^ (x >>> b)) &&& (1#w <<< b - 1#w)

/-- Exchange the two lowest `b`-bit fields by xor with their mix. -/
def swapFields (x : BitVec w) (b : Nat) : BitVec w := x ^^^ swapMix x b ^^^ (swapMix x b <<< b)

/-- Where each bit of the exchange comes from. -/
def swapIndex (b i : Nat) : Nat := if i < b then i + b else if i < 2 * b then i - b else i

/-- Exchanging two fields of bits twice leaves every bit where it was. -/
theorem swapIndex_swapIndex (b i : Nat) : swapIndex b (swapIndex b i) = i := by
  unfold swapIndex
  split_ifs <;> omega

/-- Bit by bit: the exchange of the fields is the exchange of the indices, and
bits above both fields stay. -/
theorem getLsbD_swapFields {b : Nat} (hb : 0 < b) (hWidth : 2 * b ≤ w) (x : BitVec w) (i : Nat) :
    (swapFields x b).getLsbD i = x.getLsbD (swapIndex b i) := by
  have hMask := getLsbD_lowMask (w := w) (b := b) (by omega)
  simp only [swapFields, swapMix, swapIndex, BitVec.getLsbD_xor, BitVec.getLsbD_and,
    BitVec.getLsbD_shiftLeft, BitVec.getLsbD_ushiftRight, hMask]
  by_cases hLow : i < b
  · simp [hLow, Nat.add_comm b i]
  · by_cases hMid : i < 2 * b
    · simp only [hLow, hMid, show i < w by omega, show i - b < b by omega,
        show b + (i - b) = i by omega, if_false, if_true, decide_true, decide_false,
        Bool.and_false, Bool.and_true, Bool.true_and, Bool.not_false, Bool.xor_false]
      generalize x.getLsbD i = high
      generalize x.getLsbD (i - b) = low
      cases high <;> cases low <;> rfl
    · simp [hLow, hMid, show ¬ i - b < b by omega]

/-- The exchange is its own inverse. -/
theorem swapFields_swapFields {b : Nat} (hb : 0 < b) (hWidth : 2 * b ≤ w) (x : BitVec w) :
    swapFields (swapFields x b) b = x := by
  apply BitVec.eq_of_getLsbD_eq
  intro i _
  rw [getLsbD_swapFields hb hWidth, getLsbD_swapFields hb hWidth, swapIndex_swapIndex]

/-- Fields inside the low `k` bits stay inside them. -/
theorem swapFields_lt {b k : Nat} (hb : 0 < b) (hk : 2 * b ≤ k) (hWidth : 2 * b ≤ w)
    (x : BitVec w) (hx : x.toNat < 2 ^ k) : (swapFields x b).toNat < 2 ^ k := by
  apply Nat.lt_pow_two_of_testBit
  intro i hi
  rw [BitVec.testBit_toNat, getLsbD_swapFields hb hWidth]
  have hIndex : swapIndex b i = i := by
    unfold swapIndex
    split_ifs <;> omega
  rw [hIndex, ← BitVec.testBit_toNat]
  exact Nat.testBit_lt_two_pow (Nat.lt_of_lt_of_le hx (Nat.pow_le_pow_right (by omega) hi))

/-- The two lowest fields of `b` bits have changed places, and nothing else
has changed. -/
structure Exchanged (b : Nat) (x y : BitVec w) : Prop where
  low : y.extractLsb' 0 b = x.extractLsb' b b
  next : y.extractLsb' b b = x.extractLsb' 0 b
  high : y >>> (2 * b) = x >>> (2 * b)

/-- Exchanging fields of no bits changes nothing. -/
theorem exchanged_zero (x : BitVec w) : Exchanged 0 x x where
  low := Subsingleton.elim _ _
  next := Subsingleton.elim _ _
  high := rfl

/-- The shifts and masks do exchange the two fields exactly, and leave the rest
of the word. -/
theorem exchanged_swapFields {b : Nat} (hb : 0 < b) (hWidth : 2 * b ≤ w) (x : BitVec w) :
    Exchanged b x (swapFields x b) := by
  constructor
  · apply BitVec.eq_of_getLsbD_eq
    intro i hi
    rw [BitVec.getLsbD_extractLsb', BitVec.getLsbD_extractLsb', getLsbD_swapFields hb hWidth,
      swapIndex, if_pos (by omega)]
    simp [Nat.add_comm b i]
  · apply BitVec.eq_of_getLsbD_eq
    intro i hi
    rw [BitVec.getLsbD_extractLsb', BitVec.getLsbD_extractLsb', getLsbD_swapFields hb hWidth,
      swapIndex, if_neg (by omega), if_pos (by omega)]
    simp
  · apply BitVec.eq_of_getLsbD_eq
    intro i _
    rw [BitVec.getLsbD_ushiftRight, BitVec.getLsbD_ushiftRight, getLsbD_swapFields hb hWidth,
      swapIndex, if_neg (by omega), if_neg (by omega)]

/-- Dropping the low field leaves what was the low field as the lowest. -/
theorem Exchanged.block_mod {b : Nat} {x y : BitVec w} (h : Exchanged b x y) :
    y.toNat / 2 ^ b % 2 ^ b = x.toNat % 2 ^ b := by
  have hNext := congrArg BitVec.toNat h.next
  rwa [BitVec.extractLsb'_toNat, BitVec.extractLsb'_toNat, Nat.shiftRight_eq_div_pow,
    Nat.shiftRight_zero] at hNext

/-- Neighbours are sent to different blocks: `2 ^ b` consecutive words, aligned
or not, have different low fields. -/
theorem injOn_block {b : Nat} (hWidth : b ≤ w) {f : BitVec w → BitVec w}
    (hf : ∀ x, Exchanged b x (f x)) (start : BitVec w) :
    Set.InjOn (fun d : Nat => (f (start + BitVec.ofNat w d)).toNat / 2 ^ b) (Set.Iio (2 ^ b)) := by
  intro d hd d' hd' hEq
  apply injOn_mod_window (Nat.pow_dvd_pow 2 hWidth) start hd hd'
  dsimp only at hEq ⊢
  rw [← (hf (start + BitVec.ofNat w d)).block_mod, hEq, (hf _).block_mod]

end Swap

end Bits
