import Mathlib.Data.Nat.Bitwise
import Mathlib.Data.Nat.Size
import Mathlib.Tactic.NormNum

/-! The target's `usize`, its arithmetic under both build profiles, and the
residues of unbounded counters in it. -/
namespace AtomicQueueRs

set_option autoImplicit false

abbrev Usize (w : Nat) := BitVec w

/-- With overflow checks an overflowing `+` or `-` panics; without them it
wraps. `fetch_add` on an atomic wraps in both. -/
inductive Build where
  | checked
  | release
  deriving DecidableEq, Repr

namespace Usize

variable {w : Nat}

/-- `x + y`; `none` is the overflow panic. -/
def add (build : Build) (x y : Usize w) : Option (Usize w) :=
  if build = .checked ∧ 2 ^ w ≤ x.toNat + y.toNat then none else some (x + y)

/-- `x - y`; `none` is the overflow panic. -/
def sub (build : Build) (x y : Usize w) : Option (Usize w) :=
  if build = .checked ∧ x.toNat < y.toNat then none else some (x - y)

@[simp] theorem add_release (x y : Usize w) : add .release x y = some (x + y) := by simp [add]

@[simp] theorem sub_release (x y : Usize w) : sub .release x y = some (x - y) := by simp [sub]

/-- An addition that does not panic has the wrapped sum for its result, in
either build. -/
theorem eq_of_add {build : Build} {x y z : Usize w} (h : add build x y = some z) : z = x + y := by
  unfold add at h
  split at h
  · contradiction
  · exact (Option.some.inj h).symm

theorem eq_of_sub {build : Build} {x y z : Usize w} (h : sub build x y = some z) : z = x - y := by
  unfold sub at h
  split at h
  · contradiction
  · exact (Option.some.inj h).symm

/-- Addition that does not overflow succeeds under both profiles. -/
theorem add_of_lt (build : Build) {x y : Usize w} (h : x.toNat + y.toNat < 2 ^ w) :
    add build x y = some (x + y) := by
  simp [add, Nat.not_le.mpr h]

/-- Subtraction that does not underflow succeeds under both profiles. -/
theorem sub_of_le (build : Build) {x y : Usize w} (h : y.toNat ≤ x.toNat) :
    sub build x y = some (x - y) := by
  simp [sub, Nat.not_lt.mpr h]

/-- The wrapped difference of two counters is the word of their true one. -/
theorem ofNat_sub_ofNat {m n : Nat} (hLe : m ≤ n) :
    BitVec.ofNat w n - BitVec.ofNat w m = BitVec.ofNat w (n - m) := by
  have hSum : BitVec.ofNat w n = BitVec.ofNat w (n - m) + BitVec.ofNat w m := by
    rw [← BitVec.ofNat_add, Nat.sub_add_cancel hLe]
  rw [hSum, BitVec.add_sub_cancel]

/-- The wrapped difference of two counts is never more than the true one. -/
theorem toNat_ofNat_sub_ofNat_le {m n : Nat} (hLe : m ≤ n) :
    (BitVec.ofNat w n - BitVec.ofNat w m).toNat ≤ n - m := by
  rw [ofNat_sub_ofNat hLe, BitVec.toNat_ofNat]
  exact Nat.mod_le _ _

/-- The wrapped difference of two counters is their true difference as long
as that is below `2 ^ w`, also after either counter has wrapped. -/
theorem toNat_ofNat_sub_ofNat {m n : Nat} (hLe : m ≤ n) (hLt : n - m < 2 ^ w) :
    (BitVec.ofNat w n - BitVec.ofNat w m).toNat = n - m := by
  rw [ofNat_sub_ofNat hLe, BitVec.toNat_ofNat, Nat.mod_eq_of_lt hLt]

/-- Two counters less than `2 ^ w` apart agree only if they are equal. -/
theorem eq_of_ofNat_eq {m n : Nat} (hLe : m ≤ n) (hLt : n - m < 2 ^ w)
    (h : BitVec.ofNat w m = BitVec.ofNat w n) : m = n := by
  have hZero := toNat_ofNat_sub_ofNat hLe hLt
  rw [h, BitVec.sub_self] at hZero
  have : (0#w).toNat = 0 := by simp
  omega

theorem succ_sub (x y : Usize w) : x + 1#w - y = x - y + 1#w := by
  rw [BitVec.sub_eq_add_neg, BitVec.sub_eq_add_neg, BitVec.add_assoc, BitVec.add_comm 1#w,
    BitVec.add_assoc]

theorem sub_succ (x y : Usize w) : x - (y + 1#w) = x - y - 1#w := by
  rw [BitVec.sub_eq_add_neg, BitVec.sub_eq_add_neg, BitVec.sub_eq_add_neg, BitVec.neg_add,
    BitVec.sub_eq_add_neg, BitVec.add_assoc]

theorem toNat_one (hw : 1 < 2 ^ w) : (1#w).toNat = 1 := by
  rw [BitVec.toNat_ofNat, Nat.mod_eq_of_lt hw]

theorem toNat_succ {x y : Usize w} (h : x.toNat < y.toNat) : (x + 1#w).toNat = x.toNat + 1 := by
  have hy := y.isLt
  have hOne := toNat_one (w := w) (by omega)
  rw [BitVec.toNat_add, hOne, Nat.mod_eq_of_lt (by omega)]

/-- A word that is not zero can be decreased without wrapping. -/
theorem toNat_pred {x : Usize w} (h : x.toNat ≠ 0) : (x - 1#w).toNat = x.toNat - 1 := by
  have hx := x.isLt
  have hOne := toNat_one (w := w) (by omega)
  rw [BitVec.toNat_sub_of_le, hOne]
  rw [BitVec.le_def, hOne]
  omega

theorem toNat_sub_eq_zero_iff {x y : Usize w} : (x - y).toNat = 0 ↔ x = y := by
  rw [← (BitVec.toNat_zero : (0#w).toNat = 0), BitVec.toNat_inj, BitVec.sub_eq_iff_eq_add, BitVec.zero_add]

theorem ofNat_succ (n : Nat) : BitVec.ofNat w (n + 1) = BitVec.ofNat w n + 1#w :=
  BitVec.ofNat_add n 1

end Usize

end AtomicQueueRs
