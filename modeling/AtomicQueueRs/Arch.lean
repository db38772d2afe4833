import AtomicQueueRs.Bits.Words
import AtomicQueueRs.Usize

/-! The index arithmetic of `src/arch.rs` and the facts about it that the
queues rest on. Cache line sizes vary with the target and stay parameters. -/
namespace AtomicQueueRs

set_option autoImplicit false

variable {w : Nat}

/-- What the build fixes. `sizeOfPaddedState` is the size of a
`CachePadded<AtomicU8>`, and `allocates` says for which slot counts the
allocation goes through rather than panicking or aborting. -/
structure Target (w : Nat) where
  width : w = 32 ∨ w = 64
  build : Build
  cacheLineSize : Usize w
  sizeOfPaddedState : Usize w
  allocates : Usize w → Bool

/-- 64-bit x86 in release mode, where up to `2 ^ 32` slots can be allocated. -/
def Target.x86_64 : Target 64 where
  width := Or.inr rfl
  build := .release
  cacheLineSize := 64#64
  sizeOfPaddedState := 128#64
  allocates capacity := capacity ≤ 1#64 <<< 32

/-- 32-bit Arm in release mode, where two padded flags share a cache line and
up to `2 ^ 20` slots can be allocated. -/
def Target.arm : Target 32 where
  width := Or.inl rfl
  build := .release
  cacheLineSize := 64#32
  sizeOfPaddedState := 32#32
  allocates capacity := capacity ≤ 1#32 <<< 20

/-- The last shift is compiled in only for 64-bit targets. -/
def roundUpToPowerOf2 (build : Build) (n : Usize w) : Option (Usize w) :=
  if n = 0#w then some 1#w
  else
    let n := n - 1#w
    let n := n ||| n >>> 1
    let n := n ||| n >>> 2
    let n := n ||| n >>> 4
    let n := n ||| n >>> 8
    let n := n ||| n >>> 16
    let n := if w = 64 then n ||| n >>> 32 else n
    Usize.add build n 1#w

def getCacheLineIndexBits (elementsPerCacheLine : Usize w) : Nat :=
  match elementsPerCacheLine.toNat with
  | 256 => 8
  | 128 => 7
  | 64 => 6
  | 32 => 5
  | 16 => 4
  | 8 => 3
  | 4 => 2
  | 2 => 1
  | _ => 0

def getIndexShuffleBits (minimizeContention : Bool) (arraySize elementsPerCacheLine : Usize w) :
    Nat :=
  if !minimizeContention then 0
  else
    let bits := getCacheLineIndexBits elementsPerCacheLine
    let minSize := 1#w <<< (bits * 2)
    if arraySize < minSize then 0 else bits

/-- Swap the lowest `bits` bits of the index with the next `bits` bits. -/
def remapIndex (index : Usize w) (bits : Nat) : Usize w :=
  if bits = 0 then index
  else
    let mixMask := 1#w <<< bits - 1#w
    let mix := (index ^^^ (index >>> bits)) &&& mixMask
    index ^^^ mix ^^^ (mix <<< bits)

/-- Swapping no bits, or two fields that both lie inside a power of two. -/
def SwapsInside (capacity bits : Nat) : Prop :=
  bits = 0 ∨ ∃ k, capacity = 2 ^ k ∧ 2 * bits ≤ k

example : (roundUpToPowerOf2 .checked 1025#32, remapIndex 0b001010#64 3) =
    (some 2048#32, 0b010001#64) := by decide

/-- The shift-or cascade fills the word below its leading one. -/
theorem roundUpToPowerOf2_eq (hw : w = 32 ∨ w = 64) (build : Build) {n : Usize w}
    (hn : n ≠ 0#w) :
    roundUpToPowerOf2 build n =
      Usize.add build (BitVec.ofNat w (2 ^ (n.toNat - 1).size - 1)) 1#w := by
  have hNonzero : n.toNat ≠ 0 := fun hZero => hn (BitVec.eq_of_toNat_eq (by simpa using hZero))
  have h16 := ((((Bits.smears_refl (n - 1#w)).orShift.orShift).orShift).orShift).orShift
  rw [← Usize.toNat_pred hNonzero]
  rcases hw with rfl | rfl
  · rw [roundUpToPowerOf2, if_neg hn, ← h16.toNat_eq (by decide), BitVec.ofNat_toNat,
      BitVec.setWidth_eq]
    rfl
  · rw [roundUpToPowerOf2, if_neg hn, ← h16.orShift.toNat_eq (by decide), BitVec.ofNat_toNat,
      BitVec.setWidth_eq]
    rfl

/-- Up to half the range there is a power of two to round up to. -/
theorem roundUpToPowerOf2_of_le (hw : w = 32 ∨ w = 64) (build : Build) {n : Usize w}
    (hn : n.toNat ≤ 2 ^ (w - 1)) :
    ∃ capacity, roundUpToPowerOf2 build n = some capacity ∧
      capacity.toNat = 2 ^ (n.toNat - 1).size := by
  have hOne := Usize.toNat_one (w := w) (Nat.one_lt_two_pow (by omega))
  by_cases hZero : n = 0#w
  · refine ⟨1#w, ?_, ?_⟩
    · rw [roundUpToPowerOf2, if_pos hZero]
    · rw [hOne, hZero, BitVec.toNat_zero, Nat.zero_sub, Nat.size_zero, Nat.pow_zero]
  · have hPos : 0 < 2 ^ (n.toNat - 1).size := Nat.two_pow_pos _
    have hSize : (n.toNat - 1).size ≤ w - 1 := by
      have hHalf : 0 < 2 ^ (w - 1) := Nat.two_pow_pos _
      exact Nat.size_le.mpr (by omega)
    have hPower : 2 ^ (n.toNat - 1).size < 2 ^ w := Nat.pow_lt_pow_right (by omega) (by omega)
    refine ⟨BitVec.ofNat w (2 ^ (n.toNat - 1).size), ?_, ?_⟩
    · rw [roundUpToPowerOf2_eq hw build hZero, Usize.add_of_lt, ← BitVec.ofNat_add,
        Nat.sub_add_cancel hPos]
      rw [hOne, BitVec.toNat_ofNat, Nat.mod_eq_of_lt (by omega)]
      omega
    · rw [BitVec.toNat_ofNat, Nat.mod_eq_of_lt hPower]

/-- Beyond half the range there is none, and the final increment overflows. -/
theorem roundUpToPowerOf2_of_gt (hw : w = 32 ∨ w = 64) (build : Build) {n : Usize w}
    (hn : 2 ^ (w - 1) < n.toNat) :
    roundUpToPowerOf2 build n = if build = .checked then none else some 0#w := by
  have hOne := Usize.toNat_one (w := w) (Nat.one_lt_two_pow (by omega))
  have hZero : n ≠ 0#w := by
    rintro rfl
    simp at hn
  have hSize : (n.toNat - 1).size = w := by
    have hUpper : (n.toNat - 1).size ≤ w := Nat.size_le.mpr (by omega)
    have hLower : w - 1 < (n.toNat - 1).size := Nat.lt_size.mpr (by omega)
    omega
  have hRange : 0 < 2 ^ w := Nat.two_pow_pos w
  have hWrap : BitVec.ofNat w (2 ^ w - 1) + 1#w = 0#w := by
    rw [← BitVec.ofNat_add, Nat.sub_add_cancel hRange]
    exact BitVec.eq_of_toNat_eq (by rw [BitVec.toNat_ofNat, Nat.mod_self]; rfl)
  have hOverflow : 2 ^ w ≤ (BitVec.ofNat w (2 ^ w - 1)).toNat + (1#w).toNat := by
    rw [hOne, BitVec.toNat_ofNat, Nat.mod_eq_of_lt (by omega)]
    omega
  rw [roundUpToPowerOf2_eq hw build hZero, hSize, Usize.add, hWrap]
  simp only [hOverflow, and_true]

/-- What the round-up returns: a power of two that is at least its argument,
or zero when no such word exists and the final increment wraps. -/
theorem roundUpToPowerOf2_cases (hw : w = 32 ∨ w = 64) {build : Build} {n capacity : Usize w}
    (h : roundUpToPowerOf2 build n = some capacity) :
    capacity = 0#w ∧ 2 ^ (w - 1) < n.toNat ∨
      ∃ k < w, capacity.toNat = 2 ^ k ∧ n.toNat ≤ 2 ^ k := by
  rcases Nat.lt_or_ge (2 ^ (w - 1)) n.toNat with hGt | hLe
  · rw [roundUpToPowerOf2_of_gt hw build hGt] at h
    split_ifs at h
    exact Or.inl ⟨(Option.some.inj h).symm, hGt⟩
  · obtain ⟨capacity', hCapacity, hPower⟩ := roundUpToPowerOf2_of_le hw build hLe
    obtain rfl := Option.some.inj (hCapacity.symm.trans h)
    have hLeast := (Bits.isLeast_two_pow_size n.toNat).1.2
    have hRange := capacity'.isLt
    rw [hPower] at hRange
    exact Or.inr ⟨_, (Nat.pow_lt_pow_iff_right (by omega)).mp hRange, hPower,
      Nat.le_trans (Nat.le_max_left _ _) hLeast⟩

/-- A capacity that is not zero is a power of two also where the rounding has
overflowed: the smeared word plus one is zero or a single bit. -/
theorem exists_two_pow_of_pos (hw : w = 32 ∨ w = 64) {build : Build} {n capacity : Usize w}
    (h : roundUpToPowerOf2 build n = some capacity) (hPos : 0 < capacity.toNat) :
    ∃ k, capacity.toNat = 2 ^ k := by
  rcases roundUpToPowerOf2_cases hw h with ⟨hZero, _⟩ | ⟨k, _, hk, _⟩
  · simp [hZero] at hPos
  · exact ⟨k, hk⟩

/-- Up to half the range the rounding does not overflow, in either build. -/
theorem exists_two_pow_of_le (hw : w = 32 ∨ w = 64) {build : Build} {n capacity : Usize w}
    (h : roundUpToPowerOf2 build n = some capacity) (hn : n.toNat ≤ 2 ^ (w - 1)) :
    ∃ k, capacity.toNat = 2 ^ k := by
  rcases roundUpToPowerOf2_cases hw h with ⟨_, hGt⟩ | ⟨k, _, hk, _⟩
  · exact absurd hn (Nat.not_le.mpr hGt)
  · exact ⟨k, hk⟩

/-- Up to half the range the round-up does not overflow, and its result is the
least power of two that is at least its argument and at least one. -/
theorem roundUpToPowerOf2_isLeast (hw : w = 32 ∨ w = 64) (build : Build) {n : Usize w}
    (hn : n.toNat ≤ 2 ^ (w - 1)) :
    ∃ capacity, roundUpToPowerOf2 build n = some capacity ∧
      IsLeast {power | (∃ k, power = 2 ^ k) ∧ max n.toNat 1 ≤ power} capacity.toNat := by
  obtain ⟨capacity, hCapacity, hPower⟩ := roundUpToPowerOf2_of_le hw build hn
  refine ⟨capacity, hCapacity, ?_⟩
  rw [hPower]
  exact Bits.isLeast_two_pow_size n.toNat

/-- A size just past a power of two, in the build that checks the last
addition. -/
theorem roundUpToPowerOf2_1025 :
    ∃ capacity : Usize 64, roundUpToPowerOf2 .checked 1025#64 = some capacity ∧
      IsLeast {power | (∃ k, power = 2 ^ k) ∧ max 1025 1 ≤ power} capacity.toNat :=
  roundUpToPowerOf2_isLeast (Or.inr rfl) .checked (n := 1025#64) (by decide)

/-- However large the argument, at most eight bits are exchanged on each side,
as the match ends there. -/
theorem getCacheLineIndexBits_le (elementsPerCacheLine : Usize w) :
    getCacheLineIndexBits elementsPerCacheLine ≤ 8 := by
  unfold getCacheLineIndexBits
  split <;> omega

/-- The size threshold keeps both swapped fields inside the index range. -/
theorem getIndexShuffleBits_swapsInside (hw : w = 32 ∨ w = 64) {minimizeContention : Bool}
    {capacity : Usize w} (elementsPerCacheLine : Usize w)
    (hCapacity : minimizeContention = true → ∃ k, capacity.toNat = 2 ^ k) :
    SwapsInside capacity.toNat
      (getIndexShuffleBits minimizeContention capacity elementsPerCacheLine) := by
  have hBits := getCacheLineIndexBits_le elementsPerCacheLine
  generalize hb : getCacheLineIndexBits elementsPerCacheLine = bits at hBits
  cases minimizeContention with
  | false => exact Or.inl rfl
  | true =>
      obtain ⟨k, hk⟩ := hCapacity rfl
      by_cases hSmall : capacity < 1#w <<< (bits * 2)
      · left
        simp [getIndexShuffleBits, hb, hSmall]
      · right
        refine ⟨k, hk, ?_⟩
        have hValue : getIndexShuffleBits true capacity elementsPerCacheLine = bits := by
          simp [getIndexShuffleBits, hb, hSmall]
        have hMin : (1#w <<< (bits * 2)).toNat = 2 ^ (bits * 2) := by
          have hOne : 1 < 2 ^ w := Nat.one_lt_two_pow (by omega)
          rw [BitVec.toNat_shiftLeft, BitVec.toNat_ofNat, Nat.mod_eq_of_lt hOne,
            Nat.shiftLeft_eq, Nat.one_mul,
            Nat.mod_eq_of_lt (Nat.pow_lt_pow_right (by omega) (by omega))]
        rw [BitVec.lt_def, hMin, hk, Nat.not_lt] at hSmall
        rw [hValue]
        have hExponent := (Nat.pow_le_pow_iff_right (by omega : 1 < 2)).mp hSmall
        omega

/-- The shifts and masks of `remap_index` exchange two adjacent fields of bits;
this is the only place where the formula of the source is taken apart. -/
theorem remapIndex_eq_swapFields {bits : Nat} (hBits : bits ≠ 0) (index : Usize w) :
    remapIndex index bits = Bits.swapFields index bits := by
  simp [remapIndex, hBits, Bits.swapFields, Bits.swapMix]

/-- Remapping permutes the indices below the capacity. -/
theorem remapIndex_lt {capacity : Usize w} {bits : Nat} (h : SwapsInside capacity.toNat bits)
    {index : Usize w} (hIndex : index < capacity) : remapIndex index bits < capacity := by
  rcases h with rfl | ⟨k, hCapacity, hk⟩
  · simpa [remapIndex] using hIndex
  · by_cases hBits : bits = 0
    · simpa [remapIndex, hBits] using hIndex
    · have hWidth : k < w := by
        have hLt := capacity.isLt
        rw [hCapacity] at hLt
        exact (Nat.pow_lt_pow_iff_right (by omega)).mp hLt
      rw [remapIndex_eq_swapFields hBits, BitVec.lt_def, hCapacity]
      rw [BitVec.lt_def, hCapacity] at hIndex
      exact Bits.swapFields_lt (by omega) hk (by omega) index hIndex

/-- No two indices go to one slot, since the exchange undoes itself. -/
theorem remapIndex_inj {capacity : Usize w} {bits : Nat} (h : SwapsInside capacity.toNat bits)
    {index index' : Usize w} (hEq : remapIndex index bits = remapIndex index' bits) :
    index = index' := by
  by_cases hBits : bits = 0
  · simpa [remapIndex, hBits] using hEq
  · rcases h with rfl | ⟨k, hCapacity, hk⟩
    · contradiction
    · have hWidth : k < w := by
        have hLt := capacity.isLt
        rw [hCapacity] at hLt
        exact (Nat.pow_lt_pow_iff_right (by omega)).mp hLt
      rw [remapIndex_eq_swapFields hBits, remapIndex_eq_swapFields hBits] at hEq
      have hBack := congrArg (fun x => Bits.swapFields x bits) hEq
      simpa only [Bits.swapFields_swapFields (show 0 < bits by omega) (show 2 * bits ≤ w by omega)]
        using hBack

end AtomicQueueRs
