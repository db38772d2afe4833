import AtomicQueueRs.Indexing
import Mathlib.Data.Finset.Card

/-! What the shuffle of `src/arch.rs` does to indices: it exchanges two bit
fields, so that neighbours end up in different blocks of slots, and permutes the
slots of a lap. -/
namespace AtomicQueueRs

set_option autoImplicit false

variable {w : Nat}

theorem remapIndex_exchanged {bits : Nat} (hBits : 2 * bits ≤ w) (index : Usize w) :
    Bits.Exchanged bits index (remapIndex index bits) := by
  by_cases hZero : bits = 0
  · subst hZero
    exact Bits.exchanged_zero index
  · rw [remapIndex_eq_swapFields hZero]
    exact Bits.exchanged_swapFields (Nat.pos_of_ne_zero hZero) hBits index

theorem remapIndex_remapIndex {bits : Nat} (hBits : 2 * bits ≤ w) (index : Usize w) :
    remapIndex (remapIndex index bits) bits = index := by
  by_cases hZero : bits = 0
  · simp [remapIndex, hZero]
  · rw [remapIndex_eq_swapFields hZero, remapIndex_eq_swapFields hZero]
    exact Bits.swapFields_swapFields (Nat.pos_of_ne_zero hZero) hBits index

/-- Remapping exchanges the two lowest fields of `bits` bits, undoes itself, and
sends any `2 ^ bits` consecutive indices, even past the wrap, to different blocks
of `2 ^ bits` adjacent slots. -/
theorem remapIndex_spreads {bits : Nat} (hBits : 2 * bits ≤ w) :
    (∀ index : Usize w, Bits.Exchanged bits index (remapIndex index bits)) ∧
      (∀ index : Usize w, remapIndex (remapIndex index bits) bits = index) ∧
      ∀ start : Usize w, Set.InjOn
        (fun i : Nat => (remapIndex (start + BitVec.ofNat w i) bits).toNat / 2 ^ bits)
        (Set.Iio (2 ^ bits)) :=
  ⟨remapIndex_exchanged hBits, remapIndex_remapIndex hBits,
    Bits.injOn_block (by omega) (remapIndex_exchanged hBits)⟩

theorem remapIndex_spreads_eight :
    Bits.Exchanged 3 0b1001010#64 (remapIndex 0b1001010#64 3) ∧
      remapIndex (remapIndex 0b1001010#64 3) 3 = 0b1001010#64 ∧
      Set.InjOn (fun i : Nat => (remapIndex (5#64 + BitVec.ofNat 64 i) 3).toNat / 2 ^ 3)
        (Set.Iio (2 ^ 3)) := by
  obtain ⟨hExchanged, hBack, hInj⟩ := remapIndex_spreads (show 2 * 3 ≤ 64 by decide)
  exact ⟨hExchanged _, hBack _, hInj _⟩

/-- The slot of a position in a queue that minimizes contention. -/
def lapSlot (capacity elementsPerCacheLine position : Usize w) : Usize w :=
  remapIndex (position % capacity) (getIndexShuffleBits true capacity elementsPerCacheLine)

section Lap

variable {capacity : Usize w}

theorem lapSlot_lt (hw : w = 32 ∨ w = 64) (hPower : ∃ k, capacity.toNat = 2 ^ k)
    (elementsPerCacheLine position : Usize w) :
    lapSlot capacity elementsPerCacheLine position < capacity := by
  have hPos : 0 < capacity.toNat := by
    obtain ⟨k, hk⟩ := hPower
    exact hk ▸ Nat.two_pow_pos k
  apply remapIndex_lt (getIndexShuffleBits_swapsInside hw elementsPerCacheLine fun _ => hPower)
  exact umod_lt_capacity hPos position

theorem capacity_dvd (hPower : ∃ k, capacity.toNat = 2 ^ k) : capacity.toNat ∣ 2 ^ w := by
  obtain ⟨k, hk⟩ := hPower
  have hLt := capacity.isLt
  rw [hk] at hLt ⊢
  exact Nat.pow_dvd_pow 2 (Nat.le_of_lt ((Nat.pow_lt_pow_iff_right (by omega)).mp hLt))

/-- Positions of one lap have different slots, wherever the lap starts. -/
theorem lapSlot_injOn (hw : w = 32 ∨ w = 64) (hPower : ∃ k, capacity.toNat = 2 ^ k)
    (elementsPerCacheLine start : Usize w) :
    Set.InjOn
      (fun i : Nat => (lapSlot capacity elementsPerCacheLine (start + BitVec.ofNat w i)).toNat)
      (Set.Iio capacity.toNat) := by
  intro i hi j hj hEq
  apply Bits.injOn_mod_window (capacity_dvd hPower) start hi hj
  have hSwaps := getIndexShuffleBits_swapsInside hw elementsPerCacheLine fun _ : true = true => hPower
  have hRest := congrArg BitVec.toNat (remapIndex_inj hSwaps (BitVec.eq_of_toNat_eq hEq))
  rwa [BitVec.toNat_umod, BitVec.toNat_umod] at hRest

/-- For every power of two that fits in a word, the slots stay below the
capacity, are the same one lap on, and are those of a lap in some order for any
window of consecutive positions, even past the wrap. -/
theorem lapSlot_permutes (hw : w = 32 ∨ w = 64) (hPower : ∃ k, capacity.toNat = 2 ^ k)
    (elementsPerCacheLine : Usize w) :
    (∀ position, lapSlot capacity elementsPerCacheLine position < capacity) ∧
      (∀ position, lapSlot capacity elementsPerCacheLine (position + capacity) =
        lapSlot capacity elementsPerCacheLine position) ∧
      ∀ start, Set.BijOn
        (fun i : Nat => (lapSlot capacity elementsPerCacheLine (start + BitVec.ofNat w i)).toNat)
        (Set.Iio capacity.toNat) (Set.Iio capacity.toNat) := by
  have hLt := lapSlot_lt hw hPower elementsPerCacheLine
  refine ⟨hLt, ?_, ?_⟩
  · intro position
    have hRest : (position + capacity) % capacity = position % capacity := by
      apply BitVec.eq_of_toNat_eq
      rw [BitVec.toNat_umod, BitVec.toNat_umod, BitVec.toNat_add,
        Nat.mod_mod_of_dvd _ (capacity_dvd hPower), Nat.add_mod_right]
    rw [lapSlot, hRest, lapSlot]
  · intro start
    have hMaps : Set.MapsTo
        (fun i : Nat => (lapSlot capacity elementsPerCacheLine (start + BitVec.ofNat w i)).toNat)
        (Finset.range capacity.toNat) (Finset.range capacity.toNat) := by
      intro i _
      rw [Finset.mem_coe, Finset.mem_range]
      exact BitVec.lt_def.mp (hLt _)
    have hInj := lapSlot_injOn hw hPower elementsPerCacheLine start
    rw [← Finset.coe_range] at hInj ⊢
    exact ⟨hMaps, hInj, Finset.surjOn_of_injOn_of_card_le _ hMaps hInj (Nat.le_refl _)⟩

/-- Eight slots, two to a cache line, and a window over the wrap. -/
theorem lapSlot_permutes_eight :
    lapSlot 8#32 2#32 13#32 < 8#32 ∧ lapSlot 8#32 2#32 (13#32 + 8#32) = lapSlot 8#32 2#32 13#32 ∧
      Set.BijOn (fun i : Nat => (lapSlot 8#32 2#32 (4294967293#32 + BitVec.ofNat 32 i)).toNat)
        (Set.Iio 8) (Set.Iio 8) := by
  obtain ⟨hLt, hLap, hBij⟩ :=
    lapSlot_permutes (Or.inl rfl) (show ∃ k, (8#32).toNat = 2 ^ k from ⟨3, rfl⟩) 2#32
  exact ⟨hLt _, hLap _, hBij _⟩

end Lap

section Queues

variable {target : Target w} {size : Usize w} {totalOrder : Bool} {q : Queue w}

theorem AtomicQueue2.getSlot_eq_lapSlot (h : AtomicQueue2.new target size true totalOrder = some q)
    (hPos : 0 < q.capacity.toNat) (position : Usize w) :
    q.getSlot position = some
      (lapSlot q.capacity (target.cacheLineSize / target.sizeOfPaddedState) position).toNat := by
  obtain ⟨_, _, _, hGetSlot, _⟩ := new_eq_some h
  rw [hGetSlot, lapSlot]
  exact getSlot_eq_some hPos (new_swapsInside h hPos) position

theorem AtomicQueueB2.getSlot_eq_lapSlot (h : AtomicQueueB2.new target size totalOrder = some q)
    (hPower : ∃ k, q.capacity.toNat = 2 ^ k) (position : Usize w) :
    q.getSlot position = some
      (lapSlot q.capacity (target.cacheLineSize / target.sizeOfPaddedState) position).toNat := by
  obtain ⟨_, _, _, hGetSlot, _⟩ := new_eq_some h
  obtain ⟨k, hk⟩ := hPower
  rw [hGetSlot, lapSlot]
  exact getSlot_eq_some target.build hk _ position

end Queues

end AtomicQueueRs
