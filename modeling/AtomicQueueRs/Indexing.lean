import AtomicQueueRs.AtomicQueue
import AtomicQueueRs.AtomicQueue2
import AtomicQueueRs.Ring.Fifo
import AtomicQueueRs.Tickets

/-! Slots of positions. Every queue with a positive capacity maps positions
one lap apart to one slot and the positions of a lap to different slots. -/
namespace AtomicQueueRs

set_option autoImplicit false

variable {w : Nat}

/-- Indexing never panics, stays below the capacity, and identifies positions
exactly when they differ by whole laps. -/
structure Queue.Indexed (q : Queue w) : Prop where
  capacity_pos : 0 < q.capacity.toNat
  exists_getSlot : ∀ position, ∃ slot < q.capacity.toNat, q.getSlot position = some slot
  getSlot_eq_iff : ∀ position position', q.getSlot position = q.getSlot position' ↔
    position.toNat % q.capacity.toNat = position'.toNat % q.capacity.toNat

/-- Where indexing does not panic, it stays within the allocation. -/
theorem Queue.Indexed.lt_of_getSlot {q : Queue w} (h : q.Indexed) {position : Usize w} {slot : Nat}
    (hSlot : q.getSlot position = some slot) : slot < q.capacity.toNat := by
  obtain ⟨_, hLt, hOwn⟩ := h.exists_getSlot position
  obtain rfl := Option.some.inj (hOwn.symm.trans hSlot)
  exact hLt

/-- The slot of the `n`th position. -/
def Queue.slotAt (q : Queue w) (n : Nat) : Nat := (q.getSlot (BitVec.ofNat w n)).getD 0

/-- Indexing does not fail at any position, whether or not the counter has
wrapped. -/
theorem Queue.Indexed.getSlot_ofNat {q : Queue w} (h : q.Indexed) (n : Nat) :
    q.getSlot (BitVec.ofNat w n) = some (q.slotAt n) := by
  obtain ⟨slot, _, hSlot⟩ := h.exists_getSlot (BitVec.ofNat w n)
  simp [Queue.slotAt, hSlot]

theorem Queue.Indexed.slotAt_lt {q : Queue w} (h : q.Indexed) (n : Nat) :
    q.slotAt n < q.capacity.toNat := by
  obtain ⟨slot, hLt, hSlot⟩ := h.exists_getSlot (BitVec.ofNat w n)
  simpa [Queue.slotAt, hSlot] using hLt

/-- Before the counters wrap, any capacity gives each lap its own slots. -/
theorem Queue.Indexed.slotAt_eq_iff_of_lt {q : Queue w} (h : q.Indexed) {m n : Nat}
    (hm : m < 2 ^ w) (hn : n < 2 ^ w) :
    q.slotAt m = q.slotAt n ↔ m % q.capacity.toNat = n % q.capacity.toNat := by
  have hSlots := h.getSlot_eq_iff (BitVec.ofNat w m) (BitVec.ofNat w n)
  rw [h.getSlot_ofNat, h.getSlot_ofNat, Option.some.injEq, BitVec.toNat_ofNat, BitVec.toNat_ofNat,
    Nat.mod_eq_of_lt hm, Nat.mod_eq_of_lt hn] at hSlots
  exact hSlots

/-- A power-of-two capacity keeps the laps aligned past the wrap. -/
theorem Queue.Indexed.layout {q : Queue w} (h : q.Indexed)
    (hPower : ∃ k, q.capacity.toNat = 2 ^ k) : Ring.Layout q.slotAt q.capacity.toNat where
  slot_lt := h.slotAt_lt
  slot_eq_iff := by
    intro m n
    obtain ⟨k, hk⟩ := hPower
    have hLt : 2 ^ k < 2 ^ w := hk ▸ q.capacity.isLt
    have hDvd : q.capacity.toNat ∣ 2 ^ w := by
      rw [hk]
      exact Nat.pow_dvd_pow 2 ((Nat.pow_lt_pow_iff_right (by omega)).mp hLt).le
    have hSlots := h.getSlot_eq_iff (BitVec.ofNat w m) (BitVec.ofNat w n)
    rw [h.getSlot_ofNat, h.getSlot_ofNat, Option.some.injEq, BitVec.toNat_ofNat,
      BitVec.toNat_ofNat, Nat.mod_mod_of_dvd _ hDvd, Nat.mod_mod_of_dvd _ hDvd] at hSlots
    exact hSlots

def Queue.atSlot (q : Queue w) (slot : Nat) (position : Usize w) : Bool :=
  q.getSlot position = some slot

/-- Of the first `n` positions, those of one slot. -/
theorem Queue.Indexed.countP_positions {q : Queue w} (h : q.Indexed) (slot n : Nat) :
    (positions w n).countP (q.atSlot slot) = Ring.visits q.slotAt slot n := by
  induction n with
  | zero => rfl
  | succ n ih =>
      rw [positions_succ, List.countP_append, ih, Ring.visits_succ, List.countP_singleton,
        Queue.atSlot, h.getSlot_ofNat]
      simp

/-- The mask of a capacity that is no power of two is a remainder, and it too
stays below the capacity. -/
theorem umod_lt_capacity {capacity : Usize w} (hPos : 0 < capacity.toNat) (position : Usize w) :
    position % capacity < capacity := by
  rw [BitVec.lt_def, BitVec.toNat_umod]
  exact Nat.mod_lt _ hPos

private theorem indexed_of_remap {q : Queue w} {bits : Nat} (hPos : 0 < q.capacity.toNat)
    (hSwaps : SwapsInside q.capacity.toNat bits)
    (hGet : ∀ position, q.getSlot position =
      some (remapIndex (position % q.capacity) bits).toNat) : q.Indexed := by
  refine ⟨hPos, fun position => ⟨_, ?_, hGet position⟩, fun position position' => ?_⟩
  · exact BitVec.lt_def.mp (remapIndex_lt hSwaps (umod_lt_capacity hPos position))
  · rw [hGet, hGet, Option.some.injEq, ← BitVec.toNat_umod, ← BitVec.toNat_umod]
    constructor
    · intro hEq
      rw [remapIndex_inj hSwaps (BitVec.eq_of_toNat_eq hEq)]
    · intro hEq
      rw [BitVec.eq_of_toNat_eq hEq]

namespace AtomicQueue2

/-- What `new` has built: the capacity is rounded up only with
`MINIMIZE_CONTENTION`, and only then is the index remapped. -/
theorem new_eq_some {target : Target w} {size : Usize w} {minimizeContention totalOrder : Bool}
    {q : Queue w} (h : new target size minimizeContention totalOrder = some q) :
    capacity target.build minimizeContention size = some q.capacity ∧
      q.build = target.build ∧ q.totalOrder = totalOrder ∧
      q.getSlot = getSlot q.capacity (getIndexShuffleBits minimizeContention q.capacity
        (target.cacheLineSize / target.sizeOfPaddedState)) ∧
      target.allocates q.capacity = true := by
  simp only [new, Option.bind_eq_bind, Option.bind_eq_some_iff] at h
  obtain ⟨capacity, hCapacity, h⟩ := h
  split_ifs at h with hAllocates
  obtain rfl := Option.some.inj h
  exact ⟨hCapacity, rfl, rfl, rfl, hAllocates⟩

/-- Neither the division nor the slice accesses panic. -/
theorem getSlot_eq_some {capacity : Usize w} {bits : Nat} (hPos : 0 < capacity.toNat)
    (hSwaps : SwapsInside capacity.toNat bits) (position : Usize w) :
    getSlot capacity bits position = some (remapIndex (position % capacity) bits).toNat := by
  have hNonzero : capacity ≠ 0#w := fun hZero => by simp [hZero] at hPos
  rw [getSlot, if_neg hNonzero]
  exact if_pos (remapIndex_lt hSwaps (umod_lt_capacity hPos position))

/-- The constructor's capacity and shuffle bits fit each other. -/
theorem new_swapsInside {target : Target w} {size : Usize w} {minimizeContention totalOrder : Bool}
    {q : Queue w} (h : new target size minimizeContention totalOrder = some q)
    (hPos : 0 < q.capacity.toNat) : SwapsInside q.capacity.toNat
      (getIndexShuffleBits minimizeContention q.capacity
        (target.cacheLineSize / target.sizeOfPaddedState)) := by
  obtain ⟨hCapacity, _⟩ := new_eq_some h
  refine getIndexShuffleBits_swapsInside target.width _ fun hMinimize => ?_
  rw [capacity, if_pos hMinimize] at hCapacity
  exact exists_two_pow_of_pos target.width hCapacity hPos

/-- Positive capacity is all that indexing needs, and what a constructor may
fail to establish: the round-up can overflow to zero. -/
theorem new_indexed {target : Target w} {size : Usize w} {minimizeContention totalOrder : Bool}
    {q : Queue w} (h : new target size minimizeContention totalOrder = some q)
    (hPos : 0 < q.capacity.toNat) : q.Indexed := by
  obtain ⟨_, _, _, hGetSlot, _⟩ := new_eq_some h
  refine indexed_of_remap hPos (new_swapsInside h hPos) fun position => ?_
  rw [hGetSlot]
  exact getSlot_eq_some hPos (new_swapsInside h hPos) position

end AtomicQueue2

/-- Masking by a power of two less one is the remainder, under both profiles. -/
theorem and_mask {build : Build} {capacity mask : Usize w} {k : Nat} (hk : capacity.toNat = 2 ^ k)
    (hMask : Usize.sub build capacity 1#w = some mask) (index : Usize w) :
    index &&& mask = index % capacity := by
  have hPos : 0 < 2 ^ k := Nat.two_pow_pos k
  have hWidth : w ≠ 0 := by
    rintro rfl
    have hLt := capacity.isLt
    omega
  have hOne : (1#w).toNat = 1 := by
    rw [BitVec.toNat_ofNat, Nat.mod_eq_of_lt (Nat.one_lt_two_pow hWidth)]
  have hLow : mask.toNat = 2 ^ k - 1 := by
    rw [Usize.eq_of_sub hMask, BitVec.toNat_sub_of_le (by rw [BitVec.le_def, hOne]; omega), hk, hOne]
  apply BitVec.eq_of_toNat_eq
  rw [BitVec.toNat_and, hLow, Nat.and_two_pow_sub_one_eq_mod, ← hk, BitVec.toNat_umod]

/-- A positive capacity leaves a mask, under both profiles. -/
theorem exists_mask (build : Build) {capacity : Usize w} (hPos : 0 < capacity.toNat) :
    ∃ mask, Usize.sub build capacity 1#w = some mask := by
  refine ⟨capacity - 1#w, Usize.sub_of_le build ?_⟩
  rw [BitVec.toNat_ofNat]
  exact Nat.le_trans (Nat.mod_le _ _) hPos

namespace AtomicQueueB2

/-- The mask of a power of two is its remainder. -/
theorem getSlot_eq_some (build : Build) {capacity : Usize w} {k : Nat} (hk : capacity.toNat = 2 ^ k)
    (bits : Nat) (position : Usize w) :
    getSlot build capacity bits position = some (remapIndex (position % capacity) bits).toNat := by
  have hPos : 0 < capacity.toNat := hk ▸ Nat.two_pow_pos k
  obtain ⟨mask, hMask⟩ := exists_mask build hPos
  rw [getSlot, hMask, ← and_mask hk hMask position]
  rfl

/-- Here the capacity is always rounded up and the index always remapped. -/
theorem new_eq_some {target : Target w} {size : Usize w} {totalOrder : Bool} {q : Queue w}
    (h : new target size totalOrder = some q) :
    roundUpToPowerOf2 target.build size = some q.capacity ∧
      q.build = target.build ∧ q.totalOrder = totalOrder ∧
      q.getSlot = getSlot target.build q.capacity (getIndexShuffleBits true q.capacity
        (target.cacheLineSize / target.sizeOfPaddedState)) ∧
      target.allocates q.capacity = true := by
  simp only [new, Option.bind_eq_bind, Option.bind_eq_some_iff] at h
  obtain ⟨capacity, hCapacity, h⟩ := h
  split_ifs at h with hAllocates
  obtain rfl := Option.some.inj h
  exact ⟨hCapacity, rfl, rfl, rfl, hAllocates⟩

/-- As the capacity is a power of two, masking with `capacity - 1` is the
remainder. -/
theorem new_indexed {target : Target w} {size : Usize w} {totalOrder : Bool} {q : Queue w}
    (h : new target size totalOrder = some q) (hPos : 0 < q.capacity.toNat) : q.Indexed := by
  obtain ⟨hCapacity, _, _, hGetSlot, _⟩ := new_eq_some h
  obtain ⟨k, hk⟩ := exists_two_pow_of_pos target.width hCapacity hPos
  have hSwaps := getIndexShuffleBits_swapsInside target.width
    (target.cacheLineSize / target.sizeOfPaddedState) fun _ : true = true => ⟨k, hk⟩
  refine indexed_of_remap hPos hSwaps fun position => ?_
  rw [hGetSlot]
  exact getSlot_eq_some target.build hk _ position

end AtomicQueueB2

/-- For both types of `atomic_queue2.rs` and all flags. -/
theorem IsAtomicQueue2.indexed {target : Target w} {totalOrder : Bool} {q : Queue w}
    (h : IsAtomicQueue2 target totalOrder q) (hPos : 0 < q.capacity.toNat) : q.Indexed := by
  cases h with
  | fixed size minimizeContention h => exact AtomicQueue2.new_indexed h hPos
  | runtime size h => exact AtomicQueueB2.new_indexed h hPos

theorem IsAtomicQueue2.totalOrder_eq {target : Target w} {totalOrder : Bool} {q : Queue w}
    (h : IsAtomicQueue2 target totalOrder q) : q.totalOrder = totalOrder := by
  cases h with
  | fixed size minimizeContention h => exact (AtomicQueue2.new_eq_some h).2.2.1
  | runtime size h => exact (AtomicQueueB2.new_eq_some h).2.2.1

theorem IsAtomicQueue2.build_eq {target : Target w} {totalOrder : Bool} {q : Queue w}
    (h : IsAtomicQueue2 target totalOrder q) : q.build = target.build := by
  cases h with
  | fixed size minimizeContention h => exact (AtomicQueue2.new_eq_some h).2.1
  | runtime size h => exact (AtomicQueueB2.new_eq_some h).2.1

/-- A queue of either family: `AtomicQueue`, `AtomicQueueB`, or
`AtomicQueue2`, `AtomicQueueB2` with total order. All claim by
`compare_exchange` when they do not block. -/
inductive IsTotallyOrdered (target : Target w) (q : Queue w) : Prop where
  | atomic (h : IsAtomicQueue target q)
  | nonAtomic (h : IsAtomicQueue2 target true q)

/-- A queue of any of the four types. -/
inductive IsQueue (target : Target w) (q : Queue w) : Prop where
  | atomic (h : IsAtomicQueue target q)
  | nonAtomic (totalOrder : Bool) (h : IsAtomicQueue2 target totalOrder q)

namespace AtomicQueue

theorem new_eq_some {target : Target w} {size : Usize w} {q : Queue w}
    (h : new target size = some q) :
    roundUpToPowerOf2 target.build size = some q.capacity ∧ q.build = target.build ∧
      q.totalOrder = true ∧ q.getSlot = getElement target.build q.capacity ∧
      target.allocates q.capacity = true := by
  simp only [new, Option.bind_eq_bind, Option.bind_eq_some_iff] at h
  obtain ⟨capacity, hCapacity, h⟩ := h
  split_ifs at h with hAllocates
  obtain rfl := Option.some.inj h
  exact ⟨hCapacity, rfl, rfl, rfl, hAllocates⟩

end AtomicQueue

namespace AtomicQueueB

/-- As for `AtomicQueue`, from a size raised to 2. -/
theorem new_eq_some {target : Target w} {size : Usize w} {q : Queue w}
    (h : new target size = some q) :
    roundUpToPowerOf2 target.build (if size < 2#w then 2#w else size) = some q.capacity ∧
      q.build = target.build ∧ q.totalOrder = true ∧
      q.getSlot = getElement target.build q.capacity ∧
      target.allocates q.capacity = true := by
  simp only [new, Option.bind_eq_bind, Option.bind_eq_some_iff] at h
  obtain ⟨capacity, hCapacity, h⟩ := h
  split_ifs at h with hAllocates
  obtain rfl := Option.some.inj h
  exact ⟨hCapacity, rfl, rfl, rfl, hAllocates⟩

/-- Raising the request to two keeps it within half the range. -/
theorem raised_le (hw : w = 32 ∨ w = 64) {size : Usize w} (hLe : size.toNat ≤ 2 ^ (w - 1)) :
    (if size < 2#w then 2#w else size).toNat ≤ 2 ^ (w - 1) := by
  split_ifs
  · rcases hw with rfl | rfl <;> decide
  · exact hLe

/-- Raising the size to 2 never makes it smaller than what was asked for. -/
theorem le_raised {size : Usize w} : size.toNat ≤ (if size < 2#w then 2#w else size).toNat := by
  split_ifs with hSmall
  · exact Nat.le_of_lt hSmall
  · exact Nat.le_refl _

end AtomicQueueB

theorem IsAtomicQueue.totalOrder_eq {target : Target w} {q : Queue w}
    (h : IsAtomicQueue target q) : q.totalOrder = true := by
  cases h with
  | fixed size h => exact (AtomicQueue.new_eq_some h).2.2.1
  | runtime size h => exact (AtomicQueueB.new_eq_some h).2.2.1

theorem IsAtomicQueue.build_eq {target : Target w} {q : Queue w}
    (h : IsAtomicQueue target q) : q.build = target.build := by
  cases h with
  | fixed size h => exact (AtomicQueue.new_eq_some h).2.1
  | runtime size h => exact (AtomicQueueB.new_eq_some h).2.1

/-- Both constructors of `atomic_queue.rs` round up, also the one with a fixed
size. -/
theorem IsAtomicQueue.capacity_eq_two_pow {target : Target w} {q : Queue w}
    (h : IsAtomicQueue target q) (hPos : 0 < q.capacity.toNat) : ∃ k, q.capacity.toNat = 2 ^ k := by
  cases h with
  | fixed size h => exact exists_two_pow_of_pos target.width (AtomicQueue.new_eq_some h).1 hPos
  | runtime size h => exact exists_two_pow_of_pos target.width (AtomicQueueB.new_eq_some h).1 hPos

/-- For both types of `atomic_queue.rs`. Their index is not remapped. -/
theorem IsAtomicQueue.indexed {target : Target w} {q : Queue w} (h : IsAtomicQueue target q)
    (hPos : 0 < q.capacity.toNat) : q.Indexed := by
  obtain ⟨k, hk⟩ := h.capacity_eq_two_pow hPos
  obtain ⟨mask, hMask⟩ := exists_mask target.build hPos
  have hBelow (position : Usize w) : position &&& mask < q.capacity := by
    rw [and_mask hk hMask]
    exact umod_lt_capacity hPos position
  refine indexed_of_remap hPos (Or.inl rfl) fun position => ?_
  rw [← and_mask hk hMask position]
  cases h with
  | fixed size h =>
      rw [(AtomicQueue.new_eq_some h).2.2.2.1, AtomicQueue.getElement, hMask]
      exact if_pos (hBelow position)
  | runtime size h =>
      rw [(AtomicQueueB.new_eq_some h).2.2.2.1, AtomicQueueB.getElement, hMask]
      rfl

theorem IsTotallyOrdered.totalOrder_eq {target : Target w} {q : Queue w}
    (h : IsTotallyOrdered target q) : q.totalOrder = true := by
  cases h with
  | atomic h => exact h.totalOrder_eq
  | nonAtomic h => exact h.totalOrder_eq

theorem IsQueue.build_eq {target : Target w} {q : Queue w} (h : IsQueue target q) :
    q.build = target.build := by
  cases h with
  | atomic h => exact h.build_eq
  | nonAtomic totalOrder h => exact h.build_eq

/-- For all four types. Results about any queue get the indexing from here. -/
theorem IsQueue.indexed {target : Target w} {q : Queue w} (h : IsQueue target q)
    (hPos : 0 < q.capacity.toNat) : q.Indexed := by
  cases h with
  | atomic h => exact h.indexed hPos
  | nonAtomic _ h => exact h.indexed hPos

/-- A queue that exists had its slots allocated, which rules out capacities
beyond the memory of the target. -/
theorem IsQueue.allocates {target : Target w} {q : Queue w} (h : IsQueue target q) :
    target.allocates q.capacity = true := by
  cases h with
  | atomic h =>
      cases h with
      | fixed size h => exact (AtomicQueue.new_eq_some h).2.2.2.2
      | runtime size h => exact (AtomicQueueB.new_eq_some h).2.2.2.2
  | nonAtomic totalOrder h =>
      cases h with
      | fixed size minimizeContention h => exact (AtomicQueue2.new_eq_some h).2.2.2.2
      | runtime size h => exact (AtomicQueueB2.new_eq_some h).2.2.2.2

end AtomicQueueRs
