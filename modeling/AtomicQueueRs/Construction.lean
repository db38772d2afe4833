import AtomicQueueRs.Indexing

/-! The constructors that take their size at run time. `AtomicQueueB` and
`AtomicQueueB2` add an index to a raw pointer unchecked, so the capacity has to
make every index stay inside the allocation. -/
namespace AtomicQueueRs

set_option autoImplicit false

variable {w : Nat}

/-- What the unchecked accesses rely on: whatever the counters hold, the offset
is that of an allocated slot. -/
structure Queue.SoundFor (q : Queue w) (size : Usize w) : Prop where
  power : ∃ k, q.capacity.toNat = 2 ^ k
  size_le : size.toNat ≤ q.capacity.toNat
  one_le : 1 ≤ q.capacity.toNat
  getSlot_lt : ∀ index, ∃ offset < q.capacity.toNat, q.getSlot index = some offset

/-- A constructor called with `size` panics, aborts, or builds such a queue. -/
def Establishes (size : Usize w) (built : Option (Queue w)) : Prop :=
  ∀ q, built = some q → q.SoundFor size

/-- The size has a power of two to round up to, or the build panics on the way
to zero, or no memory is to be had for zero slots. -/
def Target.Constructible (target : Target w) (size : Usize w) : Prop :=
  size.toNat ≤ 2 ^ (w - 1) ∨ target.build = .checked ∨ target.allocates 0#w = false

/-- No word is below a capacity of zero. -/
theorem not_soundFor_of_zero {q : Queue w} {size : Usize w} (hZero : q.capacity = 0#w) :
    ¬ q.SoundFor size := by
  intro h
  have hOne := h.one_le
  rw [hZero] at hOne
  simp at hOne

section Sizes

variable {target : Target w} {size n : Usize w} {totalOrder : Bool} {q : Queue w}
  {built : Option (Queue w)}

/-- Up to half the range of the counters the size has a power of two to round up
to, and the indexing of that power stays inside the slots. -/
theorem soundFor_of_le (hIndexed : 0 < q.capacity.toNat → q.Indexed)
    (hCapacity : roundUpToPowerOf2 target.build n = some q.capacity) (hn : n.toNat ≤ 2 ^ (w - 1))
    (hSize : size.toNat ≤ n.toNat) : q.SoundFor size := by
  rcases roundUpToPowerOf2_cases target.width hCapacity with ⟨_, hGt⟩ | ⟨k, _, hk, hLe⟩
  · exact absurd hn (Nat.not_le.mpr hGt)
  · have hPos : 0 < q.capacity.toNat := hk ▸ Nat.two_pow_pos k
    exact ⟨⟨k, hk⟩, by omega, hPos, (hIndexed hPos).exists_getSlot⟩

/-- A round-up to zero that has got past the allocator. -/
theorem soundFor_of_gt (h : target.build = .checked ∨ target.allocates 0#w = false)
    (hn : 2 ^ (w - 1) < n.toNat) (hCapacity : roundUpToPowerOf2 target.build n = some q.capacity)
    (hAllocates : target.allocates q.capacity = true) : q.SoundFor size := by
  rw [roundUpToPowerOf2_of_gt target.width target.build hn] at hCapacity
  split_ifs at hCapacity with hChecked
  rw [← Option.some.inj hCapacity] at hAllocates
  rcases h with hBuild | hRefused
  · contradiction
  · rw [hRefused] at hAllocates
    contradiction

/-- A constructor that rounds `n` up and then allocates. -/
theorem establishes_iff_of_rounds (hSize : size.toNat ≤ n.toNat)
    (hHalf : size.toNat ≤ 2 ^ (w - 1) → n.toNat ≤ 2 ^ (w - 1))
    (hNew : ∀ q, built = some q → roundUpToPowerOf2 target.build n = some q.capacity ∧
      target.allocates q.capacity = true ∧ (0 < q.capacity.toNat → q.Indexed))
    (hBuilt : ∀ capacity, roundUpToPowerOf2 target.build n = some capacity →
      target.allocates capacity = true → ∃ q, built = some q ∧ q.capacity = capacity) :
    Establishes size built ↔ target.Constructible size := by
  rcases Nat.lt_or_ge (2 ^ (w - 1)) size.toNat with hGt | hLe
  · constructor
    · intro h
      by_contra hNot
      rw [Target.Constructible, not_or, not_or, Bool.not_eq_false] at hNot
      obtain ⟨_, hUnchecked, hAllocates⟩ := hNot
      have hZero := roundUpToPowerOf2_of_gt target.width target.build (Nat.lt_of_lt_of_le hGt hSize)
      rw [if_neg hUnchecked] at hZero
      obtain ⟨q, hq, hCapacity⟩ := hBuilt _ hZero hAllocates
      exact not_soundFor_of_zero hCapacity (h q hq)
    · intro h q hq
      obtain ⟨hCapacity, hAllocates, _⟩ := hNew q hq
      have hPast := h.resolve_left (Nat.not_le.mpr hGt)
      exact soundFor_of_gt hPast (Nat.lt_of_lt_of_le hGt hSize) hCapacity hAllocates
  · apply iff_of_true _ (Or.inl hLe)
    intro q hq
    obtain ⟨hCapacity, _, hIndexed⟩ := hNew q hq
    exact soundFor_of_le hIndexed hCapacity (hHalf hLe) hSize

/-- The constructor raises the size to 2 before rounding, which changes nothing:
the sizes it fails on are all beyond half the range. -/
theorem AtomicQueueB.establishes_iff :
    Establishes size (AtomicQueueB.new target size) ↔ target.Constructible size := by
  apply establishes_iff_of_rounds AtomicQueueB.le_raised (AtomicQueueB.raised_le target.width)
  · intro q hNew
    obtain ⟨hCapacity, _, _, _, hAllocates⟩ := AtomicQueueB.new_eq_some hNew
    exact ⟨hCapacity, hAllocates, (IsAtomicQueue.runtime size hNew).indexed⟩
  · intro capacity hCapacity hAllocates
    rw [AtomicQueueB.new, hCapacity, Option.bind_eq_bind, Option.bind_some, if_pos hAllocates]
    exact ⟨_, rfl, rfl⟩

/-- The condition is the same as for `AtomicQueueB`, although this constructor
has allocations and an index table of its own. -/
theorem AtomicQueueB2.establishes_iff :
    Establishes size (AtomicQueueB2.new target size totalOrder) ↔ target.Constructible size := by
  apply establishes_iff_of_rounds (Nat.le_refl _) id
  · intro q hNew
    obtain ⟨hCapacity, _, _, _, hAllocates⟩ := AtomicQueueB2.new_eq_some hNew
    exact ⟨hCapacity, hAllocates, AtomicQueueB2.new_indexed hNew⟩
  · intro capacity hCapacity hAllocates
    rw [AtomicQueueB2.new, hCapacity, Option.bind_eq_bind, Option.bind_some]
    dsimp only
    rw [if_pos hAllocates]
    exact ⟨_, rfl, rfl⟩

end Sizes

/-- Both constructors, for every size. Beyond half the range the round-up
overflows to capacity 0 where the build does not check it, and such a queue can
be allocated. -/
theorem establishes_iff_constructible (target : Target w) (size : Usize w) (totalOrder : Bool) :
    (Establishes size (AtomicQueueB.new target size) ↔ target.Constructible size) ∧
      (Establishes size (AtomicQueueB2.new target size totalOrder) ↔ target.Constructible size) :=
  ⟨AtomicQueueB.establishes_iff, AtomicQueueB2.establishes_iff⟩

/-- One more than the largest power of two: the capacity wraps to zero. -/
theorem not_establishes_beyond_half :
    ¬ Establishes 9223372036854775809#64 (AtomicQueueB.new Target.x86_64 9223372036854775809#64) ∧
      ¬ Establishes 9223372036854775809#64
        (AtomicQueueB2.new Target.x86_64 9223372036854775809#64 false) := by
  constructor
  · intro h
    exact not_soundFor_of_zero rfl (h _ rfl)
  · intro h
    exact not_soundFor_of_zero rfl (h _ rfl)

end AtomicQueueRs
