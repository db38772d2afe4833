import AtomicQueueRs.Ring.Occupancy

/-! A first-in first-out list laid out in a ring. The list starts at some
position; its elements are in the slots of consecutive positions, and every
other slot is vacant. -/
namespace Ring

set_option autoImplicit false

variable {α : Type}

/-- The positions of a lap have different slots, the same ones on every lap. -/
structure Layout (slot : Nat → Nat) (capacity : Nat) : Prop where
  slot_lt : ∀ p, slot p < capacity
  slot_eq_iff : ∀ p q, slot p = slot q ↔ p % capacity = q % capacity

structure Holds (slot : Nat → Nat) (capacity : Nat) (content : Nat → Option α) (start : Nat)
    (items : List α) : Prop where
  length_le : items.length ≤ capacity
  item : ∀ i < items.length, content (slot (start + i)) = items[i]?
  vacant : ∀ k < capacity, (∀ i < items.length, slot (start + i) ≠ k) → content k = none

variable {slot : Nat → Nat} {capacity start : Nat} {content : Nat → Option α} {items : List α}
  {x : α}

/-- The empty list is held by slots without content, from any position on. -/
theorem holds_nil (h : ∀ k < capacity, content k = none) : Holds slot capacity content start [] where
  length_le := Nat.zero_le _
  item := fun i hi => (Nat.not_lt_zero i hi).elim
  vacant := fun k hk _ => h k hk

/-- The first element of the list is in the slot of its position. -/
theorem Holds.front (h : Holds slot capacity content start (x :: items)) :
    content (slot start) = some x :=
  h.item 0 (Nat.zero_lt_succ _)

/-- The list of what the slots of consecutive positions contain. -/
theorem holds_ofFn {n : Nat} (item : Fin n → α) (hLe : n ≤ capacity)
    (hItem : ∀ i : Fin n, content (slot (start + i)) = some (item i))
    (hVacant : ∀ k < capacity, (∀ i < n, slot (start + i) ≠ k) → content k = none) :
    Holds slot capacity content start (List.ofFn item) where
  length_le := by rwa [List.length_ofFn]
  item := by
    intro i hi
    rw [List.length_ofFn] at hi
    rw [List.getElem?_ofFn, dif_pos hi]
    exact hItem ⟨i, hi⟩
  vacant := by
    rw [List.length_ofFn]
    exact hVacant

/-- Less than a lap apart, two positions have two slots. -/
theorem Layout.slot_ne (hLayout : Layout slot capacity) {p q : Nat} (hLt : p < q)
    (hLap : q < p + capacity) : slot p ≠ slot q := by
  intro hEq
  have hSame := eq_of_mod_eq (Nat.le_of_lt hLt) hLap ((hLayout.slot_eq_iff p q).mp hEq)
  omega

/-- No more positions in a row than there are slots have different slots. -/
theorem Layout.injOn (hLayout : Layout slot capacity) {n : Nat} (hn : n ≤ capacity) :
    Set.InjOn slot (Set.Ico start (start + n)) := by
  intro p hp q hq hEq
  rw [Set.mem_Ico] at hp hq
  rcases Nat.lt_trichotomy p q with hLt | hSame | hLt
  · exact (hLayout.slot_ne hLt (by omega) hEq).elim
  · exact hSame
  · exact (hLayout.slot_ne hLt (by omega) hEq.symm).elim

/-- A window of different slots. -/
theorem slot_ne_of_injOn {n i j : Nat} (hInj : Set.InjOn slot (Set.Ico start (start + n)))
    (hi : i < n) (hj : j < n) (hNe : i ≠ j) : slot (start + i) ≠ slot (start + j) := by
  intro hEq
  have hSame := hInj (Set.mem_Ico.mpr ⟨by omega, by omega⟩) (Set.mem_Ico.mpr ⟨by omega, by omega⟩) hEq
  omega

/-- If the next position does not have a slot of its own, it shares that of one
in the window. -/
theorem exists_slot_eq {n : Nat} (hInj : Set.InjOn slot (Set.Ico start (start + n)))
    (hNot : ¬ Set.InjOn slot (Set.Ico start (start + (n + 1)))) :
    ∃ i < n, slot (start + i) = slot (start + n) := by
  have hInsert : Set.Ico start (start + (n + 1)) = insert (start + n) (Set.Ico start (start + n)) := by
    ext p
    simp only [Set.mem_Ico, Set.mem_insert_iff]
    omega
  have hNew : start + n ∉ Set.Ico start (start + n) := by simp
  rw [hInsert, Set.injOn_insert hNew, not_and, not_not] at hNot
  obtain ⟨p, hp, hEq⟩ := hNot hInj
  rw [Set.mem_Ico] at hp
  obtain ⟨i, rfl⟩ := Nat.exists_eq_add_of_le hp.1
  exact ⟨i, by omega, hEq⟩

/-- The next slot is vacant if no position of the list falls on it. -/
theorem Holds.next (h : Holds slot capacity content start items)
    (hInj : Set.InjOn slot (Set.Ico start (start + (items.length + 1))))
    (hSlot : slot (start + items.length) < capacity) :
    content (slot (start + items.length)) = none :=
  h.vacant _ hSlot fun i hi => slot_ne_of_injOn hInj (by omega) (by omega) (by omega)

/-- An element put in the slot after the last one is appended to the list. The
slot has to be none of those in use, which `hInj` gives for one more
position. -/
theorem Holds.push (h : Holds slot capacity content start items) (hLt : items.length < capacity)
    (hInj : Set.InjOn slot (Set.Ico start (start + (items.length + 1)))) (x : α) :
    Holds slot capacity (Function.update content (slot (start + items.length)) (some x)) start
      (items ++ [x]) where
  length_le := by
    rw [List.length_append, List.length_singleton]
    exact hLt
  item := by
    intro i hi
    rw [List.length_append, List.length_singleton, Nat.lt_succ_iff_lt_or_eq] at hi
    rcases hi with hi | rfl
    · rw [Function.update_of_ne (slot_ne_of_injOn hInj (by omega) (by omega) (by omega)),
        List.getElem?_append_left hi]
      exact h.item i hi
    · rw [Function.update_self, List.getElem?_concat_length]
  vacant := by
    intro k hk hVacant
    rw [List.length_append, List.length_singleton] at hVacant
    rw [Function.update_of_ne (hVacant _ (Nat.lt_succ_self _)).symm]
    exact h.vacant k hk fun i hi => hVacant i (Nat.lt_succ_of_lt hi)

/-- Emptying the first slot removes the first element from the list. -/
theorem Holds.pop (h : Holds slot capacity content start (x :: items))
    (hInj : Set.InjOn slot (Set.Ico start (start + (items.length + 1)))) :
    Holds slot capacity (Function.update content (slot start) none) (start + 1) items where
  length_le := Nat.le_of_succ_le h.length_le
  item := by
    intro i hi
    have hFront : slot (start + (i + 1)) ≠ slot start :=
      slot_ne_of_injOn (j := 0) hInj (by omega) (by omega) (by omega)
    rw [Nat.add_assoc, Nat.add_comm 1 i, Function.update_of_ne hFront]
    exact h.item (i + 1) (Nat.succ_lt_succ hi)
  vacant := by
    intro k hk hVacant
    by_cases hFront : k = slot start
    · rw [hFront, Function.update_self]
    · rw [Function.update_of_ne hFront]
      refine h.vacant k hk fun i hi => ?_
      cases i with
      | zero => exact fun hEq => hFront hEq.symm
      | succ i =>
          rw [Nat.add_comm i 1, ← Nat.add_assoc]
          exact hVacant i (Nat.lt_of_succ_lt_succ hi)

/-- The slots in use are those of the list's positions. -/
theorem Holds.occupied_iff (h : Holds slot capacity content start items) {k : Nat}
    (hk : k < capacity) :
    content k ≠ none ↔ ∃ p, start ≤ p ∧ p < start + items.length ∧ slot p = k := by
  constructor
  · intro hOccupied
    by_contra hNone
    push Not at hNone
    exact hOccupied (h.vacant k hk fun i hi => hNone _ (Nat.le_add_right _ _) (by omega))
  · rintro ⟨p, hLower, hUpper, rfl⟩
    have hItem := h.item (p - start) (by omega)
    rw [Nat.add_sub_cancel' hLower, List.getElem?_eq_getElem (by omega)] at hItem
    rw [hItem]
    exact Option.some_ne_none _

end Ring
