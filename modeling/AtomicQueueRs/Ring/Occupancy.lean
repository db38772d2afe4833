import Mathlib.Data.List.Range
import Mathlib.Data.Nat.Count
import Mathlib.Order.Interval.Finset.Nat

/-! Positions of a ring buffer and the slots they fall on. Positions are the
unbounded claim counts of producers and consumers; machine counters are their
residues. Nothing here depends on how a slot is filled or drained. -/
namespace Ring

set_option autoImplicit false

/-- Positions less than a lap apart are told apart by their residues. -/
theorem eq_of_mod_eq {m n capacity : Nat} (hLe : m ≤ n) (hLt : n < m + capacity)
    (h : m % capacity = n % capacity) : m = n := by
  have hRest := Nat.sub_mod_eq_zero_of_mod_eq h.symm
  rw [Nat.mod_eq_of_lt (by omega)] at hRest
  omega

/-- Positions below `n` that fall on slot `k`. -/
def visits (slot : Nat → Nat) (k n : Nat) : Nat := Nat.count (fun p => slot p = k) n

variable {slot : Nat → Nat} {k m n capacity : Nat}

@[simp] theorem visits_zero : visits slot k 0 = 0 := Nat.count_zero _

theorem visits_succ : visits slot k (n + 1) = visits slot k n + if slot n = k then 1 else 0 :=
  Nat.count_succ _ _

theorem visits_mono (h : m ≤ n) : visits slot k m ≤ visits slot k n :=
  Nat.count_monotone _ h

/-- A counter that passes a position of the slot has visited the slot once
more. -/
theorem visits_lt_of_mem {p : Nat} (hLower : m ≤ p) (hUpper : p < n) (hSlot : slot p = k) :
    visits slot k m < visits slot k n := by
  have hStep : visits slot k (p + 1) = visits slot k p + 1 := by simp [visits_succ, hSlot]
  have hBefore : visits slot k m ≤ visits slot k p := visits_mono hLower
  have hAfter : visits slot k (p + 1) ≤ visits slot k n := visits_mono hUpper
  omega

/-- Two visits in a window are counted twice. -/
theorem visits_add_two_le {p q : Nat} (hLower : m ≤ p) (hLt : p < q) (hUpper : q < n)
    (hp : slot p = k) (hq : slot q = k) : visits slot k m + 2 ≤ visits slot k n := by
  have hFirst := visits_lt_of_mem hLower hLt hp
  have hSecond := visits_lt_of_mem (Nat.le_refl q) hUpper hq
  omega

/-- Two counters that differ in their visits have a position of the slot between
them. -/
theorem exists_of_visits_lt (h : visits slot k m < visits slot k n) :
    ∃ p, m ≤ p ∧ p < n ∧ slot p = k := by
  induction n with
  | zero => simp at h
  | succ n ih =>
      by_cases hSlot : m ≤ n ∧ slot n = k
      · exact ⟨n, hSlot.1, Nat.lt_succ_self n, hSlot.2⟩
      · have hSame : visits slot k m < visits slot k n := by
          rcases Nat.lt_or_ge n m with hLt | hLe
          · exact absurd h (Nat.not_lt.mpr (visits_mono hLt))
          · have hOther : slot n ≠ k := fun hEq => hSlot ⟨hLe, hEq⟩
            simpa [visits_succ, hOther] using h
        obtain ⟨p, hLower, hUpper, hp⟩ := ih hSame
        exact ⟨p, hLower, Nat.lt_succ_of_lt hUpper, hp⟩

/-- Two visits more make two positions of the slot, in order. -/
theorem exists_two_of_visits (h : visits slot k m + 2 ≤ visits slot k n) :
    ∃ p q, m ≤ p ∧ p < q ∧ q < n ∧ slot p = k ∧ slot q = k := by
  obtain ⟨p, hLower, hUpper, hp⟩ := exists_of_visits_lt (show visits slot k m < visits slot k n by omega)
  rcases Nat.lt_or_ge (visits slot k m) (visits slot k p) with hMore | hSame
  · obtain ⟨q, hq, hLt, hSlot⟩ := exists_of_visits_lt hMore
    exact ⟨q, p, hq, hLt, hUpper, hSlot, hp⟩
  · have hNext : visits slot k (p + 1) = visits slot k p + 1 := by simp [visits_succ, hp]
    obtain ⟨q, hq, hLt, hSlot⟩ :=
      exists_of_visits_lt (show visits slot k (p + 1) < visits slot k n by omega)
    exact ⟨p, q, hLower, hq, hLt, hp, hSlot⟩

/-- In a window of different slots each slot and its content occur once. -/
theorem count_contents {α : Type} [DecidableEq α] (content : Nat → α)
    (hInj : Set.InjOn slot (Finset.Ico m n)) (k : Nat) (value : α) :
    ((List.range (n - m)).map fun i => (slot (m + i), content (slot (m + i)))).count (k, value) =
      if visits slot k m < visits slot k n ∧ content k = value then 1 else 0 := by
  have hNodup : ((List.range (n - m)).map fun i => (slot (m + i), content (slot (m + i)))).Nodup := by
    refine List.Nodup.map_on (fun i hi j hj hEq => ?_) List.nodup_range
    rw [List.mem_range] at hi hj
    have hSame := hInj (by simp; omega) (by simp; omega) (congrArg Prod.fst hEq)
    omega
  rw [hNodup.count]
  refine if_congr ?_ rfl rfl
  rw [List.mem_map]
  constructor
  · rintro ⟨i, hi, hEq⟩
    obtain ⟨rfl, rfl⟩ := Prod.mk.inj hEq
    rw [List.mem_range] at hi
    exact ⟨visits_lt_of_mem (Nat.le_add_right m i) (by omega) rfl, rfl⟩
  · rintro ⟨hMore, rfl⟩
    obtain ⟨p, hLower, hUpper, rfl⟩ := exists_of_visits_lt hMore
    exact ⟨p - m, List.mem_range.mpr (by omega), by rw [Nat.add_sub_cancel' hLower]⟩

section Balanced

/-! Every slot has been filled as often as it was claimed below `n` and
drained as often as it was claimed below `m`; `full` is what is left in it. -/

variable {full : Nat → Nat}
  (hSlot : ∀ p, slot p < capacity)
  (hBalance : ∀ k < capacity, visits slot k n = visits slot k m + full k)
  (hFull : ∀ k < capacity, full k ≤ 1)

include hSlot hBalance in
/-- The second counter is not behind: it would have to make up for a slot that
it visited less often. -/
theorem le_of_balanced : m ≤ n := by
  by_contra hLt
  have hMore := visits_lt_of_mem (k := slot n) (Nat.le_refl n) (Nat.lt_of_not_le hLt) rfl
  have hSame := hBalance (slot n) (hSlot n)
  omega

include hBalance hFull in
/-- A slot is full exactly if one of its positions lies between the counters. -/
theorem full_iff_of_balanced (hk : k < capacity) :
    full k = 1 ↔ ∃ p, m ≤ p ∧ p < n ∧ slot p = k := by
  have hSame := hBalance k hk
  have hOne := hFull k hk
  constructor
  · intro h
    exact exists_of_visits_lt (by omega)
  · rintro ⟨p, hLower, hUpper, hp⟩
    have hMore := visits_lt_of_mem hLower hUpper hp
    omega

include hSlot hBalance hFull in
/-- Unclaimed positions in the window fall on pairwise different slots. -/
theorem injOn_of_balanced : Set.InjOn slot (Finset.Ico m n) := by
  intro p hp q hq hEq
  rw [Finset.mem_coe, Finset.mem_Ico] at hp hq
  have hSame := hBalance (slot p) (hSlot p)
  have hOne := hFull (slot p) (hSlot p)
  rcases Nat.lt_trichotomy p q with hLt | hEqual | hLt
  · have hTwo := visits_add_two_le hp.1 hLt hq.2 rfl hEq.symm
    omega
  · exact hEqual
  · have hTwo := visits_add_two_le hq.1 hLt hp.2 hEq.symm rfl
    omega

include hSlot hBalance hFull in
/-- The counters are at most a capacity apart, as every position between them
keeps its own slot full. -/
theorem length_le_of_balanced : n ≤ m + capacity := by
  have hCard : (Finset.Ico m n).card ≤ (Finset.range capacity).card :=
    Finset.card_le_card_of_injOn slot (fun p _ => Finset.mem_coe.mpr (Finset.mem_range.mpr (hSlot p)))
      (injOn_of_balanced hSlot hBalance hFull)
  rw [Nat.card_Ico, Finset.card_range] at hCard
  omega

end Balanced

end Ring
