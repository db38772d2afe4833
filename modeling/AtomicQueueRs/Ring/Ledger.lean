import Mathlib.Data.List.Nodup
import Mathlib.Data.List.Perm.Subperm
import Mathlib.Logic.Function.Basic

/-! What goes into the slots of a ring and what comes out. Slots are filled and
emptied one at a time and in any order; what went in has come out or is there. -/
namespace Ring

set_option autoImplicit false

open scoped List

variable {α : Type}

/-- What the slots hold, in slot order. -/
def contents (capacity : Nat) (content : Nat → Option α) : List α :=
  (List.range capacity).filterMap content

/-- One slot is filled or emptied, or nothing happens. -/
inductive Exchange (capacity : Nat) (content : Nat → Option α) :
    Option α → Option α → (Nat → Option α) → Prop where
  | none : Exchange capacity content none none content
  | filled {k : Nat} {x : α} (hk : k < capacity) (hVacant : content k = Option.none) :
      Exchange capacity content (some x) Option.none (Function.update content k (some x))
  | emptied {k : Nat} {x : α} (hk : k < capacity) (hItem : content k = some x) :
      Exchange capacity content Option.none (some x) (Function.update content k Option.none)

/-- What was put in is what was taken out and what the slots hold. -/
def Conserved (capacity : Nat) (content : Nat → Option α) (stored taken : List α) : Prop :=
  stored.Perm (taken ++ contents capacity content)

variable {capacity k : Nat} {content content' : Nat → Option α} {stored taken : List α}

/-- Putting an item in a vacant slot adds it to the contents, in some place. -/
theorem contents_fill (hk : k < capacity) (hVacant : content k = none) (x : α) :
    (contents capacity (Function.update content k (some x))).Perm (x :: contents capacity content) := by
  have hSplit := List.perm_cons_erase (List.mem_range.mpr hk)
  have hRest : ((List.range capacity).erase k).filterMap (Function.update content k (some x)) =
      ((List.range capacity).erase k).filterMap content := by
    apply List.filterMap_congr
    intro i hi
    rw [Function.update_of_ne (List.nodup_range.mem_erase_iff.mp hi).1]
  have hBefore := hSplit.filterMap content
  have hAfter := hSplit.filterMap (Function.update content k (some x))
  rw [List.filterMap_cons_none hVacant] at hBefore
  rw [List.filterMap_cons_some (Function.update_self k (some x) content), hRest] at hAfter
  exact hAfter.trans (hBefore.symm.cons x)

/-- Emptying a slot removes its item from the contents and leaves the others. -/
theorem contents_empty {x : α} (hk : k < capacity) (hItem : content k = some x) :
    (contents capacity content).Perm (x :: contents capacity (Function.update content k none)) := by
  have hBack := contents_fill hk (Function.update_self k none content) x
  rw [Function.update_idem, ← hItem, Function.update_eq_self] at hBack
  exact hBack

/-- Before anything is stored or taken, vacant slots balance the account. -/
theorem conserved_nil (h : ∀ k < capacity, content k = none) : Conserved capacity content [] [] := by
  have hNone : contents capacity content = [] :=
    List.filterMap_eq_nil_iff.mpr fun k hk => h k (List.mem_range.mp hk)
  rw [Conserved, hNone]
  exact List.Perm.refl _

/-- An exchange is recorded on one side. -/
theorem Conserved.exchange {put got : Option α} (h : Conserved capacity content stored taken)
    (hExchange : Exchange capacity content put got content') :
    Conserved capacity content' (stored ++ put.toList) (taken ++ got.toList) := by
  cases hExchange with
  | none => simpa using h
  | @filled k x hk hVacant =>
      have hFill := (contents_fill hk hVacant x).append_left taken
      rw [Conserved, Option.toList_some, Option.toList_none, List.append_nil]
      calc
        stored ++ [x] ~ x :: stored := List.perm_append_singleton x stored
        _ ~ x :: (taken ++ contents capacity content) := h.cons x
        _ ~ taken ++ x :: contents capacity content := List.perm_middle.symm
        _ ~ taken ++ contents capacity (Function.update content k (some x)) := hFill.symm
  | @emptied k x hk hItem =>
      rw [Conserved, Option.toList_some, Option.toList_none, List.append_nil, List.append_assoc]
      exact h.trans ((contents_empty hk hItem).append_left taken)

/-- Slot by slot: what was put in is what was taken out and what is there. -/
theorem conserved_of_slotwise [DecidableEq α] {stored taken : List (Nat × α)}
    (hBeyond : ∀ k, capacity ≤ k → content k = none)
    (h : ∀ k x, stored.count (k, x) = taken.count (k, x) + if content k = some x then 1 else 0) :
    Conserved capacity content (stored.map Prod.snd) (taken.map Prod.snd) := by
  have hNodup : ((List.range capacity).filterMap fun k => (content k).map (Prod.mk k)).Nodup := by
    refine List.nodup_range.filterMap fun k k' entry hEntry hEntry' => ?_
    obtain ⟨_, _, rfl⟩ := Option.map_eq_some_iff.mp hEntry
    obtain ⟨_, _, hEq⟩ := Option.map_eq_some_iff.mp hEntry'
    exact (congrArg Prod.fst hEq).symm
  have hEntries : stored ~
      taken ++ (List.range capacity).filterMap fun k => (content k).map (Prod.mk k) := by
    rw [List.perm_iff_count]
    intro (k, x)
    rw [h, List.count_append, hNodup.count]
    congr 1
    refine if_congr ?_ rfl rfl
    rw [List.mem_filterMap]
    constructor
    · intro hContent
      refine ⟨k, List.mem_range.mpr (Nat.lt_of_not_le fun hLe => ?_), by rw [hContent]; rfl⟩
      rw [hBeyond k hLe] at hContent
      contradiction
    · rintro ⟨k', _, hEntry⟩
      obtain ⟨x', hContent, hEq⟩ := Option.map_eq_some_iff.mp hEntry
      obtain ⟨rfl, rfl⟩ := Prod.mk.inj hEq
      exact hContent
  have hValues := hEntries.map Prod.snd
  rw [List.map_append, List.map_filterMap] at hValues
  simpa [Conserved, contents, Function.comp_def] using hValues

/-- Nothing is taken out that was not put in, and at most one item for each
slot is still there. -/
theorem Conserved.subperm (h : Conserved capacity content stored taken) : taken <+~ stored :=
  (List.sublist_append_left _ _).subperm.trans h.symm.subperm

/-- What is stored and not taken has a slot each. -/
theorem Conserved.length_le (h : Conserved capacity content stored taken) :
    stored.length ≤ taken.length + capacity := by
  rw [h.length_eq, List.length_append, Nat.add_le_add_iff_left]
  exact Nat.le_trans (List.length_filterMap_le _ _) (Nat.le_of_eq List.length_range)

/-- Different slots for different turns: the walk visits every slot once. -/
theorem walk_perm {slot : Nat → Nat} (hLt : ∀ i < capacity, slot i < capacity)
    (hInj : ∀ i < capacity, ∀ j < capacity, slot i = slot j → i = j) :
    ((List.range capacity).map slot).Perm (List.range capacity) := by
  have hNodup : ((List.range capacity).map slot).Nodup :=
    List.nodup_range.map_on fun i hi j hj => hInj i (List.mem_range.mp hi) j (List.mem_range.mp hj)
  have hSubset : (List.range capacity).map slot ⊆ List.range capacity := by
    intro k hk
    obtain ⟨i, hi, rfl⟩ := List.mem_map.mp hk
    exact List.mem_range.mpr (hLt i (List.mem_range.mp hi))
  apply (hNodup.subperm hSubset).perm_of_length_le
  simp

end Ring
