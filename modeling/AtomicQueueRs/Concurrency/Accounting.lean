import AtomicQueueRs.Concurrency.Interleaving
import Mathlib.Data.List.Count
import Mathlib.Data.List.Nodup
import Mathlib.Data.List.Perm.Subperm
import Mathlib.Data.Prod.Basic

/-! Debts of threads. Some events charge a thread with an item and others
discharge it; what a thread owes is read off its program counter. With any
number of threads the two sides are compared per thread, never summed. -/
namespace Interleaving

set_option autoImplicit false

variable {σ π ι ε β : Type}

/-- One item that is owed, or none. -/
def due [DecidableEq β] (owed : Option β) (item : β) : Nat := if owed = some item then 1 else 0

@[simp] theorem due_none [DecidableEq β] (item : β) : due none item = 0 := rfl

/-- One item counted is one item due. -/
theorem count_singleton_eq [DecidableEq β] (charged item : β) :
    [charged].count item = due (some charged) item := by
  simp [due, List.count_singleton]

/-- Events that concern an item, tagged with their thread. -/
def Trace.tagged (f : ε → Option β) (trace : Trace ε) : List (Nat × β) :=
  trace.select fun thread e => (f e).map (Prod.mk thread)

section Tagged

variable (charge : ε → Option β)

@[simp] theorem Trace.tagged_nil : Trace.tagged charge [] = [] := rfl

/-- What is picked of a step is added at the end, under the thread that took
it. -/
theorem Trace.tagged_append (trace : Trace ε) (thread : Nat) (es : List ε) :
    Trace.tagged charge (trace ++ es.map (Prod.mk thread)) =
      Trace.tagged charge trace ++ (es.filterMap charge).map (Prod.mk thread) := by
  rw [tagged, Trace.select_append, Trace.select_map, List.map_filterMap]
  rfl

/-- Without the threads, the items are those that are picked regardless of the
thread. -/
theorem Trace.map_tagged (trace : Trace ε) :
    (Trace.tagged charge trace).map Prod.snd = trace.select fun _ => charge := by
  rw [tagged, Trace.select, Trace.select, List.map_filterMap]
  congr 1
  funext event
  cases charge event.2 <;> rfl

end Tagged

section Balance

variable [DecidableEq β] (charge discharge : ε → Option β) (owes : π → Option β)

/-- Every item charged to a thread is discharged by it, or owed. -/
def Balanced (trace : Trace ε) (threads : Nat → π) : Prop :=
  ∀ thread item, (Trace.tagged charge trace).count (thread, item) =
    (Trace.tagged discharge trace).count (thread, item) + due (owes (threads thread)) item

variable {charge discharge owes} {trace : Trace ε} {threads : Nat → π}

/-- The account opens with nothing charged and nobody owing. -/
theorem Balanced.nil (h : ∀ thread, owes (threads thread) = none) :
    Balanced charge discharge owes [] threads := by
  intro thread item
  rw [h]
  rfl

/-- A step that balances the acting thread balances the whole trace. -/
theorem Balanced.append (h : Balanced charge discharge owes trace threads) {actor : Nat} {pc : π}
    {es : List ε}
    (hStep : ∀ item, (es.filterMap charge).count item + due (owes (threads actor)) item =
      (es.filterMap discharge).count item + due (owes pc) item) :
    Balanced charge discharge owes (trace ++ es.map (Prod.mk actor))
      (Function.update threads actor pc) := by
  intro thread item
  have hBefore := h thread item
  rw [Trace.tagged_append, Trace.tagged_append, List.count_append, List.count_append]
  by_cases hThread : thread = actor
  · subst hThread
    have hNow := hStep item
    rw [Function.update_self,
      List.count_map_of_injective _ _ (Prod.mk_right_injective thread),
      List.count_map_of_injective _ _ (Prod.mk_right_injective thread)]
    omega
  · have hNone (items : List β) : (items.map (Prod.mk actor)).count (thread, item) = 0 := by
      rw [List.count_eq_zero]
      intro hMem
      obtain ⟨_, _, hPair⟩ := List.mem_map.mp hMem
      exact hThread (congrArg Prod.fst hPair).symm
    rw [Function.update_of_ne hThread, hNone, hNone]
    exact hBefore

/-- Nothing is discharged that was not charged, nor more often. -/
theorem Balanced.subperm (h : Balanced charge discharge owes trace threads) :
    (Trace.tagged discharge trace).Subperm (Trace.tagged charge trace) := by
  rw [List.subperm_ext_iff]
  intro ⟨thread, item⟩ _
  rw [h thread item]
  exact Nat.le_add_right _ _

/-- Once nothing is owed, everything charged has been discharged. -/
theorem Balanced.perm (h : Balanced charge discharge owes trace threads)
    (hPaid : ∀ thread, owes (threads thread) = none) :
    (Trace.tagged charge trace).Perm (Trace.tagged discharge trace) := by
  rw [List.perm_iff_count]
  intro ⟨thread, item⟩
  rw [h thread item, hPaid, due_none, Nat.add_zero]

/-- What is not discharged is owed, by one thread each. -/
theorem Balanced.perm_append_owed (h : Balanced charge discharge owes trace threads) {bound : Nat}
    (hBeyond : ∀ thread, bound ≤ thread → owes (threads thread) = none) :
    (Trace.tagged charge trace).Perm (Trace.tagged discharge trace ++
      (List.range bound).filterMap fun thread => (owes (threads thread)).map (Prod.mk thread)) := by
  rw [List.perm_iff_count]
  intro ⟨thread, item⟩
  rw [h thread item, List.count_append, Nat.add_left_cancel_iff, due]
  have hNodup : ((List.range bound).filterMap fun thread =>
      (owes (threads thread)).map (Prod.mk thread)).Nodup := by
    refine List.Nodup.filterMap (fun other other' pair hPair hPair' => ?_) List.nodup_range
    obtain ⟨_, _, rfl⟩ := Option.map_eq_some_iff.mp hPair
    obtain ⟨_, _, hEq⟩ := Option.map_eq_some_iff.mp hPair'
    exact (congrArg Prod.fst hEq).symm
  rw [hNodup.count]
  refine if_congr ?_ rfl rfl
  rw [List.mem_filterMap]
  constructor
  · intro hOwes
    refine ⟨thread, List.mem_range.mpr (Nat.lt_of_not_le fun hLe => ?_), by rw [hOwes]; rfl⟩
    rw [hBeyond thread hLe] at hOwes
    contradiction
  · rintro ⟨other, _, hPair⟩
    obtain ⟨item', hOwes, hEq⟩ := Option.map_eq_some_iff.mp hPair
    obtain ⟨rfl, rfl⟩ := Prod.mk.inj hEq
    exact hOwes

/-- Counted over the threads below a bound, beyond which nobody owes: what is
charged is what is discharged and one item for each thread that owes. -/
theorem Balanced.length_eq (h : Balanced charge discharge owes trace threads) {bound : Nat}
    (hBeyond : ∀ thread, bound ≤ thread → owes (threads thread) = none) :
    (Trace.tagged charge trace).length = (Trace.tagged discharge trace).length +
      (List.range bound).countP fun thread => (owes (threads thread)).isSome := by
  rw [(h.perm_append_owed hBeyond).length_eq, List.length_append, List.length_filterMap_eq_countP]
  simp only [Option.isSome_map]

/-- Of what nobody owes, as much is discharged as is charged. -/
theorem Balanced.countP_eq (h : Balanced charge discharge owes trace threads) {p : β → Bool}
    (hPaid : ∀ thread item, owes (threads thread) = some item → p item = false) :
    ((Trace.tagged charge trace).map Prod.snd).countP p =
      ((Trace.tagged discharge trace).map Prod.snd).countP p := by
  rw [List.countP_map, List.countP_map, List.countP_eq_length_filter, List.countP_eq_length_filter]
  refine List.Perm.length_eq (List.perm_iff_count.mpr fun (thread, item) => ?_)
  cases hItem : p item with
  | false =>
      have hNone (events : List (Nat × β)) :
          (events.filter (p ∘ Prod.snd)).count (thread, item) = 0 := by
        rw [List.count_eq_zero, List.mem_filter]
        intro hMem
        rw [Function.comp_apply, hItem] at hMem
        exact Bool.false_ne_true hMem.2
      rw [hNone, hNone]
  | true =>
      have hNotDue : due (owes (threads thread)) item = 0 := by
        refine if_neg fun hOwes => ?_
        rw [hPaid thread item hOwes] at hItem
        contradiction
      have hPair : (p ∘ Prod.snd) (thread, item) = true := hItem
      rw [List.count_filter hPair, List.count_filter hPair, h thread item, hNotDue, Nat.add_zero]

/-- What is owed is charged and not discharged. -/
theorem Balanced.countP_lt (h : Balanced charge discharge owes trace threads) {p : β → Bool}
    {thread : Nat} {item : β} (hOwes : owes (threads thread) = some item) (hItem : p item = true) :
    ((Trace.tagged discharge trace).map Prod.snd).countP p <
      ((Trace.tagged charge trace).map Prod.snd).countP p := by
  have hSubperm : ((thread, item) :: Trace.tagged discharge trace).Subperm
      (Trace.tagged charge trace) := by
    rw [List.subperm_ext_iff]
    intro (other, item') _
    rw [h other item', List.count_cons]
    refine Nat.add_le_add_left ?_ _
    split_ifs with hSame
    · obtain ⟨rfl, rfl⟩ := Prod.mk.inj (beq_iff_eq.mp hSame)
      exact Nat.le_of_eq (if_pos hOwes).symm
    · exact Nat.zero_le _
  have hPair : (p ∘ Prod.snd) (thread, item) = true := hItem
  have hCount := hSubperm.countP_le (p ∘ Prod.snd)
  rw [List.countP_cons_of_pos hPair] at hCount
  rw [List.countP_map, List.countP_map]
  exact hCount

/-- Over all threads: an item that nobody owes is discharged as often as it is
charged. -/
theorem Balanced.count_eq (h : Balanced charge discharge owes trace threads) {item : β}
    (hPaid : ∀ thread, owes (threads thread) ≠ some item) :
    (trace.select fun _ => charge).count item = (trace.select fun _ => discharge).count item := by
  rw [← Trace.map_tagged, ← Trace.map_tagged]
  refine h.countP_eq fun thread other hOwes => beq_eq_false_iff_ne.mpr fun hSame => ?_
  exact hPaid thread (hSame ▸ hOwes)

/-- A thread that owes an item witnesses that it was charged once more than
discharged. -/
theorem Balanced.count_lt (h : Balanced charge discharge owes trace threads) {thread : Nat}
    {item : β} (hOwes : owes (threads thread) = some item) :
    (trace.select fun _ => discharge).count item < (trace.select fun _ => charge).count item := by
  rw [← Trace.map_tagged, ← Trace.map_tagged]
  exact h.countP_lt hOwes (beq_self_eq_true item)

end Balance

end Interleaving
