import AtomicQueueRs.Concurrency.Accounting
import AtomicQueueRs.Steps

/-! Positions claimed from the two counters, over whole runs of any queue. The
counters are the residues of the claim counts; where every claim takes the
position its counter holds, the claims are the positions `0, 1, 2, …` in order. -/
namespace AtomicQueueRs

set_option autoImplicit false

open Interleaving (Trace Run Action)

variable {w : Nat} {T V C U O : Type}

namespace Event

/-- The position a producer claimed. -/
def headClaim : Event w T V → Option (Usize w)
  | .claimHead position => some position
  | _ => none

def tailClaim : Event w T V → Option (Usize w)
  | .claimTail position => some position
  | _ => none

end Event

/-- The claimed positions, each with its thread, in order. -/
def headClaims (trace : Trace (Event w T V)) : List (Nat × Usize w) := trace.tagged Event.headClaim

def tailClaims (trace : Trace (Event w T V)) : List (Nat × Usize w) := trace.tagged Event.tailClaim

/-- Calls, loads, returns and slot accesses claim nothing. -/
def Event.claimsNothing : Event w T V → Prop
  | .claimHead _ | .claimTail _ => False
  | _ => True

theorem headClaim_eq_nil {es : List (Event w T V)} (h : ∀ e ∈ es, e.claimsNothing) :
    es.filterMap Event.headClaim = [] := by
  rw [List.filterMap_eq_nil_iff]
  intro e he
  cases e with
  | claimHead position => exact (h _ he).elim
  | _ => rfl

theorem tailClaim_eq_nil {es : List (Event w T V)} (h : ∀ e ∈ es, e.claimsNothing) :
    es.filterMap Event.tailClaim = [] := by
  rw [List.filterMap_eq_nil_iff]
  intro e he
  cases e with
  | claimTail position => exact (h _ he).elim
  | _ => rfl

namespace Queue

variable {q : Queue w} {code : SlotCode T V C U O}

theorem Quiet.claimsNothing {σ : Memory w C} {pc pc' : Pc w T U O} {es : List (Event w T V)}
    (h : Quiet q σ pc pc' es) : ∀ e ∈ es, e.claimsNothing := by
  cases h <;> simp [Event.claimsNothing]

/-- A call claims once, before it is at its slot. -/
theorem afterPush_claimsNothing (blocking : Bool) (position : Usize w) (slot : Nat)
    (accesses : List (Access T V)) (outcome : Outcome U Unit) :
    ∀ e ∈ accesses.map (Event.access position slot) ++
      (afterPush (O := O) blocking position slot outcome).2, e.claimsNothing := by
  rw [List.forall_mem_append, List.forall_mem_map]
  refine ⟨fun _ _ => trivial, ?_⟩
  cases outcome <;> simp [afterPush, Event.claimsNothing]

theorem afterPop_claimsNothing (blocking : Bool) (position : Usize w) (slot : Nat)
    (accesses : List (Access T V)) (outcome : Outcome O V) :
    ∀ e ∈ accesses.map (Event.access position slot) ++
      (afterPop (T := T) (U := U) blocking position slot outcome).2, e.claimsNothing := by
  rw [List.forall_mem_append, List.forall_mem_map]
  refine ⟨fun _ _ => trivial, ?_⟩
  cases outcome <;> simp [afterPop, Event.claimsNothing]

/-- The claim of `head` is recorded also where the index panics: the counter has
moved. -/
theorem enterPush_claims (blocking : Bool) (position : Usize w) (element : T) :
    (enterPush (V := V) q code blocking position element).2.filterMap Event.headClaim =
        [position] ∧
      (enterPush (V := V) q code blocking position element).2.filterMap Event.tailClaim = [] := by
  unfold enterPush
  split <;> exact ⟨rfl, rfl⟩

theorem enterPop_claims (blocking : Bool) (position : Usize w) :
    (enterPop q code blocking position).2.filterMap Event.headClaim = [] ∧
      (enterPop q code blocking position).2.filterMap Event.tailClaim = [position] := by
  unfold enterPop
  split <;> exact ⟨rfl, rfl⟩

/-- A step moves `head` exactly when it claims one position from it. -/
theorem Step.headClaims {pc pc' : Pc w T U O} {σ σ' : Memory w C} {es : List (Event w T V)}
    (h : Step q code pc σ pc' σ' es) :
    (es.filterMap Event.headClaim = [] ∧ σ'.head = σ.head) ∨
      ∃ blocking position element, ClaimsHead q σ pc blocking position element ∧
        es.filterMap Event.headClaim = [position] ∧ σ'.head = σ.head + 1#w := by
  cases h with
  | quiet h => exact Or.inl ⟨headClaim_eq_nil h.claimsNothing, rfl⟩
  | claimHead h => exact Or.inr ⟨_, _, _, h, (enterPush_claims _ _ _).1, rfl⟩
  | claimTail h => exact Or.inl ⟨(enterPop_claims _ _).1, rfl⟩
  | pushSlot => exact Or.inl ⟨headClaim_eq_nil (afterPush_claimsNothing _ _ _ _ _), rfl⟩
  | popSlot => exact Or.inl ⟨headClaim_eq_nil (afterPop_claimsNothing _ _ _ _ _), rfl⟩

/-- A step takes at most one position from `tail`, and the counter moves with
it. -/
theorem Step.tailClaims {pc pc' : Pc w T U O} {σ σ' : Memory w C} {es : List (Event w T V)}
    (h : Step q code pc σ pc' σ' es) :
    (es.filterMap Event.tailClaim = [] ∧ σ'.tail = σ.tail) ∨
      ∃ blocking position, ClaimsTail q σ pc blocking position ∧
        es.filterMap Event.tailClaim = [position] ∧ σ'.tail = σ.tail + 1#w := by
  cases h with
  | quiet h => exact Or.inl ⟨tailClaim_eq_nil h.claimsNothing, rfl⟩
  | claimHead h => exact Or.inl ⟨(enterPush_claims _ _ _).2, rfl⟩
  | claimTail h => exact Or.inr ⟨_, _, h, (enterPop_claims _ _).2, rfl⟩
  | pushSlot => exact Or.inl ⟨tailClaim_eq_nil (afterPush_claimsNothing _ _ _ _ _), rfl⟩
  | popSlot => exact Or.inl ⟨tailClaim_eq_nil (afterPop_claimsNothing _ _ _ _ _), rfl⟩

end Queue

section Order

variable {q : Queue w} {code : SlotCode T V C U O} {empty : C}
  {allowed : Trace (Event w T V) → State w T C U O → Action (Call T) → Prop}

/-- The loaded counter that the next step claims by, if it does, is still
what the counter holds. -/
def Pc.Current (common : AtomicQueueCommon w) : Pc w T U O → Prop
  | .tryPushClaim _ head => head = common.head
  | .tryPopClaim tail => tail = common.tail
  | _ => True

instance (common : AtomicQueueCommon w) : DecidablePred (Pc.Current (T := T) (U := U) (O := O) common) :=
  fun pc =>
    match pc with
    | .tryPushClaim _ head => inferInstanceAs (Decidable (head = common.head))
    | .tryPopClaim tail => inferInstanceAs (Decidable (tail = common.tail))
    | .idle | .panicked | .tryPushLoadHead _ | .tryPushLoadTail _ _ | .pushClaim _
    | .pushSlot _ _ _ _ | .tryPopLoadTail | .tryPopLoadHead _ | .popClaim | .popSlot _ _ _ _
    | .observeLoadHead _ | .observeLoadTail _ _ => isTrue trivial

/-- A `fetch_add` of a non-blocking call finds the counter as it was loaded.
A `compare_exchange` that does not claims nothing. -/
def CurrentClaim (q : Queue w) (s : State w T C U O) : Action (Call T) → Prop
  | .call _ _ => True
  | .step thread => q.totalOrder = true ∨
      (s.threads thread).Current s.shared.toAtomicQueueCommon

instance (s : State w T C U O) : DecidablePred (CurrentClaim q s) := fun action =>
  match action with
  | .call _ _ => isTrue trivial
  | .step thread => inferInstanceAs (Decidable (q.totalOrder = true ∨
      (s.threads thread).Current s.shared.toAtomicQueueCommon))

/-- A claim that is current takes what the counter shows, by whichever
instruction. -/
theorem Queue.ClaimsHead.current {s : State w T C U O} {thread : Nat} {blocking : Bool}
    {position : Usize w} {element : T}
    (h : q.ClaimsHead s.shared (s.threads thread) blocking position element)
    (hCurrent : CurrentClaim q s (.step thread)) : position = s.shared.head := by
  rw [CurrentClaim] at hCurrent
  generalize s.threads thread = pc at h hCurrent
  cases h with
  | push | compareExchange => rfl
  | fetchAdd _ _ hOrder =>
      rcases hCurrent with hOrder' | hCurrent
      · rw [hOrder] at hOrder'
        contradiction
      · exact hCurrent

theorem Queue.ClaimsTail.current {s : State w T C U O} {thread : Nat} {blocking : Bool}
    {position : Usize w} (h : q.ClaimsTail s.shared (s.threads thread) blocking position)
    (hCurrent : CurrentClaim q s (.step thread)) : position = s.shared.tail := by
  rw [CurrentClaim] at hCurrent
  generalize s.threads thread = pc at h hCurrent
  cases h with
  | pop | compareExchange => rfl
  | fetchAdd _ hOrder =>
      rcases hCurrent with hOrder' | hCurrent
      · rw [hOrder] at hOrder'
        contradiction
      · exact hCurrent

/-- Positions `0, 1, …` as the counter shows them. -/
def positions (w n : Nat) : List (Usize w) := (List.range n).map (BitVec.ofNat w)

/-- Positions are taken in the order of counting, and wrap with the counter. -/
theorem positions_succ (n : Nat) : positions w (n + 1) = positions w n ++ [BitVec.ofNat w n] := by
  simp [positions, List.range_succ]

/-- Below `2 ^ w` claims every position below the counter occurs once. -/
theorem count_positions {n : Nat} (hn : n < 2 ^ w) (position : Usize w) :
    (positions w n).count position = if position < BitVec.ofNat w n then 1 else 0 := by
  induction n with
  | zero => simp [positions, BitVec.lt_def]
  | succ n ih =>
      have hLast : (BitVec.ofNat w n).toNat = n := by
        rw [BitVec.toNat_ofNat, Nat.mod_eq_of_lt (by omega)]
      have hNext : (BitVec.ofNat w (n + 1)).toNat = n + 1 := by
        rw [BitVec.toNat_ofNat, Nat.mod_eq_of_lt hn]
      rw [positions_succ, List.count_append, ih (by omega), List.count_singleton]
      simp only [BitVec.lt_def, hLast, hNext, beq_iff_eq]
      by_cases hEq : BitVec.ofNat w n = position
      · have hPosition : position.toNat = n := by rw [← hEq, hLast]
        rw [if_neg (by omega), if_pos hEq, if_pos (by omega)]
      · have hPosition : position.toNat ≠ n := fun h =>
          hEq (BitVec.eq_of_toNat_eq (hLast.trans h.symm))
        rw [if_neg hEq, Nat.add_zero]
        exact if_congr (by omega) rfl rfl

/-- The positions from `tail` up to `head`, wrapping around. -/
def AtomicQueueCommon.window (common : AtomicQueueCommon w) : List (Usize w) :=
  (List.range (common.head - common.tail).toNat).map fun i => common.tail + BitVec.ofNat w i

/-- The window of the counters holds the positions between the counts, also when
the counters have wrapped in between. -/
theorem AtomicQueueCommon.mem_window {common : AtomicQueueCommon w} {m n : Nat}
    (hHead : common.head = BitVec.ofNat w n) (hTail : common.tail = BitVec.ofNat w m)
    (hLe : m ≤ n) (hLt : n - m < 2 ^ w) (position : Usize w) :
    position ∈ common.window ↔ ∃ p, m ≤ p ∧ p < n ∧ BitVec.ofNat w p = position := by
  rw [window, hHead, hTail, Usize.toNat_ofNat_sub_ofNat hLe hLt, List.mem_map]
  constructor
  · rintro ⟨i, hi, rfl⟩
    have hBelow := List.mem_range.mp hi
    exact ⟨m + i, Nat.le_add_right m i, by omega, BitVec.ofNat_add m i⟩
  · rintro ⟨p, hLower, hUpper, rfl⟩
    refine ⟨p - m, List.mem_range.mpr (by omega), ?_⟩
    rw [← BitVec.ofNat_add, Nat.add_sub_cancel' hLower]

/-- Both counters hold the residue of their claim count. -/
structure Counted (trace : Trace (Event w T V)) (s : State w T C U O) : Prop where
  head : s.shared.head = BitVec.ofNat w (headClaims trace).length
  tail : s.shared.tail = BitVec.ofNat w (tailClaims trace).length

/-- Moreover every position has been claimed once, in order. -/
structure Ordered (trace : Trace (Event w T V)) (s : State w T C U O) : Prop
    extends Counted trace s where
  heads : (headClaims trace).map Prod.snd = positions w (headClaims trace).length
  tails : (tailClaims trace).map Prod.snd = positions w (tailClaims trace).length

theorem headClaims_append (trace : Trace (Event w T V)) (thread : Nat) (es : List (Event w T V)) :
    headClaims (trace ++ es.map (Prod.mk thread)) =
      headClaims trace ++ (es.filterMap Event.headClaim).map (Prod.mk thread) :=
  Trace.tagged_append _ trace thread es

theorem tailClaims_append (trace : Trace (Event w T V)) (thread : Nat) (es : List (Event w T V)) :
    tailClaims (trace ++ es.map (Prod.mk thread)) =
      tailClaims trace ++ (es.filterMap Event.tailClaim).map (Prod.mk thread) :=
  Trace.tagged_append _ trace thread es

@[simp] theorem headClaims_call (trace : Trace (Event w T V)) (thread : Nat) (operation : Call T) :
    headClaims (trace ++ [Event.call operation].map (Prod.mk thread)) = headClaims trace := by
  rw [headClaims_append, headClaim_eq_nil (by simp [Event.claimsNothing]), List.map_nil,
    List.append_nil]

@[simp] theorem tailClaims_call (trace : Trace (Event w T V)) (thread : Nat) (operation : Call T) :
    tailClaims (trace ++ [Event.call operation].map (Prod.mk thread)) = tailClaims trace := by
  rw [tailClaims_append, tailClaim_eq_nil (by simp [Event.claimsNothing]), List.map_nil,
    List.append_nil]

/-- In every run, whether or not claims are current: a stale claim too advances
the counter by one. -/
theorem counted_of_run {trace : Trace (Event w T V)} {s : State w T C U O}
    (run : Run (q.threadCode code) allowed (initial w empty) trace s) : Counted trace s := by
  refine run.invariant Counted ⟨rfl, rfl⟩ ?_ ?_
  · intro trace s thread operation pc es _ ih _ hCall
    obtain ⟨_, _, rfl⟩ := Queue.call_cases hCall
    exact ⟨by rw [headClaims_call]; exact ih.head, by rw [tailClaims_call]; exact ih.tail⟩
  · intro trace s thread pc shared es _ ih _ hStep
    have hCases := Queue.step_cases hStep
    constructor
    · rw [headClaims_append]
      rcases hCases.headClaims with ⟨hNone, hHead⟩ | ⟨_, position, _, _, hSome, hHead⟩
      · rw [hNone, List.map_nil, List.append_nil, hHead, ih.head]
      · rw [hSome, List.length_append, List.length_map, List.length_singleton, hHead, ih.head]
        exact (Usize.ofNat_succ _).symm
    · rw [tailClaims_append]
      rcases hCases.tailClaims with ⟨hNone, hTail⟩ | ⟨_, position, _, hSome, hTail⟩
      · rw [hNone, List.map_nil, List.append_nil, hTail, ih.tail]
      · rw [hSome, List.length_append, List.length_map, List.length_singleton, hTail, ih.tail]
        exact (Usize.ofNat_succ _).symm

/-- With current claims the positions taken are those counted from zero, each
once in a range of the counter. -/
theorem ordered_of_run (hCurrent : ∀ trace s action, allowed trace s action → CurrentClaim q s action)
    {trace : Trace (Event w T V)} {s : State w T C U O}
    (run : Run (q.threadCode code) allowed (initial w empty) trace s) : Ordered trace s := by
  suffices hOrder : (headClaims trace).map Prod.snd = positions w (headClaims trace).length ∧
      (tailClaims trace).map Prod.snd = positions w (tailClaims trace).length from
    { toCounted := counted_of_run run, heads := hOrder.1, tails := hOrder.2 }
  refine run.invariant
    (fun trace _ => (headClaims trace).map Prod.snd = positions w (headClaims trace).length ∧
      (tailClaims trace).map Prod.snd = positions w (tailClaims trace).length) ⟨rfl, rfl⟩ ?_ ?_
  · intro trace s thread operation pc es _ ih _ hCall
    obtain ⟨_, _, rfl⟩ := Queue.call_cases hCall
    rw [headClaims_call, tailClaims_call]
    exact ih
  · intro trace s thread pc shared es prior ih hAllowed hStep
    have hCounted := counted_of_run prior
    have hNow := hCurrent _ _ _ hAllowed
    have hCases := Queue.step_cases hStep
    rw [headClaims_append, tailClaims_append]
    constructor
    · rcases hCases.headClaims with ⟨hNone, _⟩ | ⟨_, position, _, hClaim, hSome, _⟩
      · rw [hNone, List.map_nil, List.append_nil]
        exact ih.1
      · rw [hSome, (hClaim.current hNow).trans hCounted.head, List.map_append, ih.1,
          List.length_append, List.length_map, List.length_singleton, positions_succ]
        rfl
    · rcases hCases.tailClaims with ⟨hNone, _⟩ | ⟨_, position, hClaim, hSome, _⟩
      · rw [hNone, List.map_nil, List.append_nil]
        exact ih.2
      · rw [hSome, (hClaim.current hNow).trans hCounted.tail, List.map_append, ih.2,
          List.length_append, List.length_map, List.length_singleton, positions_succ]
        rfl

/-- With total order every claim is current. -/
theorem ordered_of_totalOrder (hOrder : q.totalOrder = true) {trace : Trace (Event w T V)}
    {s : State w T C U O} (run : Run (q.threadCode code) allowed (initial w empty) trace s) :
    Ordered trace s := by
  refine ordered_of_run (fun _ _ action _ => ?_) run
  cases action with
  | call => exact trivial
  | step => exact Or.inl hOrder

end Order

end AtomicQueueRs
