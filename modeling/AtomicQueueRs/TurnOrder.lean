import AtomicQueueRs.Concurrency.Turns
import AtomicQueueRs.Quiescence
import AtomicQueueRs.SlotOwnership

/-! Turns at a slot. The flag of `AtomicQueue2` and `AtomicQueueB2` tells empty
from full and carries no lap number, so of several producers that wait for one
slot any may fill it. Where the first to claim wins, turns follow positions. -/
namespace AtomicQueueRs

set_option autoImplicit false

open Interleaving (Trace Run Action InTurns FirstInLine anyAction)

variable {w : Nat} {T : Type}

/-- The position, if it is one of the slot. -/
def Queue.ofSlot (q : Queue w) (slot : Nat) {α : Type} (f : α → Option (Usize w)) (a : α) :
    Option (Usize w) :=
  (f a).filter (q.atSlot slot)

section OfSlot

variable (q : Queue w) (slot : Nat)

/-- The positions of one slot, picked while collecting or afterwards. -/
theorem Queue.filterMap_ofSlot {α : Type} (f : α → Option (Usize w)) (es : List α) :
    es.filterMap (q.ofSlot slot f) = (es.filterMap f).filter (q.atSlot slot) := by
  rw [List.filter_filterMap]
  rfl

theorem Queue.map_tagged_ofSlot {V : Type} (f : Event w T V → Option (Usize w))
    (trace : Trace (Event w T V)) :
    (trace.tagged (q.ofSlot slot f)).map Prod.snd =
      ((trace.tagged f).map Prod.snd).filter (q.atSlot slot) := by
  have hPairs := Queue.filterMap_ofSlot q slot (fun event : Nat × Event w T V => f event.2) trace
  rw [Trace.map_tagged, Trace.map_tagged]
  exact hPairs

end OfSlot

/-- The positions of the slot taken from `head`, with the threads, in order. -/
def headClaimsOf {V : Type} (q : Queue w) (slot : Nat) (trace : Trace (Event w T V)) :
    List (Nat × Usize w) :=
  trace.tagged (q.ofSlot slot Event.headClaim)

def tailClaimsOf {V : Type} (q : Queue w) (slot : Nat) (trace : Trace (Event w T V)) :
    List (Nat × Usize w) :=
  trace.tagged (q.ofSlot slot Event.tailClaim)

/-- The positions for which the slot was filled, with the threads, in order. -/
def fillsOf {V : Type} (q : Queue w) (slot : Nat) (trace : Trace (Event w T V)) :
    List (Nat × Usize w) :=
  trace.tagged (q.ofSlot slot Event.slotFill)

def drainsOf {V : Type} (q : Queue w) (slot : Nat) (trace : Trace (Event w T V)) :
    List (Nat × Usize w) :=
  trace.tagged (q.ofSlot slot Event.slotDrain)

/-- A slot is filled, and drained, by the claims of its positions in increasing
order, and each position is drained after it was filled. -/
structure TurnsInOrder {V : Type} (q : Queue w) (trace : Trace (Event w T V)) (slot : Nat) :
    Prop where
  head_claims : (headClaimsOf q slot trace).map Prod.snd =
    (positions w (headClaims trace).length).filter (q.atSlot slot)
  tail_claims : (tailClaimsOf q slot trace).map Prod.snd =
    (positions w (tailClaims trace).length).filter (q.atSlot slot)
  fills_isPrefix : fillsOf q slot trace <+: headClaimsOf q slot trace
  drains_isPrefix : drainsOf q slot trace <+: tailClaimsOf q slot trace
  paired : (drainsOf q slot trace).map Prod.snd <+: (fillsOf q slot trace).map Prod.snd

namespace Mpmc

open AtomicQueue2 (Local Config)

/-- Whoever wins the flag of a slot is, of the producers or consumers that wait
for this slot, the one who claimed first. -/
def InTurn (q : Queue w) (trace : Trace (Event w T (Option T))) (s : Config w T) :
    Action (Call T) → Prop
  | .call _ _ => True
  | .step thread => ∀ slot, winsFlag s.shared (s.threads thread) = some slot →
      ((q.ofSlot slot owesFill (s.threads thread)).isSome →
        FirstInLine (q.ofSlot slot Event.headClaim) (q.ofSlot slot owesFill) trace s.threads thread) ∧
      ((q.ofSlot slot owesDrain (s.threads thread)).isSome →
        FirstInLine (q.ofSlot slot Event.tailClaim) (q.ofSlot slot owesDrain) trace s.threads thread)

variable {q : Queue w} {trace : Trace (Event w T (Option T))} {threads : Nat → Local w T}
  {actor slot : Nat} {pc : Local w T} {σ σ' : Memory w (Slot T)} {es : List (Event w T (Option T))}

theorem ofSlot_none {α : Type} {f : α → Option (Usize w)} {a : α} (h : f a = none) :
    q.ofSlot slot f a = none := by
  rw [Queue.ofSlot, h, Option.filter_none]

theorem ofSlot_some {α : Type} {f : α → Option (Usize w)} {a : α} {position : Usize w}
    (h : f a = some position) (hSlot : q.getSlot position = some slot) :
    q.ofSlot slot f a = some position := by
  rw [Queue.ofSlot, h, Option.filter_some, if_pos]
  exact decide_eq_true hSlot

theorem ofSlot_other {α : Type} {f : α → Option (Usize w)} {a : α} {position : Usize w}
    (h : f a = some position) (hSlot : q.getSlot position ≠ some slot) :
    q.ofSlot slot f a = none := by
  rw [Queue.ofSlot, h, Option.filter_some, if_neg]
  simpa [Queue.atSlot] using hSlot

theorem filterMap_ofSlot_nil {α : Type} {f : α → Option (Usize w)} {es : List α}
    (h : es.filterMap f = []) : es.filterMap (q.ofSlot slot f) = [] := by
  rw [Queue.filterMap_ofSlot, h, List.filter_nil]

/-- A step with one such event adds it to its own slot. -/
theorem filterMap_ofSlot_singleton {α : Type} {f : α → Option (Usize w)} {es : List α}
    {position : Usize w} (h : es.filterMap f = [position]) (hSlot : q.getSlot position = some slot) :
    es.filterMap (q.ofSlot slot f) = [position] := by
  have hAt : q.atSlot slot position = true := decide_eq_true hSlot
  rw [Queue.filterMap_ofSlot, h, List.filter_cons_of_pos hAt, List.filter_nil]

theorem filterMap_ofSlot_other {α : Type} {f : α → Option (Usize w)} {es : List α}
    {position : Usize w} (h : es.filterMap f = [position]) (hSlot : q.getSlot position ≠ some slot) :
    es.filterMap (q.ofSlot slot f) = [] := by
  rw [Queue.filterMap_ofSlot, h, List.filter_cons_of_neg, List.filter_nil]
  simpa [Queue.atSlot] using hSlot

section Line

variable {charge discharge : Event w T (Option T) → Option (Usize w)}
  {owes : Local w T → Option (Usize w)} {position : Usize w}

/-- Nothing is claimed and no flag is won. -/
theorem stayInLine
    (h : InTurns (q.ofSlot slot charge) (q.ofSlot slot discharge) (q.ofSlot slot owes) trace threads)
    (hCharge : es.filterMap charge = []) (hDischarge : es.filterMap discharge = [])
    (hOwes : owes pc = owes (threads actor)) :
    InTurns (q.ofSlot slot charge) (q.ofSlot slot discharge) (q.ofSlot slot owes)
      (trace ++ es.map (Prod.mk actor)) (Function.update threads actor pc) := by
  apply h.frame (filterMap_ofSlot_nil hCharge) (filterMap_ofSlot_nil hDischarge)
  rw [Queue.ofSlot, Queue.ofSlot, hOwes]

/-- A claim joins the line of its slot, and of no other. -/
theorem joinLine {e : Event w T (Option T)}
    (h : InTurns (q.ofSlot slot charge) (q.ofSlot slot discharge) (q.ofSlot slot owes) trace threads)
    (hCharge : charge e = some position) (hDischarge : discharge e = none)
    (hBefore : owes (threads actor) = none) (hAfter : owes pc = some position) :
    InTurns (q.ofSlot slot charge) (q.ofSlot slot discharge) (q.ofSlot slot owes)
      (trace ++ [e].map (Prod.mk actor)) (Function.update threads actor pc) := by
  by_cases hSlot : q.getSlot position = some slot
  · exact h.join (ofSlot_some hCharge hSlot) (ofSlot_none hDischarge) (ofSlot_none hBefore)
      (ofSlot_some hAfter hSlot)
  · apply h.frame (filterMap_ofSlot_other (List.filterMap_cons_some hCharge) hSlot)
      (filterMap_ofSlot_nil (List.filterMap_cons_none hDischarge))
    rw [ofSlot_none hBefore]
    exact ofSlot_other hAfter hSlot

/-- A claim that panics joins no line. -/
theorem missLine
    (h : InTurns (q.ofSlot slot charge) (q.ofSlot slot discharge) (q.ofSlot slot owes) trace threads)
    (hCharge : es.filterMap charge = [position]) (hNone : q.getSlot position = none)
    (hDischarge : es.filterMap discharge = []) (hBefore : owes (threads actor) = none)
    (hAfter : owes pc = none) :
    InTurns (q.ofSlot slot charge) (q.ofSlot slot discharge) (q.ofSlot slot owes)
      (trace ++ es.map (Prod.mk actor)) (Function.update threads actor pc) := by
  have hOther : q.getSlot position ≠ some slot := by simp [hNone]
  apply h.frame (filterMap_ofSlot_other hCharge hOther) (filterMap_ofSlot_nil hDischarge)
  rw [ofSlot_none hBefore, ofSlot_none hAfter]

/-- Whoever wins the flag of its slot leaves the line. -/
theorem leaveLine
    (h : InTurns (q.ofSlot slot charge) (q.ofSlot slot discharge) (q.ofSlot slot owes) trace threads)
    (hCharge : es.filterMap charge = []) (hDischarge : es.filterMap discharge = [position])
    (hBefore : owes (threads actor) = some position) (hAfter : owes pc = none)
    (hFirst : q.getSlot position = some slot → (q.ofSlot slot owes (threads actor)).isSome →
      FirstInLine (q.ofSlot slot charge) (q.ofSlot slot owes) trace threads actor) :
    InTurns (q.ofSlot slot charge) (q.ofSlot slot discharge) (q.ofSlot slot owes)
      (trace ++ es.map (Prod.mk actor)) (Function.update threads actor pc) := by
  by_cases hSlot : q.getSlot position = some slot
  · have hOwes := ofSlot_some hBefore hSlot
    apply h.serve (filterMap_ofSlot_nil hCharge) (filterMap_ofSlot_singleton hDischarge hSlot) hOwes
      (ofSlot_none hAfter)
    apply hFirst hSlot
    rw [hOwes, Option.isSome_some]
  · apply h.frame (filterMap_ofSlot_nil hCharge) (filterMap_ofSlot_other hDischarge hSlot)
    rw [ofSlot_none hAfter]
    exact (ofSlot_other hBefore hSlot).symm

end Line

/-- A producer joins the line of its slot when it claims and leaves it when it
wins the flag. -/
theorem Step.fillTurn (hStep : Step q (threads actor) σ pc σ' es) (hPlaced : Placed q (threads actor))
    (h : InTurns (q.ofSlot slot Event.headClaim) (q.ofSlot slot Event.slotFill)
      (q.ofSlot slot owesFill) trace threads)
    (hFirst : winsFlag σ (threads actor) = some slot →
      (q.ofSlot slot owesFill (threads actor)).isSome →
      FirstInLine (q.ofSlot slot Event.headClaim) (q.ofSlot slot owesFill) trace threads actor) :
    InTurns (q.ofSlot slot Event.headClaim) (q.ofSlot slot Event.slotFill) (q.ofSlot slot owesFill)
      (trace ++ es.map (Prod.mk actor)) (Function.update threads actor pc) := by
  generalize hPc : threads actor = before at hStep hPlaced
  cases hStep with
  | quiet hQuiet =>
      obtain ⟨hBefore, hAfter, _, _, hFills, _⟩ := quiet_owes hQuiet
      apply stayInLine h (headClaim_eq_nil hQuiet.claimsNothing) hFills
      rw [hPc, hBefore, hAfter]
  | claimHead hClaim =>
      apply joinLine h rfl rfl _ rfl
      rw [hPc]
      exact (claimsHead_owes hClaim).1
  | pushPanic hClaim hNone =>
      apply missLine h rfl hNone rfl _ rfl
      rw [hPc]
      exact (claimsHead_owes hClaim).1
  | claimTail hClaim | popPanic hClaim =>
      apply stayInLine h rfl rfl
      rw [hPc]
      exact (claimsTail_owes hClaim).1.symm
  | popWait hWait hWait' =>
      apply stayInLine h rfl rfl
      rw [hPc]
      rcases hWait with rfl | rfl <;> rcases hWait' with rfl | rfl <;> rfl
  | pushWait | write | drain | read =>
      have hBefore := congrArg owesFill hPc
      exact stayInLine h rfl rfl hBefore.symm
  | @fill blocking position own value _ hEmpty =>
      apply leaveLine h rfl rfl (hPc ▸ rfl) rfl
      intro hSlot
      obtain rfl : own = slot := Option.some.inj (hPlaced.1.symm.trans hSlot)
      exact hFirst (hPc ▸ if_pos hEmpty)

/-- A consumer joins the line of its slot when it claims and leaves it when it
wins the flag. -/
theorem Step.drainTurn (hStep : Step q (threads actor) σ pc σ' es)
    (hPlaced : Placed q (threads actor))
    (h : InTurns (q.ofSlot slot Event.tailClaim) (q.ofSlot slot Event.slotDrain)
      (q.ofSlot slot owesDrain) trace threads)
    (hFirst : winsFlag σ (threads actor) = some slot →
      (q.ofSlot slot owesDrain (threads actor)).isSome →
      FirstInLine (q.ofSlot slot Event.tailClaim) (q.ofSlot slot owesDrain) trace threads actor) :
    InTurns (q.ofSlot slot Event.tailClaim) (q.ofSlot slot Event.slotDrain)
      (q.ofSlot slot owesDrain) (trace ++ es.map (Prod.mk actor))
      (Function.update threads actor pc) := by
  generalize hPc : threads actor = before at hStep hPlaced
  cases hStep with
  | quiet hQuiet =>
      obtain ⟨_, _, hBefore, hAfter, _, hDrains⟩ := quiet_owes hQuiet
      apply stayInLine h (tailClaim_eq_nil hQuiet.claimsNothing) hDrains
      rw [hPc, hBefore, hAfter]
  | claimTail hClaim =>
      apply joinLine h rfl rfl _ rfl
      rw [hPc]
      exact (claimsTail_owes hClaim).2
  | popPanic hClaim hNone =>
      apply missLine h rfl hNone rfl _ rfl
      rw [hPc]
      exact (claimsTail_owes hClaim).2
  | claimHead hClaim | pushPanic hClaim =>
      apply stayInLine h rfl rfl
      rw [hPc]
      exact (claimsHead_owes hClaim).2.symm
  | popWait hWait hWait' =>
      apply stayInLine h rfl rfl
      rw [hPc]
      rcases hWait with rfl | rfl <;> rcases hWait' with rfl | rfl <;> rfl
  | pushWait | fill | write | read =>
      have hBefore := congrArg owesDrain hPc
      exact stayInLine h rfl rfl hBefore.symm
  | @drain blocking position own _ hFull =>
      apply leaveLine h rfl rfl (hPc ▸ rfl) rfl
      intro hSlot
      obtain rfl : own = slot := Option.some.inj (hPlaced.1.symm.trans hSlot)
      exact hFirst (hPc ▸ if_pos hFull)

/-- Both lines of a slot, and its flag. -/
structure Turns (q : Queue w) (slot : Nat) (trace : Trace (Event w T (Option T))) (s : Config w T) :
    Prop where
  fills : InTurns (q.ofSlot slot Event.headClaim) (q.ofSlot slot Event.slotFill)
    (q.ofSlot slot owesFill) trace s.threads
  drains : InTurns (q.ofSlot slot Event.tailClaim) (q.ofSlot slot Event.slotDrain)
    (q.ofSlot slot owesDrain) trace s.threads
  flag : (fillsOf q slot trace).length =
    (drainsOf q slot trace).length + (s.shared.slots slot).state.toNat

/-- Counting for one slot goes on by what the step adds there. -/
theorem length_tagged_append {V : Type} (f : Event w T V → Option (Usize w))
    (trace : Trace (Event w T V)) (thread : Nat) (es : List (Event w T V)) :
    (Trace.tagged (q.ofSlot slot f) (trace ++ es.map (Prod.mk thread))).length =
      (trace.tagged (q.ofSlot slot f)).length + (es.filterMap f).countP (q.atSlot slot) := by
  rw [Trace.tagged_append, List.length_append, List.length_map, Queue.filterMap_ofSlot,
    List.countP_eq_length_filter]

variable {maximizeThroughput : Bool}

/-- The run lemma, for one slot at a time. Its two lines are kept apart: a
producer does not depend on how the consumers stand in line, and the flag is
what joins them. -/
theorem turns_of_run {trace : Trace (Event w T (Option T))} {s : Config w T}
    (run : Run (q.threadCode (AtomicQueue2.slotCode T maximizeThroughput false)) (InTurn q)
      (initial w (Slot.new T)) trace s) (slot : Nat) : Turns q slot trace s := by
  apply invariant_of_run (Turns q slot) _ _ _ run
  · exact ⟨.nil fun _ => rfl, .nil fun _ => rfl, rfl⟩
  · intro trace s actor operation ih hIdle _
    obtain ⟨hFill, hDrain⟩ := owes_start (w := w) operation
    refine ⟨?_, ?_, ?_⟩
    · apply ih.fills.frame rfl rfl
      rw [ofSlot_none hFill, hIdle]
      exact (ofSlot_none rfl).symm
    · apply ih.drains.frame rfl rfl
      rw [ofSlot_none hDrain, hIdle]
      exact (ofSlot_none rfl).symm
    · rw [fillsOf, drainsOf, length_tagged_append, length_tagged_append]
      exact ih.flag
  · intro trace s actor pc shared es _ ih hInTurn hPlaced hStep
    refine ⟨?_, ?_, ?_⟩
    · exact hStep.fillTurn hPlaced ih.fills fun hWins => (hInTurn slot hWins).1
    · exact hStep.drainTurn hPlaced ih.drains fun hWins => (hInTurn slot hWins).2
    · have hBefore := ih.flag
      have hFlags := hStep.flags hPlaced slot
      rw [fillsOf, drainsOf] at hBefore ⊢
      rw [length_tagged_append, length_tagged_append]
      dsimp only
      omega

end Mpmc

theorem positions_isPrefix {m n : Nat} (h : m ≤ n) : positions w m <+: positions w n := by
  unfold positions
  apply List.IsPrefix.map
  rw [← Nat.min_eq_left h, ← List.take_range]
  exact List.take_prefix m _

/-- Of the positions of a slot, shorter beginnings are beginnings of longer. -/
theorem filter_positions_isPrefix {m n : Nat} {p : Usize w → Bool} {short long : List (Usize w)}
    (hShort : short <+: (positions w m).filter p) (hLong : long <+: (positions w n).filter p)
    (hLength : short.length ≤ long.length) : short <+: long := by
  have hM : (positions w m).filter p <+: (positions w (max m n)).filter p :=
    (positions_isPrefix (Nat.le_max_left m n)).filter p
  have hN : (positions w n).filter p <+: (positions w (max m n)).filter p :=
    (positions_isPrefix (Nat.le_max_right m n)).filter p
  exact List.prefix_of_prefix_length_le (hShort.trans hM) (hLong.trans hN) hLength

/-- Any mix of calls on a queue that claims by `compare_exchange`, as long as
each flag goes to the first in line: a slot is filled and drained by the claims
of its positions in increasing order, and the `n`th drain is of the position of
the `n`th fill. -/
theorem turnsInOrder_of_inTurn {target : Target w} {q : Queue w} (hq : IsAtomicQueue2 target true q)
    (maximizeThroughput : Bool) {trace : Trace (Event w T (Option T))} {s : AtomicQueue2.Config w T}
    (run : Run (q.threadCode (AtomicQueue2.slotCode T maximizeThroughput false)) (Mpmc.InTurn q)
      (initial w (Slot.new T)) trace s) (slot : Nat) : TurnsInOrder q trace slot := by
  have hOrdered := ordered_of_run (fun _ _ action _ => by
    cases action with
    | call => exact trivial
    | step => exact Or.inl hq.totalOrder_eq) run
  have hTurns := Mpmc.turns_of_run run slot
  have hHeads : (headClaimsOf q slot trace).map Prod.snd =
      (positions w (headClaims trace).length).filter (q.atSlot slot) := by
    rw [headClaimsOf, Queue.map_tagged_ofSlot, ← hOrdered.heads]
    rfl
  have hTails : (tailClaimsOf q slot trace).map Prod.snd =
      (positions w (tailClaims trace).length).filter (q.atSlot slot) := by
    rw [tailClaimsOf, Queue.map_tagged_ofSlot, ← hOrdered.tails]
    rfl
  have hFills : fillsOf q slot trace <+: headClaimsOf q slot trace := hTurns.fills.isPrefix
  have hDrains : drainsOf q slot trace <+: tailClaimsOf q slot trace := hTurns.drains.isPrefix
  refine ⟨hHeads, hTails, hFills, hDrains, ?_⟩
  apply filter_positions_isPrefix (hTails ▸ hDrains.map Prod.snd) (hHeads ▸ hFills.map Prod.snd)
  rw [List.length_map, List.length_map, hTurns.flag]
  exact Nat.le_add_right _ _

/-- The other thread owes the slot nothing, or claimed its position later. -/
def Mpmc.isLater (q : Queue w) (slot : Nat) (trace : Trace (Event w T (Option T)))
    (s : AtomicQueue2.Config w T) (thread other : Nat) : Bool :=
  ((q.ofSlot slot Mpmc.owesFill (s.threads other)).isNone ||
    decide (trace.timeOf (q.ofSlot slot Event.headClaim) thread <
      trace.timeOf (q.ofSlot slot Event.headClaim) other)) &&
  ((q.ofSlot slot Mpmc.owesDrain (s.threads other)).isNone ||
    decide (trace.timeOf (q.ofSlot slot Event.tailClaim) thread <
      trace.timeOf (q.ofSlot slot Event.tailClaim) other))

/-- `InTurn` in a form that can be tested: only threads below the bound have
made calls. -/
def Mpmc.inTurnBelow (q : Queue w) (bound : Nat) (trace : Trace (Event w T (Option T)))
    (s : AtomicQueue2.Config w T) : Action (Call T) → Bool
  | .call _ _ => true
  | .step thread =>
      (Mpmc.winsFlag s.shared (s.threads thread)).all fun slot =>
        (List.range bound).all fun other =>
          other == thread || Mpmc.isLater q slot trace s thread other

/-- The test looks at the threads below a bound, and the others are idle. -/
theorem Mpmc.inTurn_of_below {q : Queue w} {bound : Nat} {trace : Trace (Event w T (Option T))}
    {s : AtomicQueue2.Config w T} {action : Action (Call T)}
    (hRest : ∀ thread, bound ≤ thread → s.threads thread = .idle)
    (h : Mpmc.inTurnBelow q bound trace s action = true) : Mpmc.InTurn q trace s action := by
  cases action with
  | call => exact trivial
  | step thread =>
      intro slot hWins
      rw [Mpmc.inTurnBelow, hWins, Option.all_some] at h
      have hAll (other : Nat) (hOther : other ≠ thread) (hBound : other < bound) :
          Mpmc.isLater q slot trace s thread other = true := by
        have hTest := List.all_eq_true.mp h other (List.mem_range.mpr hBound)
        rw [beq_eq_false_iff_ne.mpr hOther, Bool.false_or] at hTest
        exact hTest
      have hBelow (other : Nat) {owes : AtomicQueue2.Local w T → Option (Usize w)}
          (hIdle : owes .idle = none) (hOwes : (q.ofSlot slot owes (s.threads other)).isSome) :
          other < bound := by
        by_contra hGe
        rw [hRest other (Nat.le_of_not_lt hGe), Mpmc.ofSlot_none hIdle] at hOwes
        contradiction
      constructor
      · intro _ other hOther hOwes
        have hTest := (Bool.and_eq_true_iff.mp (hAll other hOther (hBelow other rfl hOwes))).1
        rw [← Option.not_isSome, hOwes] at hTest
        exact of_decide_eq_true hTest
      · intro _ other hOther hOwes
        have hTest := (Bool.and_eq_true_iff.mp (hAll other hOther (hBelow other rfl hOwes))).2
        rw [← Option.not_isSome, hOwes] at hTest
        exact of_decide_eq_true hTest

/-- The producers of positions 0 and 2 both wait for slot 0 and take turns. -/
theorem turnsInOrder_twoSlots : ∃ trace : Trace (Event 64 Nat (Option Nat)),
    fillsOf (AtomicQueue2.twoSlots true) 0 trace = [(0, 0#64), (2, 2#64)] ∧
      TurnsInOrder (AtomicQueue2.twoSlots true) trace 0 := by
  refine ⟨_, ?_, turnsInOrder_of_inTurn (.fixed _ _ (AtomicQueue2.new_twoSlots true)) true
    (Run.ofExec 4 (Mpmc.inTurnBelow (AtomicQueue2.twoSlots true) 4)
      (fun _ _ _ => Mpmc.inTurn_of_below)
      [.call 0 (.push 7), .step 0, .call 1 (.push 8), .step 1, .call 2 (.push 9), .step 2,
        .step 0, .step 0, .call 3 .pop, .step 3, .step 3, .step 3, .step 2]
      (by decide) (by decide +kernel)) 0⟩
  decide +kernel

/-- The producer of position 2 fills slot 0 before that of position 0, and the
consumer of position 0 gets its element. -/
theorem twoSlots_out_of_turn : ∃ trace, ∃ s : AtomicQueue2.Config 64 Nat,
    Run ((AtomicQueue2.twoSlots true).threadCode (AtomicQueue2.slotCode Nat true false))
        anyAction (initial 64 (Slot.new Nat)) trace s ∧
      headClaimsOf (AtomicQueue2.twoSlots true) 0 trace = [(0, 0#64), (2, 2#64)] ∧
      fillsOf (AtomicQueue2.twoSlots true) 0 trace = [(2, 2#64)] ∧
      drainsOf (AtomicQueue2.twoSlots true) 0 trace = [(3, 0#64)] ∧
      (3, .returned (.pop (some 9))) ∈ trace ∧
      ¬ TurnsInOrder (AtomicQueue2.twoSlots true) trace 0 := by
  refine ⟨_, _, Run.ofExec 4 (fun _ _ _ => true) (fun _ _ _ _ _ => trivial)
    [.call 0 (.push 7), .step 0, .call 1 (.push 8), .step 1, .call 2 (.push 9), .step 2, .step 2,
      .step 2, .call 3 .pop, .step 3, .step 3, .step 3]
    (by decide) (by decide +kernel), ?_, ?_, ?_, ?_, fun h => ?_⟩
  · decide +kernel
  · decide +kernel
  · decide +kernel
  · decide +kernel
  · have hPrefix := h.fills_isPrefix
    revert hPrefix
    decide +kernel

end AtomicQueueRs
