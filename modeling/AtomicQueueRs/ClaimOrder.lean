import AtomicQueueRs.Handover
import AtomicQueueRs.TurnOrder

/-! First in, first out by claim, in the MPMC branch. Where every flag is won in
turn and alone, a consumer gets the element of the producer who claimed the same
position, in whatever order the calls come to the slot. -/
namespace AtomicQueueRs

set_option autoImplicit false

open Interleaving (Trace Run Action InTurns FirstInLine)

variable {w : Nat} {T V : Type}

namespace Event

/-- The position for which an element is written, with the element. -/
def pushedAt : Event w T V → Option (Usize w × T)
  | .access position _ (.write value) => some (position, value)
  | _ => none

/-- The position for which an element is read, with what is read. -/
def poppedAt : Event w T V → Option (Usize w × V)
  | .access position _ (.read value) => some (position, value)
  | _ => none

def slotWrite (e : Event w T V) : Option (Usize w) := e.pushedAt.map Prod.fst

def slotRead (e : Event w T V) : Option (Usize w) := e.poppedAt.map Prod.fst

end Event

/-- The elements written, with their positions. -/
def pushes (trace : Trace (Event w T V)) : List (Usize w × T) := trace.select fun _ => Event.pushedAt

def pops (trace : Trace (Event w T V)) : List (Usize w × V) := trace.select fun _ => Event.poppedAt

/-- Pairs agree as far as both of their halves do. -/
theorem isPrefix_of_halves {α β : Type} {xs ys : List (α × β)}
    (hFst : xs.map Prod.fst <+: ys.map Prod.fst) (hSnd : xs.map Prod.snd <+: ys.map Prod.snd) :
    xs <+: ys := by
  induction xs generalizing ys with
  | nil => exact List.nil_prefix
  | cons x xs ih =>
      cases ys with
      | nil => simp at hFst
      | cons y ys =>
          simp only [List.map_cons, List.cons_prefix_cons] at hFst hSnd ⊢
          exact ⟨Prod.ext hFst.1 hSnd.1, ih hFst.2 hSnd.2⟩

section Slot

variable {U : Type} (q : Queue w) (slot : Nat) (trace : Trace (Event w T V))
  (f : Event w T V → Option (Usize w × U))

/-- What `f` picks for the positions of the slot. -/
def ofSlotOnly : List (Usize w × U) :=
  (trace.select fun _ => f).filter fun entry => q.atSlot slot entry.1

/-- The positions of the entries that belong to a slot, which is how the turns
of the slot count them. -/
theorem map_fst_ofSlotOnly : (ofSlotOnly q slot trace f).map Prod.fst =
    (trace.tagged (q.ofSlot slot fun e => (f e).map Prod.fst)).map Prod.snd := by
  rw [Queue.map_tagged_ofSlot, Trace.map_tagged, ofSlotOnly, Trace.select, Trace.select,
    ← List.map_filterMap, List.filter_map]
  rfl

variable {q slot trace f}

/-- Their values are those that another picker finds in the same events. -/
theorem map_snd_ofSlotOnly {g : Event w T V → Option U}
    (h : ∀ event ∈ trace,
      ((f event.2).filter fun entry => q.atSlot slot entry.1).map Prod.snd = g event.2) :
    (ofSlotOnly q slot trace f).map Prod.snd = trace.select fun _ => g := by
  rw [ofSlotOnly, Trace.select, Trace.select, List.filter_filterMap, List.map_filterMap]
  exact List.filterMap_congr h

end Slot

namespace Mpmc

open AtomicQueue2 (Local Config)

/-- The position whose element this call has won and not written yet. -/
def owesWrite : Local w T → Option (Usize w)
  | .pushSlot _ position _ (.write _) => some position
  | _ => none

/-- The position whose element this call has won and not read yet. -/
def owesRead : Local w T → Option (Usize w)
  | .popSlot _ position _ .read => some position
  | _ => none

variable {q : Queue w} {trace : Trace (Event w T (Option T))} {threads : Nat → Local w T}
  {actor slot : Nat} {pc : Local w T} {σ σ' : Memory w (Slot T)} {es : List (Event w T (Option T))}

/-- Whoever owes the slot a write has won its flag and not written yet. -/
theorem holds_of_owesWrite (hPlaced : Placed q pc) (h : (q.ofSlot slot owesWrite pc).isSome) :
    Holds slot pc := by
  cases pc with
  | pushSlot blocking position own pc =>
      cases pc with
      | write value =>
          simp [Queue.ofSlot, owesWrite, Queue.atSlot, hPlaced.1] at h
          exact Or.inl h
      | _ => contradiction
  | _ => contradiction

/-- Whoever owes the slot a read has won its flag and not read yet. -/
theorem holds_of_owesRead (hPlaced : Placed q pc) (h : (q.ofSlot slot owesRead pc).isSome) :
    Holds slot pc := by
  cases pc with
  | popSlot blocking position own pc =>
      cases pc with
      | read =>
          simp [Queue.ofSlot, owesRead, Queue.atSlot, hPlaced.1] at h
          exact Or.inr h
      | _ => contradiction
  | _ => contradiction

/-- A line of one. -/
theorem firstInLine_of_unique {charge : Event w T (Option T) → Option (Usize w)}
    {owes : Local w T → Option (Usize w)}
    (hHolds : ∀ thread, (q.ofSlot slot owes (threads thread)).isSome → Holds slot (threads thread))
    (hUnique : ∀ thread thread', Holds slot (threads thread) → Holds slot (threads thread') →
      thread = thread')
    (hActor : (q.ofSlot slot owes (threads actor)).isSome) :
    FirstInLine (q.ofSlot slot charge) (q.ofSlot slot owes) trace threads actor := by
  intro other hOther hOwes
  exact (hOther (hUnique other actor (hHolds other hOwes) (hHolds actor hActor))).elim

/-- Loads and refusals leave no element to be written or read, and report
none. -/
theorem quiet_owesElement {pc' : Local w T} (h : q.Quiet σ pc pc' es) :
    owesWrite pc = none ∧ owesWrite pc' = none ∧ owesRead pc = none ∧ owesRead pc' = none ∧
      es.filterMap Event.slotWrite = [] ∧ es.filterMap Event.slotRead = [] := by
  cases h <;> exact ⟨rfl, rfl, rfl, rfl, rfl, rfl⟩

/-- A producer that is about to claim owes nothing yet; it owes its element from
the moment it wins the flag. -/
theorem claimsHead_owesElement {blocking : Bool} {position : Usize w} {value : T}
    (h : q.ClaimsHead σ pc blocking position value) : owesWrite pc = none ∧ owesRead pc = none := by
  cases h <;> exact ⟨rfl, rfl⟩

/-- Nor does a consumer that is about to claim. -/
theorem claimsTail_owesElement {blocking : Bool} {position : Usize w}
    (h : q.ClaimsTail σ pc blocking position) : owesWrite pc = none ∧ owesRead pc = none := by
  cases h <;> exact ⟨rfl, rfl⟩

/-- Elements are written in the order in which the flag was won. -/
theorem Step.writeTurn (hStep : Step q (threads actor) σ pc σ' es)
    (h : InTurns (q.ofSlot slot Event.slotFill) (q.ofSlot slot Event.slotWrite)
      (q.ofSlot slot owesWrite) trace threads)
    (hFirst : (q.ofSlot slot owesWrite (threads actor)).isSome →
      FirstInLine (q.ofSlot slot Event.slotFill) (q.ofSlot slot owesWrite) trace threads actor) :
    InTurns (q.ofSlot slot Event.slotFill) (q.ofSlot slot Event.slotWrite) (q.ofSlot slot owesWrite)
      (trace ++ es.map (Prod.mk actor)) (Function.update threads actor pc) := by
  generalize hPc : threads actor = before at hStep
  cases hStep with
  | quiet hQuiet =>
      obtain ⟨hBefore, hAfter, _, _, hWrites, _⟩ := quiet_owesElement hQuiet
      obtain ⟨_, _, _, _, hFills, _⟩ := quiet_owes hQuiet
      exact stayInLine h hFills hWrites (by rw [hPc, hBefore, hAfter])
  | claimHead hClaim | pushPanic hClaim =>
      exact stayInLine h rfl rfl (by rw [hPc, (claimsHead_owesElement hClaim).1]; rfl)
  | claimTail hClaim | popPanic hClaim =>
      exact stayInLine h rfl rfl (by rw [hPc, (claimsTail_owesElement hClaim).1]; rfl)
  | popWait hWait hWait' =>
      refine stayInLine h rfl rfl ?_
      rw [hPc]
      rcases hWait with rfl | rfl <;> rcases hWait' with rfl | rfl <;> rfl
  | pushWait | drain | read =>
      have hBefore := congrArg owesWrite hPc
      exact stayInLine h rfl rfl hBefore.symm
  | fill => exact joinLine h rfl rfl (by rw [hPc]; rfl) rfl
  | write => exact leaveLine h rfl rfl (by rw [hPc]; rfl) rfl fun _ => hFirst

/-- Elements are read in the order in which the flag was won. -/
theorem Step.readTurn (hStep : Step q (threads actor) σ pc σ' es)
    (h : InTurns (q.ofSlot slot Event.slotDrain) (q.ofSlot slot Event.slotRead)
      (q.ofSlot slot owesRead) trace threads)
    (hFirst : (q.ofSlot slot owesRead (threads actor)).isSome →
      FirstInLine (q.ofSlot slot Event.slotDrain) (q.ofSlot slot owesRead) trace threads actor) :
    InTurns (q.ofSlot slot Event.slotDrain) (q.ofSlot slot Event.slotRead) (q.ofSlot slot owesRead)
      (trace ++ es.map (Prod.mk actor)) (Function.update threads actor pc) := by
  generalize hPc : threads actor = before at hStep
  cases hStep with
  | quiet hQuiet =>
      obtain ⟨_, _, hBefore, hAfter, _, hReads⟩ := quiet_owesElement hQuiet
      obtain ⟨_, _, _, _, _, hDrains⟩ := quiet_owes hQuiet
      exact stayInLine h hDrains hReads (by rw [hPc, hBefore, hAfter])
  | claimHead hClaim | pushPanic hClaim =>
      exact stayInLine h rfl rfl (by rw [hPc, (claimsHead_owesElement hClaim).2]; rfl)
  | claimTail hClaim | popPanic hClaim =>
      exact stayInLine h rfl rfl (by rw [hPc, (claimsTail_owesElement hClaim).2]; rfl)
  | popWait hWait hWait' =>
      refine stayInLine h rfl rfl ?_
      rw [hPc]
      rcases hWait with rfl | rfl <;> rcases hWait' with rfl | rfl <;> rfl
  | pushWait | fill | write =>
      have hBefore := congrArg owesRead hPc
      exact stayInLine h rfl rfl hBefore.symm
  | drain => exact joinLine h rfl rfl (by rw [hPc]; rfl) rfl
  | read => exact leaveLine h rfl rfl (by rw [hPc]; rfl) rfl fun _ => hFirst

/-- The lines for the element of a slot. -/
structure ElementTurns (q : Queue w) (slot : Nat) (trace : Trace (Event w T (Option T)))
    (s : Config w T) : Prop where
  writes : InTurns (q.ofSlot slot Event.slotFill) (q.ofSlot slot Event.slotWrite)
    (q.ofSlot slot owesWrite) trace s.threads
  reads : InTurns (q.ofSlot slot Event.slotDrain) (q.ofSlot slot Event.slotRead)
    (q.ofSlot slot owesRead) trace s.threads

variable {maximizeThroughput : Bool}

/-- Nor any call at its start. -/
theorem owesElement_start (operation : Call T) :
    owesWrite (Queue.start operation : Local w T) = none ∧
      owesRead (Queue.start operation : Local w T) = none := by
  cases operation <;> exact ⟨rfl, rfl⟩

/-- While flags are won one at a time, the elements of a slot are written in the
order of its fills and read in the order of its drains. -/
theorem elementTurns_of_run {s : Config w T}
    (run : Run (q.threadCode (AtomicQueue2.slotCode T maximizeThroughput false))
      (fun _ => WinsAlone) (initial w (Slot.new T)) trace s) (slot : Nat) :
    ElementTurns q slot trace s := by
  refine run.invariant (ElementTurns q slot) ⟨.nil fun _ => rfl, .nil fun _ => rfl⟩ ?_ ?_
  · intro trace s thread operation pc es _ ih _ hCall
    obtain ⟨hIdle, rfl, rfl⟩ := Queue.call_cases hCall
    obtain ⟨hWrite, hRead⟩ := owesElement_start (w := w) operation
    exact ⟨stayInLine ih.writes rfl rfl (by rw [hIdle, hWrite]; rfl),
      stayInLine ih.reads rfl rfl (by rw [hIdle, hRead]; rfl)⟩
  · intro trace s thread pc shared es prior ih _ hStep
    have hPlaced := placed_of_run prior
    have hUnique := (owned_of_run prior slot).sound.holder_unique
    have hStep' := step_cases (hPlaced thread) (Queue.step_cases hStep)
    exact ⟨hStep'.writeTurn ih.writes
        (firstInLine_of_unique (fun other => holds_of_owesWrite (hPlaced other)) hUnique),
      hStep'.readTurn ih.reads
        (firstInLine_of_unique (fun other => holds_of_owesRead (hPlaced other)) hUnique)⟩

end Mpmc

section Picked

variable (q : Queue w) (slot : Nat) (f g : Event w T V → Option (Usize w))

/-- Picking for one slot is picking first and keeping the entries of the
slot. -/
theorem tagged_ofSlot (trace : Trace (Event w T V)) : trace.tagged (q.ofSlot slot f) =
    (trace.tagged f).filter fun entry => q.atSlot slot entry.2 := by
  rw [Trace.tagged, Trace.tagged, Trace.select, Trace.select, List.filter_filterMap]
  congr 1
  funext event
  cases hPick : f event.2 with
  | none => simp [Queue.ofSlot, hPick]
  | some position => cases hSlot : q.atSlot slot position <;>
      simp [Queue.ofSlot, hPick, Option.filter_some, hSlot]

variable {q f g}

/-- What comes first slot by slot is a part of the whole. -/
theorem subperm_of_slots (hIndexed : q.Indexed) {trace : Trace (Event w T V)}
    (h : ∀ slot, trace.tagged (q.ofSlot slot f) <+: trace.tagged (q.ofSlot slot g)) :
    (trace.tagged f).Subperm (trace.tagged g) := by
  rw [List.subperm_ext_iff]
  intro (thread, position) _
  obtain ⟨slot, _, hSlot⟩ := hIndexed.exists_getSlot position
  have hAt : q.atSlot slot position = true := decide_eq_true hSlot
  have hCount := (h slot).sublist.count_le (thread, position)
  rwa [tagged_ofSlot, tagged_ofSlot, List.count_filter (by exact hAt),
    List.count_filter (by exact hAt)] at hCount

end Picked

section Access

variable {q : Queue w} {trace : Trace (Event w T V)} (hEntitled : trace.Each (Entitled q)) (slot : Nat)

include hEntitled

/-- An access reported for a position is to the slot of that position, in every
run. -/
theorem getSlot_of_access {thread own : Nat} {position : Usize w} {change : Access T V}
    (h : (thread, .access position own change) ∈ trace) : q.getSlot position = some own := by
  obtain ⟨before, after, hSplit⟩ := List.append_of_mem h
  exact (hEntitled before thread _ after hSplit).2.1

/-- The elements of a slot, by slot or by position. -/
theorem elements_of_slot :
    (ofSlotOnly q slot trace Event.pushedAt).map Prod.snd = writesAt slot trace ∧
      (ofSlotOnly q slot trace Event.poppedAt).map Prod.snd = readsAt slot trace := by
  constructor
  · refine map_snd_ofSlotOnly fun (thread, e) hMem => ?_
    cases e with
    | access position own change =>
        have hSlot := getSlot_of_access hEntitled hMem
        by_cases hOwn : own = slot <;>
          cases change <;> simp [Event.pushedAt, Event.writeAt, Queue.atSlot, hSlot, hOwn]
    | _ => rfl
  · refine map_snd_ofSlotOnly fun (thread, e) hMem => ?_
    cases e with
    | access position own change =>
        have hSlot := getSlot_of_access hEntitled hMem
        by_cases hOwn : own = slot <;>
          cases change <;> simp [Event.poppedAt, Event.readAt, Queue.atSlot, hSlot, hOwn]
    | _ => rfl

end Access

namespace Mpmc

open AtomicQueue2 (Local Config)

/-- Each flag is won by the first in line, and after its last winner is done. -/
def wonInOrder (q : Queue w) (trace : Trace (Event w T (Option T))) (s : Config w T)
    (action : Action (Call T)) : Prop :=
  InTurn q trace s action ∧ WinsAlone s action

/-- Claims take the positions in order, elements are written and read by those
who claimed their positions, and what is read for a position is what was written
for it, also where positions come again. -/
structure InClaimOrder (q : Queue w) (trace : Trace (Event w T (Option T))) : Prop where
  heads : (headClaims trace).map Prod.snd = positions w (headClaims trace).length
  tails : (tailClaims trace).map Prod.snd = positions w (tailClaims trace).length
  pushes_subperm : (trace.tagged Event.slotWrite).Subperm (headClaims trace)
  pops_subperm : (trace.tagged Event.slotRead).Subperm (tailClaims trace)
  exchanged : ∀ slot, ofSlotOnly q slot trace Event.poppedAt <+:
    (ofSlotOnly q slot trace Event.pushedAt).map (Prod.map id some)
  popped_mem : ∀ position value, (position, value) ∈ pops trace →
    ∃ element, value = some element ∧ (position, element) ∈ pushes trace

variable {q : Queue w} {trace : Trace (Event w T (Option T))}

/-- A slot is drained for the positions for which it was filled. -/
theorem Turns.paired {slot : Nat} {s : Config w T} (h : Turns q slot trace s)
    (hOrdered : Ordered trace s) :
    (drainsOf q slot trace).map Prod.snd <+: (fillsOf q slot trace).map Prod.snd := by
  have hFills : (fillsOf q slot trace).map Prod.snd <+:
      (positions w (headClaims trace).length).filter (q.atSlot slot) := by
    rw [← hOrdered.heads, headClaims, ← Queue.map_tagged_ofSlot]
    exact h.fills.isPrefix.map Prod.snd
  have hDrains : (drainsOf q slot trace).map Prod.snd <+:
      (positions w (tailClaims trace).length).filter (q.atSlot slot) := by
    rw [← hOrdered.tails, tailClaims, ← Queue.map_tagged_ofSlot]
    exact h.drains.isPrefix.map Prod.snd
  refine filter_positions_isPrefix hDrains hFills ?_
  rw [List.length_map, List.length_map, h.flag]
  exact Nat.le_add_right _ _

/-- A slot's elements leave in the order in which they came, for the positions
for which they came. -/
theorem exchanged_of_turns (hEntitled : trace.Each (Entitled q)) {slot : Nat} {s : Config w T}
    (hPaired : (drainsOf q slot trace).map Prod.snd <+: (fillsOf q slot trace).map Prod.snd)
    (hElements : ElementTurns q slot trace s) (hSound : SlotSound slot trace s) :
    ofSlotOnly q slot trace Event.poppedAt <+:
      (ofSlotOnly q slot trace Event.pushedAt).map (Prod.map id some) := by
  obtain ⟨hWritten, hRead⟩ := elements_of_slot hEntitled slot
  have hValues : (ofSlotOnly q slot trace Event.poppedAt).map Prod.snd <+:
      ((ofSlotOnly q slot trace Event.pushedAt).map (Prod.map id some)).map Prod.snd := by
    have hSound' := hSound.reads_isPrefix
    rw [← hWritten, ← hRead] at hSound'
    simpa [Function.comp_def] using hSound'
  refine isPrefix_of_halves ?_ hValues
  have hReads : (ofSlotOnly q slot trace Event.poppedAt).map Prod.fst <+:
      (fillsOf q slot trace).map Prod.snd := by
    rw [map_fst_ofSlotOnly]
    exact (hElements.reads.isPrefix.map Prod.snd).trans hPaired
  have hWrites : ((ofSlotOnly q slot trace Event.pushedAt).map (Prod.map id some)).map Prod.fst <+:
      (fillsOf q slot trace).map Prod.snd := by
    have hSame : ((ofSlotOnly q slot trace Event.pushedAt).map (Prod.map id some)).map Prod.fst =
        (ofSlotOnly q slot trace Event.pushedAt).map Prod.fst := by simp [Function.comp_def]
    rw [hSame, map_fst_ofSlotOnly]
    exact hElements.writes.isPrefix.map Prod.snd
  refine List.prefix_of_prefix_length_le hReads hWrites ?_
  simpa using hValues.length_le

/-- The element popped at a position was pushed at it. -/
theorem popped_mem_of_exchanged (hIndexed : q.Indexed)
    (hExchanged : ∀ slot, ofSlotOnly q slot trace Event.poppedAt <+:
      (ofSlotOnly q slot trace Event.pushedAt).map (Prod.map id some))
    {position : Usize w} {value : Option T} (h : (position, value) ∈ pops trace) :
    ∃ element, value = some element ∧ (position, element) ∈ pushes trace := by
  obtain ⟨slot, _, hSlot⟩ := hIndexed.exists_getSlot position
  have hHere : (position, value) ∈ ofSlotOnly q slot trace Event.poppedAt :=
    List.mem_filter.mpr ⟨h, decide_eq_true hSlot⟩
  obtain ⟨⟨_, element⟩, hPushed, hEq⟩ := List.mem_map.mp ((hExchanged slot).subset hHere)
  obtain ⟨rfl, rfl⟩ := Prod.mk.inj hEq
  exact ⟨element, rfl, (List.mem_filter.mp hPushed).1⟩

end Mpmc

/-- With total order, any mix of calls of any number of threads: the consumer of
a position gets the element of its producer, as long as the flags of a slot are
won in the order of the claims and by nobody else before the element is
moved. -/
theorem inClaimOrder_of_wonInOrder {target : Target w} {q : Queue w}
    (hq : IsAtomicQueue2 target true q) (hPos : 0 < q.capacity.toNat) (maximizeThroughput : Bool)
    {trace : Trace (Event w T (Option T))} {s : AtomicQueue2.Config w T}
    (run : Run (q.threadCode (AtomicQueue2.slotCode T maximizeThroughput false))
      (Mpmc.wonInOrder q) (initial w (Slot.new T)) trace s) : Mpmc.InClaimOrder q trace := by
  have hIndexed := hq.indexed hPos
  have hInTurn := run.weaken fun _ _ _ h => h.1
  have hAlone := run.weaken fun _ _ _ h => h.2
  have hOrdered := ordered_of_totalOrder hq.totalOrder_eq run
  have hTurns (slot : Nat) := Mpmc.turns_of_run hInTurn slot
  have hElements (slot : Nat) := Mpmc.elementTurns_of_run hAlone slot
  have hEntitled := (confined_of_indexed hIndexed
    (AtomicQueue2.slotCode_tidy T maximizeThroughput false) (run.weaken fun _ _ _ _ => trivial)).entitled
  have hExchanged (slot : Nat) := Mpmc.exchanged_of_turns hEntitled
    ((hTurns slot).paired hOrdered) (hElements slot) (Mpmc.owned_of_run hAlone slot).sound
  refine ⟨hOrdered.heads, hOrdered.tails, ?_, ?_, hExchanged,
    fun _ _ hPopped => Mpmc.popped_mem_of_exchanged hIndexed hExchanged hPopped⟩
  · exact subperm_of_slots hIndexed fun slot =>
      (hElements slot).writes.isPrefix.trans (hTurns slot).fills.isPrefix
  · exact subperm_of_slots hIndexed fun slot =>
      (hElements slot).reads.isPrefix.trans (hTurns slot).drains.isPrefix

/-- The consumer of position 2 is done before that of position 1, whose
producer is late. -/
theorem inClaimOrder_twoSlots : ∃ trace : Trace (Event 64 Nat (Option Nat)),
    pushes trace = [(0#64, 7), (2#64, 9), (1#64, 8)] ∧
      pops trace = [(0#64, some 7), (2#64, some 9), (1#64, some 8)] ∧
      Mpmc.InClaimOrder (AtomicQueue2.twoSlots true) trace := by
  refine ⟨_, ?_, ?_, inClaimOrder_of_wonInOrder (.fixed _ _ (AtomicQueue2.new_twoSlots true)) (by decide)
    true (Run.ofExec 6 (fun trace s action =>
        Mpmc.inTurnBelow (AtomicQueue2.twoSlots true) 6 trace s action &&
          Mpmc.winsAloneBelow 6 s action) (fun trace s action hRest hTest => ?_)
      [.call 0 (.push 7), .step 0, .call 1 (.push 8), .step 1, .call 2 (.push 9), .step 2, .step 0,
        .step 2, .step 0, .call 3 .pop, .step 3, .step 3, .step 3, .call 4 .pop, .step 4, .step 4,
        .call 5 .pop, .step 5, .step 2, .step 2, .step 5, .step 5, .step 1, .step 1, .step 4, .step 4,
        .step 4]
      (by decide) (by decide +kernel))⟩
  · decide +kernel
  · decide +kernel
  · rw [Bool.and_eq_true] at hTest
    exact ⟨Mpmc.inTurn_of_below hRest hTest.1, Mpmc.winsAlone_of_below hRest hTest.2⟩

end AtomicQueueRs
