import AtomicQueueRs.Confinement
import AtomicQueueRs.Conservation
import AtomicQueueRs.Provenance
import AtomicQueueRs.SlotOwnership

/-! From producers through the slots to consumers and to `drop`, in the MPMC
branch. While every flag is won alone, an element that a producer was told is in
the queue is handed to one consumer, or waits in one slot, or is dropped. -/
namespace AtomicQueueRs

set_option autoImplicit false

open Interleaving (Trace Run Action exec)

variable {w : Nat} {T : Type}

section Elements

variable {V : Type}

/-- Stored elements, as a consumer would read them. -/
theorem count_map_stores [DecidableEq V] (trace : Trace (Event w T V)) (slot : Nat) (asRead : T → V)
    (value : V) :
    ((stores trace).map (Prod.map id asRead)).count (slot, value) =
      ((writesAt slot trace).map asRead).count value := by
  simp only [stores, writesAt, Trace.select, List.map_filterMap, List.count_filterMap]
  congr 1
  funext event
  obtain ⟨_, e⟩ := event
  rcases e with _ | _ | _ | _ | _ | _ | ⟨_, own, a⟩ | _ | _ <;> try rfl
  by_cases hOwn : own = slot <;> cases a <;> simp [Event.stored, hOwn]

/-- The accounts of the slots, put together. -/
theorem conserved_of_slots {trace : Trace (Event w T V)} {asRead : T → V} {capacity : Nat}
    {waiting : Nat → Option V} (hBeyond : ∀ slot, capacity ≤ slot → waiting slot = none)
    (hReads : ∀ slot, (writesAt slot trace).map asRead =
      readsAt slot trace ++ (waiting slot).toList) :
    Ring.Conserved capacity waiting (((stores trace).map Prod.snd).map asRead)
      ((loads trace).map Prod.snd) := by
  classical
  have hConserved : Ring.Conserved capacity waiting
      (((stores trace).map (Prod.map id asRead)).map Prod.snd) ((loads trace).map Prod.snd) := by
    refine Ring.conserved_of_slotwise hBeyond fun slot value => ?_
    rw [count_map_stores, hReads, List.count_append, count_loads]
    cases waiting slot <;> simp [List.count_singleton]
  simpa [Function.comp_def] using hConserved

/-- A stretch that hands over what it reads. -/
theorem popped_append {trace : Trace (Event w T V)} (h : popped trace = (loads trace).map Prod.snd)
    (thread : Nat) {es : List (Event w T V)}
    (hEvents : es.filterMap Event.popped = (es.filterMap Event.loaded).map Prod.snd) :
    popped (trace ++ es.map (Prod.mk thread)) =
      (loads (trace ++ es.map (Prod.mk thread))).map Prod.snd := by
  simp only [popped, loads, Trace.select_append, Trace.select_map, List.map_append] at h ⊢
  rw [h, hEvents]

end Elements

namespace Mpmc

open AtomicQueue2 (Local Config Kept content offering)

variable {q : Queue w}

/-- The element of a `push` or `try_push` that has not returned. -/
def unreturned : Local w T → Option T := Pc.carries offering fun _ => none

theorem quiet_stores {σ : Memory w (Slot T)} {pc pc' : Local w T} {es : List (Event w T (Option T))}
    (h : q.Quiet σ pc pc' es) :
    es.filterMap Event.stored = [] ∧ es.filterMap Event.loaded = [] := by
  cases h <;> exact ⟨rfl, rfl⟩

/-- A call keeps the element it was made with. -/
theorem Step.unreturned {pc pc' : Local w T} {σ σ' : Memory w (Slot T)}
    {es : List (Event w T (Option T))} (h : Step q pc σ pc' σ' es) {element : T}
    (hAfter : Mpmc.unreturned pc' = some element) : Mpmc.unreturned pc = some element := by
  cases h with
  | quiet h => exact (sourced_quiet _ _ h).1 element hAfter
  | claimHead h =>
      obtain rfl := Option.some.inj hAfter
      exact h.carries
  | pushWait | fill => exact hAfter
  | claimTail | pushPanic | popPanic | write | popWait | drain | read => contradiction

/-- A call succeeds in the step that writes its element. -/
theorem Step.offers {pc pc' : Local w T} {σ σ' : Memory w (Slot T)}
    {es : List (Event w T (Option T))} (h : Step q pc σ pc' σ' es) (thread : Nat)
    {before : Offers T}
    (hPending : ∀ element, Mpmc.unreturned pc = some element → before.pending thread = some element) :
    (es.map (Prod.mk thread)).foldl Offers.record before =
      { before with accepted := before.accepted ++ (es.filterMap Event.stored).map Prod.snd } := by
  cases h with
  | quiet h =>
      rw [h.offers, (quiet_stores h).1, List.map_nil, List.append_nil]
  | @write blocking position slot element =>
      cases blocking <;> simp [List.filterMap_cons, Event.stored, Offers.record, hPending element rfl]
  | @read blocking => cases blocking <;> simp [List.filterMap_cons, Event.stored, Offers.record]
  | _ => simp [List.filterMap_cons, Event.stored, Offers.record]

/-- A consumer returns in the step that reads. -/
theorem Step.popped {pc pc' : Local w T} {σ σ' : Memory w (Slot T)}
    {es : List (Event w T (Option T))} (h : Step q pc σ pc' σ' es) :
    es.filterMap Event.popped = (es.filterMap Event.loaded).map Prod.snd := by
  cases h with
  | quiet h =>
      rw [h.popped, (quiet_stores h).2]
      rfl
  | @write blocking | @read blocking => cases blocking <;> rfl
  | _ => rfl

/-- The results of calls are the accesses to elements. -/
structure Returned (trace : Trace (Event w T (Option T))) (s : Config w T) : Prop where
  pending : ∀ thread element, unreturned (s.threads thread) = some element →
    (offers trace).pending thread = some element
  accepted : AtomicQueueRs.accepted trace = (stores trace).map Prod.snd
  popped : AtomicQueueRs.popped trace = (loads trace).map Prod.snd

variable {maximizeThroughput : Bool}
  {allowed : Trace (Event w T (Option T)) → Config w T → Action (Call T) → Prop}
  {trace : Trace (Event w T (Option T))} {s : Config w T}

theorem unreturned_start (operation : Call T) :
    unreturned (Queue.start operation : Local w T) = operation.element := by
  cases operation <;> rfl

/-- In the MPMC branch the storage access and the return are one step, so
results and accesses cannot differ. -/
theorem returned_of_run
    (run : Run (q.threadCode (AtomicQueue2.slotCode T maximizeThroughput false)) allowed
      (initial w (Slot.new T)) trace s) : Returned trace s := by
  refine invariant_of_run Returned ⟨fun _ _ h => (nomatch h), rfl, rfl⟩ ?_ ?_ run
  · intro trace s actor operation ih _ _
    have hOffers := offers_call trace actor operation
    refine ⟨?_, ?_, ?_⟩
    · rw [hOffers]
      refine (Function.forall_update_iff s.threads fun thread pc => ∀ element,
        unreturned pc = some element →
          Function.update (offers trace).pending actor operation.element thread = some element).mpr
        ⟨fun element hStart => ?_, fun thread hThread element hUnreturned => ?_⟩
      · rw [unreturned_start] at hStart
        rw [← hStart]
        exact Function.update_self ..
      · rw [← ih.pending thread element hUnreturned]
        exact Function.update_of_ne hThread ..
    · rw [AtomicQueueRs.accepted, hOffers, stores_append]
      exact ih.accepted.trans (congrArg _ (List.append_nil _).symm)
    · exact popped_append ih.popped actor rfl
  · intro trace s actor pc shared es _ ih _ _ hStep
    have hOffers := hStep.offers actor (ih.pending actor)
    rw [← offers_append] at hOffers
    refine ⟨?_, ?_, ?_⟩
    · rw [hOffers]
      exact (Function.forall_update_iff s.threads fun thread pc => ∀ element,
        unreturned pc = some element → (offers trace).pending thread = some element).mpr
        ⟨fun element hAfter => ih.pending actor element (hStep.unreturned hAfter),
          fun thread _ => ih.pending thread⟩
    · rw [AtomicQueueRs.accepted, hOffers, stores_append, List.map_append, ← ih.accepted]
      rfl
    · exact popped_append ih.popped actor hStep.popped

/-- What waits in a slot, when one knows who holds it. -/
theorem Owned.exists_waiting {slot : Nat} {threads : Nat → Local w T} {contents : Slot T}
    {writes : List T} {reads : List (Option T)} (h : Owned slot threads contents writes reads) :
    ∃ waiting : Option (Option T), writes.map some = reads ++ waiting.toList ∧
      ((∀ thread, ¬ Holds slot (threads thread)) → waiting = content contents) := by
  cases h with
  | free _ hState hReads =>
      exact ⟨none, by simpa using hReads, fun _ => (AtomicQueue2.content_eq_none_iff.mpr hState).symm⟩
  | writing holder _ hWriting _ hReads =>
      exact ⟨none, by simpa using hReads, fun hNobody => (hNobody holder (Or.inl hWriting)).elim⟩
  | stored _ hState hReads =>
      exact ⟨some contents.element, hReads,
        fun _ => (AtomicQueue2.content_eq_some_iff.mpr ⟨hState, rfl⟩).symm⟩
  | reading holder _ hReading _ hReads =>
      exact ⟨some contents.element, hReads, fun hNobody => (hNobody holder (Or.inr hReading)).elim⟩

/-- No call is at a slot that the indexing never yields. -/
theorem not_holds_of_outside (hInside : q.Inside) {slot : Nat} (hSlot : q.capacity.toNat ≤ slot)
    {pc : Local w T} (hPlaced : Placed q pc) : ¬ Holds slot pc := by
  intro hHolds
  have hAt := heldSlot_eq_of_holds hHolds
  cases pc with
  | pushSlot blocking position own pc | popSlot blocking position own pc =>
      have hLt := hInside _ _ hPlaced.1
      cases pc <;> cases hAt
      omega
  | _ => contradiction

theorem not_holds_of_quiescent (hQuiescent : Quiescent s) (slot thread : Nat) :
    ¬ Holds slot (s.threads thread) := by
  rcases hQuiescent thread with hPc | hPc <;> rw [hPc] <;> exact fun h => h.elim id id

/-- What was accepted has been handed over or waits, in one slot each. -/
theorem exists_conserved (hIndexed : q.Indexed)
    (run : Run (q.threadCode (AtomicQueue2.slotCode T maximizeThroughput false))
      (fun _ => WinsAlone) (initial w (Slot.new T)) trace s) :
    ∃ waiting : Nat → Option (Option T),
      Ring.Conserved q.capacity.toNat waiting ((accepted trace).map some) (popped trace) ∧
        (Quiescent s → waiting = content ∘ s.shared.slots) := by
  have hWaiting slot := (owned_of_run run slot).exists_waiting
  choose waiting hReads hContent using hWaiting
  have hReturned := returned_of_run run
  have hUntouched := (confined_of_indexed hIndexed
    (AtomicQueue2.slotCode_tidy T maximizeThroughput false)
    (run.weaken fun _ _ _ _ => trivial)).untouched
  refine ⟨waiting, ?_, fun hQuiescent => funext fun slot =>
    hContent slot (not_holds_of_quiescent hQuiescent slot)⟩
  rw [hReturned.accepted, hReturned.popped]
  refine conserved_of_slots (fun slot hSlot => ?_) hReads
  rw [hContent slot fun thread =>
    not_holds_of_outside hIndexed.inside hSlot (placed_of_run run thread), hUntouched slot hSlot]
  rfl

/-- Nothing is handed over twice or made up, no more than a capacity is on its
way, and between calls the rest is in the full slots. -/
structure HandedOver (q : Queue w) (trace : Trace (Event w T (Option T))) (s : Config w T) :
    Prop where
  popped_subperm : (popped trace).Subperm ((accepted trace).map some)
  length_le : (accepted trace).length ≤ (popped trace).length + q.capacity.toNat
  kept : Quiescent s → Kept q s.shared.slots (accepted trace) (popped trace)

/-- `drop` of either type drops what was accepted and not popped. -/
structure DropsRest (target : Target w) (totalOrder : Bool) (q : Queue w) (slots : Nat → Slot T)
    (accepted : List T) (popped : List (Option T)) : Prop where
  fixed : ∀ size minimizeContention,
    AtomicQueue2.new target size minimizeContention totalOrder = some q →
    ∃ dropped, AtomicQueue2.drop q.capacity (getIndexShuffleBits minimizeContention q.capacity
        (target.cacheLineSize / target.sizeOfPaddedState)) slots = some dropped ∧
      Released q.capacity.toNat slots accepted popped dropped
  runtime : ∀ size, AtomicQueueB2.new target size totalOrder = some q →
    ∃ dropped, AtomicQueueB2.drop target.build q.capacity (getIndexShuffleBits true q.capacity
        (target.cacheLineSize / target.sizeOfPaddedState)) slots = some dropped ∧
      Released q.capacity.toNat slots accepted popped dropped

/-- Both `drop`s walk all slots once and drop what the full ones hold. -/
theorem dropsRest_of_kept {target : Target w} {totalOrder : Bool} (hIndexed : q.Indexed)
    {slots : Nat → Slot T} {accepted : List T} {popped : List (Option T)}
    (hKept : Kept q slots accepted popped) :
    DropsRest target totalOrder q slots accepted popped where
  fixed _ _ hNew :=
    ⟨_, AtomicQueue2.drop_eq hNew slots, released_of_walk hIndexed.walk_perm hKept⟩
  runtime _ hNew :=
    ⟨_, AtomicQueueB2.drop_eq hNew slots, released_of_walk hIndexed.walk_perm hKept⟩

end Mpmc

/-- Any calls, with or without total order, as long as nobody wins a flag whose
last winner is not done with the element. Elements may come out in another
order, but none is lost, doubled or made up, and `drop` releases the rest. -/
theorem handedOver_of_winsAlone {target : Target w} {totalOrder : Bool} {q : Queue w}
    (hq : IsAtomicQueue2 target totalOrder q) (hPos : 0 < q.capacity.toNat)
    (maximizeThroughput : Bool) {trace : Trace (Event w T (Option T))} {s : AtomicQueue2.Config w T}
    (run : Run (q.threadCode (AtomicQueue2.slotCode T maximizeThroughput false))
      (fun _ => Mpmc.WinsAlone) (initial w (Slot.new T)) trace s) :
    Mpmc.HandedOver q trace s ∧ (Quiescent s →
      Mpmc.DropsRest target totalOrder q s.shared.slots (accepted trace) (popped trace)) := by
  have hIndexed := hq.indexed hPos
  obtain ⟨waiting, hConserved, hContent⟩ := Mpmc.exists_conserved hIndexed run
  have hKept (hQuiescent : Quiescent s) :
      AtomicQueue2.Kept q s.shared.slots (accepted trace) (popped trace) := by
    rw [AtomicQueue2.Kept, ← hContent hQuiescent]
    exact hConserved
  refine ⟨⟨hConserved.subperm, ?_, hKept⟩, fun hQuiescent =>
    Mpmc.dropsRest_of_kept hIndexed (hKept hQuiescent)⟩
  simpa using hConserved.length_le

/-- A decidable form of `WinsAlone` for the threads below a bound. -/
def Mpmc.winsAloneBelow (bound : Nat) (s : AtomicQueue2.Config w T) : Action (Call T) → Bool
  | .call _ _ => true
  | .step thread => match Mpmc.winsFlag s.shared (s.threads thread) with
    | none => true
    | some slot => (List.range bound).all fun other => Mpmc.heldSlot (s.threads other) != some slot

/-- The test looks at the threads below a bound, and the others are idle. -/
theorem Mpmc.winsAlone_of_below {bound : Nat} {s : AtomicQueue2.Config w T}
    {action : Action (Call T)} (hRest : ∀ thread, bound ≤ thread → s.threads thread = .idle)
    (hTest : Mpmc.winsAloneBelow bound s action = true) : Mpmc.WinsAlone s action := by
  cases action with
  | call => exact trivial
  | step thread =>
      intro slot hWins other hHolds
      simp only [winsAloneBelow, hWins, List.all_eq_true, List.mem_range, bne_iff_ne] at hTest
      have hHeld := Mpmc.heldSlot_eq_of_holds hHolds
      rcases Nat.lt_or_ge other bound with hLt | hGe
      · exact hTest other hLt hHeld
      · rw [hRest other hGe] at hHeld
        cases hHeld

/-- Both producers have claimed position 0, and one of them waits until the
consumer has emptied its slot. -/
def sharedPosition : Option (Trace (Event 64 Nat (Option Nat)) × AtomicQueue2.Config 64 Nat) :=
  exec ((AtomicQueue2.twoSlots false).threadCode (AtomicQueue2.slotCode Nat true false))
    (fun _ s action => Mpmc.winsAloneBelow 3 s action)
    [.call 0 (.tryPush 7), .step 0, .call 1 (.tryPush 8), .step 1, .step 0, .step 1, .step 0,
      .step 1, .step 0, .step 0, .call 2 .tryPop, .step 2, .step 2, .step 2, .step 2, .step 2,
      .step 1, .step 1] [] (initial 64 (Slot.new Nat))

theorem sharedPosition_isSome : sharedPosition.isSome := by decide +kernel

/-- The second element waits at a position that `tail` has passed; `drop` finds
it. -/
theorem handedOver_twoSlots : ∃ trace : Trace (Event 64 Nat (Option Nat)),
    ∃ s : AtomicQueue2.Config 64 Nat, s.shared.tail = 1#64 ∧
      (fills trace).map Prod.snd = [0#64, 0#64] ∧ accepted trace = [7, 8] ∧
      popped trace = [some 7] ∧ Mpmc.HandedOver (AtomicQueue2.twoSlots false) trace s ∧
      Mpmc.DropsRest Target.x86_64 false (AtomicQueue2.twoSlots false) s.shared.slots
        (accepted trace) (popped trace) := by
  have hHanded := handedOver_of_winsAlone (.fixed _ _ (AtomicQueue2.new_twoSlots false)) (by decide)
    true (Run.ofExec 3 _ (fun _ _ _ hRest => Mpmc.winsAlone_of_below hRest) _ (by decide)
      sharedPosition_isSome)
  refine ⟨(sharedPosition.get sharedPosition_isSome).1, (sharedPosition.get sharedPosition_isSome).2,
    ?_, ?_, ?_, ?_, hHanded.1, hHanded.2 (quiescent_of_exec
      (Option.some_get sharedPosition_isSome).symm 3 (by decide) (by decide +kernel))⟩
  · decide +kernel
  · decide +kernel
  · decide +kernel
  · decide +kernel

end AtomicQueueRs
