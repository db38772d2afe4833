import AtomicQueueRs.Contents
import AtomicQueueRs.Indexing

/-! The accounts of a run on an `AtomicQueue`. Every claim is paid for at its
slot, every value read is handed over, and what producers are told is in the
queue was stored, or else a call in progress owes it. -/
namespace AtomicQueueRs

set_option autoImplicit false

open Interleaving (Trace Run Action Balanced due due_none count_singleton_eq)

variable {w : Nat} {T V : Type}

/-- What each thread offers in its latest call, and the elements of the calls
that have returned with success. -/
structure Offers (T : Type) where
  pending : Nat → Option T
  accepted : List T

def Offers.record (offers : Offers T) : Nat × Event w T V → Offers T
  | (thread, .call operation) =>
      { offers with pending := Function.update offers.pending thread operation.element }
  | (thread, .returned (.tryPush true)) | (thread, .returned .push) =>
      { offers with accepted := offers.accepted ++ (offers.pending thread).toList }
  | _ => offers

def offers (trace : Trace (Event w T V)) : Offers T :=
  trace.foldl Offers.record { pending := fun _ => none, accepted := [] }

/-- The elements that producers know to be in the queue, in order. -/
def accepted (trace : Trace (Event w T V)) : List T := (offers trace).accepted

theorem offers_call (trace : Trace (Event w T V)) (thread : Nat) (operation : Call T) :
    offers (trace ++ [Event.call operation].map (Prod.mk thread)) =
      { offers trace with
        pending := Function.update (offers trace).pending thread operation.element } := by
  rw [offers, List.foldl_append, ← offers]
  rfl

theorem offers_append (trace : Trace (Event w T V)) (thread : Nat) (es : List (Event w T V)) :
    offers (trace ++ es.map (Prod.mk thread)) =
      (es.map (Prod.mk thread)).foldl Offers.record (offers trace) := by
  rw [offers, List.foldl_append, ← offers]

namespace Event

def popped : Event w T V → Option V
  | .returned (.tryPop popped) => popped
  | .returned (.pop value) => some value
  | _ => none

/-- The slot written and what is written there. -/
def stored : Event w T V → Option (Nat × T)
  | .access _ slot (.write value) => some (slot, value)
  | _ => none

/-- The slot read and what is read there. -/
def loaded : Event w T V → Option (Nat × V)
  | .access _ slot (.read value) => some (slot, value)
  | _ => none

def emptied : Event w T V → Option Nat
  | .access _ slot .drain => some slot
  | _ => none

/-- The slot that a claimed position falls on. -/
def slotOf (q : Queue w) (claim : Event w T V → Option (Usize w)) (e : Event w T V) : Option Nat :=
  (claim e).bind q.getSlot

/-- The slot that is stored to. -/
def storedTo (e : Event w T V) : Option Nat := e.stored.map Prod.fst

/-- The value that is read. -/
def loadedValue (e : Event w T V) : Option V := e.loaded.map Prod.snd

end Event

/-- The values handed to consumers, in order. -/
def popped (trace : Trace (Event w T V)) : List V := trace.select fun _ => Event.popped

def stores (trace : Trace (Event w T V)) : List (Nat × T) := trace.select fun _ => Event.stored

def loads (trace : Trace (Event w T V)) : List (Nat × V) := trace.select fun _ => Event.loaded

theorem stores_append (trace : Trace (Event w T V)) (thread : Nat) (es : List (Event w T V)) :
    stores (trace ++ es.map (Prod.mk thread)) = stores trace ++ es.filterMap Event.stored := by
  simp [stores]

/-- A step that only loads reports no success and hands over nothing. -/
theorem Queue.Quiet.offers {C U O : Type} {q : Queue w} {σ : Memory w C} {pc pc' : Pc w T U O}
    {es : List (Event w T V)} (h : q.Quiet σ pc pc' es) (thread : Nat) (before : Offers T) :
    (es.map (Prod.mk thread)).foldl Offers.record before = before := by
  cases h with
  | observeReturn observer head result hResult =>
      have hObservation := Observer.isObservation_of_result hResult
      cases result <;> first | rfl | exact hObservation.elim
  | _ => rfl

theorem Queue.Quiet.popped {C U O : Type} {q : Queue w} {σ : Memory w C} {pc pc' : Pc w T U O}
    {es : List (Event w T V)} (h : q.Quiet σ pc pc' es) : es.filterMap Event.popped = [] := by
  cases h with
  | observeReturn observer head result hResult =>
      have hObservation := Observer.isObservation_of_result hResult
      cases result <;> first | rfl | exact hObservation.elim
  | _ => rfl

section Count

variable (trace : Trace (Event w T V)) (slot : Nat)

theorem count_stores [DecidableEq T] (value : T) :
    (stores trace).count (slot, value) = (writesAt slot trace).count value := by
  simp only [stores, writesAt, Trace.select, List.count_filterMap]
  congr 1
  funext event
  obtain ⟨_, e⟩ := event
  rcases e with _ | _ | _ | _ | _ | _ | ⟨_, own, a⟩ | _ | _ <;> try rfl
  by_cases hOwn : own = slot <;> cases a <;> simp [Event.stored, hOwn]

theorem count_loads [DecidableEq V] (value : V) :
    (loads trace).count (slot, value) = (readsAt slot trace).count value := by
  simp only [loads, readsAt, Trace.select, List.count_filterMap]
  congr 1
  funext event
  obtain ⟨_, e⟩ := event
  rcases e with _ | _ | _ | _ | _ | _ | ⟨_, own, a⟩ | _ | _ <;> try rfl
  by_cases hOwn : own = slot <;> cases a <;> simp [Event.loaded, hOwn]

theorem count_storedTo :
    (trace.select fun _ => Event.storedTo).count slot = (writesAt slot trace).length := by
  rw [Trace.select, List.count_filterMap, writesAt, Trace.select, List.length_filterMap_eq_countP]
  congr 1
  funext event
  obtain ⟨_, e⟩ := event
  rcases e with _ | _ | _ | _ | _ | _ | ⟨_, own, a⟩ | _ | _ <;> try rfl
  by_cases hOwn : own = slot <;> cases a <;> simp [Event.storedTo, Event.stored, hOwn]

theorem count_emptied :
    (trace.select fun _ => Event.emptied).count slot = (drainsAt slot trace).length := by
  rw [Trace.select, List.count_filterMap, drainsAt, Trace.select, List.length_filterMap_eq_countP]
  congr 1
  funext event
  obtain ⟨_, e⟩ := event
  rcases e with _ | _ | _ | _ | _ | _ | ⟨_, own, a⟩ | _ | _ <;> try rfl
  by_cases hOwn : own = slot <;> cases a <;> simp [Event.emptied, Event.drainAt, hOwn]

theorem count_slotOf (q : Queue w) (claim : Event w T V → Option (Usize w)) :
    (trace.select fun _ => Event.slotOf q claim).count slot =
      ((trace.tagged claim).map Prod.snd).countP (q.atSlot slot) := by
  rw [Trace.map_tagged, Trace.select, Trace.select, List.count_filterMap, List.countP_filterMap]
  congr 1
  funext event
  obtain ⟨_, e⟩ := event
  rw [Event.slotOf]
  cases claim e with
  | none => rfl
  | some position => simp [Queue.atSlot, beq_eq_decide]

end Count

variable [Element T]

namespace Cells

open AtomicQueue (Local Config)

/-- The slot of the position a consumer has claimed and not emptied yet. -/
def emptying : Local w T → Option Nat
  | .popSlot _ _ slot _ => some slot
  | _ => none

/-- The value a consumer has read and not handed over yet. -/
def carried : Local w T → Option T
  | .popSlot _ _ _ (.clear current) => some current
  | _ => none

variable {q : Queue w} {bigEndian : Bool}

omit [Element T] in
theorem quiet_owes_nothing {σ : Memory w (Usize w)} {pc pc' : Local w T}
    {es : List (Event w T T)} (h : q.Quiet σ pc pc' es) :
    storesTo pc = none ∧ storesTo pc' = none ∧ emptying pc = none ∧ emptying pc' = none ∧
      carried pc = none ∧ carried pc' = none := by
  cases h <;> exact ⟨rfl, rfl, rfl, rfl, rfl, rfl⟩

omit [Element T] in
theorem quiet_settles_nothing {σ : Memory w (Usize w)} {pc pc' : Local w T}
    {es : List (Event w T T)} (h : q.Quiet σ pc pc' es) :
    es.filterMap (Event.slotOf q Event.headClaim) = [] ∧
      es.filterMap (Event.slotOf q Event.tailClaim) = [] ∧ es.filterMap Event.stored = [] ∧
      es.filterMap Event.storedTo = [] ∧ es.filterMap Event.emptied = [] ∧
      es.filterMap Event.loadedValue = [] ∧ es.filterMap Event.popped = [] := by
  cases h with
  | observeReturn observer head result hResult =>
      have hObservation := Observer.isObservation_of_result hResult
      cases result <;>
        first | exact ⟨rfl, rfl, rfl, rfl, rfl, rfl, rfl⟩ | exact hObservation.elim
  | _ => exact ⟨rfl, rfl, rfl, rfl, rfl, rfl, rfl⟩

omit [Element T] in
theorem claimsHead_owes_nothing {σ : Memory w (Usize w)} {pc : Local w T} {blocking : Bool}
    {position : Usize w} {element : T} (h : q.ClaimsHead σ pc blocking position element) :
    storesTo pc = none ∧ emptying pc = none ∧ carried pc = none := by
  cases h <;> exact ⟨rfl, rfl, rfl⟩

omit [Element T] in
theorem claimsTail_owes_nothing {σ : Memory w (Usize w)} {pc : Local w T} {blocking : Bool}
    {position : Usize w} (h : q.ClaimsTail σ pc blocking position) :
    storesTo pc = none ∧ emptying pc = none ∧ carried pc = none := by
  cases h <;> exact ⟨rfl, rfl, rfl⟩

/-- A step pays for a claim with a store, or owes it. -/
theorem Step.storedTo (hBits : Element.bits T = w) {pc pc' : Local w T} {σ σ' : Memory w (Usize w)}
    {es : List (Event w T T)} (h : Step q bigEndian pc σ pc' σ' es) (slot : Nat) :
    (es.filterMap (Event.slotOf q Event.headClaim)).count slot + due (storesTo pc) slot =
      (es.filterMap Event.storedTo).count slot + due (storesTo pc') slot := by
  cases h with
  | quiet h =>
      obtain ⟨hBefore, hAfter, _⟩ := quiet_owes_nothing h
      obtain ⟨hClaims, _, _, hStores, _⟩ := quiet_settles_nothing h
      rw [hBefore, hAfter, hClaims, hStores]
  | claimHead h hSlot =>
      rw [(claimsHead_owes_nothing h).1]
      simp only [List.filterMap_cons, Event.slotOf, Event.headClaim, Option.bind_some, hSlot]
      exact (Nat.add_comm _ _).trans (congrArg _ (count_singleton_eq _ _))
  | claimTail h | popPanic h =>
      rw [(claimsTail_owes_nothing h).1]
      rfl
  | pushPanic h hSlot =>
      rw [(claimsHead_owes_nothing h).1]
      simp only [List.filterMap_cons, Event.slotOf, Event.headClaim, Option.bind_some, hSlot]
      rfl
  | convertPanic h => exact (not_unconvertible hBits h).elim
  | store => exact (Nat.add_comm _ _).trans (congrArg (· + 0) (count_singleton_eq _ _).symm)
  | wait | take | clear => rfl

/-- A step pays for a claim by emptying the slot, or owes it. -/
theorem Step.emptied (hBits : Element.bits T = w) {pc pc' : Local w T} {σ σ' : Memory w (Usize w)}
    {es : List (Event w T T)} (h : Step q bigEndian pc σ pc' σ' es) (slot : Nat) :
    (es.filterMap (Event.slotOf q Event.tailClaim)).count slot + due (emptying pc) slot =
      (es.filterMap Event.emptied).count slot + due (emptying pc') slot := by
  cases h with
  | quiet h =>
      obtain ⟨_, _, hBefore, hAfter, _⟩ := quiet_owes_nothing h
      obtain ⟨_, hClaims, _, _, hEmptied, _⟩ := quiet_settles_nothing h
      rw [hBefore, hAfter, hClaims, hEmptied]
  | claimHead h | pushPanic h =>
      rw [(claimsHead_owes_nothing h).2.1]
      rfl
  | claimTail h hSlot =>
      rw [(claimsTail_owes_nothing h).2.1]
      simp only [List.filterMap_cons, Event.slotOf, Event.tailClaim, Option.bind_some, hSlot]
      exact (Nat.add_comm _ _).trans (congrArg _ (count_singleton_eq _ _))
  | popPanic h hSlot =>
      rw [(claimsTail_owes_nothing h).2.1]
      simp only [List.filterMap_cons, Event.slotOf, Event.tailClaim, Option.bind_some, hSlot]
      rfl
  | convertPanic h => exact (not_unconvertible hBits h).elim
  | clear => exact (Nat.add_comm _ _).trans (congrArg (· + 0) (count_singleton_eq _ _).symm)
  | store | wait | take => rfl

/-- A step hands over what is read, or carries it. -/
theorem Step.popped (hBits : Element.bits T = w) {pc pc' : Local w T} {σ σ' : Memory w (Usize w)}
    {es : List (Event w T T)} (h : Step q bigEndian pc σ pc' σ' es) (value : T) :
    (es.filterMap Event.loadedValue).count value + due (carried pc) value =
      (es.filterMap Event.popped).count value + due (carried pc') value := by
  cases h with
  | quiet h =>
      obtain ⟨_, _, _, _, hBefore, hAfter⟩ := quiet_owes_nothing h
      obtain ⟨_, _, _, _, _, hLoaded, hPopped⟩ := quiet_settles_nothing h
      rw [hBefore, hAfter, hLoaded, hPopped]
  | claimHead h | pushPanic h =>
      rw [(claimsHead_owes_nothing h).2.2]
      rfl
  | claimTail h | popPanic h =>
      rw [(claimsTail_owes_nothing h).2.2]
      rfl
  | convertPanic h => exact (not_unconvertible hBits h).elim
  | @store blocking => cases blocking <;> rfl
  | take => exact (congrArg (· + 0) (count_singleton_eq _ _)).trans (Nat.add_comm _ _)
  | @clear blocking =>
      cases blocking <;>
        exact (Nat.add_comm _ _).trans (congrArg (· + 0) (count_singleton_eq _ _).symm)
  | wait => rfl

/-- A call succeeds with the element it was made with, in the step that
stores it. -/
theorem Step.offers {pc pc' : Local w T} {σ σ' : Memory w (Usize w)} {es : List (Event w T T)}
    (h : Step q bigEndian pc σ pc' σ' es) (thread : Nat) {before : Offers T}
    (hPending : ∀ element, Cells.offered pc = some element →
      before.pending thread = some element) :
    (es.map (Prod.mk thread)).foldl Offers.record before =
      { before with accepted := before.accepted ++ (es.filterMap Event.stored).map Prod.snd } := by
  cases h with
  | quiet h =>
      rw [h.offers, (quiet_settles_nothing h).2.2.1, List.map_nil, List.append_nil]
  | claimHead | claimTail | pushPanic | popPanic | convertPanic | wait | take =>
      simp [List.filterMap_cons, Event.stored, Offers.record]
  | @store blocking position slot element =>
      cases blocking <;> simp [List.filterMap_cons, Event.stored, Offers.record, hPending element rfl]
  | @clear blocking => cases blocking <;> simp [List.filterMap_cons, Event.stored, Offers.record]

/-- Claims, stores, drains and pops of a run are settled, or owed. -/
structure Settled (q : Queue w) (trace : Trace (Event w T T)) (s : Config w T) : Prop where
  storesTo : Balanced (Event.slotOf q Event.headClaim) Event.storedTo storesTo trace s.threads
  emptied : Balanced (Event.slotOf q Event.tailClaim) Event.emptied emptying trace s.threads
  popped : Balanced Event.loadedValue Event.popped carried trace s.threads
  pending : ∀ thread element, Cells.offered (s.threads thread) = some element →
    (offers trace).pending thread = some element
  accepted : AtomicQueueRs.accepted trace = (stores trace).map Prod.snd

variable {allowed : Trace (Event w T T) → Config w T → Action (Call T) → Prop}

omit [Element T] in
theorem owes_nothing_start (operation : Call T) :
    storesTo (Queue.start operation : Local w T) = none ∧
      emptying (Queue.start operation : Local w T) = none ∧
      carried (Queue.start operation : Local w T) = none := by
  cases operation <;> exact ⟨rfl, rfl, rfl⟩

omit [Element T] in
theorem offered_start (operation : Call T) :
    Cells.offered (Queue.start operation : Local w T) = operation.element := by
  cases operation <;> rfl

theorem settled_of_run (hBits : Element.bits T = w) {trace : Trace (Event w T T)} {s : Config w T}
    (run : Run (q.threadCode (AtomicQueue.slotCode w T bigEndian)) allowed
      (initial w (AtomicValue.new w)) trace s) : Settled q trace s := by
  refine run.invariant (Settled q) ?_ ?_ ?_
  · exact ⟨.nil fun _ => rfl, .nil fun _ => rfl, .nil fun _ => rfl, fun _ _ h => (nomatch h), rfl⟩
  · intro trace s actor operation pc es _ ih _ hCall
    obtain ⟨hIdle, rfl, rfl⟩ := Queue.call_cases hCall
    obtain ⟨hStores, hEmptying, hCarried⟩ := owes_nothing_start (w := w) operation
    have hOffers := offers_call trace actor operation
    refine ⟨ih.storesTo.append fun slot => ?_, ih.emptied.append fun slot => ?_,
      ih.popped.append fun value => ?_, ?_, ?_⟩
    · rw [hIdle, hStores]
      rfl
    · rw [hIdle, hEmptying]
      rfl
    · rw [hIdle, hCarried]
      rfl
    · intro thread element hOffered
      rw [hOffers]
      by_cases hThread : thread = actor
      · simp only [hThread, Function.update_self, offered_start] at hOffered ⊢
        exact hOffered
      · simp only [Function.update_of_ne hThread] at hOffered ⊢
        exact ih.pending thread element hOffered
    · rw [AtomicQueueRs.accepted, hOffers, stores_append]
      exact ih.accepted.trans (congrArg _ (List.append_nil _).symm)
  · intro trace s actor pc shared es _ ih _ hStep
    have hCases := step_cases (Queue.step_cases hStep)
    have hOffers := hCases.offers actor (ih.pending actor)
    rw [← offers_append] at hOffers
    refine ⟨ih.storesTo.append (hCases.storedTo hBits), ih.emptied.append (hCases.emptied hBits),
      ih.popped.append (hCases.popped hBits), ?_, ?_⟩
    · intro thread element hOffered
      rw [hOffers]
      by_cases hThread : thread = actor
      · simp only [hThread, Function.update_self] at hOffered ⊢
        exact ih.pending actor element (hCases.offered hOffered)
      · simp only [Function.update_of_ne hThread] at hOffered
        exact ih.pending thread element hOffered
    · rw [AtomicQueueRs.accepted, hOffers, stores_append, List.map_append, ← ih.accepted]
      rfl

end Cells

end AtomicQueueRs
