import AtomicQueueRs.Accesses
import AtomicQueueRs.Cells
import AtomicQueueRs.SingleThread
import AtomicQueueRs.Transparency

/-! Where elements come from. Slot code that only moves elements about hands
back none that no call has offered, whatever else it gets wrong; all it may
hand back besides is storage that was never written. -/
namespace AtomicQueueRs

set_option autoImplicit false

open Interleaving (Trace Run Action exec anyAction)

variable {w : Nat} {T V C U O : Type}

/-- Some call so far has offered the element. -/
def Offered (trace : Trace (Event w T V)) (element : T) : Prop :=
  ∃ operation ∈ called trace, operation.element = some element

theorem Offered.append {trace : Trace (Event w T V)} {element : T} (h : Offered trace element)
    (thread : Nat) (es : List (Event w T V)) : Offered (trace ++ es.map (Prod.mk thread)) element := by
  obtain ⟨operation, hMem, hElement⟩ := h
  refine ⟨operation, ?_, hElement⟩
  rw [called_append]
  exact List.mem_append_left _ hMem

/-- Slot code makes up no element: what a step leaves in the slot or hands back
was in the slot or with the call. The predicates say which element that is. -/
structure SlotCode.Moves (code : SlotCode T V C U O) (stored : C → Option T)
    (offering : U → Option T) (taking : O → Option T) (handed : V → Option T) : Prop where
  doPush : ∀ element v, offering (code.doPush element) = some v → v = element
  doPop : taking code.doPop = none
  push_stored : ∀ pc content v, stored (code.pushStep pc content).1 = some v →
    stored content = some v ∨ offering pc = some v
  push_goto : ∀ pc content pc' v, (code.pushStep pc content).2.2 = .goto pc' →
    offering pc' = some v → offering pc = some v
  pop_stored : ∀ pc content v, stored (code.popStep pc content).1 = some v → stored content = some v
  pop_goto : ∀ pc content pc' v, (code.popStep pc content).2.2 = .goto pc' → taking pc' = some v →
    stored content = some v ∨ taking pc = some v
  pop_done : ∀ pc content value v, (code.popStep pc content).2.2 = .done value →
    handed value = some v → stored content = some v ∨ taking pc = some v

/-- The element that a call has with it. -/
def Pc.carries (offering : U → Option T) (taking : O → Option T) : Pc w T U O → Option T
  | .tryPushLoadHead element | .tryPushLoadTail element _ | .tryPushClaim element _
  | .pushClaim element => some element
  | .pushSlot _ _ _ pc => offering pc
  | .popSlot _ _ _ pc => taking pc
  | _ => none

section Moves

variable {q : Queue w} {code : SlotCode T V C U O} {stored : C → Option T}
  {offering : U → Option T} {taking : O → Option T} {handed : V → Option T}

/-- The element a step moves was in the slots or with the call. -/
def Sourced (stored : C → Option T) (offering : U → Option T) (taking : O → Option T)
    (σ : Memory w C) (pc : Pc w T U O) (v : T) : Prop :=
  pc.carries offering taking = some v ∨ ∃ slot, stored (σ.slots slot) = some v

/-- Away from the slots a call only carries its element along, and hands nothing
back. -/
theorem sourced_quiet (offering : U → Option T) (taking : O → Option T) {σ : Memory w C}
    {pc pc' : Pc w T U O} {es : List (Event w T V)} (h : q.Quiet σ pc pc' es) :
    (∀ v, pc'.carries offering taking = some v → pc.carries offering taking = some v) ∧
      poppedIn (es.filterMap Event.result) = [] := by
  cases h with
  | observeReturn observer head result hResult =>
      have hObservation := Observer.isObservation_of_result hResult
      refine ⟨nofun, ?_⟩
      cases result <;> first | rfl | exact hObservation.elim
  | tryPushLoadHead | tryPushProceed => exact ⟨fun _ h => h, rfl⟩
  | _ => exact ⟨nofun, rfl⟩

theorem Queue.ClaimsHead.carries {σ : Memory w C} {pc : Pc w T U O} {blocking : Bool}
    {position : Usize w} {element : T} (h : q.ClaimsHead σ pc blocking position element) :
    pc.carries offering taking = some element := by
  cases h <;> rfl

/-- Writing one slot, from what was about. -/
theorem sourced_update {σ : Memory w C} {pc : Pc w T U O} {slot : Nat} {content : C}
    (h : ∀ v, stored content = some v → Sourced stored offering taking σ pc v) (other : Nat) (v : T)
    (hStored : stored (Function.update σ.slots slot content other) = some v) :
    Sourced stored offering taking σ pc v := by
  by_cases hSlot : other = slot
  · rw [hSlot, Function.update_self] at hStored
    exact h v hStored
  · rw [Function.update_of_ne hSlot] at hStored
    exact Or.inr ⟨other, hStored⟩

/-- A producer that goes on at its slot has the element the slot code says, and
hands nothing back. -/
theorem sourced_afterPush (offering : U → Option T) (taking : O → Option T) (blocking : Bool)
    (position : Usize w) (slot : Nat) (outcome : Outcome U Unit) :
    (∀ v, (Queue.afterPush blocking position slot outcome : Pc w T U O × List (Event w T V)).1.carries
        offering taking = some v → ∃ pc, outcome = .goto pc ∧ offering pc = some v) ∧
      poppedIn ((Queue.afterPush blocking position slot outcome :
        Pc w T U O × List (Event w T V)).2.filterMap Event.result) = [] := by
  cases outcome with
  | goto pc => exact ⟨fun _ hv => ⟨pc, rfl, hv⟩, rfl⟩
  | done => exact ⟨nofun, by cases blocking <;> rfl⟩
  | panic => exact ⟨nofun, rfl⟩

/-- What a consumer hands back, or goes on with, is what the slot code says. -/
theorem sourced_afterPop (offering : U → Option T) (taking : O → Option T) (blocking : Bool)
    (position : Usize w) (slot : Nat) (outcome : Outcome O V) :
    (∀ v, (Queue.afterPop blocking position slot outcome : Pc w T U O × List (Event w T V)).1.carries
        offering taking = some v → ∃ pc, outcome = .goto pc ∧ taking pc = some v) ∧
      ∀ value ∈ poppedIn ((Queue.afterPop blocking position slot outcome :
        Pc w T U O × List (Event w T V)).2.filterMap Event.result), outcome = .done value := by
  cases outcome with
  | goto pc => exact ⟨fun _ hv => ⟨pc, rfl, hv⟩, nofun⟩
  | done result =>
      refine ⟨nofun, fun value hMem => ?_⟩
      obtain rfl : value = result := by cases blocking <;> exact List.mem_singleton.mp hMem
      rfl
  | panic => exact ⟨nofun, nofun⟩

variable (hMoves : code.Moves stored offering taking handed)

include hMoves

theorem sourced_enterPush (blocking : Bool) (position : Usize w) (element : T) :
    (∀ v, (q.enterPush code blocking position element).1.carries offering taking = some v →
        v = element) ∧
      poppedIn ((q.enterPush code blocking position element).2.filterMap Event.result) = [] := by
  unfold Queue.enterPush
  split
  · exact ⟨fun v hv => hMoves.doPush _ v hv, rfl⟩
  · exact ⟨nofun, rfl⟩

theorem sourced_enterPop (blocking : Bool) (position : Usize w) :
    (q.enterPop code blocking position).1.carries offering taking = none ∧
      poppedIn ((q.enterPop code blocking position).2.filterMap Event.result) = [] := by
  unfold Queue.enterPop
  split
  · exact ⟨hMoves.doPop, rfl⟩
  · exact ⟨rfl, rfl⟩

/-- One step, for any slot code that makes up no element: what is carried on,
what is left in a slot and what is handed back was about before the step. -/
theorem Step.sourced {σ σ' : Memory w C} {pc pc' : Pc w T U O} {es : List (Event w T V)}
    (h : q.Step code pc σ pc' σ' es) :
    (∀ v, pc'.carries offering taking = some v → Sourced stored offering taking σ pc v) ∧
      (∀ slot v, stored (σ'.slots slot) = some v → Sourced stored offering taking σ pc v) ∧
      ∀ value ∈ poppedIn (es.filterMap Event.result), ∀ v, handed value = some v →
        Sourced stored offering taking σ pc v := by
  cases h with
  | quiet h =>
      obtain ⟨hCarries, hHands⟩ := sourced_quiet offering taking h
      rw [hHands]
      exact ⟨fun v hv => Or.inl (hCarries v hv), fun slot v hv => Or.inr ⟨slot, hv⟩, nofun⟩
  | @claimHead _ _ blocking position element h =>
      obtain ⟨hCarries, hHands⟩ := sourced_enterPush hMoves (q := q) blocking position element
      rw [hHands]
      refine ⟨fun v hv => ?_, fun slot v hv => Or.inr ⟨slot, hv⟩, nofun⟩
      rw [hCarries v hv]
      exact Or.inl h.carries
  | @claimTail _ _ blocking position h =>
      obtain ⟨hCarries, hHands⟩ := sourced_enterPop hMoves (q := q) blocking position
      rw [hCarries, hHands]
      exact ⟨nofun, fun slot v hv => Or.inr ⟨slot, hv⟩, nofun⟩
  | pushSlot blocking position slot pc =>
      obtain ⟨hCarries, hHands⟩ := sourced_afterPush (V := V) offering taking blocking
        position slot (code.pushStep pc (σ.slots slot)).2.2
      rw [(Queue.reports_accesses _ _ _ _).2, hHands]
      refine ⟨fun v hv => ?_, sourced_update fun v hv => ?_, nofun⟩
      · obtain ⟨next, hOut, hOffering⟩ := hCarries v hv
        exact Or.inl (hMoves.push_goto _ _ _ _ hOut hOffering)
      · exact (hMoves.push_stored _ _ _ hv).elim (fun hv => Or.inr ⟨slot, hv⟩) Or.inl
  | popSlot blocking position slot pc =>
      obtain ⟨hCarries, hHands⟩ := sourced_afterPop offering taking blocking position
        slot (code.popStep pc (σ.slots slot)).2.2
      rw [(Queue.reports_accesses _ _ _ _).2]
      refine ⟨fun v hv => ?_, sourced_update fun v hv => ?_, fun value hMem v hv => ?_⟩
      · obtain ⟨next, hOut, hTaking⟩ := hCarries v hv
        exact (hMoves.pop_goto _ _ _ _ hOut hTaking).elim (fun hv => Or.inr ⟨slot, hv⟩) Or.inl
      · exact Or.inr ⟨slot, hMoves.pop_stored _ _ _ hv⟩
      · exact (hMoves.pop_done _ _ _ _ (hHands value hMem) hv).elim (fun hv => Or.inr ⟨slot, hv⟩)
          Or.inl

/-- All elements about, or handed back so far, were offered to the queue. -/
structure Supplied (stored : C → Option T) (offering : U → Option T) (taking : O → Option T)
    (handed : V → Option T) (trace : Trace (Event w T V)) (s : State w T C U O) : Prop where
  carried : ∀ thread v, (s.threads thread).carries offering taking = some v → Offered trace v
  stored : ∀ slot v, stored (s.shared.slots slot) = some v → Offered trace v
  handed : ∀ value ∈ poppedIn (returned trace), ∀ v, handed value = some v → Offered trace v

/-- By induction on the run. `hEmpty` says that a new slot has no element; a
slot that starts with one would hand out what nobody offered. -/
theorem supplied_of_run {empty : C} (hEmpty : stored empty = none)
    {trace : Trace (Event w T V)} {s : State w T C U O}
    (run : Run (q.threadCode code) anyAction (initial w empty) trace s) :
    Supplied stored offering taking handed trace s := by
  refine run.invariant (Supplied stored offering taking handed) ?_ ?_ ?_
  · exact ⟨nofun, fun _ v hv => by simp [initial, Memory.new, hEmpty] at hv, nofun⟩
  · intro trace s thread operation pc es _ ih _ hCall
    obtain ⟨_, rfl, rfl⟩ := Queue.call_cases hCall
    refine ⟨?_, fun slot v hv => (ih.stored slot v hv).append _ _, fun value hMem v hv => ?_⟩
    · rw [Function.forall_update_iff s.threads fun _ pc => ∀ v, pc.carries offering taking = some v →
        Offered _ v]
      refine ⟨fun v hv => ⟨operation, ?_, ?_⟩, fun other _ v hv => (ih.carried other v hv).append _ _⟩
      · rw [called_append]
        exact List.mem_append_right _ List.mem_cons_self
      · cases operation <;> exact hv
    · rw [returned_append, poppedIn_append, List.mem_append] at hMem
      exact (ih.handed value (hMem.resolve_right nofun) v hv).append _ _
  · intro trace s thread pc shared es _ ih _ hStep
    obtain ⟨hCarried, hStored, hHanded⟩ := Step.sourced hMoves (Queue.step_cases hStep)
    have hOffered : ∀ v, Sourced stored offering taking s.shared (s.threads thread) v →
        Offered (trace ++ es.map (Prod.mk thread)) v := by
      rintro v (hv | ⟨slot, hv⟩)
      · exact (ih.carried thread v hv).append _ _
      · exact (ih.stored slot v hv).append _ _
    refine ⟨?_, fun slot v hv => hOffered v (hStored slot v hv), fun value hMem v hv => ?_⟩
    · rw [Function.forall_update_iff s.threads fun _ pc => ∀ v, pc.carries offering taking = some v →
        Offered _ v]
      exact ⟨fun v hv => hOffered v (hCarried v hv), fun other _ v hv =>
        (ih.carried other v hv).append _ _⟩
    · rw [returned_append, poppedIn_append, List.mem_append] at hMem
      rcases hMem with hMem | hMem
      · exact (ih.handed value hMem v hv).append _ _
      · exact hOffered v (hHanded value hMem v hv)

end Moves

namespace AtomicQueue2

/-- The element a producer at its slot has yet to write. -/
def offering : DoPushAny T → Option T
  | .loadState value | .writeElement value | .compareExchange value | .write value => some value
  | .storeFull => none

/-- The element a consumer at its slot has read. -/
def taking : DoPopAny T → Option T
  | .storeEmpty value => value
  | _ => none

/-- The SPSC branch carries a value from reading the storage to returning it,
the MPMC branch returns it in the step that reads it. -/
theorem slotCode_moves (maximizeThroughput spsc : Bool) :
    (slotCode T maximizeThroughput spsc).Moves Slot.element offering taking id where
  doPush element v h := by cases spsc <;> exact (Option.some.inj h).symm
  doPop := by cases spsc <;> rfl
  push_stored pc content v h := by
    cases pc with
    | writeElement value | write value => exact Or.inr h
    | loadState | storeFull => exact Or.inl h
    | compareExchange value =>
        simp only [slotCode, pushStep] at h
        split_ifs at h <;> exact Or.inl h
  push_goto pc content pc' v hOut h := by
    cases pc with
    | loadState value | compareExchange value =>
        simp only [slotCode, pushStep] at hOut
        split_ifs at hOut <;> obtain rfl := Outcome.goto.inj hOut <;> exact h
    | writeElement value =>
        obtain rfl := Outcome.goto.inj hOut
        contradiction
    | storeFull | write => contradiction
  pop_stored pc content v h := by
    cases pc with
    | compareExchange =>
        simp only [slotCode, popStep] at h
        split_ifs at h <;> exact h
    | _ => exact h
  pop_goto pc content pc' v hOut h := by
    left
    cases pc with
    | readElement =>
        obtain rfl := Outcome.goto.inj hOut
        exact h
    | storeEmpty | read => contradiction
    | loadState | compareExchange | spin =>
        simp only [slotCode, popStep] at hOut
        split_ifs at hOut <;> obtain rfl := Outcome.goto.inj hOut <;> contradiction
  pop_done pc content value v hOut h := by
    cases pc with
    | storeEmpty value =>
        obtain rfl := Outcome.done.inj hOut
        exact Or.inr h
    | read =>
        obtain rfl := Outcome.done.inj hOut
        exact Or.inl h
    | loadState | readElement => contradiction
    | compareExchange | spin =>
        simp only [slotCode, popStep] at hOut
        split_ifs at hOut

/-- A consumer has read the storage of a slot that nobody had written to. -/
def ReadUnwritten (trace : Trace (Event w T (Option T))) : Prop :=
  ∃ before thread position slot, before ++ [(thread, .access position slot (.read none))] <+: trace ∧
    writesAt slot before = []

/-- A read of unwritten storage is not undone by what comes after it. -/
theorem ReadUnwritten.append {trace : Trace (Event w T (Option T))} (h : ReadUnwritten trace)
    (more : Trace (Event w T (Option T))) : ReadUnwritten (trace ++ more) := by
  obtain ⟨before, thread, position, slot, hPrefix, hNone⟩ := h
  exact ⟨before, thread, position, slot, hPrefix.trans (List.prefix_append _ _), hNone⟩

/-- A consumer that has read such storage, and is about to return it. -/
def HoldsUnwritten : Local w T → Prop
  | .popSlot _ _ _ (.storeEmpty none) => True
  | _ => False

/-- A push leaves storage unwritten only by not writing it. -/
theorem pushStep_element_eq_none {pc : DoPushAny T} {slot : Slot T}
    (h : (pushStep pc slot).1.element = none) :
    slot.element = none ∧ ∀ change ∈ (pushStep pc slot).2.1, change.written = none := by
  cases pc with
  | loadState | storeFull => exact ⟨h, by simp [pushStep]⟩
  | writeElement | write => contradiction
  | compareExchange value =>
      cases hState : slot.state <;> simp only [pushStep, hState] at h ⊢ <;> exact ⟨h, by simp⟩

/-- A consumer leaves the storage as it is and writes nothing: an element stays
readable after its slot is drained. -/
theorem popStep_element (maximizeThroughput : Bool) (pc : DoPopAny T) (slot : Slot T) :
    (popStep maximizeThroughput pc slot).1.element = slot.element ∧
      ∀ change ∈ (popStep maximizeThroughput pc slot).2.1, change.written = none := by
  cases pc with
  | compareExchange => cases hState : slot.state <;> simp [popStep, hState]
  | _ => simp [popStep]

/-- What is taken from a slot without an element in it is its unwritten storage. -/
theorem popStep_unwritten {maximizeThroughput : Bool} {pc : DoPopAny T} {slot : Slot T}
    (h : (popStep maximizeThroughput pc slot).2.2 = .goto (.storeEmpty none) ∨
      (popStep maximizeThroughput pc slot).2.2 = .done none) :
    pc = .storeEmpty none ∨
      slot.element = none ∧ (popStep maximizeThroughput pc slot).2.1 = [.read none] := by
  cases pc with
  | storeEmpty value => simpa [popStep] using h
  | readElement | read =>
      right
      have hNone : slot.element = none := by simpa [popStep] using h
      simp [popStep, hNone]
  | loadState | spin => cases hState : slot.state <;> simp [popStep, hState] at h
  | compareExchange =>
      cases hState : slot.state <;> cases maximizeThroughput <;> simp [popStep, hState] at h

/-- The accesses of a step that writes nothing, with what comes after them. -/
theorem writeAt_eq_nil {position : Usize w} {own slot : Nat} {changes : List (Access T (Option T))}
    (hChanges : ∀ change ∈ changes, change.written = none) {es : List (Event w T (Option T))}
    (hRest : es.filterMap (Event.writeAt slot) = []) :
    (changes.map (Event.access position own) ++ es).filterMap (Event.writeAt slot) = [] := by
  rw [List.filterMap_append, hRest, List.append_nil, List.filterMap_map, List.filterMap_eq_nil_iff]
  intro change hMem
  simp [hChanges change hMem]

theorem afterPush_writeAt {U O V : Type} (blocking : Bool) (position : Usize w) (own : Nat)
    (outcome : Outcome U Unit) (slot : Nat) :
    (Queue.afterPush blocking position own outcome : Pc w T U O × List (Event w T V)).2.filterMap
      (Event.writeAt slot) = [] := by
  cases outcome <;> rfl

theorem afterPop_writeAt {U O V : Type} (blocking : Bool) (position : Usize w) (own : Nat)
    (outcome : Outcome O V) (slot : Nat) :
    (Queue.afterPop blocking position own outcome : Pc w T U O × List (Event w T V)).2.filterMap
      (Event.writeAt slot) = [] := by
  cases outcome <;> rfl

section Unwritten

variable {q : Queue w} {maximizeThroughput spsc : Bool} {pc pc' : Local w T}
  {σ σ' : Memory w (Slot T)} {es : List (Event w T (Option T))}

/-- Storage that is unwritten after a step was so before, and not written to. -/
theorem step_cells (h : q.Step (slotCode T maximizeThroughput spsc) pc σ pc' σ' es) {slot : Nat}
    (hAfter : (σ'.slots slot).element = none) :
    (σ.slots slot).element = none ∧ es.filterMap (Event.writeAt slot) = [] := by
  cases h with
  | quiet h => exact ⟨hAfter, by cases h <;> rfl⟩
  | claimHead =>
      refine ⟨hAfter, ?_⟩
      unfold Queue.enterPush
      split <;> rfl
  | claimTail =>
      refine ⟨hAfter, ?_⟩
      unfold Queue.enterPop
      split <;> rfl
  | pushSlot blocking position own pc =>
      have hRest := afterPush_writeAt (T := T) (O := DoPopAny T) (V := Option T) blocking position own
        (pushStep pc (σ.slots own)).2.2 slot
      by_cases hOwn : slot = own
      · subst hOwn
        simp only [Function.update_self] at hAfter
        obtain ⟨hBefore, hChanges⟩ := pushStep_element_eq_none hAfter
        exact ⟨hBefore, writeAt_eq_nil hChanges hRest⟩
      · simp only [Function.update_of_ne hOwn] at hAfter
        refine ⟨hAfter, ?_⟩
        rw [List.filterMap_append, List.filterMap_map]
        simpa [Function.comp_def, Ne.symm hOwn, slotCode] using hRest
  | popSlot blocking position own pc =>
      obtain ⟨hSame, hChanges⟩ := popStep_element maximizeThroughput pc (σ.slots own)
      refine ⟨?_, writeAt_eq_nil hChanges (afterPop_writeAt blocking position own _ slot)⟩
      by_cases hOwn : slot = own
      · subst hOwn
        simp only [Function.update_self] at hAfter
        exact hSame.symm.trans hAfter
      · simpa only [Function.update_of_ne hOwn] using hAfter

/-- What is held or returned without an element was read without one. -/
theorem afterPop_unwritten {blocking : Bool} {position : Usize w} {own : Nat}
    {outcome : Outcome (DoPopAny T) (Option T)}
    (h : HoldsUnwritten (Queue.afterPop blocking position own outcome : Local w T × _).1 ∨
      none ∈ poppedIn ((Queue.afterPop blocking position own outcome :
        Local w T × List (Event w T (Option T))).2.filterMap Event.result)) :
    outcome = .goto (.storeEmpty none) ∨ outcome = .done none := by
  obtain ⟨_, hDone⟩ := sourced_afterPop (T := T) (U := DoPushAny T) offering taking blocking position
    own outcome
  rcases h with hHolds | hMem
  · cases outcome with
    | goto pc =>
        rcases pc with _ | _ | (_ | _) | _ | _ | _ <;>
          first | exact Or.inl rfl | exact hHolds.elim
    | done | panic => exact hHolds.elim
  · exact Or.inr (hDone none hMem)

/-- A consumer comes by such storage only in a slot that holds it. -/
theorem step_holdsUnwritten (h : q.Step (slotCode T maximizeThroughput spsc) pc σ pc' σ' es)
    (hAfter : HoldsUnwritten pc' ∨ none ∈ poppedIn (es.filterMap Event.result)) :
    HoldsUnwritten pc ∨ ∃ position slot rest, es = .access position slot (.read none) :: rest ∧
      (σ.slots slot).element = none := by
  have hMoves := slotCode_moves (T := T) maximizeThroughput spsc
  cases h with
  | quiet h =>
      rw [(sourced_quiet offering taking h).2] at hAfter
      refine absurd (hAfter.resolve_right List.not_mem_nil) ?_
      cases h <;> exact id
  | @claimHead _ _ blocking position element =>
      rw [(sourced_enterPush hMoves (q := q) blocking position element).2] at hAfter
      refine absurd (hAfter.resolve_right List.not_mem_nil) ?_
      unfold Queue.enterPush
      split <;> exact id
  | @claimTail _ _ blocking position =>
      rw [(sourced_enterPop hMoves (q := q) blocking position).2] at hAfter
      refine absurd (hAfter.resolve_right List.not_mem_nil) ?_
      unfold Queue.enterPop
      split
      · cases spsc <;> exact id
      · exact id
  | pushSlot blocking position own pc =>
      rw [(Queue.reports_accesses _ _ _ _).2,
        (sourced_afterPush (V := Option T) offering taking blocking position own _).2] at hAfter
      refine absurd (hAfter.resolve_right List.not_mem_nil) ?_
      generalize ((slotCode T maximizeThroughput spsc).pushStep pc (σ.slots own)).2.2 = outcome
      cases outcome <;> exact id
  | popSlot blocking position own pc =>
      rw [(Queue.reports_accesses _ _ _ _).2] at hAfter
      rcases popStep_unwritten (afterPop_unwritten hAfter) with rfl | ⟨hNone, hChanges⟩
      · exact Or.inl trivial
      · exact Or.inr ⟨position, own, _,
          congrArg (fun changes => changes.map (Event.access position own) ++ _) hChanges, hNone⟩

/-- Storage without an element is unwritten, and so is what was handed back
without one. -/
structure Unwritten (trace : Trace (Event w T (Option T))) (s : Config w T) : Prop where
  cells : ∀ slot, (s.shared.slots slot).element = none → writesAt slot trace = []
  held : ∀ thread, HoldsUnwritten (s.threads thread) → ReadUnwritten trace
  popped : none ∈ poppedIn (returned trace) → ReadUnwritten trace

/-- By induction on the run. Storage has an element from the first write on and
is never cleared, so a read that finds none comes before every write to the
slot. -/
theorem unwritten_of_run {trace : Trace (Event w T (Option T))} {s : Config w T}
    (run : Run (q.threadCode (slotCode T maximizeThroughput spsc)) anyAction
      (initial w (Slot.new T)) trace s) : Unwritten trace s := by
  refine run.invariant Unwritten ?_ ?_ ?_
  · exact ⟨fun _ _ => rfl, fun _ => False.elim, nofun⟩
  · intro trace s thread operation pc es _ ih _ hCall
    obtain ⟨_, rfl, rfl⟩ := Queue.call_cases hCall
    refine ⟨fun slot hNone => (writesAt_call slot thread trace operation).trans (ih.cells slot hNone),
      ?_, fun hMem => ?_⟩
    · rw [Function.forall_update_iff s.threads fun _ pc => HoldsUnwritten pc → ReadUnwritten _]
      exact ⟨by cases operation <;> exact False.elim, fun other _ hHolds =>
        (ih.held other hHolds).append _⟩
    · rw [returned_append, poppedIn_append, List.mem_append] at hMem
      exact (ih.popped (hMem.resolve_right List.not_mem_nil)).append _
  · intro trace s thread pc shared es _ ih _ hStep
    have hCases := Queue.step_cases hStep
    have hNext (hAfter : HoldsUnwritten pc ∨ none ∈ poppedIn (es.filterMap Event.result)) :
        ReadUnwritten (trace ++ es.map (Prod.mk thread)) := by
      rcases step_holdsUnwritten hCases hAfter with hHolds | ⟨position, slot, rest, rfl, hNone⟩
      · exact (ih.held thread hHolds).append _
      · exact ⟨trace, thread, position, slot, ⟨rest.map (Prod.mk thread), by simp⟩, ih.cells slot hNone⟩
    refine ⟨fun slot hNone => ?_, ?_, fun hMem => ?_⟩
    · obtain ⟨hBefore, hSilent⟩ := step_cells hCases hNone
      rw [writesAt_append, hSilent, List.append_nil]
      exact ih.cells slot hBefore
    · rw [Function.forall_update_iff s.threads fun _ pc => HoldsUnwritten pc → ReadUnwritten _]
      exact ⟨fun hHolds => hNext (Or.inl hHolds), fun other _ hHolds => (ih.held other hHolds).append _⟩
    · rw [returned_append, poppedIn_append, List.mem_append] at hMem
      exact hMem.elim (fun hMem => (ih.popped hMem).append _) fun hMem => hNext (Or.inr hMem)

end Unwritten

end AtomicQueue2

namespace AtomicQueue

variable [Element T]

/-- The element a producer at its slot has yet to store. -/
def offering : StoreElement T → Option T
  | .store element => some element

/-- The element a consumer at its slot has loaded. -/
def taking : TakeElement T → Option T
  | .load => none
  | .clear current => some current

/-- What marks an empty slot does not count as an element, so emptying a slot
makes none up. By `hZero` the default value is equal to itself, which `PartialEq`
alone does not promise. -/
theorem slotCode_moves (hZero : Element.ZeroDefault T) (bigEndian : Bool) :
    (slotCode w T bigEndian).Moves (content bigEndian) offering taking some where
  doPush element v h := (Option.some.inj h).symm
  doPop := rfl
  push_stored pc raw v h := by
    obtain ⟨element⟩ := pc
    cases hStore : AtomicValue.store w bigEndian element with
    | none =>
        simp only [slotCode, pushStep, hStore] at h
        exact Or.inl h
    | some raw' =>
        simp only [slotCode, pushStep, hStore] at h
        rw [AtomicValue.eq_of_load_store hStore (content_eq_some_iff.mp h).1]
        exact Or.inr rfl
  push_goto pc raw pc' v hOut h := by
    obtain ⟨element⟩ := pc
    simp only [slotCode, pushStep] at hOut
    split at hOut <;> contradiction
  pop_stored pc raw v h := by
    cases pc with
    | load =>
        simp only [slotCode, popStep] at h
        split at h
        · exact h
        · split_ifs at h <;> exact h
    | clear current =>
        simp only [slotCode, popStep] at h
        split at h
        · exact h
        · rename_i raw' hStore
          -- the word of the default value would read as a value other than it
          obtain ⟨hLoad, hSome⟩ := content_eq_some_iff.mp h
          rw [AtomicValue.eq_of_load_store hStore hLoad] at hSome
          exact (hSome hZero.self).elim
  pop_goto pc raw pc' v hOut h := by
    left
    cases pc with
    | load =>
        simp only [slotCode, popStep] at hOut
        split at hOut
        · contradiction
        · rename_i current hLoad
          split_ifs at hOut with hDefault <;> obtain rfl := Outcome.goto.inj hOut
          · contradiction
          · obtain rfl := Option.some.inj h
            exact content_eq_some_iff.mpr ⟨hLoad, hDefault⟩
    | clear current =>
        simp only [slotCode, popStep] at hOut
        split at hOut <;> contradiction
  pop_done pc raw value v hOut h := by
    right
    cases pc with
    | load =>
        simp only [slotCode, popStep] at hOut
        split at hOut
        · contradiction
        · split_ifs at hOut
    | clear current =>
        simp only [slotCode, popStep] at hOut
        split at hOut
        · contradiction
        · obtain rfl := Outcome.done.inj hOut
          exact h

/-- A new slot reads as empty, or, if the element is too wide, not at all. -/
theorem content_new (hZero : Element.ZeroDefault T) (bigEndian : Bool) :
    (content bigEndian (AtomicValue.new w) : Option T) = none := by
  rcases Nat.lt_or_ge w (Element.bits T) with hWide | hFits
  · rw [content, (AtomicValue.load_eq_none_iff bigEndian _).mpr hWide, Option.filter_none]
  · exact content_eq_none_of_vacant (AtomicValue.vacant_new hZero hFits bigEndian)

/-- A consumer leaves its wait loop with a value that does not compare equal to
the default one. -/
theorem step_nonDefault {q : Queue w} {bigEndian : Bool} {pc pc' : Local w T}
    {σ σ' : Memory w (Usize w)} {es : List (Event w T T)} (h : Cells.Step q bigEndian pc σ pc' σ' es)
    (hHand : ∀ slot value, Cells.inHand slot pc = some value → ¬ Element.IsDefault value) :
    (∀ slot value, Cells.inHand slot pc' = some value → ¬ Element.IsDefault value) ∧
      ∀ value ∈ poppedIn (es.filterMap Event.result), ¬ Element.IsDefault value := by
  cases h with
  | quiet h =>
      rw [(sourced_quiet offering taking h).2]
      refine ⟨fun slot value => ?_, nofun⟩
      cases h <;> nofun
  | claimHead | claimTail | pushPanic | popPanic | convertPanic | wait =>
      exact ⟨fun _ _ => nofun, nofun⟩
  | @store blocking =>
      refine ⟨fun _ _ => nofun, ?_⟩
      cases blocking <;> nofun
  | @take blocking position own current _ _ hSome =>
      refine ⟨fun slot value hOwn => ?_, nofun⟩
      simp only [Cells.inHand, Option.ite_none_right_eq_some, Option.some.injEq] at hOwn
      rw [← hOwn.2]
      exact hSome
  | @clear blocking position own current =>
      refine ⟨fun _ _ => nofun, fun value hMem => ?_⟩
      obtain rfl : value = current := by
        cases blocking <;> exact List.mem_singleton.mp hMem
      exact hHand own value (if_pos rfl)

/-- No consumer holds the default value, and none has returned it. -/
theorem nonDefault_of_run {q : Queue w} {bigEndian : Bool} {trace : Trace (Event w T T)}
    {s : Config w T} (run : Run (q.threadCode (slotCode w T bigEndian)) anyAction
      (initial w (AtomicValue.new w)) trace s) :
    (∀ thread slot value, Cells.inHand slot (s.threads thread) = some value →
        ¬ Element.IsDefault value) ∧
      ∀ value ∈ poppedIn (returned trace), ¬ Element.IsDefault value := by
  refine run.invariant (fun trace s =>
    (∀ thread slot value, Cells.inHand slot (s.threads thread) = some value →
        ¬ Element.IsDefault value) ∧
      ∀ value ∈ poppedIn (returned trace), ¬ Element.IsDefault value) ?_ ?_ ?_
  · exact ⟨fun _ _ _ => nofun, nofun⟩
  · rintro trace s thread operation pc es _ ⟨hHand, hReturned⟩ _ hCall
    obtain ⟨_, rfl, rfl⟩ := Queue.call_cases hCall
    refine ⟨?_, ?_⟩
    · rw [Function.forall_update_iff s.threads fun _ pc => ∀ slot value, Cells.inHand slot pc =
        some value → ¬ Element.IsDefault value]
      refine ⟨?_, fun other _ => hHand other⟩
      cases operation <;> exact fun _ _ => nofun
    · rw [returned_append, poppedIn_append, List.forall_mem_append]
      exact ⟨hReturned, nofun⟩
  · rintro trace s thread pc shared es _ ⟨hHand, hReturned⟩ _ hStep
    obtain ⟨hNext, hPopped⟩ := step_nonDefault (Cells.step_cases (Queue.step_cases hStep))
      (hHand thread)
    refine ⟨?_, ?_⟩
    · rw [Function.forall_update_iff s.threads fun _ pc => ∀ slot value, Cells.inHand slot pc =
        some value → ¬ Element.IsDefault value]
      exact ⟨hNext, fun other _ => hHand other⟩
    · rw [returned_append, poppedIn_append, List.forall_mem_append]
      exact ⟨hReturned, hPopped⟩

end AtomicQueue

section Results

variable {T : Type}

/-- A consumer that has claimed its position before the producer came. -/
def handover : Option (Trace (Event 64 Nat (Option Nat)) × AtomicQueue2.Config 64 Nat) :=
  exec ((AtomicQueue2.twoSlots false).threadCode (AtomicQueue2.slotCode Nat true false))
    (fun _ _ _ => true) [.call 0 .pop, .step 0, .step 0, .call 1 (.push 7), .step 1, .step 1, .step 1,
      .step 0, .step 0, .step 0] [] (initial 64 (Slot.new Nat))

theorem handover_isSome : handover.isSome := by decide +kernel

/-- In a queue of words there is no such storage, and no result compares equal
to the default value, though producers may offer that. The zero word of a new
slot and the word that a consumer leaves must both read as the default. -/
theorem offered_of_loaded [Element T] (hZero : Element.ZeroDefault T) (q : Queue w) (bigEndian : Bool)
    {trace : Trace (Event w T T)} {s : AtomicQueue.Config w T}
    (run : Run (q.threadCode (AtomicQueue.slotCode w T bigEndian)) anyAction
      (initial w (AtomicValue.new w)) trace s)
    {element : T} (hPopped : element ∈ poppedIn (returned trace)) :
    Offered trace element ∧ ¬ Element.IsDefault element := by
  refine ⟨?_, (AtomicQueue.nonDefault_of_run run).2 element hPopped⟩
  exact (supplied_of_run (AtomicQueue.slotCode_moves hZero bigEndian)
    (AtomicQueue.content_new hZero bigEndian) run).handed _ hPopped _ rfl

/-- The second producer overwrites the default value of the first. -/
def overwritten : Option (Trace (Event 64 (BitVec 64) (BitVec 64)) ×
    AtomicQueue.Config 64 (BitVec 64)) :=
  exec (AtomicQueue.oneSlot.threadCode (AtomicQueue.slotCode 64 (BitVec 64) false))
    (fun _ _ _ => true) [.call 0 (.push 0#64), .step 0, .step 0, .call 0 (.push 7#64), .step 0, .step 0,
      .call 1 .pop, .step 1, .step 1, .step 1] [] (initial 64 (AtomicValue.new 64))

theorem overwritten_isSome : overwritten.isSome := by decide +kernel

theorem offered_oneSlot : ∃ trace : Trace (Event 64 (BitVec 64) (BitVec 64)),
    poppedIn (returned trace) = [7#64] ∧ Offered trace 7#64 ∧ ¬ Element.IsDefault 7#64 := by
  refine ⟨_, ?_, offered_of_loaded (Element.zeroDefault 64) AtomicQueue.oneSlot false
    (Run.ofExec 2 _ (fun _ _ _ _ _ => trivial) _ (by decide) overwritten_isSome) ?_⟩
  · decide +kernel
  · decide +kernel

end Results

end AtomicQueueRs
