import AtomicQueueRs.SpscHistory

/-! One producer and one consumer on an SPSC queue. Either counter may run ahead
of its slot work; the program counters say by how much, and no schedule takes
an element out of order. -/
namespace AtomicQueueRs

set_option autoImplicit false

open Interleaving (Trace Run Action)

variable {w : Nat} {T : Type}

namespace Spsc

open AtomicQueue2 (Local Config)

variable {q : Queue w}

/-- The producer has `heads` positions claimed, `fills` slots filled and
`written` elements written. -/
def Producing (q : Queue w) (committed : List T) (heads fills written : Nat)
    (σ : Memory w (Slot T)) : Local w T → Prop
  | .tryPushLoadTail _ head =>
      head = σ.head ∧ committed.length = heads ∧ fills = heads ∧ written = fills
  | .tryPushClaim value head => head = σ.head ∧ committed.length = heads + 1 ∧
      committed[heads]? = some value ∧ fills = heads ∧ written = fills
  | .pushClaim value => committed.length = heads + 1 ∧ committed[heads]? = some value ∧
      fills = heads ∧ written = fills
  | .pushSlot _ position slot pc => position = BitVec.ofNat w fills ∧ slot = q.slotAt fills ∧
      committed.length = heads ∧ heads = fills + 1 ∧
        match pc with
        | .loadState value => committed[fills]? = some value ∧ written = fills
        | .writeElement value => committed[fills]? = some value ∧ written = fills ∧
            (σ.slots slot).state = .empty
        | .storeFull => (σ.slots slot).element = committed[fills]? ∧ written = fills + 1 ∧
            (σ.slots slot).state = .empty
        | _ => False
  | .tryPopLoadTail | .tryPopLoadHead _ | .tryPopClaim _ | .popClaim | .popSlot _ _ _ _ => False
  | .panicked => heads ≤ committed.length ∧ fills = heads ∧ written = fills
  | _ => committed.length = heads ∧ fills = heads ∧ written = fills

/-- The consumer has `tails` positions claimed, `drains` slots drained and
`taken` elements read. -/
def Consuming (q : Queue w) (committed : List T) (tails drains taken : Nat)
    (σ : Memory w (Slot T)) : Local w T → Prop
  | .tryPopLoadHead tail | .tryPopClaim tail => tail = σ.tail ∧ drains = tails ∧ taken = drains
  | .popSlot _ position slot pc => position = BitVec.ofNat w drains ∧ slot = q.slotAt drains ∧
      tails = drains + 1 ∧
        match pc with
        | .loadState => taken = drains
        | .readElement => taken = drains ∧ (σ.slots slot).state = .full
        | .storeEmpty value => taken = drains + 1 ∧ (σ.slots slot).state = .full ∧
            ∃ element, value = some element ∧ committed[drains]? = some element
        | _ => False
  | .tryPushLoadHead _ | .tryPushLoadTail _ _ | .tryPushClaim _ _ | .pushClaim _
  | .pushSlot _ _ _ _ => False
  | _ => drains = tails ∧ taken = drains

/-- The memory and both program counters, against what has been done so far. -/
structure Linked (q : Queue w) (h : History w T) (σ : Memory w (Slot T))
    (producer consumer : Local w T) : Prop where
  core : Core q h σ
  producing : Producing q h.committed h.heads h.fills h.writes.length σ producer
  consuming : Consuming q h.committed h.tails h.drains h.reads.length σ consumer

/-- The consumer empties full slots only. -/
theorem Producing.frame {committed : List T} {heads fills written : Nat} {σ σ' : Memory w (Slot T)}
    {pc : Local w T} (h : Producing q committed heads fills written σ pc) (hHead : σ'.head = σ.head)
    (hSlots : ∀ slot, (σ.slots slot).state = .empty → σ'.slots slot = σ.slots slot) :
    Producing q committed heads fills written σ' pc := by
  cases pc with
  | tryPushLoadTail element head => exact ⟨h.1.trans hHead.symm, h.2⟩
  | tryPushClaim element head => exact ⟨h.1.trans hHead.symm, h.2⟩
  | pushSlot blocking position slot pc =>
      obtain ⟨hPosition, hSlot, hLength, hHeads, hPc⟩ := h
      refine ⟨hPosition, hSlot, hLength, hHeads, ?_⟩
      cases pc with
      | writeElement value =>
          refine ⟨hPc.1, hPc.2.1, ?_⟩
          rw [hSlots slot hPc.2.2]
          exact hPc.2.2
      | storeFull =>
          have hSame := hSlots slot hPc.2.2
          exact ⟨hSame ▸ hPc.1, hPc.2.1, hSame ▸ hPc.2.2⟩
      | _ => exact hPc
  | _ => exact h

/-- The producer fills empty slots only. -/
theorem Consuming.frame {committed : List T} {tails drains taken : Nat} {σ σ' : Memory w (Slot T)}
    {pc : Local w T} (h : Consuming q committed tails drains taken σ pc) (hTail : σ'.tail = σ.tail)
    (hSlots : ∀ slot, (σ.slots slot).state = .full → (σ'.slots slot).state = .full) :
    Consuming q committed tails drains taken σ' pc := by
  cases pc with
  | tryPopLoadHead tail => exact ⟨h.1.trans hTail.symm, h.2⟩
  | tryPopClaim tail => exact ⟨h.1.trans hTail.symm, h.2⟩
  | popSlot blocking position slot pc =>
      obtain ⟨hPosition, hSlot, hTails, hPc⟩ := h
      refine ⟨hPosition, hSlot, hTails, ?_⟩
      cases pc with
      | readElement => exact ⟨hPc.1, hSlots slot hPc.2⟩
      | storeEmpty value => exact ⟨hPc.1, hSlots slot hPc.2.1, hPc.2.2⟩
      | _ => exact hPc
  | _ => exact h

/-- Committed values stay. -/
theorem Consuming.commit {committed : List T} {tails drains taken : Nat} {σ : Memory w (Slot T)}
    {pc : Local w T} (h : Consuming q committed tails drains taken σ pc) (more : List T) :
    Consuming q (committed ++ more) tails drains taken σ pc := by
  cases pc with
  | popSlot blocking position slot pc =>
      obtain ⟨hPosition, hSlot, hTails, hPc⟩ := h
      refine ⟨hPosition, hSlot, hTails, ?_⟩
      cases pc with
      | storeEmpty value =>
          obtain ⟨hTaken, hFull, element, hValue, hCommitted⟩ := hPc
          refine ⟨hTaken, hFull, element, hValue, ?_⟩
          have hLt := (List.getElem?_eq_some_iff.mp hCommitted).1
          rw [List.getElem?_append_left hLt, hCommitted]
      | _ => exact hPc
  | _ => exact h

/-- Slots with different flags are different slots. -/
theorem update_of_state {slots : Nat → Slot T} {slot other : Nat} {state state' : Flag}
    (hSlot : (slots slot).state = state) (hOther : (slots other).state = state')
    (hState : state ≠ state') (content : Slot T) :
    Function.update slots slot content other = slots other := by
  refine Function.update_of_ne (fun hEq => ?_) _ _
  rw [hEq, hSlot] at hOther
  exact hState hOther

section Linked

variable {h : History w T} {σ σ' : Memory w (Slot T)} {producer consumer pc' : Local w T}
  {es : List (Event w T (Option T))}

/-- Only the producer's program counter knows that a value is committed. -/
theorem Linked.commit (hLinked : Linked q h σ producer consumer) (value : T)
    (hPc : Producing q (h.committed ++ [value]) h.heads h.fills h.writes.length σ pc') :
    Linked q { h with committed := h.committed ++ [value] } σ pc' consumer :=
  ⟨hLinked.core.commit value, hPc, hLinked.consuming.commit [value]⟩

/-- Steps of the producer that are not at a slot leave the memory to the
consumer as it was. Passing the test for a full queue commits the value. -/
theorem Linked.produce_quiet (hRelease : q.build = .release)
    (hLinked : Linked q h σ producer consumer) (hStep : q.Quiet σ producer pc' es) :
    Linked q (es.foldl History.record h) σ pc' consumer := by
  have hPc := hLinked.producing
  cases hStep with
  | tryPushLoadHead element => exact ⟨hLinked.core, ⟨rfl, hPc⟩, hLinked.consuming⟩
  | tryPushUnderflow element head =>
      exact ⟨hLinked.core, ⟨hPc.2.1.ge, hPc.2.2⟩, hLinked.consuming⟩
  | tryPushFull element head => exact ⟨hLinked.core, hPc.2, hLinked.consuming⟩
  | tryPushProceed element head =>
      refine hLinked.commit element ⟨hPc.1, ?_, ?_, hPc.2.2⟩
      · rw [List.length_append, hPc.2.1]
        rfl
      · rw [← hPc.2.1]
        exact List.getElem?_concat_length
  | tryPushOverflow element head hNext =>
      rw [hRelease, Usize.add_release] at hNext
      contradiction
  | tryPushLost element head hMoved => exact (hMoved hPc.1.symm).elim
  | observeLoadHead observer => exact ⟨hLinked.core, hPc, hLinked.consuming⟩
  | observeUnderflow observer head =>
      exact ⟨hLinked.core, ⟨hPc.1.ge, hPc.2⟩, hLinked.consuming⟩
  | observeReturn observer head result hResult =>
      have hSame : [.loadTail σ.tail, .returned result].foldl History.record h = h :=
        History.record_observed hResult h
      rw [hSame]
      exact ⟨hLinked.core, hPc, hLinked.consuming⟩
  | tryPopLoadTail | tryPopEmpty | tryPopProceed | tryPopOverflow | tryPopLost => exact hPc.elim

/-- The claimed position is the one whose committed value is next, and its slot
is where that value goes. -/
theorem Linked.claimHead (hIndexed : q.Indexed) (hLinked : Linked q h σ producer consumer)
    {blocking : Bool} {position : Usize w} {value : T} {slot : Nat} (hPosition : position = σ.head)
    (hSlot : q.getSlot position = some slot) (hLength : h.committed.length = h.heads + 1)
    (hCommitted : h.committed[h.heads]? = some value) (hFills : h.fills = h.heads)
    (hWritten : h.writes.length = h.fills) :
    Linked q { h with heads := h.heads + 1 } { σ with head := σ.head + 1#w }
      (.pushSlot blocking position slot (.loadState value)) consumer := by
  have hOfNat : position = BitVec.ofNat w h.fills := by
    rw [hPosition, hLinked.core.head, hFills]
  rw [hOfNat, hIndexed.getSlot_ofNat] at hSlot
  refine ⟨hLinked.core.claimHead (by omega), ?_, hLinked.consuming.frame rfl fun _ => id⟩
  exact ⟨hOfNat, (Option.some.inj hSlot).symm, hLength, by rw [hFills],
    by rw [hFills]; exact hCommitted, hWritten⟩

/-- A step of the producer. -/
theorem Linked.produce (hIndexed : q.Indexed) (hRelease : q.build = .release)
    (hBound : h.heads < 2 ^ w) (hLinked : Linked q h σ producer consumer)
    (hStep : Step q producer σ pc' σ' es) :
    Linked q (es.foldl History.record h) σ' pc' consumer := by
  have hPc := hLinked.producing
  cases hStep with
  | quiet hQuiet => exact hLinked.produce_quiet hRelease hQuiet
  | claimHead hClaim hSlot =>
      cases hClaim with
      | push value =>
          obtain ⟨hLength, hCommitted, hFills, hWritten⟩ := hPc
          exact hLinked.claimHead hIndexed rfl hSlot hLength hCommitted hFills hWritten
      | compareExchange value =>
          obtain ⟨_, hLength, hCommitted, hFills, hWritten⟩ := hPc
          exact hLinked.claimHead hIndexed rfl hSlot hLength hCommitted hFills hWritten
      | fetchAdd value head =>
          obtain ⟨hHead, hLength, hCommitted, hFills, hWritten⟩ := hPc
          exact hLinked.claimHead hIndexed hHead hSlot hLength hCommitted hFills hWritten
  | claimTail hClaim => cases hClaim <;> exact hPc.elim
  | pushWait value => exact hLinked
  | pushReady value hEmpty =>
      obtain ⟨hPosition, hSlot, hLength, hHeads, hCommitted, hWritten⟩ := hPc
      exact ⟨hLinked.core, ⟨hPosition, hSlot, hLength, hHeads, hCommitted, hWritten, hEmpty⟩,
        hLinked.consuming⟩
  | write value =>
      obtain ⟨rfl, rfl, hLength, hHeads, hCommitted, hWritten, hEmpty⟩ := hPc
      have hSelf := Function.update_self (q.slotAt h.fills)
        { σ.slots (q.slotAt h.fills) with element := some value } σ.slots
      refine ⟨hLinked.core.write hCommitted hWritten (by omega) hEmpty, ?_, ?_⟩
      · refine ⟨rfl, rfl, hLength, hHeads, ?_, ?_, ?_⟩
        · exact (congrArg Slot.element hSelf).trans hCommitted.symm
        · exact List.length_append.trans (congrArg (· + 1) hWritten)
        · exact (congrArg Slot.state hSelf).trans hEmpty
      · refine hLinked.consuming.frame rfl fun slot hFull => ?_
        exact (congrArg Slot.state (update_of_state hEmpty hFull (by simp) _)).trans hFull
  | @fill blocking =>
      obtain ⟨rfl, rfl, hLength, hHeads, hElement, hWritten, hEmpty⟩ := hPc
      have hHistory : h.record (.access (BitVec.ofNat w h.fills) (q.slotAt h.fills) .fill) =
          { h with fills := h.fills + 1 } := rfl
      rw [List.foldl_cons, hHistory, show List.foldl History.record { h with fills := h.fills + 1 }
        [.returned (if blocking then .push else .tryPush true)] = { h with fills := h.fills + 1 } by
          cases blocking <;> rfl]
      refine ⟨hLinked.core.fill hIndexed hBound hElement hWritten hEmpty,
        ⟨hLength, hHeads.symm, hWritten⟩, ?_⟩
      refine hLinked.consuming.frame rfl fun slot hFull => ?_
      exact (congrArg Slot.state (update_of_state hEmpty hFull (by simp) _)).trans hFull
  | popWait | popReady | read | drain => exact hPc.elim

/-- Steps of the consumer that are not at a slot commit nothing and touch
nothing. -/
theorem Linked.consume_quiet (hLinked : Linked q h σ producer consumer)
    (hStep : q.Quiet σ consumer pc' es) : Linked q (es.foldl History.record h) σ producer pc' := by
  have hPc := hLinked.consuming
  cases hStep with
  | tryPopLoadTail => exact ⟨hLinked.core, hLinked.producing, ⟨rfl, hPc⟩⟩
  | tryPopEmpty | tryPopOverflow | tryPopLost =>
      exact ⟨hLinked.core, hLinked.producing, hPc.2⟩
  | tryPopProceed | observeLoadHead | observeUnderflow =>
      exact ⟨hLinked.core, hLinked.producing, hPc⟩
  | observeReturn observer head result hResult =>
      have hSame : [.loadTail σ.tail, .returned result].foldl History.record h = h :=
        History.record_observed hResult h
      rw [hSame]
      exact ⟨hLinked.core, hLinked.producing, hPc⟩
  | tryPushLoadHead | tryPushUnderflow | tryPushFull | tryPushProceed | tryPushOverflow
  | tryPushLost => exact hPc.elim

theorem Linked.claimTail (hIndexed : q.Indexed) (hLinked : Linked q h σ producer consumer)
    {blocking : Bool} {position : Usize w} {slot : Nat} (hPosition : position = σ.tail)
    (hSlot : q.getSlot position = some slot) (hDrains : h.drains = h.tails)
    (hTaken : h.reads.length = h.drains) :
    Linked q { h with tails := h.tails + 1 } { σ with tail := σ.tail + 1#w } producer
      (.popSlot blocking position slot .loadState) := by
  have hOfNat : position = BitVec.ofNat w h.drains := by
    rw [hPosition, hLinked.core.tail, hDrains]
  rw [hOfNat, hIndexed.getSlot_ofNat] at hSlot
  refine ⟨hLinked.core.claimTail, hLinked.producing.frame rfl fun _ _ => rfl, ?_⟩
  exact ⟨hOfNat, (Option.some.inj hSlot).symm, by rw [hDrains], hTaken⟩

/-- A step of the consumer. -/
theorem Linked.consume (hIndexed : q.Indexed) (hBound : h.heads < 2 ^ w)
    (hLinked : Linked q h σ producer consumer) (hStep : Step q consumer σ pc' σ' es) :
    Linked q (es.foldl History.record h) σ' producer pc' := by
  have hPc := hLinked.consuming
  cases hStep with
  | quiet hQuiet => exact hLinked.consume_quiet hQuiet
  | claimHead hClaim => cases hClaim <;> exact hPc.elim
  | claimTail hClaim hSlot =>
      cases hClaim with
      | pop => exact hLinked.claimTail hIndexed rfl hSlot hPc.1 hPc.2
      | compareExchange => exact hLinked.claimTail hIndexed rfl hSlot hPc.2.1 hPc.2.2
      | fetchAdd tail => exact hLinked.claimTail hIndexed hPc.1 hSlot hPc.2.1 hPc.2.2
  | popWait => exact hLinked
  | popReady hFull =>
      obtain ⟨hPosition, hSlot, hTails, hTaken⟩ := hPc
      exact ⟨hLinked.core, hLinked.producing, ⟨hPosition, hSlot, hTails, hTaken, hFull⟩⟩
  | read =>
      obtain ⟨rfl, rfl, hTails, hTaken, hFull⟩ := hPc
      obtain ⟨element, hElement, hCommitted⟩ := hLinked.core.front_element hFull
      refine ⟨hLinked.core.read hTaken hFull, hLinked.producing, rfl, rfl, hTails, ?_, hFull,
        element, hElement, hCommitted⟩
      exact List.length_append.trans (congrArg (· + 1) hTaken)
  | @drain blocking =>
      obtain ⟨rfl, rfl, hTails, hTaken, hFull, element, rfl, hCommitted⟩ := hPc
      have hHistory : [Event.access (BitVec.ofNat w h.drains) (q.slotAt h.drains) .drain,
          .returned (if blocking then .pop (some element) else .tryPop (some (some element)))].foldl
            History.record h =
          { h with drains := h.drains + 1, returned := h.returned ++ [some element] } := by
        cases blocking <;> rfl
      rw [hHistory]
      refine ⟨hLinked.core.drain hIndexed hBound hCommitted hFull, ?_, ⟨hTails.symm, hTaken⟩⟩
      exact hLinked.producing.frame rfl fun slot hEmpty => update_of_state hFull hEmpty (by simp) _
  | pushWait | pushReady | write | fill => exact hPc.elim

end Linked

section Run

/-- Each thread keeps to its side. Both may call the observers. -/
def spscCalls (producer consumer : Nat) : Trace (Event w T (Option T)) → Config w T →
    Action (Call T) → Prop
  | _, _, .call thread (.push _) | _, _, .call thread (.tryPush _) => thread = producer
  | _, _, .call thread .pop | _, _, .call thread .tryPop => thread = consumer
  | _, _, .call thread (.observe _) => thread = producer ∨ thread = consumer
  | _, _, .step _ => True

instance (producer consumer : Nat) (trace : Trace (Event w T (Option T))) (s : Config w T)
    (action : Action (Call T)) : Decidable (spscCalls producer consumer trace s action) :=
  match action with
  | .call thread (.push _) | .call thread (.tryPush _) =>
      inferInstanceAs (Decidable (thread = producer))
  | .call thread .pop | .call thread .tryPop => inferInstanceAs (Decidable (thread = consumer))
  | .call thread (.observe _) =>
      inferInstanceAs (Decidable (thread = producer ∨ thread = consumer))
  | .step _ => isTrue trivial

/-- What is known of all threads after a run. -/
structure Served (q : Queue w) (producer consumer : Nat) (trace : Trace (Event w T (Option T)))
    (s : Config w T) : Prop where
  linked : Linked q (History.of trace) s.shared (s.threads producer) (s.threads consumer)
  others : ∀ thread, thread ≠ producer → thread ≠ consumer → s.threads thread = .idle
  placed : ∀ thread, Placed q (s.threads thread)

variable {producer consumer : Nat} {trace trace' : Trace (Event w T (Option T))} {s : Config w T}
  {σ : Memory w (Slot T)} {pc : Local w T}

/-- A step of the producer, once its effect on the memory and on the consumer is
known. -/
theorem Served.produced (hNe : producer ≠ consumer) (h : Served q producer consumer trace s)
    (hLinked : Linked q (History.of trace') σ pc (s.threads consumer)) (hPlaced : Placed q pc) :
    Served q producer consumer trace' ⟨σ, Function.update s.threads producer pc⟩ := by
  refine ⟨?_, fun thread hProducer hConsumer => ?_, ?_⟩
  · dsimp only
    rw [Function.update_self, Function.update_of_ne hNe.symm]
    exact hLinked
  · dsimp only
    rw [Function.update_of_ne hProducer]
    exact h.others thread hProducer hConsumer
  · rw [Function.forall_update_iff s.threads fun _ pc => Placed q pc]
    exact ⟨hPlaced, fun thread _ => h.placed thread⟩

/-- A step of the consumer, once its effect on the memory and on the producer is
known. -/
theorem Served.consumed (hNe : producer ≠ consumer) (h : Served q producer consumer trace s)
    (hLinked : Linked q (History.of trace') σ (s.threads producer) pc) (hPlaced : Placed q pc) :
    Served q producer consumer trace' ⟨σ, Function.update s.threads consumer pc⟩ := by
  refine ⟨?_, fun thread hProducer hConsumer => ?_, ?_⟩
  · dsimp only
    rw [Function.update_self, Function.update_of_ne hNe]
    exact hLinked
  · dsimp only
    rw [Function.update_of_ne hConsumer]
    exact h.others thread hProducer hConsumer
  · rw [Function.forall_update_iff s.threads fun _ pc => Placed q pc]
    exact ⟨hPlaced, fun thread _ => h.placed thread⟩

/-- A call brings a value to commit or none, and is made by the thread whose
side it is on. -/
theorem Served.call (hNe : producer ≠ consumer) (h : Served q producer consumer trace s)
    {thread : Nat} {operation : Call T} (hIdle : s.threads thread = .idle)
    (hAllowed : spscCalls producer consumer trace s (.call thread operation)) :
    Served q producer consumer (trace ++ [.call operation].map (Prod.mk thread))
      ⟨s.shared, Function.update s.threads thread (Queue.start operation)⟩ := by
  have hHistory := History.of_append trace thread [.call operation]
  have hCore := h.linked.core
  have hProducing := h.linked.producing
  have hConsuming := h.linked.consuming
  cases operation with
  | tryPush element =>
      obtain rfl : thread = producer := hAllowed
      rw [hIdle] at hProducing
      exact h.produced hNe (hHistory ▸ ⟨hCore, hProducing, hConsuming⟩) trivial
  | push element =>
      obtain rfl : thread = producer := hAllowed
      rw [hIdle] at hProducing
      refine h.produced hNe (hHistory ▸ h.linked.commit element ⟨?_, ?_, hProducing.2⟩) trivial
      · rw [List.length_append, hProducing.1]
        rfl
      · rw [← hProducing.1]
        exact List.getElem?_concat_length
  | tryPop | pop =>
      obtain rfl : thread = consumer := hAllowed
      rw [hIdle] at hConsuming
      exact h.consumed hNe (hHistory ▸ ⟨hCore, hProducing, hConsuming⟩) trivial
  | observe observer =>
      rcases hAllowed with rfl | rfl
      · rw [hIdle] at hProducing
        exact h.produced hNe (hHistory ▸ ⟨hCore, hProducing, hConsuming⟩) trivial
      · rw [hIdle] at hConsuming
        exact h.consumed hNe (hHistory ▸ ⟨hCore, hProducing, hConsuming⟩) trivial

theorem heads_le_record (h : History w T) (e : Event w T (Option T)) :
    h.heads ≤ (h.record e).heads := by
  cases e with
  | claimHead => exact Nat.le_succ _
  | call call => cases call <;> exact Nat.le_refl _
  | access position slot a => cases a <;> exact Nat.le_refl _
  | returned result =>
      cases result with
      | tryPop popped => cases popped <;> exact Nat.le_refl _
      | _ => exact Nat.le_refl _
  | _ => exact Nat.le_refl _

theorem heads_le_foldl (es : List (Event w T (Option T))) (h : History w T) :
    h.heads ≤ (es.foldl History.record h).heads := by
  induction es generalizing h with
  | nil => exact Nat.le_refl _
  | cons e es ih => exact Nat.le_trans (heads_le_record h e) (ih (h.record e))

variable {maximizeThroughput : Bool}

theorem served_start : Served q producer consumer [] (initial w (Slot.new T)) := by
  refine ⟨⟨?_, ⟨rfl, rfl, rfl⟩, ⟨rfl, rfl⟩⟩, fun _ _ _ => rfl, fun _ => trivial⟩
  constructor <;> first | rfl | exact Nat.zero_le _ | skip
  · intro slot
    exact iff_of_false (by simp [initial, Memory.new, Slot.new]) fun ⟨i, _, hi, _⟩ => Nat.not_lt_zero i hi
  · intro i _ hi
    exact (Nat.not_lt_zero i hi).elim

/-- By induction on the run. The bound on the claims is one on the whole run,
and what comes before has claimed no more. -/
theorem served_of_run (hIndexed : q.Indexed) (hRelease : q.build = .release)
    (hNe : producer ≠ consumer)
    (run : Run (q.threadCode (AtomicQueue2.slotCode T maximizeThroughput true))
      (spscCalls producer consumer) (initial w (Slot.new T)) trace s)
    (hBound : (History.of trace).heads < 2 ^ w) : Served q producer consumer trace s := by
  revert hBound
  refine run.invariant (fun trace s => (History.of trace).heads < 2 ^ w →
    Served q producer consumer trace s) (fun _ => served_start) ?_ ?_
  · intro trace s thread operation pc es _ ih hAllowed hCall hBound
    obtain ⟨hIdle, rfl, rfl⟩ := Queue.call_cases hCall
    rw [History.of_append] at hBound
    exact (ih (Nat.lt_of_le_of_lt (heads_le_foldl _ _) hBound)).call hNe hIdle hAllowed
  · intro trace s thread pc shared es _ ih _ hStep hBound
    rw [History.of_append] at hBound
    have hBefore := Nat.lt_of_le_of_lt (heads_le_foldl _ _) hBound
    have h := ih hBefore
    have hHistory := History.of_append trace thread es
    by_cases hProducer : thread = producer
    · subst hProducer
      have hCases := step_cases hIndexed (h.placed thread) (Queue.step_cases hStep)
      exact h.produced hNe (hHistory ▸ h.linked.produce hIndexed hRelease hBefore hCases)
        (hCases.placed (h.placed thread))
    · by_cases hConsumer : thread = consumer
      · subst hConsumer
        have hCases := step_cases hIndexed (h.placed thread) (Queue.step_cases hStep)
        exact h.consumed hNe (hHistory ▸ h.linked.consume hIndexed hBefore hCases)
          (hCases.placed (h.placed thread))
      · rw [h.others thread hProducer hConsumer] at hStep
        cases hStep

end Run

/-- The producer is between finding `slot` empty and setting its flag. -/
def WritingAt (slot : Nat) : Local w T → Prop
  | .pushSlot _ _ own (.writeElement _) | .pushSlot _ _ own .storeFull => own = slot
  | _ => False

/-- The consumer is between finding `slot` full and clearing its flag. -/
def ReadingAt (slot : Nat) : Local w T → Prop
  | .popSlot _ _ own .readElement | .popSlot _ _ own (.storeEmpty _) => own = slot
  | _ => False

/-- First in, first out; every read finds the next complete write at its
position and slot; and the slot being written is not the one being read. -/
structure InOrder (producer consumer : Nat) (trace : Trace (Event w T (Option T)))
    (s : Config w T) : Prop where
  returned_isPrefix : (History.of trace).returned <+: (History.of trace).committed.map some
  reads_isPrefix : (History.of trace).reads <+: (History.of trace).writes.map asRead
  apart : ∀ slot, WritingAt slot (s.threads producer) → ¬ ReadingAt slot (s.threads consumer)

/-- While the producer is writing, the flag is as it found it: only it could set
it. -/
theorem Producing.state_eq {committed : List T} {heads fills written slot : Nat}
    {σ : Memory w (Slot T)} {pc : Local w T} (h : Producing q committed heads fills written σ pc)
    (hWriting : WritingAt slot pc) : (σ.slots slot).state = .empty := by
  cases pc with
  | pushSlot blocking position own pc =>
      obtain ⟨_, _, _, _, hPc⟩ := h
      cases pc with
      | writeElement | storeFull =>
          obtain rfl : own = slot := hWriting
          exact hPc.2.2
      | _ => exact hWriting.elim
  | _ => exact hWriting.elim

/-- While the consumer is reading, the flag is as it found it. -/
theorem Consuming.state_eq {committed : List T} {tails drains taken slot : Nat}
    {σ : Memory w (Slot T)} {pc : Local w T} (h : Consuming q committed tails drains taken σ pc)
    (hReading : ReadingAt slot pc) : (σ.slots slot).state = .full := by
  cases pc with
  | popSlot blocking position own pc =>
      obtain ⟨_, _, _, hPc⟩ := h
      cases pc with
      | readElement =>
          obtain rfl : own = slot := hReading
          exact hPc.2
      | storeEmpty value =>
          obtain rfl : own = slot := hReading
          exact hPc.2.1
      | _ => exact hReading.elim
  | _ => exact hReading.elim

/-- What is returned, read and written is the committed values in order; a slot
that is being written is empty and one that is being read is full, so they
differ. -/
theorem Served.inOrder {producer consumer : Nat} {trace : Trace (Event w T (Option T))}
    {s : Config w T} (h : Served q producer consumer trace s) :
    InOrder producer consumer trace s := by
  have hCore := h.linked.core
  refine ⟨?_, ?_, fun slot hWriting hReading => ?_⟩
  · rw [hCore.returned_eq]
    exact (List.take_prefix _ _).map some
  · have hLe := Nat.le_trans hCore.taken_le hCore.written_ge
    rw [hCore.reads_eq, hCore.writes_eq]
    exact (entries_isPrefix hLe _).map asRead
  · have hEmpty := h.linked.producing.state_eq hWriting
    rw [h.linked.consuming.state_eq hReading] at hEmpty
    contradiction

end Spsc

/-- One producer and one consumer, on a queue of any capacity: however their
steps interleave, and whether they block or not, elements come out in the order
they went in, and the two are never at work on the same slot. -/
theorem inOrder_of_spsc {target : Target w} {totalOrder : Bool} {q : Queue w}
    (hq : IsAtomicQueue2 target totalOrder q) (hRelease : target.build = .release)
    (hPos : 0 < q.capacity.toNat) (maximizeThroughput : Bool) {producer consumer : Nat}
    (hNe : producer ≠ consumer) {trace : Trace (Event w T (Option T))} {s : AtomicQueue2.Config w T}
    (run : Run (q.threadCode (AtomicQueue2.slotCode T maximizeThroughput true))
      (Spsc.spscCalls producer consumer) (initial w (Slot.new T)) trace s)
    (hUsed : (History.of trace).heads < 2 ^ (w - 1)) : Spsc.InOrder producer consumer trace s := by
  have hBound := Nat.lt_of_lt_of_le hUsed (Nat.pow_le_pow_right (by omega) (Nat.sub_le w 1))
  exact (Spsc.served_of_run (hq.indexed hPos) (hq.build_eq.trans hRelease) hNe run hBound).inOrder

theorem inOrder_twoSlots : ∃ trace, ∃ s : AtomicQueue2.Config 64 Nat,
    (History.of trace).returned = [some 7] ∧ (History.of trace).committed = [7, 8] ∧
      Spsc.InOrder 0 1 trace s := by
  refine ⟨_, _, ?_, ?_, inOrder_of_spsc (.fixed _ _ (AtomicQueue2.new_twoSlots false)) rfl
    (by decide) true (by decide)
    (Run.ofExec 2 (fun trace s action => decide (Spsc.spscCalls 0 1 trace s action))
      (fun _ _ _ _ => of_decide_eq_true)
      [.call 1 .pop, .step 1, .step 1, .call 0 (.push 7), .step 0, .step 0, .step 0, .step 1,
        .step 0, .step 1, .step 1, .step 1, .call 0 (.tryPush 8), .step 0, .step 0, .step 0,
        .step 0, .step 0] (by decide) (by decide +kernel)) ?_⟩
  · decide +kernel
  · decide +kernel
  · decide +kernel

end AtomicQueueRs
