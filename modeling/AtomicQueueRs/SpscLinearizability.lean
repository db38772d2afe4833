import AtomicQueueRs.ClaimBounds
import AtomicQueueRs.Concurrency.Linearizability
import AtomicQueueRs.ListQueue
import AtomicQueueRs.SpscOrder

/-! One producer and one consumer that do not block, on an SPSC queue. A push
takes effect when it claims its position, long before its element is in the
slot; the pop that claims the position next waits for it. -/
namespace AtomicQueueRs

set_option autoImplicit false

open Interleaving (Trace Run Action Phase Explains Linearizable)

variable {w : Nat} {T V : Type}

/-- What a client sees of a call. -/
def Event.observed : Event w T V → Option (Call T ⊕ Return w V)
  | .call operation => some (.inl operation)
  | .returned result => some (.inr result)
  | _ => none

/-- The elements at the positions that only the producer has claimed. -/
def History.items (h : History w T) : List T := (h.committed.take h.heads).drop h.tails

section Items

variable {h : History w T}

/-- The list is as long as the counters are apart. -/
theorem History.length_items (hHeads : h.heads ≤ h.committed.length) :
    h.items.length = h.heads - h.tails := by
  rw [items, List.length_drop, List.length_take, Nat.min_eq_left hHeads]

/-- Committing a value claims nothing yet. -/
theorem History.items_commit (hHeads : h.heads ≤ h.committed.length) (value : T) :
    items { h with committed := h.committed ++ [value] } = h.items := by
  simp only [items, List.take_append_of_le_length hHeads]

/-- Claiming from `head` appends the committed value to the list. -/
theorem History.items_claimHead (hTails : h.tails ≤ h.heads) {value : T}
    (hCommitted : h.committed[h.heads]? = some value) :
    items { h with heads := h.heads + 1 } = h.items ++ [value] := by
  have hLt := (List.getElem?_eq_some_iff.mp hCommitted).1
  have hLength : (h.committed.take h.heads).length = h.heads := by
    rw [List.length_take, Nat.min_eq_left hLt.le]
  simp only [items, List.take_add_one, hCommitted, Option.toList_some]
  exact List.drop_append_of_le_length (hTails.trans hLength.ge)

/-- Claiming from `tail` takes the first element off the list. -/
theorem History.items_claimTail {value : T} (hTails : h.tails < h.heads)
    (hCommitted : h.committed[h.tails]? = some value) :
    h.items = value :: items { h with tails := h.tails + 1 } := by
  simp only [items]
  rw [List.drop_eq_getElem?_toList_append, List.getElem?_take_of_lt hTails, hCommitted]
  rfl

end Items

namespace Spsc

open AtomicQueue2 (Local Config)

variable {q : Queue w}

/-- Where the producer stands in its operation. Past the test for a full queue
there is room until it claims. -/
def ProducerStage (q : Queue w) (h : History w T) (σ : Memory w (Slot T)) :
    Local w T → Phase (Call T) (Return w (Option T)) → Prop
  | .idle, phase => phase = .idle
  | .tryPushLoadHead element, phase => phase = .invoked (.tryPush element)
  | .tryPushLoadTail element _, phase => phase = .invoked (.tryPush element)
  | .tryPushClaim element _, phase =>
      phase = .invoked (.tryPush element) ∧ h.heads < h.tails + q.capacity.toNat
  | .pushSlot blocking _ _ _, phase => blocking = false ∧ phase = .effected (.tryPush true)
  | .observeLoadHead observer, phase => phase = .invoked (.observe observer)
  | .observeLoadTail observer head, phase => phase = .invoked (.observe observer) ∧ head = σ.head
  | .panicked, _ => True
  | _, _ => False

/-- Where the consumer stands in its operation. Its observers have taken
effect once `head` is loaded, since nobody else moves `tail`. -/
def ConsumerStage (q : Queue w) (h : History w T) (σ : Memory w (Slot T)) :
    Local w T → Phase (Call T) (Return w (Option T)) → Prop
  | .idle, phase => phase = .idle
  | .tryPopLoadTail, phase => phase = .invoked .tryPop
  | .tryPopLoadHead _, phase => phase = .invoked .tryPop
  | .tryPopClaim _, phase => phase = .invoked .tryPop ∧ h.tails < h.heads
  | .popSlot blocking _ _ _, phase => blocking = false ∧ ∃ element,
      h.committed[h.drains]? = some element ∧ phase = .effected (.tryPop (some (some element)))
  | .observeLoadHead observer, phase => phase = .invoked (.observe observer)
  | .observeLoadTail observer head, phase => ∃ result,
      observer.result q.build q.capacity head σ.tail = some result ∧ phase = .effected result
  | .panicked, _ => True
  | _, _ => False

/-- The consumer only makes room. -/
theorem ProducerStage.frame {h h' : History w T} {σ σ' : Memory w (Slot T)} {pc : Local w T}
    {phase : Phase (Call T) (Return w (Option T))} (hStage : ProducerStage q h σ pc phase)
    (hHeads : h'.heads = h.heads) (hTails : h.tails ≤ h'.tails) (hHead : σ'.head = σ.head) :
    ProducerStage q h' σ' pc phase := by
  cases pc with
  | tryPushClaim element head => exact ⟨hStage.1, by have hRoom := hStage.2; omega⟩
  | observeLoadTail observer head => exact ⟨hStage.1, hStage.2.trans hHead.symm⟩
  | _ => exact hStage

/-- The producer only adds elements. -/
theorem ConsumerStage.frame {h h' : History w T} {σ σ' : Memory w (Slot T)} {pc : Local w T}
    {phase : Phase (Call T) (Return w (Option T))} (hStage : ConsumerStage q h σ pc phase)
    (hCommitted : h.committed <+: h'.committed) (hHeads : h.heads ≤ h'.heads)
    (hTails : h'.tails = h.tails) (hDrains : h'.drains = h.drains) (hTail : σ'.tail = σ.tail) :
    ConsumerStage q h' σ' pc phase := by
  cases pc with
  | tryPopClaim tail => exact ⟨hStage.1, by have hSome := hStage.2; omega⟩
  | popSlot blocking position slot pc =>
      obtain ⟨hBlocking, element, hElement, hPhase⟩ := hStage
      refine ⟨hBlocking, element, ?_, hPhase⟩
      rw [hDrains]
      obtain ⟨more, hMore⟩ := hCommitted
      have hLt := (List.getElem?_eq_some_iff.mp hElement).1
      rw [← hMore, List.getElem?_append_left hLt, hElement]
  | observeLoadTail observer head =>
      obtain ⟨result, hResult, hPhase⟩ := hStage
      exact ⟨result, hTail.symm ▸ hResult, hPhase⟩
  | _ => exact hStage

/-- The bounded list that the operations have acted on so far, and the stages
of both threads. -/
structure Staged (q : Queue w) (h : History w T) (σ : Memory w (Slot T))
    (producer consumer : Local w T) (offering accepting : Phase (Call T) (Return w (Option T)))
    (items : List T) : Prop where
  tails_le : h.tails ≤ h.heads
  heads_le : h.heads ≤ h.tails + q.capacity.toNat
  items_eq : items = h.items
  producing : ProducerStage q h σ producer offering
  consuming : ConsumerStage q h σ consumer accepting

section Staged

variable {h : History w T} {σ σ' : Memory w (Slot T)} {producer consumer pc' : Local w T}
  {offering accepting : Phase (Call T) (Return w (Option T))} {items : List T}
  {es : List (Event w T (Option T))}

/-- The counters show the length of the list. -/
theorem Staged.size (hStaged : Staged q h σ producer consumer offering accepting items)
    (hCore : Core q h σ) :
    items.length = h.heads - h.tails ∧ σ.head - σ.tail = BitVec.ofNat w items.length ∧
      (σ.head - σ.tail).toNat = items.length ∧ items.length ≤ q.capacity.toNat := by
  have hLength : items.length = h.heads - h.tails := by
    rw [hStaged.items_eq, History.length_items hCore.heads_le]
  have hTails := hStaged.tails_le
  have hHeads := hStaged.heads_le
  have hCapacity := q.capacity.isLt
  rw [hLength, hCore.head, hCore.tail]
  refine ⟨rfl, Usize.ofNat_sub_ofNat hTails, ?_, by omega⟩
  exact Usize.toNat_ofNat_sub_ofNat hTails (by omega)

/-- An observer that sees both counters at one moment answers for the list. -/
theorem Staged.observe (hStaged : Staged q h σ producer consumer offering accepting items)
    (hCore : Core q h σ) {observer : Observer} {result : Return w (Option T)}
    (hResult : observer.result q.build q.capacity σ.head σ.tail = some result) :
    listQueue w q.capacity.toNat some (.observe observer) items = some (result, items) := by
  obtain ⟨hLength, hWord, hSize, _⟩ := hStaged.size hCore
  cases observer with
  | wasSize =>
      obtain ⟨size, hSub, rfl⟩ := Option.map_eq_some_iff.mp hResult
      rw [Usize.eq_of_sub hSub, hWord]
      rfl
  | wasEmpty =>
      obtain rfl := Option.some.inj hResult
      have hEmpty : items.isEmpty = (σ.head == σ.tail) := by
        rw [Bool.eq_iff_iff, beq_iff_eq, List.isEmpty_iff, ← List.length_eq_zero_iff, ← hSize]
        exact Usize.toNat_sub_eq_zero_iff
      rw [listQueue, hEmpty]
  | wasFull =>
      obtain ⟨size, hSub, rfl⟩ := Option.map_eq_some_iff.mp hResult
      have hFull : (items.length == q.capacity.toNat) = (size == q.capacity) := by
        rw [Bool.eq_iff_iff, beq_iff_eq, beq_iff_eq, ← BitVec.toNat_inj, Usize.eq_of_sub hSub, hSize]
      rw [listQueue, hFull]

/-- Steps of the producer that are not at a slot. A refusal takes effect in the
step that loads `tail`; the exchange is never lost, as nobody else moves
`head`. -/
theorem Staged.produce_quiet (hStaged : Staged q h σ producer consumer offering accepting items)
    (hLinked : Linked q h σ producer consumer) (hStep : q.Quiet σ producer pc' es) :
    ∃ phase items', Explains (listQueue w q.capacity.toNat some) offering items
        (es.filterMap Event.observed) phase items' ∧
      Staged q (es.foldl History.record h) σ pc' consumer phase accepting items' := by
  have hPc := hLinked.producing
  have hStage := hStaged.producing
  have hCore := hLinked.core
  have hCount := hStaged.size hCore
  cases hStep with
  | tryPushLoadHead element =>
      exact ⟨_, _, .silent _ _, { hStaged with producing := hStage }⟩
  | tryPushUnderflow | tryPushOverflow | observeUnderflow =>
      exact ⟨_, _, .silent _ _, { hStaged with producing := trivial }⟩
  | tryPushFull element head hFull =>
      obtain rfl : offering = .invoked (.tryPush element) := hStage
      refine ⟨_, _, .answer ?_, { hStaged with producing := rfl }⟩
      rw [hPc.1, BitVec.le_def, hCount.2.2.1] at hFull
      rw [listQueue, if_neg (by omega)]
  | tryPushProceed element head hSpace =>
      rw [hPc.1, BitVec.le_def, hCount.2.2.1] at hSpace
      refine ⟨_, _, .silent _ _, ?_⟩
      exact { tails_le := hStaged.tails_le
              heads_le := hStaged.heads_le
              items_eq := hStaged.items_eq.trans (History.items_commit hCore.heads_le element).symm
              producing := ⟨hStage, by
                have hTails := hStaged.tails_le
                change h.heads < h.tails + _
                omega⟩
              consuming := hStaged.consuming.frame (List.prefix_append _ _) (Nat.le_refl _) rfl rfl rfl }
  | tryPushLost element head hMoved => exact (hMoved hPc.1.symm).elim
  | observeLoadHead observer =>
      exact ⟨_, _, .silent _ _, { hStaged with producing := ⟨hStage, rfl⟩ }⟩
  | observeReturn observer head result hResult =>
      obtain ⟨rfl, rfl⟩ := hStage
      have hSame : [.loadTail σ.tail, .returned result].foldl History.record h = h :=
        History.record_observed hResult h
      rw [hSame]
      exact ⟨_, _, .answer (hStaged.observe hCore hResult), { hStaged with producing := rfl }⟩
  | tryPopLoadTail | tryPopEmpty | tryPopProceed | tryPopOverflow | tryPopLost => exact hPc.elim

/-- The push takes effect. -/
theorem Staged.claimHead {value : T}
    (hStaged : Staged q h σ producer consumer (.invoked (.tryPush value)) accepting items)
    (hCore : Core q h σ) (hRoom : h.heads < h.tails + q.capacity.toNat)
    (hCommitted : h.committed[h.heads]? = some value) (position : Usize w) (slot : Nat)
    (pc : DoPushAny T) :
    ∃ phase items', Explains (listQueue w q.capacity.toNat some) (.invoked (.tryPush value)) items
        [] phase items' ∧
      Staged q { h with heads := h.heads + 1 } { σ with head := σ.head + 1#w }
        (.pushSlot false position slot pc) consumer phase accepting items' := by
  have hTails := hStaged.tails_le
  have hLength := (hStaged.size hCore).1
  refine ⟨.effected (.tryPush true), items ++ [value], .effect ?_, ?_⟩
  · rw [listQueue, if_pos (by omega)]
  · exact { tails_le := Nat.le_succ_of_le hTails
            heads_le := hRoom
            items_eq := by rw [History.items_claimHead hTails hCommitted, hStaged.items_eq]
            producing := ⟨rfl, rfl⟩
            consuming := hStaged.consuming.frame (List.prefix_refl _) (Nat.le_succ _) rfl rfl rfl }

/-- A step of the producer. -/
theorem Staged.produce (hStaged : Staged q h σ producer consumer offering accepting items)
    (hLinked : Linked q h σ producer consumer) (hStep : Step q producer σ pc' σ' es) :
    ∃ phase items', Explains (listQueue w q.capacity.toNat some) offering items
        (es.filterMap Event.observed) phase items' ∧
      Staged q (es.foldl History.record h) σ' pc' consumer phase accepting items' := by
  have hPc := hLinked.producing
  have hStage := hStaged.producing
  cases hStep with
  | quiet hQuiet => exact hStaged.produce_quiet hLinked hQuiet
  | claimHead hClaim hSlot =>
      cases hClaim with
      | push => exact hStage.elim
      | compareExchange | fetchAdd =>
          obtain ⟨rfl, hRoom⟩ := hStage
          exact hStaged.claimHead hLinked.core hRoom hPc.2.2.1 _ _ _
  | claimTail hClaim => cases hClaim <;> exact hStage.elim
  | pushWait | pushReady =>
      exact ⟨_, _, .silent _ _, { hStaged with producing := hStage }⟩
  | write =>
      exact ⟨_, _, .silent _ _, { hStaged with
        producing := hStage
        consuming := hStaged.consuming.frame (List.prefix_refl _) (Nat.le_refl _) rfl rfl rfl }⟩
  | fill =>
      obtain ⟨rfl, rfl⟩ := hStage
      exact ⟨_, _, .respond _ _, { hStaged with
        producing := rfl
        consuming := hStaged.consuming.frame (List.prefix_refl _) (Nat.le_refl _) rfl rfl rfl }⟩
  | popWait | popReady | read | drain => exact hStage.elim

/-- Steps of the consumer that are not at a slot. An observer of the consumer
takes effect when it loads `head`, as nobody else moves `tail`. -/
theorem Staged.consume_quiet (hRelease : q.build = .release)
    (hStaged : Staged q h σ producer consumer offering accepting items)
    (hLinked : Linked q h σ producer consumer) (hStep : q.Quiet σ consumer pc' es) :
    ∃ phase items', Explains (listQueue w q.capacity.toNat some) accepting items
        (es.filterMap Event.observed) phase items' ∧
      Staged q (es.foldl History.record h) σ producer pc' offering phase items' := by
  have hPc := hLinked.consuming
  have hStage := hStaged.consuming
  have hCore := hLinked.core
  obtain ⟨hLength, _, hSize, _⟩ := hStaged.size hCore
  have hEmpty : σ.tail = σ.head ↔ items = [] := by
    rw [← List.length_eq_zero_iff, ← hSize, Usize.toNat_sub_eq_zero_iff, eq_comm]
  cases hStep with
  | tryPopLoadTail => exact ⟨_, _, .silent _ _, { hStaged with consuming := hStage }⟩
  | tryPopEmpty tail hSame =>
      obtain rfl : accepting = .invoked .tryPop := hStage
      obtain rfl := hEmpty.mp (hPc.1.symm.trans hSame)
      exact ⟨_, _, .answer rfl, { hStaged with consuming := rfl }⟩
  | tryPopProceed tail hSome =>
      refine ⟨_, _, .silent _ _, { hStaged with consuming := ⟨hStage, ?_⟩ }⟩
      have hItems : items.length ≠ 0 := fun hNil =>
        hSome (hPc.1.trans (hEmpty.mpr (List.length_eq_zero_iff.mp hNil)))
      change h.tails < h.heads
      omega
  | tryPopOverflow | observeUnderflow =>
      exact ⟨_, _, .silent _ _, { hStaged with consuming := trivial }⟩
  | tryPopLost tail hMoved => exact (hMoved hPc.1.symm).elim
  | observeLoadHead observer =>
      obtain rfl : accepting = .invoked (.observe observer) := hStage
      obtain ⟨result, hResult⟩ : ∃ result : Return w (Option T),
          observer.result q.build q.capacity σ.head σ.tail = some result := by
        rw [hRelease]
        cases observer <;> simp [Observer.result]
      exact ⟨_, _, .effect (hStaged.observe hCore hResult),
        { hStaged with consuming := ⟨result, hResult, rfl⟩ }⟩
  | observeReturn observer head result hResult =>
      obtain ⟨result', hResult', rfl⟩ := hStage
      obtain rfl := Option.some.inj (hResult.symm.trans hResult')
      have hSame : [.loadTail σ.tail, .returned result].foldl History.record h = h :=
        History.record_observed hResult h
      rw [hSame]
      exact ⟨_, _, .respond _ _, { hStaged with consuming := rfl }⟩
  | tryPushLoadHead | tryPushUnderflow | tryPushFull | tryPushProceed | tryPushOverflow
  | tryPushLost => exact hPc.elim

/-- The pop takes effect, with the element it will find in the slot. -/
theorem Staged.claimTail
    (hStaged : Staged q h σ producer consumer offering (.invoked .tryPop) items)
    (hCore : Core q h σ) (hSome : h.tails < h.heads) (hDrains : h.drains = h.tails)
    (position : Usize w) (slot : Nat) (pc : DoPopAny T) :
    ∃ phase items', Explains (listQueue w q.capacity.toNat some) (.invoked .tryPop) items
        [] phase items' ∧
      Staged q { h with tails := h.tails + 1 } { σ with tail := σ.tail + 1#w } producer
        (.popSlot false position slot pc) offering phase items' := by
  have hLt := Nat.lt_of_lt_of_le hSome hCore.heads_le
  have hCommitted : h.committed[h.tails]? = some h.committed[h.tails] :=
    List.getElem?_eq_getElem hLt
  have hItems := hStaged.items_eq.trans (History.items_claimTail hSome hCommitted)
  refine ⟨.effected (.tryPop (some (some h.committed[h.tails]))),
    History.items { h with tails := h.tails + 1 }, .effect ?_, ?_⟩
  · rw [hItems, listQueue]
  · exact { tails_le := hSome
            heads_le := Nat.le_trans hStaged.heads_le (by
              change h.tails + _ ≤ h.tails + 1 + _
              omega)
            items_eq := rfl
            producing := hStaged.producing.frame rfl (Nat.le_succ _) rfl
            consuming := ⟨rfl, _, by rw [hDrains]; exact hCommitted, rfl⟩ }

/-- A step of the consumer. -/
theorem Staged.consume (hRelease : q.build = .release)
    (hStaged : Staged q h σ producer consumer offering accepting items)
    (hLinked : Linked q h σ producer consumer) (hStep : Step q consumer σ pc' σ' es) :
    ∃ phase items', Explains (listQueue w q.capacity.toNat some) accepting items
        (es.filterMap Event.observed) phase items' ∧
      Staged q (es.foldl History.record h) σ' producer pc' offering phase items' := by
  have hPc := hLinked.consuming
  have hStage := hStaged.consuming
  cases hStep with
  | quiet hQuiet => exact hStaged.consume_quiet hRelease hLinked hQuiet
  | claimHead hClaim => cases hClaim <;> exact hStage.elim
  | claimTail hClaim hSlot =>
      cases hClaim with
      | pop => exact hStage.elim
      | compareExchange | fetchAdd =>
          obtain ⟨rfl, hSome⟩ := hStage
          exact hStaged.claimTail hLinked.core hSome hPc.2.1 _ _ _
  | popWait | popReady => exact ⟨_, _, .silent _ _, { hStaged with consuming := hStage }⟩
  | read =>
      exact ⟨_, _, .silent _ _, { hStaged with
        producing := hStaged.producing.frame rfl (Nat.le_refl _) rfl
        consuming := hStage }⟩
  | drain value =>
      obtain ⟨rfl, element, hElement, rfl⟩ := hStage
      obtain ⟨_, _, _, _, _, element', rfl, hElement'⟩ := hPc
      obtain rfl := Option.some.inj (hElement.symm.trans hElement')
      exact ⟨_, _, .respond _ _, { hStaged with
        producing := hStaged.producing.frame rfl (Nat.le_refl _) rfl
        consuming := rfl }⟩
  | pushWait | pushReady | write | fill => exact hStage.elim

end Staged

section Run

/-- Both threads keep to their sides and do not block. -/
def endpointCalls (producer consumer : Nat) (trace : Trace (Event w T (Option T)))
    (s : Config w T) (action : Action (Call T)) : Prop :=
  spscCalls producer consumer trace s action ∧ nonBlockingCalls trace s action

instance (producer consumer : Nat) (trace : Trace (Event w T (Option T))) (s : Config w T)
    (action : Action (Call T)) : Decidable (endpointCalls producer consumer trace s action) :=
  inferInstanceAs (Decidable (_ ∧ _))

variable {producer consumer : Nat} {maximizeThroughput : Bool}
  {trace : Trace (Event w T (Option T))} {s : Config w T}

theorem heads_le_append (trace events : Trace (Event w T (Option T))) :
    (History.of trace).heads ≤ (History.of (trace ++ events)).heads := by
  rw [History.of, History.of, List.foldl_append]
  induction events generalizing trace with
  | nil => exact Nat.le_refl _
  | cons event events ih =>
      have hFirst := heads_le_record (History.of trace) event.2
      have hRest := ih (trace ++ [event])
      rw [List.foldl_append] at hRest
      exact Nat.le_trans hFirst hRest

/-- The list after a run, with the phases of both threads. -/
def StagedAt (q : Queue w) (producer consumer : Nat) (trace : Trace (Event w T (Option T)))
    (s : Config w T) (phases : Nat → Phase (Call T) (Return w (Option T))) (items : List T) : Prop :=
  Staged q (History.of trace) s.shared (s.threads producer) (s.threads consumer)
    (phases producer) (phases consumer) items

theorem stagedAt_start : StagedAt q producer consumer [] (initial w (Slot.new T))
    (fun _ => .idle) [] :=
  ⟨Nat.le_refl _, Nat.zero_le _, rfl, rfl, rfl⟩

variable {phases : Nat → Phase (Call T) (Return w (Option T))} {items : List T}

/-- A new call of an idle endpoint is invoked and has not taken effect yet. -/
theorem StagedAt.call (hNe : producer ≠ consumer)
    (h : StagedAt q producer consumer trace s phases items) {thread : Nat} {operation : Call T}
    (hIdle : s.threads thread = .idle)
    (hAllowed : endpointCalls producer consumer trace s (.call thread operation)) :
    phases thread = .idle ∧
      StagedAt q producer consumer (trace ++ [.call operation].map (Prod.mk thread))
        ⟨s.shared, Function.update s.threads thread (Queue.start operation)⟩
        (Function.update phases thread (.invoked operation)) items := by
  have hHistory := History.of_append trace thread [.call operation]
  have hProducing := h.producing
  have hConsuming := h.consuming
  obtain ⟨hSide, hBlocking⟩ := hAllowed
  cases operation with
  | push | pop => exact hBlocking.elim
  | tryPush element =>
      obtain rfl : thread = producer := hSide
      rw [hIdle] at hProducing
      refine ⟨hProducing, ?_⟩
      simp only [StagedAt, hHistory, Function.update_self, Function.update_of_ne hNe.symm]
      exact { h with producing := rfl }
  | tryPop =>
      obtain rfl : thread = consumer := hSide
      rw [hIdle] at hConsuming
      refine ⟨hConsuming, ?_⟩
      simp only [StagedAt, hHistory, Function.update_self, Function.update_of_ne hNe]
      exact { h with consuming := rfl }
  | observe observer =>
      rcases hSide with rfl | rfl
      · rw [hIdle] at hProducing
        refine ⟨hProducing, ?_⟩
        simp only [StagedAt, hHistory, Function.update_self, Function.update_of_ne hNe.symm]
        exact { h with producing := rfl }
      · rw [hIdle] at hConsuming
        refine ⟨hConsuming, ?_⟩
        simp only [StagedAt, hHistory, Function.update_self, Function.update_of_ne hNe]
        exact { h with consuming := rfl }

/-- A step of either thread explains what is seen of it. -/
theorem StagedAt.step (hIndexed : q.Indexed) (hRelease : q.build = .release)
    (hNe : producer ≠ consumer) (h : StagedAt q producer consumer trace s phases items)
    (hServed : Served q producer consumer trace s) {thread : Nat} {pc : Local w T}
    {shared : Memory w (Slot T)} {es : List (Event w T (Option T))}
    (hStep : q.step (AtomicQueue2.slotCode T maximizeThroughput true) (s.threads thread) s.shared =
      some (pc, shared, es)) :
    ∃ phase items', Explains (listQueue w q.capacity.toNat some) (phases thread) items
        (es.filterMap Event.observed) phase items' ∧
      StagedAt q producer consumer (trace ++ es.map (Prod.mk thread))
        ⟨shared, Function.update s.threads thread pc⟩ (Function.update phases thread phase) items' := by
  have hHistory := History.of_append trace thread es
  by_cases hProducer : thread = producer
  · subst hProducer
    have hCases := step_cases hIndexed (hServed.placed thread) (Queue.step_cases hStep)
    obtain ⟨phase, items', hExplains, hNext⟩ := Staged.produce h hServed.linked hCases
    refine ⟨phase, items', hExplains, ?_⟩
    simp only [StagedAt, hHistory, Function.update_self, Function.update_of_ne hNe.symm]
    exact hNext
  · by_cases hConsumer : thread = consumer
    · subst hConsumer
      have hCases := step_cases hIndexed (hServed.placed thread) (Queue.step_cases hStep)
      obtain ⟨phase, items', hExplains, hNext⟩ := Staged.consume hRelease h hServed.linked hCases
      refine ⟨phase, items', hExplains, ?_⟩
      simp only [StagedAt, hHistory, Function.update_self, Function.update_of_ne hNe]
      exact hNext
    · rw [hServed.others thread hProducer hConsumer] at hStep
      cases hStep

/-- The list takes each step of the run either as the effect of the operation in
progress or as nothing, in the order of the run. That is a linearization: an
effect lies between the call and the return of its operation. -/
theorem linearizable_of_run (hIndexed : q.Indexed) (hRelease : q.build = .release)
    (hNe : producer ≠ consumer)
    (run : Run (q.threadCode (AtomicQueue2.slotCode T maximizeThroughput true))
      (endpointCalls producer consumer) (initial w (Slot.new T)) trace s)
    (hBound : (History.of trace).heads < 2 ^ w) :
    Linearizable (listQueue w q.capacity.toNat some) [] (trace.history Event.observed) := by
  have hWithin : Run _ (fun trace s action => endpointCalls producer consumer trace s action ∧
      (History.of trace).heads < 2 ^ w) _ trace s :=
    run.within (fun trace events h => Nat.lt_of_le_of_lt (heads_le_append trace events) h) hBound
  refine hWithin.linearizable Event.observed (StagedAt q producer consumer) stagedAt_start ?_ ?_
  · intro trace s phases items thread operation pc es hStaged hAllowed hCall
    obtain ⟨hIdle, rfl, rfl⟩ := Queue.call_cases hCall
    obtain ⟨hPhase, hNext⟩ := hStaged.call hNe hIdle hAllowed.1
    refine ⟨.invoked operation, items, ?_, hNext⟩
    rw [hPhase]
    exact .invoke operation items
  · intro trace s phases items thread pc shared es prior hStaged hAllowed hStep
    have hServed := served_of_run hIndexed hRelease hNe
      (prior.weaken fun _ _ _ hAllowed => hAllowed.1.1) hAllowed.2
    exact hStaged.step hIndexed hRelease hNe hServed hStep

end Run

end Spsc

/-- One producer calling `try_push` and one consumer calling `try_pop`, both
also calling the observers, on a queue of any capacity. Refusals are explained
too: at some moment of the call the list is full, or empty. -/
theorem linearizable_of_spsc {target : Target w} {totalOrder : Bool} {q : Queue w}
    (hq : IsAtomicQueue2 target totalOrder q) (hRelease : target.build = .release)
    (hPos : 0 < q.capacity.toNat) (maximizeThroughput : Bool) {producer consumer : Nat}
    (hNe : producer ≠ consumer) {trace : Trace (Event w T (Option T))} {s : AtomicQueue2.Config w T}
    (run : Run (q.threadCode (AtomicQueue2.slotCode T maximizeThroughput true))
      (Spsc.endpointCalls producer consumer) (initial w (Slot.new T)) trace s)
    (hUsed : (History.of trace).heads < 2 ^ w) :
    Linearizable (listQueue w q.capacity.toNat some) [] (trace.history Event.observed) :=
  Spsc.linearizable_of_run (hq.indexed hPos) (hq.build_eq.trans hRelease) hNe run hUsed

/-- The consumer claims the position while its element is still on its way. -/
theorem linearizable_twoSlots : ∃ trace : Trace (Event 64 Nat (Option Nat)),
    (History.of trace).returned = [some 7] ∧ (trace.history Event.observed).length = 6 ∧
      Linearizable (listQueue 64 2 some) [] (trace.history Event.observed) := by
  refine ⟨_, ?_, ?_, linearizable_of_spsc (.fixed _ _ (AtomicQueue2.new_twoSlots false)) rfl
    (by decide) true (by decide)
    (Run.ofExec 2 (fun trace s action => decide (Spsc.endpointCalls 0 1 trace s action))
      (fun _ _ _ _ => of_decide_eq_true)
      [.call 0 (.tryPush 7), .call 1 (.observe .wasEmpty), .step 1, .step 0, .step 0, .step 0,
        .step 1, .call 1 .tryPop, .step 1, .step 1, .step 1, .step 1, .step 0, .step 0, .step 0,
        .step 1, .step 1, .step 1] (by decide) (by decide +kernel)) ?_⟩
  · decide +kernel
  · decide +kernel
  · decide +kernel

end AtomicQueueRs
