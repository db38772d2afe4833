import AtomicQueueRs.Refusal
import AtomicQueueRs.Settlement

/-! Delivery through an `AtomicQueue`: what producers were told is in the
queue, what consumers were handed, and what the slots between the counters
hold when no call is in progress. -/
namespace AtomicQueueRs

set_option autoImplicit false

open Interleaving (Trace Run Action exec)

variable {w : Nat} {T : Type} [Element T]

namespace Cells

open AtomicQueue (Local Config)

variable {q : Queue w} {bigEndian : Bool}

/-- What the slots of the positions from `tail` up to `head` hold. -/
def held (q : Queue w) (bigEndian : Bool) (s : Config w T) : List T :=
  s.shared.window.filterMap fun position =>
    (q.getSlot position).bind fun slot => AtomicValue.load bigEndian (s.shared.slots slot)

section Quiescent

variable {trace : Trace (Event w T T)} {s : Config w T}

omit [Element T] in
/-- Between calls no thread is about to store, to empty a slot, or holds an
element. -/
theorem owes_nothing_of_quiescent (hQuiescent : Quiescent s) (thread : Nat) :
    storesTo (s.threads thread) = none ∧ emptying (s.threads thread) = none ∧
      carried (s.threads thread) = none := by
  rcases hQuiescent thread with hPc | hPc <;> rw [hPc] <;> exact ⟨rfl, rfl, rfl⟩

/-- Between calls, a slot has been written as often as `head` has passed it. -/
theorem Settled.writes_length (h : Settled q trace s) (hQuiescent : Quiescent s) (slot : Nat) :
    (writesAt slot trace).length = ((headClaims trace).map Prod.snd).countP (q.atSlot slot) := by
  have hPerm := (h.storesTo.perm fun thread => (owes_nothing_of_quiescent hQuiescent thread).1).map
    Prod.snd
  rw [Trace.map_tagged, Trace.map_tagged] at hPerm
  rw [← count_storedTo, ← hPerm.count_eq, count_slotOf]
  rfl

/-- Between calls, a slot has been emptied as often as `tail` has passed it. -/
theorem Settled.drains_length (h : Settled q trace s) (hQuiescent : Quiescent s) (slot : Nat) :
    (drainsAt slot trace).length = ((tailClaims trace).map Prod.snd).countP (q.atSlot slot) := by
  have hPerm := (h.emptied.perm fun thread =>
    (owes_nothing_of_quiescent hQuiescent thread).2.1).map Prod.snd
  rw [Trace.map_tagged, Trace.map_tagged] at hPerm
  rw [← count_emptied, ← hPerm.count_eq, count_slotOf]
  rfl

/-- Everything that has been read has been handed over. -/
theorem Settled.loads_perm (h : Settled q trace s) (hQuiescent : Quiescent s) :
    ((loads trace).map Prod.snd).Perm (AtomicQueueRs.popped trace) := by
  have hPerm := (h.popped.perm fun thread =>
    (owes_nothing_of_quiescent hQuiescent thread).2.2).map Prod.snd
  rw [Trace.map_tagged, Trace.map_tagged] at hPerm
  have hLoads : (loads trace).map Prod.snd = trace.select fun _ => Event.loadedValue := by
    rw [loads, Trace.select, List.map_filterMap]
    rfl
  rw [hLoads]
  exact hPerm

theorem Contents.phase_of_quiescent {slot drained : Nat} {cell : Usize w} {writes reads : List T}
    {owner : Option Nat} (h : Contents bigEndian slot s.threads cell writes reads drained owner)
    (hQuiescent : Quiescent s) : Phase bigEndian cell writes reads drained none := by
  obtain rfl := h.owned.eq_none fun thread hClearing => by
    rcases hQuiescent thread with hPc | hPc <;> rw [hPc] at hClearing <;> exact hClearing rfl
  exact h.phase

/-- Without claims nothing has been stored, and nothing is held. -/
theorem delivered_of_untouched (h : Settled q trace s) (hCounted : Counted trace s)
    (hQuiescent : Quiescent s) (hHeads : headClaims trace = []) (hTails : tailClaims trace = [])
    (hPhase : ∀ slot, Phase bigEndian (s.shared.slots slot) (writesAt slot trace)
      (readsAt slot trace) (drainsAt slot trace).length none) :
    (AtomicQueueRs.accepted trace).Perm (AtomicQueueRs.popped trace ++ held q bigEndian s) := by
  have hWrites (slot : Nat) : writesAt slot trace = [] := by
    have hLength := h.writes_length hQuiescent slot
    rw [hHeads] at hLength
    exact List.length_eq_zero_iff.mp hLength
  have hReads (slot : Nat) : readsAt slot trace = [] := by
    cases hPhase slot with
    | empty _ hReads => rw [← hReads, hWrites]
    | stored _ _ _ hReads => simp [hWrites] at hReads
  have hStores : stores trace = [] := by
    refine List.eq_nil_iff_forall_not_mem.mpr fun ⟨slot, value⟩ => ?_
    rw [← List.count_eq_zero, count_stores, hWrites, List.count_nil]
  have hLoads : loads trace = [] := by
    refine List.eq_nil_iff_forall_not_mem.mpr fun ⟨slot, value⟩ => ?_
    rw [← List.count_eq_zero, count_loads, hReads, List.count_nil]
  have hHeld : held q bigEndian s = [] := by
    have hSize : s.shared.head - s.shared.tail = 0#w := by
      rw [hCounted.head, hCounted.tail, hHeads, hTails, BitVec.sub_self]
    rw [held, AtomicQueueCommon.window, hSize]
    rfl
  have hPopped := h.loads_perm hQuiescent
  rw [hLoads] at hPopped
  rw [h.accepted, hStores, hHeld, List.append_nil]
  exact hPopped

/-- What a slot is read as. -/
def content (bigEndian : Bool) (s : Config w T) (slot : Nat) : T :=
  (AtomicValue.load bigEndian (s.shared.slots slot)).getD Element.default

/-- Elements as wide as the word can be read back from any word, including one
that no store has written. -/
theorem load_eq_content (hBits : Element.bits T = w) (slot : Nat) :
    AtomicValue.load bigEndian (s.shared.slots slot) = some (content bigEndian s slot) := by
  rw [content, AtomicValue.load, transmuteCopy_of_eq hBits.symm]
  rfl

/-- The slots between the counters with their contents. -/
def residents (q : Queue w) (bigEndian : Bool) (s : Config w T) (m n : Nat) : List (Nat × T) :=
  (List.range (n - m)).map fun i => (q.slotAt (m + i), content bigEndian s (q.slotAt (m + i)))

/-- The window of the counters as a list of slots with what each is read as. The
counters may have wrapped; the window may not be a whole range long. -/
theorem held_eq (hBits : Element.bits T = w) (hIndexed : q.Indexed) {m n : Nat}
    (hHead : s.shared.head = BitVec.ofNat w n) (hTail : s.shared.tail = BitVec.ofNat w m)
    (hLe : m ≤ n) (hLt : n - m < 2 ^ w) :
    held q bigEndian s = (residents q bigEndian s m n).map Prod.snd := by
  rw [held, residents, AtomicQueueCommon.window, hHead, hTail,
    Usize.toNat_ofNat_sub_ofNat hLe hLt, List.filterMap_map, List.map_map, ← List.filterMap_eq_map]
  congr 1
  funext i
  simp only [Function.comp_apply, ← BitVec.ofNat_add, hIndexed.getSlot_ofNat, Option.bind_some,
    load_eq_content hBits]

/-- Slot by slot, what was stored has been read or is still held. -/
theorem count_stores_of_quiescent (hBits : Element.bits T = w) {m n : Nat}
    (hInj : Set.InjOn q.slotAt (Finset.Ico m n)) {slot : Nat}
    (hHeads : (writesAt slot trace).length = Ring.visits q.slotAt slot n)
    (hTails : (drainsAt slot trace).length = Ring.visits q.slotAt slot m)
    (hPhase : Phase bigEndian (s.shared.slots slot) (writesAt slot trace) (readsAt slot trace)
      (drainsAt slot trace).length none) (value : T) :
    (stores trace).count (slot, value) =
      (loads trace ++ residents q bigEndian s m n).count (slot, value) := by
  rw [List.count_append, count_stores, count_loads, residents,
    Ring.count_contents (content bigEndian s) hInj]
  cases hPhase with
  | empty _ hReads hDrained =>
      rw [if_neg (by rw [← hHeads, ← hTails, hReads, hDrained]; omega), hReads, Nat.add_zero]
  | stored stored hCell _ hReads hDrained =>
      have hContent : content bigEndian s slot = stored :=
        AtomicValue.eq_of_load_store hCell (load_eq_content hBits slot)
      have hMore : Ring.visits q.slotAt slot m < Ring.visits q.slotAt slot n := by
        rw [← hHeads, ← hTails, hReads, hDrained, List.length_append, List.length_singleton]
        omega
      rw [hReads, List.count_append, List.count_singleton, hContent]
      simp [hMore]

/-- The accounting between calls. Each slot has been written once more than it
was read exactly when it lies between the counters, so the writes not read are
the contents of the window. -/
theorem delivered_of_quiescent (hBits : Element.bits T = w) (hIndexed : q.Indexed)
    (h : Settled q trace s) (hOrdered : Ordered trace s) (hQuiescent : Quiescent s)
    (hPhase : ∀ slot, Phase bigEndian (s.shared.slots slot) (writesAt slot trace)
      (readsAt slot trace) (drainsAt slot trace).length none) :
    (AtomicQueueRs.accepted trace).Perm (AtomicQueueRs.popped trace ++ held q bigEndian s) := by
  have hHeads (slot : Nat) : (writesAt slot trace).length =
      Ring.visits q.slotAt slot (headClaims trace).length := by
    rw [h.writes_length hQuiescent, hOrdered.heads, hIndexed.countP_positions]
  have hTails (slot : Nat) : (drainsAt slot trace).length =
      Ring.visits q.slotAt slot (tailClaims trace).length := by
    rw [h.drains_length hQuiescent, hOrdered.tails, hIndexed.countP_positions]
  have hFull (slot : Nat) : (writesAt slot trace).length = (drainsAt slot trace).length ∨
      (writesAt slot trace).length = (drainsAt slot trace).length + 1 := by
    cases hPhase slot with
    | empty _ hReads hDrained => exact Or.inl (by rw [hReads, hDrained])
    | stored _ _ _ hReads hDrained =>
        exact Or.inr (by rw [hReads, hDrained, List.length_append, List.length_singleton])
  have hBalance : ∀ slot < q.capacity.toNat, Ring.visits q.slotAt slot (headClaims trace).length =
      Ring.visits q.slotAt slot (tailClaims trace).length +
        ((writesAt slot trace).length - (drainsAt slot trace).length) := fun slot _ => by
    rw [← hHeads, ← hTails]
    rcases hFull slot with hEq | hEq <;> omega
  have hOne : ∀ slot < q.capacity.toNat,
      (writesAt slot trace).length - (drainsAt slot trace).length ≤ 1 := fun slot _ => by
    rcases hFull slot with hEq | hEq <;> omega
  have hLe := Ring.le_of_balanced hIndexed.slotAt_lt hBalance
  have hLength := Ring.length_le_of_balanced hIndexed.slotAt_lt hBalance hOne
  have hInj := Ring.injOn_of_balanced hIndexed.slotAt_lt hBalance hOne
  have hCapacity := q.capacity.isLt
  have hStores : (stores trace).Perm (loads trace ++ residents q bigEndian s
      (tailClaims trace).length (headClaims trace).length) :=
    List.perm_iff_count.mpr fun ⟨slot, value⟩ =>
      count_stores_of_quiescent hBits hInj (hHeads slot) (hTails slot) (hPhase slot) value
  have hValues := hStores.map Prod.snd
  rw [List.map_append, ← h.accepted,
    ← held_eq hBits hIndexed hOrdered.head hOrdered.tail hLe (by omega)] at hValues
  exact hValues.trans ((h.loads_perm hQuiescent).append_right _)

end Quiescent

/-- `try_push` of elements other than the default one and `try_pop`, where
stores find empty slots and consumers take from a slot one at a time. -/
def guardedCalls (bigEndian : Bool) (trace : Trace (Event w T T)) (s : Config w T)
    (action : Action (Call T)) : Prop :=
  nonBlockingCalls trace s action ∧ NonDefault action ∧ Guarded bigEndian s action

end Cells

/-- With no call in progress, the elements accepted are those handed over and
those held, each as often. Slots have to start out empty: the words of a new
queue are zero, which must read as the default value. -/
theorem delivered_of_guardedCalls {target : Target w} {q : Queue w} (hq : IsAtomicQueue target q)
    (hBits : Element.bits T = w) (hZero : Element.ZeroDefault T) (bigEndian : Bool)
    {trace : Trace (Event w T T)} {s : AtomicQueue.Config w T}
    (run : Run (q.threadCode (AtomicQueue.slotCode w T bigEndian)) (Cells.guardedCalls bigEndian)
      (initial w (AtomicValue.new w)) trace s) (hQuiescent : Quiescent s) :
    (accepted trace).Perm (popped trace ++ Cells.held q bigEndian s) := by
  have hSettled := Cells.settled_of_run hBits run
  have hPhase (slot : Nat) : Cells.Phase bigEndian (s.shared.slots slot) (writesAt slot trace)
      (readsAt slot trace) (drainsAt slot trace).length none := by
    obtain ⟨owner, hContents⟩ := Cells.contents_of_run hBits hZero
      (fun _ _ _ hAllowed => hAllowed.2.1) (fun _ _ _ hAllowed => hAllowed.2.2) run slot
    exact hContents.phase_of_quiescent hQuiescent
  rcases Nat.eq_zero_or_pos q.capacity.toNat with hZero | hPos
  · have hCapacity : q.capacity = 0#w := BitVec.eq_of_toNat_eq (by simpa using hZero)
    obtain ⟨hHeads, hTails⟩ := claims_eq_nil
      (untouched_of_run hCapacity (run.weaken fun _ _ _ hAllowed => hAllowed.1))
    exact Cells.delivered_of_untouched hSettled (counted_of_run run) hQuiescent hHeads hTails hPhase
  · have hOrdered := ordered_of_run (fun _ _ action _ => by
      cases action with
      | call => exact trivial
      | step => exact Or.inl hq.totalOrder_eq) run
    exact Cells.delivered_of_quiescent hBits (hq.indexed hPos) hSettled hOrdered hQuiescent hPhase

/-- A decidable form of the guards, for threads below a bound. -/
def Cells.guardedTest {w : Nat} {T : Type} [Element T] (bigEndian : Bool) (bound : Nat)
    (s : AtomicQueue.Config w T) : Action (Call T) → Bool
  | .call _ operation => operation.element.all fun element => !decide (Element.IsDefault element)
  | .step thread =>
      ((Cells.storesTo (s.threads thread)).all fun slot =>
        decide (AtomicValue.Vacant T bigEndian (s.shared.slots slot))) &&
      (Cells.loadsFrom (s.threads thread)).all fun slot =>
        decide (AtomicValue.Vacant T bigEndian (s.shared.slots slot)) ||
          (List.range bound).all fun other => (Cells.inHand slot (s.threads other)).isNone

/-- The test looks at the threads below a bound, and the others are idle. -/
theorem Cells.guarded_of_test {w : Nat} {T : Type} [Element T] {bigEndian : Bool} {bound : Nat}
    {s : AtomicQueue.Config w T} {action : Action (Call T)}
    (hRest : ∀ thread, bound ≤ thread → s.threads thread = .idle)
    (hTest : Cells.guardedTest bigEndian bound s action = true) :
    Cells.NonDefault action ∧ Cells.Guarded bigEndian s action := by
  cases action with
  | call actor operation =>
      simp only [Cells.guardedTest, Option.all_eq_true, Bool.not_eq_true', decide_eq_false_iff_not] at hTest
      exact ⟨hTest, trivial⟩
  | step thread =>
      simp only [Cells.guardedTest, Bool.and_eq_true, Option.all_eq_true, Bool.or_eq_true,
        decide_eq_true_eq, List.all_eq_true, List.mem_range, Option.isNone_iff_eq_none] at hTest
      refine ⟨trivial, hTest.1, fun slot hLoads hFull other => ?_⟩
      rcases Nat.lt_or_ge other bound with hLt | hGe
      · exact (hTest.2 slot hLoads).resolve_left hFull other hLt
      · rw [hRest other hGe]
        rfl

/-- Two elements are accepted and one is popped; the other is found in the
window. -/
theorem delivered_oneSlot : ∃ trace : Trace (Event 64 (BitVec 64) (BitVec 64)),
    ∃ s : AtomicQueue.Config 64 (BitVec 64), accepted trace = [7#64, 8#64] ∧
      popped trace = [7#64] ∧ Cells.held AtomicQueue.oneSlot false s = [8#64] ∧
      (accepted trace).Perm (popped trace ++ Cells.held AtomicQueue.oneSlot false s) := by
  have hRun : (exec (AtomicQueue.oneSlot.threadCode (AtomicQueue.slotCode 64 (BitVec 64) false))
      (fun trace s action => decide (nonBlockingCalls trace s action) &&
        Cells.guardedTest false 2 s action)
      [.call 0 (.tryPush 7#64), .step 0, .step 0, .step 0, .call 1 .tryPop, .step 1, .step 1,
        .step 1, .step 1, .step 0, .step 1, .step 1, .call 0 (.tryPush 8#64), .step 0, .step 0,
        .step 0, .step 0] []
      (initial 64 (AtomicValue.new 64))).isSome := by decide +kernel
  refine ⟨_, _, ?_, ?_, ?_, delivered_of_guardedCalls (.fixed _ AtomicQueue.new_oneSlot) rfl
    (Element.zeroDefault 64) false
    (Run.ofExec 2 _ ?_ _ (by decide) hRun)
    (quiescent_of_exec (Option.some_get hRun).symm 2 (by decide) (by decide +kernel +revert))⟩
  · decide +kernel +revert
  · decide +kernel +revert
  · decide +kernel +revert
  · intro trace s action hRest hTest
    rw [Bool.and_eq_true, decide_eq_true_eq] at hTest
    exact ⟨hTest.1, Cells.guarded_of_test hRest hTest.2⟩

/-- One producer and one consumer. The consumer has loaded the first element
when the second is stored over it, and then empties the slot. -/
def lateClear : Option (Trace (Event 64 (BitVec 64) (BitVec 64)) ×
    AtomicQueue.Config 64 (BitVec 64)) :=
  exec (AtomicQueue.oneSlot.threadCode (AtomicQueue.slotCode 64 (BitVec 64) false))
    (fun trace s action => decide (nonBlockingCalls trace s action) && match action with
      | .call _ operation => operation.element.all fun element => element != 0#64
      | .step _ => true)
    [.call 0 (.tryPush 7#64), .step 0, .step 0, .step 0, .step 0, .call 1 .tryPop, .step 1,
      .step 1, .step 1, .step 1, .call 0 (.tryPush 8#64), .step 0, .step 0, .step 0, .step 0,
      .step 1] [] (initial 64 (AtomicValue.new 64))

theorem lateClear_isSome : lateClear.isSome := by decide +kernel

/-- Both elements were accepted; only the first is handed over and the slot
between the counters holds the empty word. -/
theorem lateClear_loses : ∃ trace, ∃ s : AtomicQueue.Config 64 (BitVec 64),
    Run (AtomicQueue.oneSlot.threadCode (AtomicQueue.slotCode 64 (BitVec 64) false))
        (fun trace s action => nonBlockingCalls trace s action ∧ Cells.NonDefault action)
        (initial 64 (AtomicValue.new 64)) trace s ∧
      Quiescent s ∧ accepted trace = [7#64, 8#64] ∧ popped trace = [7#64] ∧
      Cells.held AtomicQueue.oneSlot false s = [0#64] ∧
      ¬ (accepted trace).Perm (popped trace ++ Cells.held AtomicQueue.oneSlot false s) := by
  refine ⟨_, _, Run.ofExec 2 _ (fun trace s action _ hTest => ?_) _ (by decide) lateClear_isSome,
    quiescent_of_exec (Option.some_get lateClear_isSome).symm 2 (by decide) (by decide +kernel),
    ?_, ?_, ?_, ?_⟩
  · rw [Bool.and_eq_true, decide_eq_true_eq] at hTest
    refine ⟨hTest.1, ?_⟩
    cases action with
    | call actor operation =>
        have hElement := hTest.2
        simp only [Option.all_eq_true, bne_iff_ne] at hElement
        exact fun element hSome hDefault =>
          hElement element hSome ((Element.isDefault_iff element).mp hDefault)
    | step => trivial
  · decide +kernel
  · decide +kernel
  · decide +kernel
  · decide +kernel

end AtomicQueueRs
