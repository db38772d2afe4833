import AtomicQueueRs.Provenance
import AtomicQueueRs.Quiescence
import AtomicQueueRs.SlotOwnership

/-! Back to rest. Whatever has been going on among the threads of an MPMC queue
whose positions are claimed in order, the memory holds a list again as soon as
no call is in progress, and calls made one after the other find that list. -/
namespace AtomicQueueRs

set_option autoImplicit false

open Interleaving (Trace Run Action exec anyAction)
open Refinement (runAll)

variable {w : Nat} {T V C U O : Type}

/-- Neither `try_push` nor `try_pop`, or a queue on which they claim by
`compare_exchange`. -/
def orderedCalls (q : Queue w) (_ : Trace (Event w T V)) (_ : State w T C U O) :
    Action (Call T) → Prop
  | .call _ (.tryPush _) | .call _ .tryPop => q.totalOrder = true
  | _ => True

/-- The call does not claim by a counter that it has loaded before. -/
def Pc.Blocking : Pc w T U O → Prop
  | .tryPushLoadHead _ | .tryPushLoadTail _ _ | .tryPushClaim _ _ | .tryPopLoadTail
  | .tryPopLoadHead _ | .tryPopClaim _ => False
  | _ => True

section Order

variable {q : Queue w} {code : SlotCode T V C U O} {empty : C}

/-- A call does not turn into one of another kind. -/
theorem Step.blocking {σ σ' : Memory w C} {pc pc' : Pc w T U O} {es : List (Event w T V)}
    (h : q.Step code pc σ pc' σ' es) (hBlocking : pc.Blocking) : pc'.Blocking := by
  cases h with
  | quiet h => cases h <;> trivial
  | claimHead =>
      unfold Queue.enterPush
      split <;> trivial
  | claimTail =>
      unfold Queue.enterPop
      split <;> trivial
  | pushSlot =>
      unfold Queue.afterPush
      split <;> trivial
  | popSlot =>
      unfold Queue.afterPop
      split <;> trivial

/-- Either the queue claims by `compare_exchange`, or no call in progress
carries a counter that it has loaded. -/
theorem blocking_of_run {trace : Trace (Event w T V)} {s : State w T C U O}
    (run : Run (q.threadCode code) (orderedCalls q) (initial w empty) trace s) :
    q.totalOrder = true ∨ ∀ thread, (s.threads thread).Blocking := by
  refine run.invariant (fun _ s => q.totalOrder = true ∨ ∀ thread, (s.threads thread).Blocking)
    (Or.inr fun _ => trivial) ?_ ?_
  · intro trace s thread operation pc es _ ih hAllowed hCall
    obtain ⟨_, rfl, _⟩ := Queue.call_cases hCall
    rw [Function.forall_update_iff s.threads fun _ pc => pc.Blocking]
    cases operation with
    | tryPush | tryPop => exact Or.inl hAllowed
    | push | pop | observe => exact ih.imp_right fun h => ⟨trivial, fun other _ => h other⟩
  · intro trace s thread pc shared es _ ih _ hStep
    rw [Function.forall_update_iff s.threads fun _ pc => pc.Blocking]
    exact ih.imp_right fun h => ⟨Step.blocking (Queue.step_cases hStep) (h thread), fun other _ => h other⟩

/-- `push` and `pop` claim what they find, so their claims are never stale. -/
theorem Pc.Blocking.current {pc : Pc w T U O} (h : pc.Blocking) (common : AtomicQueueCommon w) :
    pc.Current common := by
  cases pc <;> trivial

/-- With no stale claim possible, positions are claimed in order. -/
theorem ordered_of_orderedCalls {trace : Trace (Event w T V)} {s : State w T C U O}
    (run : Run (q.threadCode code) (orderedCalls q) (initial w empty) trace s) :
    Ordered trace s := by
  refine ordered_of_run (fun _ _ _ hAllowed => hAllowed.2)
    (run.strengthen (CurrentClaim q) fun trace s action prior => ?_)
  cases action with
  | call => trivial
  | step thread => exact (blocking_of_run prior).imp_right fun h => (h thread).current _

end Order

namespace Mpmc

open AtomicQueue2 (Local Config content)

variable {q : Queue w} {maximizeThroughput : Bool}
  {allowed : Trace (Event w T (Option T)) → Config w T → Action (Call T) → Prop}

/-- A full slot has an element, or a producer that is about to write one. -/
def Written (threads : Nat → Local w T) (slot : Nat) (content : Slot T) : Prop :=
  content.state = .full → content.element.isSome ∨ ∃ thread, Writing slot (threads thread)

/-- A thread that was not about to write may move on. -/
theorem Written.frame {threads : Nat → Local w T} {slot : Nat} {content : Slot T}
    (h : Written threads slot content) {thread : Nat} {pc : Local w T} (hPc : threads thread = pc)
    (hBefore : ¬ Writing slot pc) (pc' : Local w T) :
    Written (Function.update threads thread pc') slot content := by
  intro hFull
  refine (h hFull).imp_right ?_
  rintro ⟨other, hWriting⟩
  have hOther : other ≠ thread := by
    rintro rfl
    exact hBefore (hPc ▸ hWriting)
  rw [Function.exists_update_iff threads fun _ pc => Writing slot pc]
  exact Or.inr ⟨other, hOther, hWriting⟩

/-- Between the flag and the storage of a slot there is always a producer to
finish the write. -/
theorem Step.written {thread slot : Nat} {threads : Nat → Local w T} {σ σ' : Memory w (Slot T)}
    {pc' : Local w T} {es : List (Event w T (Option T))}
    (hStep : Step q (threads thread) σ pc' σ' es) (h : Written threads slot (σ.slots slot)) :
    Written (Function.update threads thread pc') slot (σ'.slots slot) := by
  generalize hPc : threads thread = pc at hStep
  cases hStep with
  | quiet hQuiet => exact h.frame hPc (fun hWriting => (quiet_not_holds hQuiet slot).1 (Or.inl hWriting)) _
  | claimHead hClaim | pushPanic hClaim =>
      exact h.frame hPc (fun hWriting => claimsHead_not_holds hClaim slot (Or.inl hWriting)) _
  | claimTail hClaim | popPanic hClaim =>
      exact h.frame hPc (fun hWriting => claimsTail_not_holds hClaim slot (Or.inl hWriting)) _
  | popWait hWait =>
      exact h.frame hPc (fun hWriting => wait_not_holds hWait slot (Or.inl hWriting)) _
  | pushWait | read => exact h.frame hPc id _
  | @fill blocking position own value =>
      by_cases hOwn : slot = own
      · subst hOwn
        refine fun _ => Or.inr ⟨thread, ?_⟩
        rw [Function.update_self]
        rfl
      · simp only [Function.update_of_ne hOwn]
        exact h.frame hPc id _
  | @write blocking position own value =>
      by_cases hOwn : slot = own
      · subst hOwn
        simp only [Function.update_self]
        exact fun _ => Or.inl rfl
      · simp only [Function.update_of_ne hOwn]
        exact h.frame hPc (Ne.symm hOwn) _
  | @drain blocking position own =>
      by_cases hOwn : slot = own
      · subst hOwn
        simp only [Function.update_self]
        exact nofun
      · simp only [Function.update_of_ne hOwn]
        exact h.frame hPc id _

/-- In every run of the MPMC branch, whatever the claims are. -/
theorem written_of_run {trace : Trace (Event w T (Option T))} {s : Config w T}
    (run : Run (q.threadCode (AtomicQueue2.slotCode T maximizeThroughput false)) allowed
      (initial w (Slot.new T)) trace s) (slot : Nat) :
    Written s.threads slot (s.shared.slots slot) := by
  refine invariant_of_run (fun _ s => Written s.threads slot (s.shared.slots slot)) nofun ?_ ?_ run
  · intro trace s thread operation ih hIdle _
    exact ih.frame hIdle id _
  · intro trace s thread pc shared es _ ih _ _ hStep
    exact hStep.written ih

/-- Between calls nobody is writing, so a full slot has its element. -/
theorem Written.isSome {s : Config w T} {slot : Nat}
    (h : Written s.threads slot (s.shared.slots slot)) (hQuiescent : Quiescent s)
    (hFull : (s.shared.slots slot).state = .full) : ∃ element,
      (s.shared.slots slot).element = some element := by
  refine Option.isSome_iff_exists.mp ((h hFull).resolve_right ?_)
  rintro ⟨thread, hWriting⟩
  rcases hQuiescent thread with hPc | hPc <;> rw [hPc] at hWriting <;> exact hWriting

/-- With no call in progress the memory holds a list of offered elements. -/
theorem represents_of_quiescent (hIndexed : q.Indexed) {trace : Trace (Event w T (Option T))}
    {s : Config w T}
    (run : Run (q.threadCode (AtomicQueue2.slotCode T maximizeThroughput false)) allowed
      (initial w (Slot.new T)) trace s) (hOrdered : Ordered trace s) (hQuiescent : Quiescent s) :
    ∃ items : List T, items.length = (s.shared.head - s.shared.tail).toNat ∧
      (∀ item ∈ items, Offered trace item) ∧ Represents q content some items s.shared := by
  have hBalance : ∀ slot < q.capacity.toNat, _ :=
    fun slot _ => (accounted_of_run hIndexed run).visits hIndexed hOrdered hQuiescent slot
  have hFlag : ∀ slot < q.capacity.toNat, (s.shared.slots slot).state.toNat ≤ 1 :=
    fun slot _ => Flag.toNat_le_one _
  have hLe := Ring.le_of_balanced hIndexed.slotAt_lt hBalance
  have hLength := Ring.length_le_of_balanced hIndexed.slotAt_lt hBalance hFlag
  obtain ⟨n, hn⟩ := Nat.exists_eq_add_of_le hLe
  have hFull : ∀ i < n,
      (s.shared.slots (q.slotAt ((tailClaims trace).length + i))).state = .full := by
    intro i hi
    rw [← Flag.toNat_eq_one_iff, Ring.full_iff_of_balanced hBalance hFlag (hIndexed.slotAt_lt _)]
    exact ⟨_, Nat.le_add_right _ _, by omega, rfl⟩
  have hWritten : ∀ i : Fin n, ∃ item,
      (s.shared.slots (q.slotAt ((tailClaims trace).length + i))).element = some item :=
    fun i => (written_of_run run _).isSome hQuiescent (hFull i i.isLt)
  choose item hItem using hWritten
  have hSupplied := supplied_of_run (AtomicQueue2.slotCode_moves maximizeThroughput false) rfl run.any
  have hWord : n < 2 ^ w := by
    have hCapacity := q.capacity.isLt
    omega
  refine ⟨List.ofFn item, ?_, ?_, (tailClaims trace).length, hOrdered.tail, ?_, ?_⟩
  · rw [List.length_ofFn, hOrdered.head, hOrdered.tail, Usize.toNat_ofNat_sub_ofNat hLe (by omega)]
    omega
  · rw [List.forall_mem_ofFn_iff]
    exact fun i => hSupplied.stored _ _ (hItem i)
  · rw [List.length_ofFn, ← hn]
    exact hOrdered.head
  · rw [List.map_ofFn]
    refine Ring.holds_ofFn _ (by omega) (fun i => ?_) fun k hk hVacant => ?_
    · exact AtomicQueue2.content_eq_some_iff.mpr ⟨hFull i i.isLt, hItem i⟩
    · refine AtomicQueue2.content_eq_none_iff.mpr (Flag.eq_empty fun hState => ?_)
      rw [← Flag.toNat_eq_one_iff, Ring.full_iff_of_balanced hBalance hFlag hk] at hState
      obtain ⟨p, hLower, hUpper, hp⟩ := hState
      refine hVacant (p - (tailClaims trace).length) (by omega) ?_
      rw [Nat.add_sub_cancel' hLower, hp]

end Mpmc

/-- Once the threads have come to rest, a queue with a power-of-two capacity
holds `head - tail` offered elements, and calls made one after the other return
what the list queue does that starts with those. -/
theorem resumes_of_quiescent {target : Target w} {totalOrder : Bool} {q : Queue w}
    (hq : IsAtomicQueue2 target totalOrder q) (hRelease : target.build = .release)
    (hPower : ∃ k, q.capacity.toNat = 2 ^ k) (maximizeThroughput : Bool)
    {trace : Trace (Event w T (Option T))} {s : AtomicQueue2.Config w T}
    (run : Run (q.threadCode (AtomicQueue2.slotCode T maximizeThroughput false)) (orderedCalls q)
      (initial w (Slot.new T)) trace s) (hQuiescent : Quiescent s) :
    ∃ items : List T, items.length = (s.shared.head - s.shared.tail).toNat ∧
      (∀ item ∈ items, Offered trace item) ∧
      ∀ operations results items',
        runAll (listQueue w q.capacity.toNat some) operations items = some (results, items') →
        ∃ σ, runAll (q.perform (AtomicQueue2.slotCode T maximizeThroughput false) 6) operations
          s.shared = some (results, σ) ∧ Represents q AtomicQueue2.content some items' σ := by
  have hPos : 0 < q.capacity.toNat := by
    obtain ⟨k, hk⟩ := hPower
    rw [hk]
    exact Nat.two_pow_pos k
  have hIndexed := hq.indexed hPos
  obtain ⟨items, hLength, hOffered, hRepresents⟩ :=
    Mpmc.represents_of_quiescent hIndexed run (ordered_of_orderedCalls run) hQuiescent
  refine ⟨items, hLength, hOffered, fun operations results items' hList => ?_⟩
  exact (simulates hIndexed (AtomicQueue2.slotSpec maximizeThroughput false) (hIndexed.layout hPower)
    (hq.build_eq.trans hRelease) 0).runAll (fun _ _ _ _ => trivial) hRepresents hList

/-- Two producers and a consumer in the default configuration. -/
def handedOn : Option (Trace (Event 64 Nat (Option Nat)) × AtomicQueue2.Config 64 Nat) :=
  exec ((AtomicQueue2.twoSlots false).threadCode (AtomicQueue2.slotCode Nat true false))
    (fun _ _ action => match action with
      | .call _ (.tryPush _) | .call _ .tryPop => false
      | _ => true)
    [.call 0 (.push 7), .step 0, .call 1 (.push 8), .step 1, .call 2 .pop, .step 2, .step 2, .step 1,
      .step 1, .step 0, .step 0, .step 2, .step 2, .step 2] [] (initial 64 (Slot.new Nat))

theorem handedOn_isSome : handedOn.isSome := by decide +kernel

theorem resumes_twoSlots : ∃ (trace : Trace (Event 64 Nat (Option Nat)))
    (s : AtomicQueue2.Config 64 Nat), s.shared.head = 2#64 ∧ s.shared.tail = 1#64 ∧
      ∃ items : List Nat, items.length = (s.shared.head - s.shared.tail).toNat ∧
        (∀ item ∈ items, Offered trace item) ∧
        ∀ operations results items', runAll (listQueue 64 2 some) operations items =
            some (results, items') →
          ∃ σ, runAll ((AtomicQueue2.twoSlots false).perform (AtomicQueue2.slotCode Nat true false) 6)
            operations s.shared = some (results, σ) ∧
              Represents (AtomicQueue2.twoSlots false) AtomicQueue2.content some items' σ := by
  refine ⟨_, _, ?_, ?_, resumes_of_quiescent (.fixed _ _ (AtomicQueue2.new_twoSlots false)) rfl
    ⟨1, rfl⟩ true (Run.ofExec 3 _ (fun _ _ action _ hTest => ?_) _ (by decide) handedOn_isSome)
    (quiescent_of_exec (Option.some_get handedOn_isSome).symm 3 (by decide) (by decide +kernel))⟩
  · decide +kernel
  · decide +kernel
  · cases action with
    | step => trivial
    | call thread operation =>
        cases operation with
        | tryPush | tryPop => contradiction
        | push | pop | observe => trivial

end AtomicQueueRs
