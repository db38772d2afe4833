import AtomicQueueRs.ClaimBounds
import AtomicQueueRs.Overclaims

/-! Refusals of `try_push` and `try_pop`, and the moments of fullness and
emptiness that would justify them. A refusal comes from the loaded counters or
from a lost `compare_exchange`, which tells only that someone else moved. -/
namespace AtomicQueueRs

set_option autoImplicit false

open Interleaving (Trace Run Action)

variable {w : Nat} {T V C U O : Type}

/-- A step that refuses comes while its call, between its first step and this
one, has seen the queue full or empty. -/
structure Justified (capacity : Usize w) (thread : Nat) (trace : Trace (Event w T V))
    (es : List (Event w T V)) : Prop where
  full : .returned (.tryPush false) ∈ es → trace.Since thread Event.isCall fun trace =>
    (tailClaims trace).length + capacity.toNat ≤ (headClaims trace).length
  empty : .returned (.tryPop none) ∈ es → trace.Since thread Event.isCall fun trace =>
    (headClaims trace).length = (tailClaims trace).length

/-- What the next step of a non-blocking call must find: when `try_push` loads
`tail`, not more positions taken from it than it found taken from `head`; the
`compare_exchange` of `try_push`, the loaded word; when `try_pop` finds the
counters equal, equal counts; the `compare_exchange` of `try_pop`, the loaded
count. -/
def Pc.steady (thread : Nat) (trace : Trace (Event w T V)) (common : AtomicQueueCommon w) :
    Pc w T U O → Bool
  | .tryPushLoadTail _ _ => (tailClaims trace).length ≤ loadedHead thread trace
  | .tryPushClaim _ head => common.head = head
  | .tryPopLoadHead tail =>
      tail = common.head → loadedTail thread trace = (headClaims trace).length
  | .tryPopClaim _ => (tailClaims trace).length = loadedTail thread trace
  | _ => true

/-- No call blocks, and every step finds what it must. -/
def SteadyCalls (trace : Trace (Event w T V)) (s : State w T C U O) : Action (Call T) → Prop
  | .call _ operation => operation.nonBlocking
  | .step thread => (s.threads thread).steady thread trace s.shared.toAtomicQueueCommon = true

instance (trace : Trace (Event w T V)) (s : State w T C U O) (action : Action (Call T)) :
    Decidable (SteadyCalls trace s action) :=
  match action with
  | .call _ operation => inferInstanceAs (Decidable operation.nonBlocking)
  | .step _ => inferInstanceAs (Decidable (_ = true))

namespace Queue

variable {q : Queue w} {code : SlotCode T V C U O}

/-- A result among the events of a step is not one of its accesses. -/
theorem returned_accesses {position : Usize w} {slot : Nat} {accesses : List (Access T V)}
    {result : Return w V} {es : List (Event w T V)}
    (h : .returned result ∈ accesses.map (Event.access position slot) ++ es) :
    .returned result ∈ es := by
  rw [List.mem_append] at h
  refine h.resolve_left ?_
  intro hMem
  obtain ⟨_, _, hEq⟩ := List.mem_map.mp hMem
  contradiction

theorem not_returned_enterPush (blocking : Bool) (position : Usize w) (element : T)
    (result : Return w V) :
    .returned result ∉ (enterPush (V := V) q code blocking position element).2 := by
  unfold enterPush
  split <;> simp

theorem not_returned_enterPop (blocking : Bool) (position : Usize w) (result : Return w V) :
    .returned result ∉ (enterPop q code blocking position).2 := by
  unfold enterPop
  split <;> simp

/-- A call that has claimed a position does not refuse any more: it fills its
slot or waits for it. -/
theorem not_refused_afterPush (blocking : Bool) (position : Usize w) (slot : Nat)
    (outcome : Outcome U Unit) {result : Return w V}
    (h : .returned result ∈ (afterPush (T := T) (O := O) blocking position slot outcome).2) :
    result ≠ .tryPush false ∧ result ≠ .tryPop none := by
  cases outcome <;> cases blocking <;> simp_all [afterPush]

/-- The same for a consumer at its slot. -/
theorem not_refused_afterPop (blocking : Bool) (position : Usize w) (slot : Nat)
    (outcome : Outcome O V) {result : Return w V}
    (h : .returned result ∈ (afterPop (T := T) (U := U) blocking position slot outcome).2) :
    result ≠ .tryPush false ∧ result ≠ .tryPop none := by
  cases outcome <;> cases blocking <;> simp_all [afterPop]

/-- Where a refusal comes from. -/
inductive Refuses (q : Queue w) (σ : Memory w C) : Pc w T U O → Return w V → Prop where
  | full (element : T) (head : Usize w) (hFull : q.capacity ≤ head - σ.tail) :
      Refuses q σ (.tryPushLoadTail element head) (.tryPush false)
  | pushLost (element : T) (head : Usize w) (hMoved : σ.head ≠ head) :
      Refuses q σ (.tryPushClaim element head) (.tryPush false)
  | empty (tail : Usize w) (hEmpty : tail = σ.head) :
      Refuses q σ (.tryPopLoadHead tail) (.tryPop none)
  | popLost (tail : Usize w) (hMoved : σ.tail ≠ tail) :
      Refuses q σ (.tryPopClaim tail) (.tryPop none)

/-- The four refusals of the source, one for each test and one for each exchange
of the two non-blocking calls. -/
theorem Quiet.refuses {σ : Memory w C} {pc pc' : Pc w T U O} {es : List (Event w T V)}
    (h : Quiet q σ pc pc' es) {result : Return w V} (hMem : .returned result ∈ es)
    (hResult : result = .tryPush false ∨ result = .tryPop none) : Refuses q σ pc result := by
  cases h with
  | tryPushFull element head hFull =>
      obtain rfl : result = .tryPush false := by simpa using hMem
      exact .full element head hFull
  | tryPushLost element head hMoved =>
      obtain rfl : result = .tryPush false := by simpa using hMem
      exact .pushLost element head hMoved
  | tryPopEmpty tail hEmpty =>
      obtain rfl : result = .tryPop none := by simpa using hMem
      exact .empty tail hEmpty
  | tryPopLost tail hMoved =>
      obtain rfl : result = .tryPop none := by simpa using hMem
      exact .popLost tail hMoved
  | observeReturn observer head result' hObserved =>
      obtain rfl : result = result' := by simpa using hMem
      have hObservation := Observer.isObservation_of_result hObserved
      rcases hResult with rfl | rfl <;> exact hObservation.elim
  | _ => simp at hMem

/-- A step at a slot refuses nothing, so every refusal is one of the four. -/
theorem Step.refuses {pc pc' : Pc w T U O} {σ σ' : Memory w C} {es : List (Event w T V)}
    (h : Step q code pc σ pc' σ' es) {result : Return w V} (hMem : .returned result ∈ es)
    (hResult : result = .tryPush false ∨ result = .tryPop none) : Refuses q σ pc result := by
  cases h with
  | quiet h => exact h.refuses hMem hResult
  | claimHead => exact (not_returned_enterPush _ _ _ _ hMem).elim
  | claimTail => exact (not_returned_enterPop _ _ _ hMem).elim
  | pushSlot =>
      obtain ⟨hPush, hPop⟩ := not_refused_afterPush _ _ _ _ (returned_accesses hMem)
      exact (hResult.elim hPush hPop).elim
  | popSlot =>
      obtain ⟨hPush, hPop⟩ := not_refused_afterPop _ _ _ _ (returned_accesses hMem)
      exact (hResult.elim hPush hPop).elim

end Queue

variable {q : Queue w} {code : SlotCode T V C U O} {empty : C}

/-- No position beyond those of `head` has been taken from `tail`, and none
will be. -/
structure TailBehind (trace : Trace (Event w T V)) (s : State w T C U O) : Prop where
  tail_le : (tailClaims trace).length ≤ (headClaims trace).length
  tested : ∀ thread, (s.threads thread).Tested thread trace
  not_pop : ∀ thread, s.threads thread ≠ .popClaim

theorem not_popClaim_quiet {σ : Memory w C} {pc pc' : Pc w T U O} {es : List (Event w T V)}
    (h : q.Quiet σ pc pc' es) : pc' ≠ .popClaim := by
  cases h <;> simp

theorem Pc.Landed.ne_popClaim {pc : Pc w T U O} (h : pc.Landed) : pc ≠ .popClaim := by
  rintro rfl
  exact h

/-- Steady steps test in time, as `tail` is not past `head`. -/
theorem TailBehind.timelyTest {trace : Trace (Event w T V)} {s : State w T C U O}
    (h : TailBehind trace s) {thread : Nat} (hSteady : SteadyCalls trace s (.step thread)) :
    TimelyTest q trace s (.step thread) := by
  constructor
  · intro tail _
    exact Nat.le_trans (loadedTail_le thread trace) h.tail_le
  · intro _ position hClaim
    rw [SteadyCalls] at hSteady
    generalize s.threads thread = pc at hClaim hSteady
    cases hClaim <;> exact of_decide_eq_true hSteady

/-- A consumer takes a position only below `head`. -/
theorem TailBehind.claims_lt {trace : Trace (Event w T V)} {s : State w T C U O}
    (h : TailBehind trace s) {thread : Nat} (hSteady : SteadyCalls trace s (.step thread))
    {blocking : Bool} {position : Usize w}
    (hClaim : q.ClaimsTail s.shared (s.threads thread) blocking position) :
    (tailClaims trace).length < (headClaims trace).length := by
  have hTested := h.tested thread
  have hNotPop := h.not_pop thread
  rw [SteadyCalls] at hSteady
  generalize s.threads thread = pc at hClaim hTested hNotPop hSteady
  cases hClaim with
  | pop => exact (hNotPop rfl).elim
  | compareExchange | fetchAdd =>
      rw [of_decide_eq_true hSteady]
      exact hTested

/-- In a run of steady calls `tail` never overtakes `head`: `try_pop` takes a
position only with the count that it found below `head`, and there is no
`pop`. -/
theorem tailBehind_of_run {trace : Trace (Event w T V)} {s : State w T C U O}
    (run : Run (q.threadCode code) SteadyCalls (initial w empty) trace s) : TailBehind trace s := by
  apply run.invariant TailBehind
  · exact ⟨Nat.le_refl 0, fun _ => trivial, fun _ => by simp [initial]⟩
  · intro trace s actor operation pc es _ ih hAllowed hCall
    obtain ⟨_, rfl, rfl⟩ := Queue.call_cases hCall
    refine ⟨?_, ?_, ?_⟩
    · rw [headClaims_call, tailClaims_call]
      exact ih.tail_le
    · rw [Function.forall_update_iff s.threads fun thread pc => pc.Tested thread _]
      refine ⟨?_, fun thread hOther => (ih.tested thread).append_of_ne _ hOther.symm⟩
      cases operation <;> exact trivial
    · rw [Function.forall_update_iff s.threads fun _ pc => pc ≠ .popClaim]
      refine ⟨?_, fun thread _ => ih.not_pop thread⟩
      cases operation with
      | pop => exact hAllowed.elim
      | _ => simp [Queue.start]
  · intro trace s actor pc shared es prior ih hSteady hStep
    have hCases := Queue.step_cases hStep
    refine ⟨?_, ?_, ?_⟩
    · have hGrows := length_headClaims_le trace actor es
      rw [tailClaims_append]
      rcases hCases.tailClaims with ⟨hNone, _⟩ | ⟨_, _, hClaim, hSome, _⟩
      · rw [hNone, List.map_nil, List.append_nil]
        exact Nat.le_trans ih.tail_le hGrows
      · rw [hSome, List.length_append, List.length_map, List.length_singleton]
        exact Nat.le_trans (ih.claims_lt hSteady hClaim) hGrows
    · rw [Function.forall_update_iff s.threads fun thread pc => pc.Tested thread _]
      refine ⟨?_, fun thread hOther => (ih.tested thread).append_of_ne _ hOther.symm⟩
      rcases hCases.quiet_or_landed with hQuiet | hLanded
      · exact tested_quiet (counted_of_run prior) (loaded_of_run prior actor)
          (ih.timelyTest hSteady) hQuiet
      · exact Pc.Tested.of_landed hLanded
    · rw [Function.forall_update_iff s.threads fun _ pc => pc ≠ .popClaim]
      refine ⟨?_, fun thread _ => ih.not_pop thread⟩
      rcases hCases.quiet_or_landed with hQuiet | hLanded
      · exact not_popClaim_quiet hQuiet
      · exact hLanded.ne_popClaim

/-- Every refusal in a run of steady calls. The moment of fullness or emptiness
is the one the refusing step is taken in. -/
theorem justified_of_steadyCalls (q : Queue w) (code : SlotCode T V C U O) (empty : C)
    {trace : Trace (Event w T V)} {s : State w T C U O}
    (run : Run (q.threadCode code) SteadyCalls (initial w empty) trace s) {thread : Nat}
    (hSteady : SteadyCalls trace s (.step thread)) {pc : Pc w T U O} {shared : Memory w C}
    {es : List (Event w T V)}
    (hStep : (q.threadCode code).step (s.threads thread) s.shared = some (pc, shared, es)) :
    Justified q.capacity thread trace es := by
  have hCases := Queue.step_cases hStep
  have hCounted := counted_of_run run
  have hLoaded := loaded_of_run run thread
  have hBehind := tailBehind_of_run run
  rw [SteadyCalls] at hSteady
  generalize s.threads thread = before at hCases hLoaded hSteady
  constructor
  · intro hMem
    apply Trace.Since.now
    cases hCases.refuses hMem (Or.inl rfl) with
    | full element head hFull =>
        have hAhead : (tailClaims trace).length ≤ loadedHead thread trace :=
          of_decide_eq_true hSteady
        have hHead := loadedHead_le thread trace
        have hSize := Usize.toNat_ofNat_sub_ofNat_le (w := w) hAhead
        rw [Pc.Loaded] at hLoaded
        rw [BitVec.le_def, hLoaded, hCounted.tail] at hFull
        omega
    | pushLost element head hMoved => exact (hMoved (of_decide_eq_true hSteady)).elim
  · intro hMem
    apply Trace.Since.now
    cases hCases.refuses hMem (Or.inr rfl) with
    | empty tail hEmpty =>
        have hEq : loadedTail thread trace = (headClaims trace).length :=
          of_decide_eq_true hSteady hEmpty
        have hTail := loadedTail_le thread trace
        have hTailLe := hBehind.tail_le
        omega
    | popLost tail hMoved =>
        have hSame : (tailClaims trace).length = loadedTail thread trace :=
          of_decide_eq_true hSteady
        apply (hMoved _).elim
        rw [hCounted.tail, hSame]
        exact hLoaded.symm

/-- A `try_push` on the full queue is refused when it loads `tail`. -/
theorem justified_oneSlot : ∃ trace : Trace (Event 64 (BitVec 64) (BitVec 64)),
    trace.Since 1 Event.isCall fun trace => (tailClaims trace).length + 1 ≤ (headClaims trace).length := by
  have run : Run (AtomicQueue.oneSlot.threadCode (AtomicQueue.slotCode 64 (BitVec 64) false))
      SteadyCalls (initial 64 (AtomicValue.new 64)) _ _ :=
    Run.ofExec 2 (fun trace s action => decide (SteadyCalls trace s action))
      (fun _ _ _ _ => of_decide_eq_true)
      [.call 0 (.tryPush 7#64), .step 0, .step 0, .step 0, .call 1 (.tryPush 8#64), .step 1]
      (by decide) (by decide +kernel)
  have hJustified := justified_of_steadyCalls AtomicQueue.oneSlot
    (AtomicQueue.slotCode 64 (BitVec 64) false) (AtomicValue.new 64) run
    (show SteadyCalls _ _ (.step 1) by decide +kernel) rfl
  exact ⟨_, hJustified.full (by decide +kernel)⟩

/-- Before a whole lap of positions has been taken nothing is ever full. -/
theorem not_justified_of_few {capacity : Usize w} {thread : Nat} {trace : Trace (Event w T V)}
    {es : List (Event w T V)} (hMem : .returned (.tryPush false) ∈ es)
    (hFew : (headClaims trace).length < capacity.toNat) : ¬ Justified capacity thread trace es := by
  intro hJustified
  obtain ⟨k, _, _, hFull⟩ := hJustified.full hMem
  have hEarlier : (headClaims (trace.take k)).length ≤ (headClaims trace).length :=
    ((List.take_prefix k trace).filterMap _).length_le
  omega

/-- Of two `try_push` calls on an empty queue of two slots one loses the
`compare_exchange` and reports the queue as full. -/
theorem twoSlots_refuses_unjustified : ∃ trace, ∃ s : AtomicQueue2.Config 64 Nat, ∃ shared es,
    Run ((AtomicQueue2.twoSlots true).threadCode (AtomicQueue2.slotCode Nat true false))
        nonBlockingCalls (initial 64 (Slot.new Nat)) trace s ∧
      (AtomicQueue2.twoSlots true).step (AtomicQueue2.slotCode Nat true false) (s.threads 0)
        s.shared = some (.idle, shared, es) ∧
      .returned (.tryPush false) ∈ es ∧ (headClaims trace).length = 1 ∧
      ¬ Justified (AtomicQueue2.twoSlots true).capacity 0 trace es := by
  refine ⟨_, _, _, _, Run.ofExec 2 (fun trace s action => decide (nonBlockingCalls trace s action))
    (fun _ _ _ _ => of_decide_eq_true)
    [.call 0 (.tryPush 7), .step 0, .step 0, .call 1 (.tryPush 8), .step 1, .step 1, .step 1]
    (by decide) (by decide +kernel), rfl, List.mem_singleton.mpr rfl, by decide +kernel, ?_⟩
  exact not_justified_of_few (List.mem_singleton.mpr rfl) (by decide +kernel)

end AtomicQueueRs
