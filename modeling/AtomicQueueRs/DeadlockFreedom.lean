import AtomicQueueRs.ClaimBounds
import AtomicQueueRs.Endings
import AtomicQueueRs.Progress

/-! Calls that do not block, on an MPMC queue that claims by `compare_exchange`:
the counters stay within the capacity of each other, so that whatever has
happened some call in progress can finish on its own, and then all of them. -/
namespace AtomicQueueRs

set_option autoImplicit false

open Interleaving (Trace Run Action onlySteps busy card_busy_update_lt exists_completion exec
  exec_threads)

variable {w : Nat} {T V C U O : Type}

namespace Queue

variable {q : Queue w} {code : SlotCode T V C U O} {pc pc' last : Pc w T U O}
  {σ σ' final : Memory w C} {es : List (Event w T V)}

variable (q code) in
/-- Left alone, the call comes to its end. -/
def Finishes (pc : Pc w T U O) (σ : Memory w C) : Prop :=
  ∃ last final, Ends q code pc σ last final ∧ last.Ended

theorem finishes_idle (σ : Memory w C) : Finishes q code .idle σ := ⟨_, _, .returned σ, trivial⟩

theorem finishes_panicked (σ : Memory w C) : Finishes q code .panicked σ :=
  ⟨_, _, .panicked σ, trivial⟩

/-- A call finishes if it does after its next step, which it takes alone. -/
theorem finishes_of_step (hStep : step q code pc σ = some (pc', σ', es))
    (hRest : Finishes q code pc' σ') : Finishes q code pc σ := by
  obtain ⟨last, final, hEnds, hEnded⟩ := hRest
  exact ⟨last, final, .step hStep hEnds, hEnded⟩

theorem finishes_observeLoadTail (observer : Observer) (head : Usize w) (σ : Memory w C) :
    Finishes q code (.observeLoadTail observer head) σ := by
  cases hResult : observer.result (V := V) q.build q.capacity head σ.tail with
  | none => exact finishes_of_step (by simp only [step, hResult]; rfl) (finishes_panicked σ)
  | some result => exact finishes_of_step (by simp only [step, hResult]; rfl) (finishes_idle σ)

/-- What is claimed from `head` until the call ends. -/
theorem Step.claims (h : Step q code pc σ pc' σ' es) :
    (es.filterMap Event.headClaim = [] ∧ (pc.Landed → pc'.Landed)) ∨
      ¬ pc.Landed ∧ pc'.Landed ∧ (es.filterMap Event.headClaim).length ≤ 1 := by
  rcases h.headClaims with ⟨hNone, _⟩ | ⟨blocking, position, element, hClaims, hSome, _⟩
  · exact Or.inl ⟨hNone, fun hLanded => (h.landed hLanded).1⟩
  · have hBefore : ¬ pc.Landed := by cases hClaims <;> exact id
    refine Or.inr ⟨hBefore, ?_, by simp [hSome]⟩
    rcases h.quiet_or_landed with hQuiet | hLanded
    · rw [headClaim_eq_nil hQuiet.claimsNothing] at hSome
      contradiction
    · exact hLanded

/-- The end of a call as a run of its thread, which claims one position at most. -/
theorem Ends.run (h : Ends q code pc σ last final) (threads : Nat → Pc w T U O) (thread : Nat) :
    ∃ es : List (Event w T V),
      Run (q.threadCode code) onlySteps ⟨σ, Function.update threads thread pc⟩
        (es.map (Prod.mk thread)) ⟨final, Function.update threads thread last⟩ ∧
      (es.filterMap Event.headClaim).length ≤ 1 ∧
      (pc.Landed → es.filterMap Event.headClaim = []) := by
  induction h with
  | returned | panicked => exact ⟨[], Run.zero, Nat.zero_le _, fun _ => rfl⟩
  | @step pc pc' last σ σ' final es first rest ih =>
      obtain ⟨more, run, hMore, hNone⟩ := ih
      have hFirst : Run (q.threadCode code) onlySteps ⟨σ, Function.update threads thread pc⟩
          (es.map (Prod.mk thread)) ⟨σ', Function.update threads thread pc'⟩ := by
        have hStep : (q.threadCode code).step (Function.update threads thread pc thread) σ =
            some (pc', σ', es) := by
          rw [Function.update_self]
          exact first
        simpa using Run.single (s := ⟨σ, Function.update threads thread pc⟩) hStep
      refine ⟨es ++ more, ?_, ?_⟩
      · rw [List.map_append]
        exact hFirst.trans_onlySteps run
      · rw [List.filterMap_append, List.length_append]
        rcases (step_cases first).claims with ⟨hSilent, hStays⟩ | ⟨hBefore, hAfter, hOne⟩
        · rw [hSilent]
          exact ⟨by simpa using hMore, fun hLanded => hNone (hStays hLanded)⟩
        · rw [hNone hAfter]
          exact ⟨by simpa using hOne, fun hLanded => (hBefore hLanded).elim⟩

end Queue

namespace Mpmc

open AtomicQueue2 (Local Config)

variable {q : Queue w} {maximizeThroughput : Bool}

section Slots

variable {blocking : Bool} {position : Usize w} {slot : Nat} {σ : Memory w (Slot T)}

/-- A push that finds its slot empty. -/
theorem finishes_push (value : T) (hEmpty : (σ.slots slot).state = .empty) :
    q.Finishes (AtomicQueue2.slotCode T maximizeThroughput false)
      (.pushSlot blocking position slot (.compareExchange value)) σ :=
  Queue.finishes_of_step (step_fill value hEmpty)
    (Queue.finishes_of_step rfl (Queue.finishes_idle _))

/-- A pop that finds its slot full. -/
theorem finishes_pop (hFull : (σ.slots slot).state = .full) :
    q.Finishes (AtomicQueue2.slotCode T maximizeThroughput false)
      (.popSlot blocking position slot .compareExchange) σ :=
  Queue.finishes_of_step (step_drain hFull) (Queue.finishes_of_step rfl (Queue.finishes_idle _))

/-- A consumer that polls a full slot sees it at its next load and drains it. -/
theorem finishes_spin (hFull : (σ.slots slot).state = .full) :
    q.Finishes (AtomicQueue2.slotCode T maximizeThroughput false)
      (.popSlot blocking position slot .spin) σ :=
  Queue.finishes_of_step (step_leave hFull) (finishes_pop hFull)

/-- A call at a slot finishes unless it waits. -/
theorem finishes_of_atSlot {pc : Local w T} (hPlaced : Placed q pc) (hSlot : pc.AtSlot)
    (hPush : ¬ WaitsToPush σ pc) (hPop : ¬ WaitsToPop σ pc) :
    q.Finishes (AtomicQueue2.slotCode T maximizeThroughput false) pc σ := by
  cases pc with
  | pushSlot blocking position slot pc =>
      obtain ⟨_, ⟨value, rfl⟩ | ⟨value, rfl⟩⟩ := hPlaced
      · exact finishes_push value (Flag.eq_empty hPush)
      · exact Queue.finishes_of_step rfl (Queue.finishes_idle _)
  | popSlot blocking position slot pc =>
      obtain ⟨_, rfl | rfl | rfl⟩ := hPlaced
      · exact finishes_pop (Flag.eq_full hPop)
      · exact finishes_spin (Flag.eq_full hPop)
      · exact Queue.finishes_of_step rfl (Queue.finishes_idle _)
  | _ => exact hSlot.elim

end Slots

section NoneAtSlot

variable {trace : Trace (Event w T (Option T))} {s : Config w T}
  (hIndexed : q.Indexed) (hAccounted : Accounted q trace s) (hOrdered : Ordered trace s)
  (hNone : ∀ thread, ¬ (s.threads thread).AtSlot)

include hIndexed hAccounted hOrdered hNone

/-- The slot of the next push is empty as long as there is room. -/
theorem state_of_head (hHeads : (headClaims trace).length < 2 ^ w)
    (hRoom : (headClaims trace).length < (tailClaims trace).length + q.capacity.toNat) {slot : Nat}
    (hSlot : q.getSlot s.shared.head = some slot) : (s.shared.slots slot).state = .empty := by
  rw [hOrdered.head, hIndexed.getSlot_ofNat] at hSlot
  obtain rfl := Option.some.inj hSlot
  have hVisits := visits_of_not_atSlot hIndexed hAccounted hOrdered hNone
    (q.slotAt (headClaims trace).length)
  cases hState : (s.shared.slots (q.slotAt (headClaims trace).length)).state with
  | empty => rfl
  | full =>
      rw [hState, Flag.toNat] at hVisits
      obtain ⟨p, hLower, hUpper, hp⟩ := Ring.exists_of_visits_lt (Nat.lt_of_succ_le hVisits.ge)
      have hRest := (hIndexed.slotAt_eq_iff_of_lt (by omega) hHeads).mp hp
      have hEq := Ring.eq_of_mod_eq hUpper.le (by omega) hRest
      omega

/-- The slot of the next pop is full as long as something is pushed. -/
theorem state_of_tail (hSome : (tailClaims trace).length < (headClaims trace).length) {slot : Nat}
    (hSlot : q.getSlot s.shared.tail = some slot) : (s.shared.slots slot).state = .full := by
  rw [hOrdered.tail, hIndexed.getSlot_ofNat] at hSlot
  obtain rfl := Option.some.inj hSlot
  have hVisits := visits_of_not_atSlot hIndexed hAccounted hOrdered hNone
    (q.slotAt (tailClaims trace).length)
  have hMore := Ring.visits_lt_of_mem (Nat.le_refl _) hSome
    (rfl : q.slotAt (tailClaims trace).length = _)
  rw [← Flag.toNat_eq_one_iff]
  have hOne := Flag.toNat_le_one (s.shared.slots (q.slotAt (tailClaims trace).length)).state
  omega

end NoneAtSlot

section Claims

variable {σ : Memory w (Slot T)}

/-- A claim of `head` finishes if the position claimed has an empty slot. -/
theorem finishes_tryPushClaim (hIndexed : q.Indexed) (hOrder : q.totalOrder = true) (element : T)
    {head : Usize w}
    (hFree : σ.head = head → ∀ slot, q.getSlot σ.head = some slot → (σ.slots slot).state = .empty) :
    q.Finishes (AtomicQueue2.slotCode T maximizeThroughput false) (.tryPushClaim element head) σ := by
  cases hNext : Usize.add q.build head 1#w with
  | none =>
      exact Queue.finishes_of_step (by simp only [Queue.step, hOrder, if_true, hNext]; rfl)
        (Queue.finishes_panicked σ)
  | some next =>
      by_cases hHead : σ.head = head
      · obtain ⟨slot, _, hSlot⟩ := hIndexed.exists_getSlot head
        refine Queue.finishes_of_step
          (by simp only [Queue.step, hOrder, if_true, hNext, hHead, Queue.enterPush, hSlot]; rfl) ?_
        exact finishes_push element (hFree hHead slot (hHead ▸ hSlot))
      · exact Queue.finishes_of_step (by simp only [Queue.step, hOrder, if_true, hNext, if_neg hHead]; rfl)
          (Queue.finishes_idle σ)

/-- Either the claim fails and the call returns, or it takes the position `tail`
shows, whose slot `hReady` has full. -/
theorem finishes_tryPopClaim (hIndexed : q.Indexed) (hOrder : q.totalOrder = true)
    {tail : Usize w}
    (hReady : σ.tail = tail → ∀ slot, q.getSlot σ.tail = some slot → (σ.slots slot).state = .full) :
    q.Finishes (AtomicQueue2.slotCode T maximizeThroughput false) (.tryPopClaim tail) σ := by
  cases hNext : Usize.add q.build tail 1#w with
  | none =>
      exact Queue.finishes_of_step (by simp only [Queue.step, hOrder, if_true, hNext]; rfl)
        (Queue.finishes_panicked σ)
  | some next =>
      by_cases hTail : σ.tail = tail
      · obtain ⟨slot, _, hSlot⟩ := hIndexed.exists_getSlot tail
        refine Queue.finishes_of_step
          (by simp only [Queue.step, hOrder, if_true, hNext, hTail, Queue.enterPop, hSlot]; rfl) ?_
        exact finishes_pop (hReady hTail slot (hTail ▸ hSlot))
      · exact Queue.finishes_of_step (by simp only [Queue.step, hOrder, if_true, hNext, if_neg hTail]; rfl)
          (Queue.finishes_idle σ)

end Claims

section Alone

open ClaimBounds (Bounded Pending pending_quiet)

variable {trace : Trace (Event w T (Option T))} {s : Config w T}

/-- No call is at a slot, and the counters are bounded as they are without
blocking calls. -/
structure Clear (q : Queue w) (trace : Trace (Event w T (Option T))) (s : Config w T) : Prop where
  accounted : Accounted q trace s
  ordered : Ordered trace s
  bounded : Bounded q.capacity.toNat (headClaims trace).length (tailClaims trace).length s
  heads_lt : (headClaims trace).length < 2 ^ w
  not_atSlot : ∀ thread, ¬ (s.threads thread).AtSlot

/-- As few positions have been claimed as the counters can tell apart, so the
words are the counts themselves. -/
theorem Clear.counters (h : Clear q trace s) : s.shared.head.toNat = (headClaims trace).length ∧
    s.shared.tail.toNat = (tailClaims trace).length := by
  have hHeads := h.heads_lt
  have hTails := h.bounded.tail_le
  rw [h.ordered.head, h.ordered.tail, BitVec.toNat_ofNat, BitVec.toNat_ofNat,
    Nat.mod_eq_of_lt hHeads, Nat.mod_eq_of_lt (by omega)]
  exact ⟨rfl, rfl⟩

variable (hIndexed : q.Indexed) (hOrder : q.totalOrder = true)

include hIndexed hOrder

/-- If the exchange takes a position, fewer than a capacity were taken from
`head` and not from `tail`. With no call at a slot, the slot of this position is
empty. -/
theorem Clear.finishes_tryPushClaim (h : Clear q trace s) {element : T} {head : Usize w}
    (hPending : Pending (headClaims trace).length (tailClaims trace).length q.capacity.toNat
      (.tryPushClaim element head : Local w T)) :
    q.Finishes (AtomicQueue2.slotCode T maximizeThroughput false) (.tryPushClaim element head)
      s.shared := by
  refine Mpmc.finishes_tryPushClaim hIndexed hOrder element fun hHead slot hSlot => ?_
  have hCurrent : head.toNat = (headClaims trace).length := by rw [← hHead, h.counters.1]
  exact state_of_head hIndexed h.accounted h.ordered h.not_atSlot h.heads_lt (hPending.2 hCurrent)
    hSlot

/-- With no call at a slot every position below `head` has been filled, so the
slot of the one claimed is full. -/
theorem Clear.finishes_tryPopClaim (h : Clear q trace s) {tail : Usize w}
    (hPending : Pending (headClaims trace).length (tailClaims trace).length q.capacity.toNat
      (.tryPopClaim tail : Local w T)) :
    q.Finishes (AtomicQueue2.slotCode T maximizeThroughput false) (.tryPopClaim tail) s.shared := by
  refine Mpmc.finishes_tryPopClaim hIndexed hOrder fun hTail slot hSlot => ?_
  have hCurrent : tail.toNat = (tailClaims trace).length := by rw [← hTail, h.counters.2]
  exact state_of_tail hIndexed h.accounted h.ordered h.not_atSlot (hPending.2 hCurrent) hSlot

theorem Clear.finishes_tryPushLoadTail (h : Clear q trace s) {element : T} {head : Usize w}
    (hPending : Pending (headClaims trace).length (tailClaims trace).length q.capacity.toNat
      (.tryPushLoadTail element head : Local w T)) :
    q.Finishes (AtomicQueue2.slotCode T maximizeThroughput false) (.tryPushLoadTail element head)
      s.shared := by
  cases hSize : Usize.sub q.build head s.shared.tail with
  | none =>
      exact Queue.finishes_of_step (by simp only [Queue.step, hSize]; rfl) (Queue.finishes_panicked _)
  | some size =>
      by_cases hFull : q.capacity ≤ size
      · exact Queue.finishes_of_step (by simp only [Queue.step, hSize, if_pos hFull]; rfl)
          (Queue.finishes_idle _)
      · refine Queue.finishes_of_step (by simp only [Queue.step, hSize, if_neg hFull]; rfl)
          (h.finishes_tryPushClaim hIndexed hOrder ?_)
        rw [Usize.eq_of_sub hSize] at hFull
        exact pending_quiet h.counters.1 h.counters.2 h.bounded.tail_le
          (Queue.Quiet.tryPushProceed (V := Option T) element head hFull) hPending

theorem Clear.finishes_tryPopLoadHead (h : Clear q trace s) {tail : Usize w}
    (hPending : Pending (headClaims trace).length (tailClaims trace).length q.capacity.toNat
      (.tryPopLoadHead tail : Local w T)) :
    q.Finishes (AtomicQueue2.slotCode T maximizeThroughput false) (.tryPopLoadHead tail)
      s.shared := by
  by_cases hEmpty : tail = s.shared.head
  · exact Queue.finishes_of_step (by simp only [Queue.step, if_pos hEmpty]; rfl)
      (Queue.finishes_idle _)
  · refine Queue.finishes_of_step (by simp only [Queue.step, if_neg hEmpty]; rfl)
      (h.finishes_tryPopClaim hIndexed hOrder ?_)
    exact pending_quiet h.counters.1 h.counters.2 h.bounded.tail_le
      (Queue.Quiet.tryPopProceed (T := T) (V := Option T) tail hEmpty) hPending

/-- Every call that has not claimed finishes on its own. -/
theorem Clear.finishes (h : Clear q trace s) (thread : Nat) :
    q.Finishes (AtomicQueue2.slotCode T maximizeThroughput false) (s.threads thread) s.shared := by
  have hPending := h.bounded.pending thread
  have hSlot := h.not_atSlot thread
  generalize s.threads thread = pc at hPending hSlot
  cases pc with
  | idle => exact Queue.finishes_idle _
  | panicked => exact Queue.finishes_panicked _
  | tryPushLoadHead element =>
      exact Queue.finishes_of_step rfl (h.finishes_tryPushLoadTail hIndexed hOrder h.counters.1.le)
  | tryPushLoadTail element head => exact h.finishes_tryPushLoadTail hIndexed hOrder hPending
  | tryPushClaim element head => exact h.finishes_tryPushClaim hIndexed hOrder hPending
  | tryPopLoadTail =>
      exact Queue.finishes_of_step rfl (h.finishes_tryPopLoadHead hIndexed hOrder h.counters.2.le)
  | tryPopLoadHead tail => exact h.finishes_tryPopLoadHead hIndexed hOrder hPending
  | tryPopClaim tail => exact h.finishes_tryPopClaim hIndexed hOrder hPending
  | observeLoadHead observer =>
      refine Queue.finishes_of_step rfl ?_
      exact Queue.finishes_observeLoadTail observer _ _
  | observeLoadTail observer head => exact Queue.finishes_observeLoadTail observer head _
  | pushClaim | popClaim => exact hPending.elim
  | pushSlot | popSlot => exact (hSlot trivial).elim

end Alone

section Completion

variable {trace : Trace (Event w T (Option T))} {s : Config w T}

/-- Of the calls in progress one can finish on its own: if none of those at a
slot can, then there is none at a slot. -/
theorem exists_finishes (hIndexed : q.Indexed) (hOrder : q.totalOrder = true)
    (run : Run (q.threadCode (AtomicQueue2.slotCode T maximizeThroughput false)) nonBlockingCalls
      (initial w (Slot.new T)) trace s)
    (hUsed : (headClaims trace).length < 2 ^ w) {thread : Nat} (hBusy : ¬ (s.threads thread).Ended) :
    ∃ thread, ¬ (s.threads thread).Ended ∧
      q.Finishes (AtomicQueue2.slotCode T maximizeThroughput false) (s.threads thread) s.shared := by
  have hPlaced := placed_of_run run
  have hAccounted := accounted_of_run hIndexed run
  have hBounded := ClaimBounds.bounded_of_run hOrder run hUsed
  have hOrdered := ordered_of_totalOrder hOrder run
  by_cases hBlocked : Blocked s
  · have hNone := hBlocked.not_atSlot hIndexed hAccounted hOrdered hPlaced hBounded.tail_le
      hBounded.head_le hUsed
    have hClear : Clear q trace s := ⟨hAccounted, hOrdered, hBounded, hUsed, hNone⟩
    exact ⟨thread, hBusy, hClear.finishes hIndexed hOrder thread⟩
  · simp only [Blocked, not_forall, not_or] at hBlocked
    obtain ⟨free, hSlot, hPush, hPop⟩ := hBlocked
    refine ⟨free, fun hEnded => ?_, finishes_of_atSlot (hPlaced free) hSlot hPush hPop⟩
    generalize s.threads free = pc at hSlot hEnded
    cases pc <;> contradiction

/-- A run of calls that do not block, by the threads below a bound, with
positions left for the calls in progress. -/
def Unfinished (q : Queue w) (maximizeThroughput : Bool) (bound : Nat) (s : Config w T) : Prop :=
  ∃ trace, Run (q.threadCode (AtomicQueue2.slotCode T maximizeThroughput false)) nonBlockingCalls
      (initial w (Slot.new T)) trace s ∧
    (headClaims trace).length + (busy Pc.Ended bound s.threads).card < 2 ^ w ∧
    ∀ thread, bound ≤ thread → (s.threads thread).Ended

/-- Some call can be brought to its end. If one is at a slot, the one with the
least turn there can finish, and otherwise any call can. -/
theorem Unfinished.ends_one {bound : Nat} (hIndexed : q.Indexed) (hOrder : q.totalOrder = true)
    (h : Unfinished q maximizeThroughput bound s) (hBusy : busy Pc.Ended bound s.threads ≠ ∅) :
    ∃ trace s', Run (q.threadCode (AtomicQueue2.slotCode T maximizeThroughput false)) onlySteps s
        trace s' ∧ Unfinished q maximizeThroughput bound s' ∧
      (busy Pc.Ended bound s'.threads).card < (busy Pc.Ended bound s.threads).card := by
  obtain ⟨trace, run, hUsed, hOthers⟩ := h
  obtain ⟨some, hSome⟩ := Finset.nonempty_iff_ne_empty.mpr hBusy
  rw [busy, Finset.mem_filter] at hSome
  obtain ⟨thread, hInProgress, last, final, hEnds, hEnded⟩ :=
    exists_finishes hIndexed hOrder run (by omega) hSome.2
  have hThread : thread < bound := by
    by_contra hBeyond
    exact hInProgress (hOthers thread (Nat.le_of_not_lt hBeyond))
  obtain ⟨es, hSteps, hClaims, _⟩ := hEnds.run s.threads thread
  rw [Function.update_eq_self] at hSteps
  have hFewer := card_busy_update_lt hThread hInProgress hEnded
  refine ⟨_, _, hSteps, ⟨_, run.trans hSteps fun _ _ action hStep => ?_, ?_, ?_⟩, hFewer⟩
  · cases action with
    | call => exact hStep.elim
    | step => exact trivial
  · rw [headClaims_append, List.length_append, List.length_map]
    dsimp only
    omega
  · intro other hBeyond
    dsimp only
    rw [Function.update_of_ne (by omega)]
    exact hOthers other hBeyond

end Completion

end Mpmc

/-- The consumer has claimed the position whose producer has yet to fill it. -/
def bothAtSlot : Option (Trace (Event 64 Nat (Option Nat)) × AtomicQueue2.Config 64 Nat) :=
  exec ((AtomicQueue2.twoSlots true).threadCode (AtomicQueue2.slotCode Nat true false))
    (fun trace s action => decide (nonBlockingCalls trace s action))
    [.call 0 (.tryPush 7), .step 0, .step 0, .step 0, .call 1 .tryPop, .step 1, .step 1, .step 1] []
    (initial 64 (Slot.new Nat))

theorem bothAtSlot_isSome : bothAtSlot.isSome := by decide +kernel

end AtomicQueueRs
