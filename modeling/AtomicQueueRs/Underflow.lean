import AtomicQueueRs.ClaimBounds

/-! The subtraction `head - tail` in `try_push`, `was_size` and `was_full`. The
two counters are loaded one after the other, and `tail` may move in between:
what matters is that no consumer advances it past a `head` already loaded. -/
namespace AtomicQueueRs

set_option autoImplicit false

open Interleaving (Trace Run Action)

variable {w : Nat} {T V C U O : Type}

/-- The `head` that the next step subtracts the `tail` it loads from. -/
def Pc.minuend : Pc w T U O → Option (Usize w)
  | .tryPushLoadTail _ head => some head
  | .observeLoadTail .wasSize head | .observeLoadTail .wasFull head => some head
  | _ => none

/-- Each subtraction that comes next gives the true difference under both
profiles. -/
def NoUnderflow (s : State w T C U O) : Prop :=
  ∀ thread minuend, (s.threads thread).minuend = some minuend →
    ∀ build, ∃ size, Usize.sub build minuend s.shared.tail = some size ∧
      size.toNat + s.shared.tail.toNat = minuend.toNat

/-- The next step loads `head` to subtract from it. -/
def Pc.loadsMinuend : Pc w T U O → Prop
  | .tryPushLoadHead _ | .observeLoadHead .wasSize | .observeLoadHead .wasFull => True
  | _ => False

/-- Whoever takes a position from `tail` finds it below every `head` that a
call in progress has loaded to subtract from. Where positions are taken by
`fetch_add`, such a load moreover finds `tail` not past `head`. -/
def AdvancesBelow (q : Queue w) (s : State w T C U O) : Action (Call T) → Prop
  | .call _ _ => True
  | .step thread =>
      (∀ blocking position, q.ClaimsTail s.shared (s.threads thread) blocking position →
        ∀ other minuend, (s.threads other).minuend = some minuend → s.shared.tail < minuend) ∧
      (q.totalOrder = false → (s.threads thread).loadsMinuend → s.shared.tail ≤ s.shared.head)

namespace Underflow

variable {q : Queue w} {code : SlotCode T V C U O}

theorem minuend_start (operation : Call T) : (Queue.start operation : Pc w T U O).minuend = none := by
  cases operation <;> rfl

/-- Only a load of `head` leaves a minuend behind. -/
theorem minuend_quiet {σ : Memory w C} {pc pc' : Pc w T U O} {es : List (Event w T V)}
    (h : q.Quiet σ pc pc' es) {minuend : Usize w} (hMinuend : pc'.minuend = some minuend) :
    minuend = σ.head ∧ pc.loadsMinuend := by
  cases h with
  | tryPushLoadHead => exact ⟨(Option.some.inj hMinuend).symm, trivial⟩
  | observeLoadHead observer =>
      cases observer with
      | wasEmpty => contradiction
      | wasSize | wasFull => exact ⟨(Option.some.inj hMinuend).symm, trivial⟩
  | _ => contradiction

/-- A call at its slot has done with subtracting. -/
theorem minuend_landed {pc : Pc w T U O} (h : pc.Landed) : pc.minuend = none := by
  cases pc <;> first | rfl | exact h.elim

/-- A minuend that a step leaves behind is the `head` it found. -/
theorem minuend_step {σ σ' : Memory w C} {pc pc' : Pc w T U O} {es : List (Event w T V)}
    (h : q.Step code pc σ pc' σ' es) {minuend : Usize w} (hMinuend : pc'.minuend = some minuend) :
    minuend = σ.head ∧ pc.loadsMinuend ∧ σ'.tail = σ.tail := by
  rcases h.quiet_or_landed with hQuiet | hLanded
  · obtain ⟨hHead, hLoads⟩ := minuend_quiet hQuiet hMinuend
    refine ⟨hHead, hLoads, ?_⟩
    rcases h.tailClaims with ⟨_, hSame⟩ | ⟨_, _, hClaim, _⟩
    · exact hSame
    · cases hClaim <;> exact hLoads.elim
  · rw [minuend_landed hLanded] at hMinuend
    contradiction

/-- `tail` is at most every loaded `head`. -/
def Below (s : State w T C U O) : Prop :=
  ∀ thread minuend, (s.threads thread).minuend = some minuend → s.shared.tail ≤ minuend

/-- A step that loads `head` finds `tail` not past it, and one that advances
`tail` does so below every `head` that has been loaded. No other step changes
either side. -/
theorem Below.step {s : State w T C U O} {thread : Nat} {pc : Pc w T U O} {shared : Memory w C}
    {es : List (Event w T V)} (h : Below s) (hAdvances : AdvancesBelow q s (.step thread))
    (hOrder : q.totalOrder = true → s.shared.tail ≤ s.shared.head)
    (hStep : q.Step code (s.threads thread) s.shared pc shared es) :
    Below ⟨shared, Function.update s.threads thread pc⟩ := by
  obtain ⟨hClaims, hLoads⟩ := hAdvances
  rw [Below, Function.forall_update_iff s.threads fun _ pc =>
    ∀ minuend, pc.minuend = some minuend → shared.tail ≤ minuend]
  refine ⟨fun minuend hSome => ?_, fun other _ minuend hOther => ?_⟩
  · obtain ⟨rfl, hLoad, hSame⟩ := minuend_step hStep hSome
    rw [hSame]
    cases hFetch : q.totalOrder with
    | true => exact hOrder hFetch
    | false => exact hLoads hFetch hLoad
  · rcases hStep.tailClaims with ⟨_, hSame⟩ | ⟨blocking, position, hClaim, _, hNext⟩
    · rw [hSame]
      exact h other minuend hOther
    · have hAbove := hClaims blocking position hClaim other minuend hOther
      rw [hNext]
      rw [BitVec.lt_def] at hAbove
      rw [BitVec.le_def, BitVec.toNat_add]
      exact (Nat.mod_le _ _).trans (by
        have hOne := Nat.mod_le 1 (2 ^ w)
        rw [BitVec.toNat_ofNat]
        omega)

variable {empty : C}

/-- Where positions are taken by `compare_exchange`, `tail` is at most `head` in
any case, as the claims find the words that were tested. The bound keeps the
counters from wrapping. -/
theorem below_of_run {trace : Trace (Event w T V)} {s : State w T C U O}
    (run : Run (q.threadCode code)
      (fun trace s action => nonBlockingCalls trace s action ∧ AdvancesBelow q s action)
      (initial w empty) trace s)
    (hUsed : (headClaims trace).length < 2 ^ w) : Below s := by
  revert hUsed
  apply run.invariant (fun trace s => (headClaims trace).length < 2 ^ w → Below s)
  · exact fun _ _ _ => nofun
  · intro trace s thread operation pc es _ ih _ hCall hUsed
    obtain ⟨_, rfl, rfl⟩ := Queue.call_cases hCall
    rw [headClaims_call] at hUsed
    rw [Below, Function.forall_update_iff s.threads fun _ pc =>
      ∀ minuend, pc.minuend = some minuend → s.shared.tail ≤ minuend]
    refine ⟨fun minuend hSome => ?_, fun other _ => ih hUsed other⟩
    rw [minuend_start] at hSome
    contradiction
  · intro trace s thread pc shared es prior ih hAllowed hStep hUsed
    rw [headClaims_append, List.length_append] at hUsed
    refine (ih (by omega)).step hAllowed.2 (fun hOrder => ?_) (Queue.step_cases hStep)
    -- the claims by `compare_exchange` keep `tail` at or below `head`
    have hCounted := counted_of_run prior
    have hTailLe := (ClaimBounds.bounded_of_run hOrder (prior.weaken fun _ _ _ h => h.1)
      (by omega)).tail_le
    rw [BitVec.le_def, hCounted.head, hCounted.tail, BitVec.toNat_ofNat, BitVec.toNat_ofNat,
      Nat.mod_eq_of_lt (by omega), Nat.mod_eq_of_lt (by omega)]
    exact hTailLe

end Underflow

/-- In every state reached by calls that do not block, with fewer than
`2 ^ (w - 1)` positions used. A `tail` that overtakes the `head` a call has
loaded makes its difference wrap, or panic where it is checked; the code does
not keep it from doing so. -/
theorem noUnderflow_of_advancesBelow (q : Queue w) (code : SlotCode T V C U O) (empty : C)
    {trace : Trace (Event w T V)} {s : State w T C U O}
    (run : Run (q.threadCode code)
      (fun trace s action => nonBlockingCalls trace s action ∧ AdvancesBelow q s action)
      (initial w empty) trace s)
    (hUsed : (headClaims trace).length < 2 ^ (w - 1)) : NoUnderflow s := by
  have hWord : (headClaims trace).length < 2 ^ w :=
    Nat.lt_of_lt_of_le hUsed (Nat.pow_le_pow_right (by omega) (Nat.sub_le w 1))
  intro thread minuend hMinuend build
  have hLe := BitVec.le_def.mp (Underflow.below_of_run run hWord thread minuend hMinuend)
  refine ⟨minuend - s.shared.tail, Usize.sub_of_le build hLe, ?_⟩
  rw [BitVec.toNat_sub_of_le (BitVec.le_def.mpr hLe)]
  exact Nat.sub_add_cancel hLe

/-- The next step may take a position from `tail`. -/
def Pc.advances : Pc w T U O → Bool
  | .tryPopClaim _ | .popClaim => true
  | _ => false

/-- `AdvancesBelow` in a form that can be tested, for a queue that claims by
`compare_exchange`: only threads below the bound have made calls. -/
def advancesBelowTest (bound : Nat) (s : State w T C U O) : Action (Call T) → Bool
  | .call _ _ => true
  | .step thread => !(s.threads thread).advances ||
      (List.range bound).all fun other => (s.threads other).minuend.all (s.shared.tail < ·)

/-- The test looks at the threads below a bound, and the others are idle. -/
theorem advancesBelow_of_test {s : State w T C U O} {q : Queue w} (hOrder : q.totalOrder = true)
    {bound : Nat} (hRest : ∀ thread, bound ≤ thread → s.threads thread = .idle)
    {action : Action (Call T)} (h : advancesBelowTest bound s action = true) :
    AdvancesBelow q s action := by
  cases action with
  | call => exact trivial
  | step thread =>
      refine ⟨fun blocking position hClaim other minuend hOther => ?_, fun hFetch => ?_⟩
      swap
      · rw [hOrder] at hFetch
        contradiction
      have hAdvances : (s.threads thread).advances = true := by
        generalize s.threads thread = pc at hClaim
        cases hClaim <;> rfl
      have hBound : other < bound := by
        by_contra hGe
        rw [hRest other (Nat.le_of_not_lt hGe)] at hOther
        contradiction
      rw [advancesBelowTest, hAdvances, Bool.not_true, Bool.false_or] at h
      have hBelow := List.all_eq_true.mp h other (List.mem_range.mpr hBound)
      rw [hOther] at hBelow
      exact of_decide_eq_true hBelow

/-- An element passed through the queue, and a `was_size` after that. -/
theorem noUnderflow_oneSlot : ∃ s : AtomicQueue.Config 64 (BitVec 64),
    s.threads 0 = .observeLoadTail .wasSize 1#64 ∧ s.shared.tail = 1#64 ∧ NoUnderflow s := by
  refine ⟨_, ?_, ?_, noUnderflow_of_advancesBelow AtomicQueue.oneSlot
    (AtomicQueue.slotCode 64 (BitVec 64) false) (AtomicValue.new 64)
    (Run.ofExec 2
      (fun trace s action => decide (nonBlockingCalls trace s action) && advancesBelowTest 2 s action)
      ?_
      [.call 1 (.tryPush 7#64), .step 1, .step 1, .step 1, .step 1,
        .call 1 .tryPop, .step 1, .step 1, .step 1, .step 1, .step 1,
        .call 0 (.observe .wasSize), .step 0]
      (by decide) (by decide +kernel)) ?_⟩
  · decide +kernel
  · decide +kernel
  · intro trace s action hRest hTest
    rw [Bool.and_eq_true, decide_eq_true_iff] at hTest
    exact ⟨hTest.1, advancesBelow_of_test rfl hRest hTest.2⟩
  · decide +kernel

/-- A `was_size` loads `head`; an element is pushed and popped before it loads
`tail`. Without overflow checks the size shows as `2 ^ 64 - 1`. -/
theorem oneSlot_underflows : ∃ trace, ∃ s : AtomicQueue.Config 64 (BitVec 64),
    Run (AtomicQueue.oneSlot.threadCode (AtomicQueue.slotCode 64 (BitVec 64) false))
        nonBlockingCalls (initial 64 (AtomicValue.new 64)) trace s ∧
      (headClaims trace).length = 1 ∧ s.threads 0 = .observeLoadTail .wasSize 0#64 ∧
      Usize.sub .checked 0#64 s.shared.tail = none ∧
      AtomicQueue.oneSlot.step (AtomicQueue.slotCode 64 (BitVec 64) false) (s.threads 0) s.shared =
        some (.idle, s.shared,
          [.loadTail 1#64, .returned (.wasSize 18446744073709551615#64)]) ∧
      ¬ NoUnderflow s := by
  refine ⟨_, _, Run.ofExec 2 (fun trace s action => decide (nonBlockingCalls trace s action))
    (fun _ _ _ _ => of_decide_eq_true)
    [.call 0 (.observe .wasSize), .step 0,
      .call 1 (.tryPush 7#64), .step 1, .step 1, .step 1, .step 1,
      .call 1 .tryPop, .step 1, .step 1, .step 1, .step 1, .step 1]
    (by decide) (by decide +kernel), by decide +kernel, by decide +kernel, by decide +kernel, rfl, ?_⟩
  intro hNone
  obtain ⟨size, hSub, _⟩ := hNone 0 0#64 (by decide +kernel) .checked
  have hPanics := Option.some_ne_none size
  rw [← hSub] at hPanics
  exact hPanics (by decide +kernel)

end AtomicQueueRs
