import AtomicQueueRs.SingleThread

/-! How a call ends that no other thread interferes with: it returns or it
panics, and a call that spins has no end. A panic that comes after a position
was taken leaves the counter advanced and the slot as it was. -/
namespace AtomicQueueRs

set_option autoImplicit false

variable {w : Nat} {T V C U O : Type}

namespace Queue

variable (q : Queue w) (code : SlotCode T V C U O)

/-- The rest of a call, from its program counter to where it ends. -/
inductive Ends : Pc w T U O → Memory w C → Pc w T U O → Memory w C → Prop where
  | returned (σ : Memory w C) : Ends .idle σ .idle σ
  | panicked (σ : Memory w C) : Ends .panicked σ .panicked σ
  | step {pc pc' last : Pc w T U O} {σ σ' final : Memory w C} {es : List (Event w T V)}
      (first : step q code pc σ = some (pc', σ', es)) (rest : Ends pc' σ' last final) :
      Ends pc σ last final

/-- The memories one thread can leave between its calls, whether they returned
or panicked. -/
inductive Reached (empty : C) : Memory w C → Prop where
  | new : Reached empty (Memory.new w empty)
  | call {σ σ' : Memory w C} {last : Pc w T U O} (operation : Call T) (prior : Reached empty σ)
      (h : Ends q code (start operation) σ last σ') : Reached empty σ'

/-- A call that panics leaves the memory as it was. -/
def PanicAtomic (σ : Memory w C) (operation : Call T) : Prop :=
  ∀ σ', Ends q code (start operation) σ .panicked σ' → σ' = σ

/-- The call claims the position that `head` shows. -/
def ClaimsHeadNext (σ : Memory w C) : Call T → Prop
  | .push _ => True
  | .tryPush _ => ∃ size, Usize.sub q.build σ.head σ.tail = some size ∧ ¬ q.capacity ≤ size ∧
      (advance q σ.head).isSome
  | _ => False

variable {q} {code} {pc pc' last : Pc w T U O} {σ σ' final : Memory w C} {es : List (Event w T V)}

/-- A call that is not over ends as it does from after its next step: the step
function leaves no choice. -/
theorem ends_iff (hStep : step q code pc σ = some (pc', σ', es)) :
    Ends q code pc σ last final ↔ Ends q code pc' σ' last final := by
  constructor
  · intro h
    cases h with
    | returned | panicked => contradiction
    | step first rest =>
        rw [hStep, Option.some.injEq, Prod.mk.injEq, Prod.mk.injEq] at first
        obtain ⟨rfl, rfl, _⟩ := first
        exact rest
  · exact Ends.step hStep

theorem ends_idle : Ends q code .idle σ last final ↔ last = .idle ∧ final = σ := by
  constructor
  · intro h
    cases h with
    | returned => exact ⟨rfl, rfl⟩
    | step first => contradiction
  · rintro ⟨rfl, rfl⟩
    exact .returned _

theorem ends_panicked : Ends q code .panicked σ last final ↔ last = .panicked ∧ final = σ := by
  constructor
  · intro h
    cases h with
    | panicked => exact ⟨rfl, rfl⟩
    | step first => contradiction
  · rintro ⟨rfl, rfl⟩
    exact .panicked _

/-- What every step preserves holds at the end. -/
theorem Ends.invariant (inv : Pc w T U O → Memory w C → Prop)
    (hStep : ∀ pc σ pc' σ' es, Step q code pc σ pc' σ' es → inv pc σ → inv pc' σ')
    (h : Ends q code pc σ last final) (hStart : inv pc σ) : inv last final := by
  induction h with
  | returned | panicked => exact hStart
  | step first _ ih => exact ih (hStep _ _ _ _ _ (step_cases first) hStart)

/-- At its slot a call leaves the counters alone. -/
theorem Step.landed (h : Step q code pc σ pc' σ' es) (hLanded : pc.Landed) :
    pc'.Landed ∧ σ'.toAtomicQueueCommon = σ.toAtomicQueueCommon := by
  rcases h.quiet_or_landed with hQuiet | hLanded'
  · cases hQuiet <;> exact hLanded.elim
  · refine ⟨hLanded', ?_⟩
    cases h with
    | quiet | pushSlot | popSlot => rfl
    | claimHead h | claimTail h => cases h <;> exact hLanded.elim

/-- A call at its slot changes no counter any more, however it ends. -/
theorem Ends.counters (h : Ends q code pc σ last final) (hLanded : pc.Landed) :
    final.toAtomicQueueCommon = σ.toAtomicQueueCommon := by
  have hBoth := h.invariant
    (fun pc σ' => pc.Landed ∧ σ'.toAtomicQueueCommon = σ.toAtomicQueueCommon)
    (fun _ _ _ _ _ hStep hBefore =>
      ⟨(hStep.landed hBefore.1).1, (hStep.landed hBefore.1).2.trans hBefore.2⟩) ⟨hLanded, rfl⟩
  exact hBoth.2

section Claims

variable (code) in
/-- A `try_push` on its own finds the word that it loaded, and its exchange
takes the position. -/
theorem step_tryPushClaim (element : T) {next : Usize w} (hNext : advance q σ.head = some next) :
    ∃ es, step q code (.tryPushClaim element σ.head) σ =
      some ((enterPush (V := V) q code false σ.head element).1, { σ with head := σ.head + 1#w }, es) := by
  refine ⟨(enterPush (V := V) q code false σ.head element).2, ?_⟩
  have hAdvanced := eq_of_advance hNext
  unfold advance at hNext
  split_ifs at hNext with hOrder
  · simp [step, hOrder, hNext, hAdvanced]
  · simp [step, hOrder]

variable (code) in
theorem step_tryPopClaim {next : Usize w} (hNext : advance q σ.tail = some next) :
    ∃ es, step q code (.tryPopClaim σ.tail) σ =
      some ((enterPop q code false σ.tail).1, { σ with tail := σ.tail + 1#w }, es) := by
  refine ⟨(enterPop q code false σ.tail).2, ?_⟩
  have hAdvanced := eq_of_advance hNext
  unfold advance at hNext
  split_ifs at hNext with hOrder
  · simp [step, hOrder, hNext, hAdvanced]
  · simp [step, hOrder]

variable (code) in
/-- A call that claims from `head` ends as its push side does. -/
theorem ends_of_claimsHeadNext {operation : Call T} (hClaims : q.ClaimsHeadNext σ operation) :
    ∃ blocking element, ∀ last final, Ends q code (start operation) σ last final ↔
      Ends q code (enterPush (V := V) q code blocking σ.head element).1
        { σ with head := σ.head + 1#w } last final := by
  cases operation with
  | push element => exact ⟨true, element, fun last final => ends_iff rfl⟩
  | tryPush element =>
      obtain ⟨size, hSize, hRoom, hAdvance⟩ := hClaims
      obtain ⟨next, hNext⟩ := Option.isSome_iff_exists.mp hAdvance
      obtain ⟨es, hClaim⟩ := step_tryPushClaim code element hNext
      have hLoad : step q code (.tryPushLoadTail element σ.head) σ =
          some (.tryPushClaim element σ.head, σ, [.loadTail σ.tail, .proceed element]) := by
        simp [step, hSize, hRoom]
      refine ⟨false, element, fun last final => ?_⟩
      rw [start, ends_iff rfl, ends_iff hLoad, ends_iff hClaim]
  | tryPop | pop | observe => exact hClaims.elim

variable (code) in
/-- Whichever of `pop` and `try_pop` claims the position, the rest of the call
is the same but for how it reports. -/
theorem ends_of_claimsNext {operation : Call T} (hClaims : q.ClaimsNext σ operation) :
    ∃ blocking, ∀ last final, Ends q code (start operation) σ last final ↔
      Ends q code (enterPop q code blocking σ.tail).1 { σ with tail := σ.tail + 1#w } last final := by
  cases operation with
  | pop => exact ⟨true, fun last final => ends_iff rfl⟩
  | tryPop =>
      obtain ⟨hApart, hAdvance⟩ := hClaims
      obtain ⟨next, hNext⟩ := Option.isSome_iff_exists.mp hAdvance
      obtain ⟨es, hClaim⟩ := step_tryPopClaim code hNext
      have hLoad : step q code (.tryPopLoadHead σ.tail) σ =
          some (.tryPopClaim σ.tail, σ, [.loadHead σ.head]) := by
        simp [step, hApart]
      refine ⟨false, fun last final => ?_⟩
      rw [start, ends_iff rfl, ends_iff hLoad, ends_iff hClaim]
  | tryPush | push | observe => exact hClaims.elim

/-- A call that claims nothing changes nothing, even if it panics. -/
theorem panicAtomic_of_not_claims {operation : Call T} (hHead : ¬ q.ClaimsHeadNext σ operation)
    (hTail : ¬ q.ClaimsNext σ operation) : PanicAtomic q code σ operation := by
  intro final h
  cases operation with
  | push element => exact (hHead trivial).elim
  | pop => exact (hTail trivial).elim
  | tryPush element =>
      rw [start, ends_iff rfl] at h
      cases hSize : Usize.sub q.build σ.head σ.tail with
      | none =>
          rw [ends_iff (by simp only [step, hSize]; rfl)] at h
          exact (ends_panicked.mp h).2
      | some size =>
          by_cases hFull : q.capacity ≤ size
          · rw [ends_iff (by simp only [step, hSize, if_pos hFull]; rfl)] at h
            exact (ends_idle.mp h).2
          · rw [ends_iff (by simp only [step, hSize, if_neg hFull]; rfl)] at h
            have hNone : advance q σ.head = none := by
              rw [← Option.not_isSome_iff_eq_none]
              intro hAdvance
              exact hHead ⟨size, hSize, hFull, hAdvance⟩
            unfold advance at hNone
            split_ifs at hNone with hOrder
            rw [ends_iff (by simp only [step, hOrder, if_true, hNone]; rfl)] at h
            exact (ends_panicked.mp h).2
  | tryPop =>
      rw [start, ends_iff rfl] at h
      by_cases hEmpty : σ.tail = σ.head
      · rw [ends_iff (by simp only [step, if_pos hEmpty]; rfl)] at h
        exact (ends_idle.mp h).2
      · rw [ends_iff (by simp only [step, if_neg hEmpty]; rfl)] at h
        have hNone : advance q σ.tail = none := by
          rw [← Option.not_isSome_iff_eq_none]
          intro hAdvance
          exact hTail ⟨hEmpty, hAdvance⟩
        unfold advance at hNone
        split_ifs at hNone with hOrder
        rw [ends_iff (by simp only [step, hOrder, if_true, hNone]; rfl)] at h
        exact (ends_panicked.mp h).2
  | observe observer =>
      rw [start, ends_iff rfl] at h
      cases hResult : observer.result (V := V) q.build q.capacity σ.head σ.tail with
      | none =>
          rw [ends_iff (by simp only [step, hResult]; rfl)] at h
          exact (ends_panicked.mp h).2
      | some result =>
          rw [ends_iff (by simp only [step, hResult]; rfl)] at h
          exact (ends_idle.mp h).2

end Claims

/-- When the slot code panics, on memories whose slots satisfy `inv`: on the
push side if `push` holds, on the pop side if `pop` does. -/
structure PanicSpec (q : Queue w) (code : SlotCode T V C U O) (inv : (Nat → C) → Prop)
    (push pop : Prop) : Prop where
  push_iff : ∀ (σ : Memory w C) blocking position slot element, inv σ.slots →
    ((∃ final, Ends q code (.pushSlot blocking position slot (code.doPush element)) σ
      .panicked final) ↔ push)
  pop_iff : ∀ (σ : Memory w C) blocking position slot, inv σ.slots →
    ((∃ final, Ends q code (.popSlot blocking position slot code.doPop) σ .panicked final) ↔ pop)

theorem succ_ne (hWidth : 0 < w) (x : Usize w) : x + 1#w ≠ x := by
  intro hEq
  have hOne : 1#w = 0#w := by
    have hDiff := congrArg (· - x) hEq
    simpa [BitVec.add_comm x, BitVec.add_sub_cancel] using hDiff
  have hNat := congrArg BitVec.toNat hOne
  rw [Usize.toNat_one (Nat.one_lt_two_pow (by omega)), BitVec.toNat_zero] at hNat
  contradiction

/-- Once a position is claimed, a panic leaves the counter advanced. -/
theorem panicAtomic_iff_of_claimsHeadNext (hWidth : 0 < w) {operation : Call T}
    {inv : (Nat → C) → Prop} {push pop : Prop} (spec : PanicSpec q code inv push pop)
    (hInv : inv σ.slots) (hClaims : q.ClaimsHeadNext σ operation) :
    PanicAtomic q code σ operation ↔ (q.getSlot σ.head).isSome ∧ ¬ push := by
  obtain ⟨blocking, element, hEnds⟩ := ends_of_claimsHeadNext code hClaims
  have hNever : PanicAtomic q code σ operation ↔ ¬ ∃ final,
      Ends q code (enterPush (V := V) q code blocking σ.head element).1
        { σ with head := σ.head + 1#w } .panicked final := by
    constructor
    · rintro hAtomic ⟨final, hFinal⟩
      obtain rfl := hAtomic final ((hEnds _ _).mpr hFinal)
      have hCounters := hFinal.counters (enterPush_landed _ _ _)
      exact succ_ne hWidth _ (congrArg AtomicQueueCommon.head hCounters).symm
    · intro hNone final hFinal
      exact (hNone ⟨final, (hEnds _ _).mp hFinal⟩).elim
  rw [hNever]
  unfold enterPush
  cases q.getSlot σ.head with
  | none => simpa using ⟨_, Ends.panicked _⟩
  | some slot => simpa using not_congr (spec.push_iff { σ with head := σ.head + 1#w } _ _ _ _ hInv)

/-- Once `tail` has moved, a panic is not atomic, wherever it comes from: the
index table of a queue without slots, or the slot code. -/
theorem panicAtomic_iff_of_claimsNext (hWidth : 0 < w) {operation : Call T}
    {inv : (Nat → C) → Prop} {push pop : Prop} (spec : PanicSpec q code inv push pop)
    (hInv : inv σ.slots) (hClaims : q.ClaimsNext σ operation) :
    PanicAtomic q code σ operation ↔ (q.getSlot σ.tail).isSome ∧ ¬ pop := by
  obtain ⟨blocking, hEnds⟩ := ends_of_claimsNext code hClaims
  have hNever : PanicAtomic q code σ operation ↔ ¬ ∃ final,
      Ends q code (enterPop q code blocking σ.tail).1
        { σ with tail := σ.tail + 1#w } .panicked final := by
    constructor
    · rintro hAtomic ⟨final, hFinal⟩
      obtain rfl := hAtomic final ((hEnds _ _).mpr hFinal)
      have hCounters := hFinal.counters (enterPop_landed _ _)
      exact succ_ne hWidth _ (congrArg AtomicQueueCommon.tail hCounters).symm
    · intro hNone final hFinal
      exact (hNone ⟨final, (hEnds _ _).mp hFinal⟩).elim
  rw [hNever]
  unfold enterPop
  cases q.getSlot σ.tail with
  | none => simpa using ⟨_, Ends.panicked _⟩
  | some slot => simpa using not_congr (spec.pop_iff { σ with tail := σ.tail + 1#w } _ _ _ hInv)

/-- No call claims from both counters. -/
theorem not_claims_both {operation : Call T} (hHead : q.ClaimsHeadNext σ operation) :
    ¬ q.ClaimsNext σ operation := by
  cases operation <;> first | exact id | exact hHead.elim

/-- A panic is atomic exactly where no position is claimed, or the claimed one
has a slot whose code does not panic. -/
theorem PanicSpec.panicAtomic_iff (hWidth : 0 < w) {inv : (Nat → C) → Prop} {push pop : Prop}
    (spec : PanicSpec q code inv push pop) (hInv : inv σ.slots) (operation : Call T) :
    PanicAtomic q code σ operation ↔
      (q.ClaimsHeadNext σ operation → (q.getSlot σ.head).isSome ∧ ¬ push) ∧
      (q.ClaimsNext σ operation → (q.getSlot σ.tail).isSome ∧ ¬ pop) := by
  by_cases hHead : q.ClaimsHeadNext σ operation
  · have hTail := not_claims_both hHead
    rw [panicAtomic_iff_of_claimsHeadNext hWidth spec hInv hHead]
    simp [hHead, hTail]
  · by_cases hTail : q.ClaimsNext σ operation
    · rw [panicAtomic_iff_of_claimsNext hWidth spec hInv hTail]
      simp [hHead, hTail]
    · simp [hHead, hTail, panicAtomic_of_not_claims hHead hTail]

end Queue

end AtomicQueueRs
