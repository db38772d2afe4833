import AtomicQueueRs.Indexing
import AtomicQueueRs.SingleThread
import Mathlib.Data.Finset.Card

/-! The wrapped difference of the counters. The blocking calls take positions
without comparing the counters, so `tail` may pass `head` and `head` may run
more than a lap ahead; the difference is then no size. -/
namespace AtomicQueueRs

set_option autoImplicit false

open Interleaving (Trace Run Action anyAction)

variable {w : Nat} {T V C U O : Type} {q : Queue w} {code : SlotCode T V C U O} {empty : C}

/-- Whoever takes a position from `head` finds the counters less than a lap
apart, and whoever takes one from `tail` finds them apart. -/
def RoomyClaim (q : Queue w) (s : State w T C U O) : Action (Call T) → Prop
  | .call _ _ => True
  | .step thread =>
      (∀ blocking position element,
        q.ClaimsHead s.shared (s.threads thread) blocking position element →
          s.shared.head - s.shared.tail ≠ q.capacity) ∧
      ∀ blocking position, q.ClaimsTail s.shared (s.threads thread) blocking position →
        s.shared.tail ≠ s.shared.head

/-- A roomy step keeps the difference within the capacity. -/
theorem size_le_of_step {s : State w T C U O} {thread : Nat} {pc : Pc w T U O} {shared : Memory w C}
    {es : List (Event w T V)} (hRoomy : RoomyClaim q s (.step thread))
    (hStep : q.Step code (s.threads thread) s.shared pc shared es)
    (hSize : s.shared.head - s.shared.tail ≤ q.capacity) :
    shared.head - shared.tail ≤ q.capacity := by
  rw [BitVec.le_def] at hSize ⊢
  rcases hStep.headClaims with ⟨_, hHead⟩ | ⟨_, _, _, hClaim, _, hHead⟩
  · rcases hStep.tailClaims with ⟨_, hTail⟩ | ⟨_, _, hClaim, _, hTail⟩
    · rw [hHead, hTail]
      exact hSize
    · have hApart : (s.shared.head - s.shared.tail).toNat ≠ 0 := by
        intro hZero
        exact hRoomy.2 _ _ hClaim (Usize.toNat_sub_eq_zero_iff.mp hZero).symm
      rw [hHead, hTail, Usize.sub_succ, Usize.toNat_pred hApart]
      omega
  · have hRoom : (s.shared.head - s.shared.tail).toNat ≠ q.capacity.toNat := by
      intro hFull
      exact hRoomy.1 _ _ _ hClaim (BitVec.eq_of_toNat_eq hFull)
    have hLt := Nat.lt_of_le_of_ne hSize hRoom
    rcases hStep.tailClaims with ⟨_, hTail⟩ | ⟨_, _, hClaim', _, hTail⟩
    · rw [hHead, hTail, Usize.succ_sub, Usize.toNat_succ hLt]
      exact hLt
    · generalize s.threads thread = before at hClaim hClaim'
      cases hClaim <;> cases hClaim'

/-- One step changes one counter by one. The condition excludes the two steps by
which the difference could leave the range from 0 to the capacity: a push claim
at the capacity, and a pop claim at zero, which would wrap it. -/
theorem size_le_of_run {trace : Trace (Event w T V)} {s : State w T C U O}
    (run : Run (q.threadCode code) (fun _ => RoomyClaim q) (initial w empty) trace s) :
    s.shared.head - s.shared.tail ≤ q.capacity := by
  apply run.invariant (fun _ s => s.shared.head - s.shared.tail ≤ q.capacity)
  · simp [initial, Memory.new, AtomicQueueCommon.new, BitVec.le_def]
  · intro trace s thread operation pc es _ ih _ _
    exact ih
  · intro trace s thread pc shared es _ ih hRoomy hStep
    exact size_le_of_step hRoomy (Queue.step_cases hStep) ih

/-- Alone, `try_push` refuses exactly when the wrapped difference reaches the
capacity. -/
theorem tryPush_refused_iff (hRelease : q.build = .release) (element : T) (σ : Memory w C) :
    (∃ fuel σ', q.perform code fuel (.tryPush element) σ = some (.tryPush false, σ')) ↔
      q.capacity ≤ σ.head - σ.tail := by
  constructor
  · rintro ⟨fuel, σ', h⟩
    have hMore := Queue.perform_mono 3 h
    rw [Queue.perform_tryPush, hRelease, Usize.sub_release, Option.bind_some] at hMore
    by_contra hRoom
    rw [if_neg hRoom, Queue.advance_release hRelease, Option.bind_some, Queue.pushAt,
      Option.bind_eq_some_iff] at hMore
    obtain ⟨slot, _, hMore⟩ := hMore
    simp at hMore
  · intro hFull
    refine ⟨3, σ, ?_⟩
    rw [Queue.perform_tryPush, hRelease, Usize.sub_release, Option.bind_some, if_pos hFull]

/-- While no other thread takes a step: the size is at most the capacity, and
`was_full` tells whether a `try_push` that comes next is refused. -/
structure ObserversAgree (q : Queue w) (code : SlotCode T V C U O) (σ : Memory w C) : Prop where
  size : ∃ size, q.perform code 2 (.observe .wasSize) σ = some (.wasSize size, σ) ∧
    size ≤ q.capacity
  full : ∀ element, ∃ full, q.perform code 2 (.observe .wasFull) σ = some (.wasFull full, σ) ∧
    (full = true ↔
      ∃ fuel σ', q.perform code fuel (.tryPush element) σ = some (.tryPush false, σ'))

/-- The condition is also needed: with the counters further apart `was_size`
exceeds the capacity as soon as it is called. -/
theorem observersAgree_iff (hRelease : q.build = .release) {σ : Memory w C} :
    ObserversAgree q code σ ↔ σ.head - σ.tail ≤ q.capacity := by
  have hObserve (observer : Observer) : q.perform code 2 (.observe observer) σ = _ :=
    Queue.perform_observe 0 observer σ
  simp only [Observer.result, hRelease, Usize.sub_release, Option.map_some] at hObserve
  constructor
  · intro h
    obtain ⟨size, hPerform, hSize⟩ := h.size
    rw [hObserve .wasSize] at hPerform
    simp only [Option.map_some, Option.some.injEq, Prod.mk.injEq, Return.wasSize.injEq] at hPerform
    rw [hPerform.1]
    exact hSize
  · intro hSize
    refine ⟨⟨_, hObserve .wasSize, hSize⟩, fun element => ⟨_, hObserve .wasFull, ?_⟩⟩
    rw [tryPush_refused_iff hRelease, beq_iff_eq]
    constructor
    · intro hEq
      rw [hEq, BitVec.le_def]
    · intro hFull
      exact BitVec.le_antisymm hSize hFull

/-- In every state reached by calls that each find room, or something to take,
whenever they take a position: the observers then agree with what `try_push`
does next. -/
theorem agree_of_roomyClaims {target : Target w} {q : Queue w} (hq : IsQueue target q)
    (hRelease : target.build = .release) (code : SlotCode T V C U O) (empty : C)
    {trace : Trace (Event w T V)} {s : State w T C U O}
    (run : Run (q.threadCode code) (fun _ => RoomyClaim q) (initial w empty) trace s) :
    ObserversAgree q code s.shared :=
  (observersAgree_iff (hq.build_eq.trans hRelease)).mpr (size_le_of_run run)

/-- A form of `RoomyClaim` that can be tested. -/
def Pc.roomy (capacity : Usize w) (common : AtomicQueueCommon w) : Pc w T U O → Bool
  | .tryPushClaim _ _ | .pushClaim _ => common.head - common.tail != capacity
  | .tryPopClaim _ | .popClaim => common.tail != common.head
  | _ => true

theorem roomyClaim_of_roomy {s : State w T C U O} {thread : Nat}
    (h : (s.threads thread).roomy q.capacity s.shared.toAtomicQueueCommon = true) :
    RoomyClaim q s (.step thread) := by
  rw [RoomyClaim]
  generalize s.threads thread = pc at h ⊢
  constructor
  · intro blocking position element hClaim
    cases hClaim <;> exact bne_iff_ne.mp h
  · intro blocking position hClaim
    cases hClaim <;> exact bne_iff_ne.mp h

/-- A queue that is full while the `push` that filled it is still at its slot. -/
theorem agree_oneSlot : ∃ s : AtomicQueue.Config 64 (BitVec 64),
    s.shared.head = 1#64 ∧ s.threads 0 = .pushSlot true 0#64 0 (.store 7#64) ∧
      ObserversAgree (V := BitVec 64) AtomicQueue.oneSlot
        (AtomicQueue.slotCode 64 (BitVec 64) false) s.shared := by
  refine ⟨_, ?_, ?_, agree_of_roomyClaims (.atomic (.fixed _ AtomicQueue.new_oneSlot)) rfl
    (AtomicQueue.slotCode 64 (BitVec 64) false) (AtomicValue.new 64)
    (Run.ofExec 1 (fun _ s action => match action with
      | .call _ _ => true
      | .step thread => (s.threads thread).roomy 1#64 s.shared.toAtomicQueueCommon)
      ?_ [.call 0 (.push 7#64), .step 0] (by decide) (by decide +kernel))⟩
  · decide +kernel
  · decide +kernel
  · intro trace s action _ hTest
    cases action with
    | call => exact trivial
    | step thread => exact roomyClaim_of_roomy hTest

/-- A `pop` waits on an empty queue. The size shows as `2 ^ 64 - 1`, and the
queue as not full although it refuses the next element. -/
theorem oneSlot_observers_disagree : ∃ trace, ∃ s : AtomicQueue.Config 64 (BitVec 64),
    Run (AtomicQueue.oneSlot.threadCode (AtomicQueue.slotCode 64 (BitVec 64) false)) anyAction
        (initial 64 (AtomicValue.new 64)) trace s ∧
      AtomicQueue.oneSlot.perform (AtomicQueue.slotCode 64 (BitVec 64) false) 2
        (.observe .wasSize) s.shared = some (.wasSize 18446744073709551615#64, s.shared) ∧
      AtomicQueue.oneSlot.perform (AtomicQueue.slotCode 64 (BitVec 64) false) 2
        (.observe .wasFull) s.shared = some (.wasFull false, s.shared) ∧
      AtomicQueue.oneSlot.perform (AtomicQueue.slotCode 64 (BitVec 64) false) 3
        (.tryPush 7#64) s.shared = some (.tryPush false, s.shared) ∧
      ¬ ObserversAgree AtomicQueue.oneSlot (AtomicQueue.slotCode 64 (BitVec 64) false) s.shared := by
  refine ⟨_, _, Run.ofExec 2 (fun _ _ _ => true) (fun _ _ _ _ _ => trivial)
    [.call 1 .pop, .step 1] (by decide) (by decide +kernel), rfl, rfl, rfl, ?_⟩
  intro hAgree
  have hSize := (observersAgree_iff rfl).mp hAgree
  revert hSize
  decide +kernel

section Starved

/-- The threads in `waiting` are at their slots in `pop`, no other call is in
progress, and `tail` is ahead of `head` by the number of those who wait: the
queue holds no element. -/
structure Starved (waiting : Finset Nat) (s : State w T C U O) : Prop where
  waits : ∀ thread ∈ waiting, ∃ position slot pc, s.threads thread = .popSlot true position slot pc
  rest : ∀ thread ∉ waiting, s.threads thread = .idle
  tail_eq : s.shared.tail = s.shared.head + BitVec.ofNat w waiting.card

/-- As an unsigned word the lead of `tail` is at least any capacity. -/
theorem Starved.le_size {waiting : Finset Nat} {s : State w T C U O} (h : Starved waiting s)
    {capacity : Usize w} (hCapacity : capacity.toNat ≤ 2 ^ (w - 1)) (hPos : 0 < waiting.card)
    (hLe : waiting.card ≤ capacity.toNat) : capacity ≤ s.shared.head - s.shared.tail := by
  have hWord := capacity.isLt
  have hHalf : 2 ^ (w - 1) + 2 ^ (w - 1) ≤ 2 ^ w ∨ w = 0 := by
    cases w with
    | zero => exact Or.inr rfl
    | succ w => exact Or.inl (by rw [Nat.add_sub_cancel, Nat.pow_succ]; omega)
  have hWaiting : (BitVec.ofNat w waiting.card).toNat = waiting.card := by
    rw [BitVec.toNat_ofNat, Nat.mod_eq_of_lt (by omega)]
  have hGap : s.shared.head - s.shared.tail = -BitVec.ofNat w waiting.card := by
    rw [h.tail_eq, BitVec.sub_eq_iff_eq_add, BitVec.add_comm s.shared.head, ← BitVec.add_assoc,
      BitVec.add_comm (-_), BitVec.add_right_neg, BitVec.zero_add]
  rw [BitVec.le_def, hGap, BitVec.toNat_neg, hWaiting, Nat.mod_eq_of_lt (by omega)]
  rcases hHalf with hHalf | rfl
  · omega
  · omega

/-- Blocked consumers make a `try_push` that comes next fail, although there is
room: any capacity that can be allocated takes up at most half the range. -/
theorem refused_of_starved {target : Target w} {q : Queue w} (hq : IsQueue target q)
    (hRelease : target.build = .release)
    (hAllocates : ∀ capacity, target.allocates capacity = true → capacity.toNat ≤ 2 ^ (w - 1))
    (code : SlotCode T V C U O) {s : State w T C U O} {waiting : Finset Nat}
    (h : Starved waiting s) (hPos : 0 < waiting.card) (hLe : waiting.card ≤ q.capacity.toNat)
    (element : T) :
    q.perform code 3 (.tryPush element) s.shared = some (.tryPush false, s.shared) ∧
      ¬ ∃ fuel σ, q.perform code fuel (.tryPush element) s.shared = some (.tryPush true, σ) := by
  have hFull := h.le_size (hAllocates _ hq.allocates) hPos hLe
  have hRefused : q.perform code 3 (.tryPush element) s.shared =
      some (.tryPush false, s.shared) := by
    rw [Queue.perform_tryPush, hq.build_eq.trans hRelease, Usize.sub_release, Option.bind_some,
      if_pos hFull]
  refine ⟨hRefused, ?_⟩
  rintro ⟨fuel, σ, hAccepted⟩
  have hMore := Queue.perform_mono 3 hAccepted
  rw [Nat.add_comm, Queue.perform_mono fuel hRefused] at hMore
  simp at hMore

/-- Half the range of `usize` is more than the target allocates. -/
theorem le_half_of_allocates {capacity : Usize 64} (h : Target.x86_64.allocates capacity = true) :
    capacity.toNat ≤ 2 ^ (64 - 1) := by
  have hLe : capacity ≤ 1#64 <<< 32 := of_decide_eq_true h
  rw [BitVec.le_def] at hLe
  exact Nat.le_trans hLe (by decide)

/-- Thread 1 is in `pop` on a queue just built, at the slot of position 0. -/
def oneWaits : AtomicQueue.Config 64 (BitVec 64) :=
  alone 1 (.popSlot true 0#64 0 .load) { Memory.new 64 (AtomicValue.new 64) with tail := 1#64 }

theorem run_oneWaits : ∃ trace, Run (AtomicQueue.oneSlot.threadCode
    (AtomicQueue.slotCode 64 (BitVec 64) false)) anyAction (initial 64 (AtomicValue.new 64))
      trace oneWaits := by
  have hStart : Run (AtomicQueue.oneSlot.threadCode (AtomicQueue.slotCode 64 (BitVec 64) false))
      (onlyThread 1) (initial 64 (AtomicValue.new 64)) []
      (alone 1 .idle (Memory.new 64 (AtomicValue.new 64))) := by
    rw [alone_idle]
    exact Run.zero
  exact ⟨_, (run_step (run_call hStart .pop) rfl).any⟩

/-- The hypothesis of the theorem above is met by a state that a run reaches. -/
theorem starved_oneWaits : Starved {1} oneWaits where
  waits := by
    intro thread hThread
    obtain rfl := Finset.mem_singleton.mp hThread
    exact ⟨_, _, _, rfl⟩
  rest := by
    intro thread hThread
    have hOther : thread ≠ 1 := Finset.notMem_singleton.mp hThread
    simp [oneWaits, alone, hOther]
  tail_eq := rfl

theorem refused_oneWaits : Starved {1} oneWaits ∧
    AtomicQueue.oneSlot.perform (AtomicQueue.slotCode 64 (BitVec 64) false) 3
      (.tryPush 7#64) oneWaits.shared = some (.tryPush false, oneWaits.shared) :=
  ⟨starved_oneWaits, (refused_of_starved (.atomic (.fixed _ AtomicQueue.new_oneSlot)) rfl
    (fun _ => le_half_of_allocates) (AtomicQueue.slotCode 64 (BitVec 64) false) starved_oneWaits
    (by decide) (by decide) 7#64).1⟩

/-- One consumer waits and the slot is empty, yet the offered element is
refused. -/
theorem oneSlot_refuses_starved : ∃ trace, ∃ s : AtomicQueue.Config 64 (BitVec 64),
    Run (AtomicQueue.oneSlot.threadCode (AtomicQueue.slotCode 64 (BitVec 64) false)) anyAction
        (initial 64 (AtomicValue.new 64)) trace s ∧
      Starved {1} s ∧ s.shared.slots 0 = AtomicValue.new 64 ∧
      AtomicQueue.oneSlot.perform (AtomicQueue.slotCode 64 (BitVec 64) false) 3
        (.tryPush 7#64) s.shared = some (.tryPush false, s.shared) := by
  obtain ⟨trace, run⟩ := run_oneWaits
  exact ⟨trace, oneWaits, run, starved_oneWaits, rfl, rfl⟩

end Starved

end AtomicQueueRs
