import AtomicQueueRs.SequentialFifo
import Mathlib.Data.Nat.ModEq

/-! What becomes of one element in a queue of words that one thread uses: the
call that claims its position reads what was stored last in its slot, and waits
for ever if that is the default value. -/
namespace AtomicQueueRs

set_option autoImplicit false

open Refinement (runAll runAll_cons_eq_some)

variable {w : Nat} {T V C U O : Type}

/-- The element that a call has stored, by what it returned. -/
def Call.stored : Call T → Return w V → Option T
  | .push element, _ => some element
  | .tryPush element, .tryPush true => some element
  | _, _ => none

def Return.popped : Return w V → Option V
  | .tryPop popped => popped
  | .pop value => some value
  | _ => none

/-- The elements that a sequence of calls has stored, in order. -/
def storedBy (operations : List (Call T)) (results : List (Return w V)) : List T :=
  (operations.zip results).filterMap fun call => call.1.stored call.2

def poppedIn (results : List (Return w V)) : List V := results.filterMap Return.popped

theorem storedBy_cons (operation : Call T) (rest : List (Call T)) (result : Return w V)
    (results : List (Return w V)) : storedBy (operation :: rest) (result :: results) =
      (operation.stored result).toList ++ storedBy rest results := by
  rw [storedBy, List.zip_cons_cons, List.filterMap_cons]
  cases operation.stored result <;> rfl

theorem poppedIn_cons (result : Return w V) (results : List (Return w V)) :
    poppedIn (result :: results) = result.popped.toList ++ poppedIn results := by
  rw [poppedIn, List.filterMap_cons]
  cases result.popped <;> rfl

theorem poppedIn_append (results results' : List (Return w V)) :
    poppedIn (results ++ results') = poppedIn results ++ poppedIn results' :=
  List.filterMap_append

namespace Queue

/-- What a call that returned has done: it stored an element or took a value at
the position that a counter showed, or left the memory as it was. -/
inductive Performed (q : Queue w) (code : SlotCode T V C U O) (σ : Memory w C) :
    Option T → Option V → Memory w C → Prop where
  | pushed {element : T} {slot fuel : Nat} {content : C} (hSlot : q.getSlot σ.head = some slot)
      (hRun : code.runPush fuel (code.doPush element) (σ.slots slot) = some content) :
      Performed q code σ (some element) none
        { σ with
          head := σ.head + 1#w
          slots := Function.update σ.slots slot content }
  | popped {value : V} {slot fuel : Nat} {content : C} (hSlot : q.getSlot σ.tail = some slot)
      (hRun : code.runPop fuel code.doPop (σ.slots slot) = some (value, content)) :
      Performed q code σ none (some value)
        { σ with
          tail := σ.tail + 1#w
          slots := Function.update σ.slots slot content }
  | unchanged : Performed q code σ none none σ

variable {q : Queue w} {code : SlotCode T V C U O} {σ σ' : Memory w C} {fuel : Nat}

/-- A push that returned has run the slot code to its end on the slot it
claimed. -/
theorem pushAt_cases {blocking : Bool} {element : T} {result : Return w V}
    (h : q.pushAt code fuel blocking σ.head element { σ with head := σ.head + 1#w } =
      some (result, σ')) :
    result = (if blocking then .push else .tryPush true) ∧
      Performed q code σ (some element) none σ' := by
  simp only [pushAt, Option.bind_eq_some_iff, Option.map_eq_some_iff, Prod.mk.injEq] at h
  obtain ⟨slot, hSlot, content, hRun, rfl, rfl⟩ := h
  exact ⟨rfl, .pushed hSlot hRun⟩

/-- A pop that returned has run the slot code to its end on the slot it
claimed. -/
theorem popAt_cases {blocking : Bool} {result : Return w V}
    (h : q.popAt code fuel blocking σ.tail { σ with tail := σ.tail + 1#w } = some (result, σ')) :
    ∃ value, result = (if blocking then .pop value else .tryPop (some value)) ∧
      Performed q code σ none (some value) σ' := by
  simp only [popAt, Option.bind_eq_some_iff, Option.map_eq_some_iff, Prod.mk.injEq] at h
  obtain ⟨slot, hSlot, ⟨value, content⟩, hRun, rfl, rfl⟩ := h
  exact ⟨value, rfl, .popped hSlot hRun⟩

/-- Every call that returns stores one element, takes one value, or leaves the
memory as it was. -/
theorem perform_cases {operation : Call T} {result : Return w V}
    (h : q.perform code fuel operation σ = some (result, σ')) :
    Performed q code σ (operation.stored result) result.popped σ' := by
  have hMore := perform_mono 3 h
  cases operation with
  | push element =>
      rw [perform_push] at hMore
      obtain ⟨rfl, hPerformed⟩ := pushAt_cases hMore
      exact hPerformed
  | pop =>
      rw [perform_pop] at hMore
      obtain ⟨value, rfl, hPerformed⟩ := popAt_cases hMore
      exact hPerformed
  | tryPush element =>
      rw [perform_tryPush, Option.bind_eq_some_iff] at hMore
      obtain ⟨size, _, hMore⟩ := hMore
      split_ifs at hMore with hFull
      · obtain ⟨rfl, rfl⟩ := Prod.mk.inj (Option.some.inj hMore)
        exact .unchanged
      · rw [Option.bind_eq_some_iff] at hMore
        obtain ⟨next, hNext, hMore⟩ := hMore
        obtain rfl := eq_of_advance hNext
        obtain ⟨rfl, hPerformed⟩ := pushAt_cases hMore
        exact hPerformed
  | tryPop =>
      rw [perform_tryPop] at hMore
      split_ifs at hMore with hEmpty
      · obtain ⟨rfl, rfl⟩ := Prod.mk.inj (Option.some.inj hMore)
        exact .unchanged
      · rw [Option.bind_eq_some_iff] at hMore
        obtain ⟨next, hNext, hMore⟩ := hMore
        obtain rfl := eq_of_advance hNext
        obtain ⟨value, rfl, hPerformed⟩ := popAt_cases hMore
        exact hPerformed
  | observe observer =>
      rw [perform_observe, Option.map_eq_some_iff] at hMore
      obtain ⟨observed, hResult, hEq⟩ := hMore
      obtain ⟨rfl, rfl⟩ := Prod.mk.inj hEq
      have hObservation := Observer.isObservation_of_result hResult
      cases observed with
      | wasSize | wasEmpty | wasFull => exact .unchanged
      | tryPush | tryPop | push | pop => contradiction

/-- What each call of a sequence preserves, the sequence preserves. -/
theorem runAll_invariant {I : List T → List V → Memory w C → Prop}
    (hPerformed : ∀ stored popped σ element value σ', I stored popped σ →
      Performed q code σ element value σ' →
      I (stored ++ element.toList) (popped ++ value.toList) σ')
    {operations : List (Call T)} {results : List (Return w V)} {stored : List T} {popped : List V}
    (hStart : I stored popped σ)
    (hRun : runAll (q.perform code fuel) operations σ = some (results, σ')) :
    I (stored ++ storedBy operations results) (popped ++ poppedIn results) σ' := by
  induction operations generalizing stored popped σ results with
  | nil =>
      obtain ⟨rfl, rfl⟩ := Prod.mk.inj (Option.some.inj hRun)
      rw [storedBy, poppedIn, List.zip_nil_left, List.filterMap_nil, List.filterMap_nil,
        List.append_nil, List.append_nil]
      exact hStart
  | cons operation rest ih =>
      obtain ⟨result, middle, results', hFirst, hRest, rfl⟩ := runAll_cons_eq_some.mp hRun
      have hLast := ih (hPerformed _ _ _ _ _ _ hStart (perform_cases hFirst)) hRest
      rw [List.append_assoc, List.append_assoc] at hLast
      rw [storedBy_cons, poppedIn_cons]
      exact hLast

end Queue

/-- What was stored last in the slot of `value`, when `later` have been stored
since: the slot comes round every `capacity` positions. -/
def lastStored (capacity : Nat) (value : T) (later : List T) : T :=
  (value :: later).getD (later.length / capacity * capacity) value

theorem lastStored_nil (capacity : Nat) (value : T) : lastStored capacity value [] = value := by
  simp [lastStored]

/-- Another store reaches the slot if the positions in between make up whole
laps. -/
theorem lastStored_append (capacity : Nat) (value : T) (later : List T) (element : T) :
    lastStored capacity value (later ++ [element]) =
      if capacity ∣ later.length + 1 then element else lastStored capacity value later := by
  unfold lastStored
  rw [List.length_append, List.length_singleton, Nat.succ_div]
  split_ifs with hDvd
  · have hIndex : (later.length / capacity + 1) * capacity = later.length + 1 := by
      rw [← Nat.succ_div_of_dvd hDvd]
      exact Nat.div_mul_cancel hDvd
    rw [hIndex]
    simp
  · rw [Nat.add_zero]
    have hLe : later.length / capacity * capacity ≤ later.length := Nat.div_mul_le_self _ _
    rw [← List.cons_append, List.getD_append]
    rw [List.length_cons]
    omega

section Words

variable [Element T]

/-- What a call that returned has done to the memory, by the element it stored
and the value it took. -/
inductive Done (q : Queue w) (bigEndian : Bool) (σ : Memory w (Usize w)) :
    Option T → Option T → Memory w (Usize w) → Prop where
  | pushed {element : T} {slot : Nat} (hSlot : q.getSlot σ.head = some slot) :
      Done q bigEndian σ (some element) none
        { σ with
          head := σ.head + 1#w
          slots := Function.update σ.slots slot (AtomicValue.raw w element) }
  | popped {value : T} {slot : Nat} (hSlot : q.getSlot σ.tail = some slot)
      (hLoad : AtomicValue.load bigEndian (σ.slots slot) = some value)
      (hValue : ¬ Element.IsDefault value) :
      Done q bigEndian σ none (some value)
        { σ with
          tail := σ.tail + 1#w
          slots := Function.update σ.slots slot (AtomicValue.raw w (Element.default : T)) }
  | unchanged : Done q bigEndian σ none none σ

section Calls

variable {q : Queue w} {bigEndian : Bool} {σ σ' : Memory w (Usize w)} {fuel : Nat}

/-- What a whole call does, for words that are elements. -/
theorem done_of_performed (hBits : Element.bits T = w) {element value : Option T}
    (h : q.Performed (AtomicQueue.slotCode w T bigEndian) σ element value σ') :
    Done q bigEndian σ element value σ' := by
  cases h with
  | pushed hSlot hRun =>
      obtain rfl := AtomicQueue.runPush_eq_some hBits hRun
      exact .pushed hSlot
  | popped hSlot hRun =>
      obtain ⟨hLoad, hValue, hStore⟩ := AtomicQueue.runPop_eq_some hRun
      rw [AtomicValue.store_eq hBits] at hStore
      obtain rfl := Option.some.inj hStore
      exact .popped hSlot hLoad hValue
  | unchanged => exact .unchanged

/-- For elements as wide as the word, what a call does to its slot is to put the
word of an element or of the default value there. -/
theorem perform_done (hBits : Element.bits T = w) {operation : Call T} {result : Return w T}
    (h : q.perform (AtomicQueue.slotCode w T bigEndian) fuel operation σ = some (result, σ')) :
    Done q bigEndian σ (operation.stored result) result.popped σ' :=
  done_of_performed hBits (Queue.perform_cases h)

/-- The invariant rule for sequences of calls on words that are elements. -/
theorem runAll_done (hBits : Element.bits T = w) {I : List T → List T → Memory w (Usize w) → Prop}
    (hDone : ∀ stored popped σ element value σ', I stored popped σ →
      Done q bigEndian σ element value σ' →
      I (stored ++ element.toList) (popped ++ value.toList) σ')
    {operations : List (Call T)} {results : List (Return w T)} {stored popped : List T}
    (hStart : I stored popped σ)
    (hRun : runAll (q.perform (AtomicQueue.slotCode w T bigEndian) fuel) operations σ =
      some (results, σ')) :
    I (stored ++ storedBy operations results) (popped ++ poppedIn results) σ' := by
  apply Queue.runAll_invariant ?_ hStart hRun
  intro stored popped σ element value σ' h hPerformed
  exact hDone stored popped σ element value σ' h (done_of_performed hBits hPerformed)

/-- The counters count what was stored and taken. -/
theorem counters_of_runAll (hBits : Element.bits T = w) {operations : List (Call T)}
    {results : List (Return w T)}
    (hRun : runAll (q.perform (AtomicQueue.slotCode w T bigEndian) fuel) operations
      (Memory.new w (AtomicValue.new w)) = some (results, σ)) :
    σ.head = BitVec.ofNat w (storedBy operations results).length ∧
      σ.tail = BitVec.ofNat w (poppedIn results).length := by
  have hStart : (Memory.new w (AtomicValue.new w)).head = BitVec.ofNat w ([] : List T).length ∧
      (Memory.new w (AtomicValue.new w)).tail = BitVec.ofNat w ([] : List T).length := ⟨rfl, rfl⟩
  refine runAll_done (I := fun stored popped σ => σ.head = BitVec.ofNat w stored.length ∧
    σ.tail = BitVec.ofNat w popped.length) hBits ?_ hStart hRun
  rintro stored popped σ element value σ' ⟨hHead, hTail⟩ hDone
  cases hDone with
  | pushed hSlot =>
      refine ⟨?_, by simpa using hTail⟩
      rw [List.length_append]
      exact (congrArg (· + 1#w) hHead).trans (Usize.ofNat_succ _).symm
  | popped hSlot hLoad hValue =>
      refine ⟨by simpa using hHead, ?_⟩
      rw [List.length_append]
      exact (congrArg (· + 1#w) hTail).trans (Usize.ofNat_succ _).symm
  | unchanged => exact ⟨by simpa using hHead, by simpa using hTail⟩

/-- After `value` was stored at position `n`, and `later` since, its slot holds
what was stored there last, until position `n` is claimed. -/
structure Resting (q : Queue w) (n : Nat) (value : T) (later popped : List T)
    (σ : Memory w (Usize w)) : Prop where
  head : σ.head = BitVec.ofNat w (n + 1 + later.length)
  tail : σ.tail = BitVec.ofNat w popped.length
  slot : popped.length ≤ n → σ.slots (q.slotAt n) =
    AtomicValue.raw w (lastStored q.capacity.toNat value later)

/-- The call that stores the value leaves it resting, with nothing stored
since. -/
theorem resting_of_stored {n : Nat} {value : T} {popped : List T} {taken : Option T}
    (hIndexed : q.Indexed) (hHead : σ.head = BitVec.ofNat w n)
    (hTail : σ.tail = BitVec.ofNat w popped.length)
    (hDone : Done q bigEndian σ (some value) taken σ') : Resting q n value [] popped σ' := by
  obtain ⟨hSlot⟩ := hDone
  rw [hHead, hIndexed.getSlot_ofNat] at hSlot
  obtain rfl := Option.some.inj hSlot
  refine ⟨(congrArg (· + 1#w) hHead).trans (Usize.ofNat_succ _).symm, hTail, fun _ => ?_⟩
  dsimp only
  rw [Function.update_self, lastStored_nil]

/-- Another call stores in the same slot every `capacity` positions, and
otherwise leaves it alone: by `hSpace` no position popped before this one has
its slot. -/
theorem Resting.done {n : Nat} {value : T} {later popped : List T} {element taken : Option T}
    (hIndexed : q.Indexed)
    (hLayout : Ring.Layout q.slotAt q.capacity.toNat)
    (h : Resting q n value later popped σ) (hSpace : n < popped.length + q.capacity.toNat)
    (hDone : Done q bigEndian σ element taken σ') :
    Resting q n value (later ++ element.toList) (popped ++ taken.toList) σ' := by
  cases hDone with
  | unchanged => simpa using h
  | @pushed element slot hSlot =>
      rw [h.head, hIndexed.getSlot_ofNat] at hSlot
      obtain rfl := Option.some.inj hSlot
      rw [Option.toList_some, Option.toList_none, List.append_nil]
      refine ⟨?_, h.tail, fun hLe => ?_⟩
      · rw [List.length_append, List.length_singleton, ← Nat.add_assoc]
        exact (congrArg (· + 1#w) h.head).trans (Usize.ofNat_succ _).symm
      · -- the store falls on the slot of position `n` once every `capacity` positions
        have hSame : q.slotAt n = q.slotAt (n + 1 + later.length) ↔
            q.capacity.toNat ∣ later.length + 1 := by
          rw [hLayout.slot_eq_iff, show n + 1 + later.length = n + (later.length + 1) by omega]
          exact Nat.left_modEq_add_iff
        rw [lastStored_append]
        dsimp only
        split_ifs with hDvd
        · rw [hSame.mpr hDvd, Function.update_self]
        · rw [Function.update_of_ne fun hEq => hDvd (hSame.mp hEq)]
          exact h.slot hLe
  | @popped taken slot hSlot hLoad hValue =>
      rw [h.tail, hIndexed.getSlot_ofNat] at hSlot
      obtain rfl := Option.some.inj hSlot
      rw [Option.toList_some, Option.toList_none, List.append_nil]
      refine ⟨h.head, ?_, fun hLe => ?_⟩
      · rw [List.length_append]
        exact (congrArg (· + 1#w) h.tail).trans (Usize.ofNat_succ _).symm
      · rw [List.length_append, List.length_singleton] at hLe
        have hOther := hLayout.slot_ne hLe hSpace
        dsimp only
        rw [Function.update_of_ne hOther.symm]
        exact h.slot (Nat.le_of_succ_le hLe)

/-- By induction on the calls that come after. -/
theorem resting_of_runAll (hBits : Element.bits T = w) (hIndexed : q.Indexed)
    (hLayout : Ring.Layout q.slotAt q.capacity.toNat)
    {n : Nat} {value : T} {popped : List T} (h : Resting q n value [] popped σ)
    (hSpace : n < popped.length + q.capacity.toNat) {operations : List (Call T)}
    {results : List (Return w T)}
    (hRun : runAll (q.perform (AtomicQueue.slotCode w T bigEndian) fuel) operations σ =
      some (results, σ')) :
    Resting q n value (storedBy operations results) (popped ++ poppedIn results) σ' := by
  refine (runAll_done (I := fun later popped σ => n < popped.length + q.capacity.toNat ∧
    Resting q n value later popped σ) hBits ?_ ⟨hSpace, h⟩ hRun).2
  rintro later popped σ element taken σ' ⟨hSpace, hResting⟩ hDone
  refine ⟨?_, hResting.done hIndexed hLayout hSpace hDone⟩
  rw [List.length_append]
  omega

/-- At a slot that reads as empty a consumer waits for ever. -/
theorem perform_eq_none_of_vacant {consumer : Call T} (hClaims : q.ClaimsNext σ consumer)
    {slot : Nat} (hSlot : q.getSlot σ.tail = some slot)
    (hVacant : AtomicValue.Vacant T bigEndian (σ.slots slot)) (fuel : Nat) :
    q.perform (AtomicQueue.slotCode w T bigEndian) fuel consumer σ = none := by
  rw [Option.eq_none_iff_forall_ne_some]
  intro out hOut
  obtain ⟨blocking, more, hPerform⟩ :=
    Queue.perform_claimsNext (AtomicQueue.slotCode w T bigEndian) hClaims fuel
  rw [Queue.perform_mono 3 hOut, Queue.popAt, hSlot, Option.bind_some, eq_comm,
    Option.map_eq_some_iff] at hPerform
  obtain ⟨⟨value, raw⟩, hRun, _⟩ := hPerform
  obtain ⟨hLoad, hValue, _⟩ := AtomicQueue.runPop_eq_some hRun
  exact AtomicValue.not_vacant_of_load hLoad hValue hVacant

end Calls

/-- An element stored while there is room is returned by the call that claims
its position exactly if it does not compare equal to the default value and is
what its slot was last given. In any other case that call waits for ever or
returns something else. -/
theorem returned_iff_of_stored {target : Target w} {q : Queue w} (hq : IsAtomicQueue target q)
    (hBits : Element.bits T = w) (bigEndian : Bool) {fuel : Nat} {before later : List (Call T)}
    {producer consumer : Call T} {value : T} {results results' : List (Return w T)}
    {accepted : Return w T} {σ σ₁ σ₂ : Memory w (Usize w)}
    (hBefore : runAll (q.perform (AtomicQueue.slotCode w T bigEndian) fuel) before
      (Memory.new w (AtomicValue.new w)) = some (results, σ))
    (hSpace : (storedBy before results).length < (poppedIn results).length + q.capacity.toNat)
    (hAccepted : q.perform (AtomicQueue.slotCode w T bigEndian) fuel producer σ =
      some (accepted, σ₁))
    (hStored : producer.stored accepted = some value)
    (hLater : runAll (q.perform (AtomicQueue.slotCode w T bigEndian) fuel) later σ₁ =
      some (results', σ₂))
    (hPosition : (poppedIn results ++ poppedIn results').length = (storedBy before results).length)
    (hClaims : q.ClaimsNext σ₂ consumer) :
    (∃ fuel result σ₃, q.perform (AtomicQueue.slotCode w T bigEndian) fuel consumer σ₂ =
        some (result, σ₃) ∧ result.popped = some value) ↔
      ¬ Element.IsDefault value ∧
        lastStored q.capacity.toNat value (storedBy later results') = value := by
  have hPos : 0 < q.capacity.toNat := by
    rw [List.length_append] at hPosition
    omega
  have hIndexed := hq.indexed hPos
  have hLayout := hIndexed.layout (hq.capacity_eq_two_pow hPos)
  obtain ⟨hHead, hTail⟩ := counters_of_runAll hBits hBefore
  have hAtStore := perform_done hBits hAccepted
  rw [hStored] at hAtStore
  have hResting := resting_of_runAll hBits hIndexed hLayout
    (resting_of_stored hIndexed hHead hTail hAtStore) hSpace hLater
  have hSlot := hResting.slot hPosition.le
  have hNext := hResting.tail
  rw [hPosition] at hNext
  constructor
  · rintro ⟨fuel, result, σ₃, hPerform, hPopped⟩
    have hAtPop := perform_done hBits hPerform
    rw [hPopped] at hAtPop
    generalize consumer.stored result = stored at hAtPop
    cases hAtPop with
    | popped hGet hLoad hValue =>
        rw [hNext, hIndexed.getSlot_ofNat] at hGet
        obtain rfl := Option.some.inj hGet
        rw [hSlot, AtomicValue.load_raw hBits] at hLoad
        exact ⟨hValue, Option.some.inj hLoad⟩
  · rintro ⟨hValue, hLast⟩
    rw [hLast] at hSlot
    have hLoad := AtomicValue.load_raw hBits bigEndian value
    rw [← hSlot] at hLoad
    obtain ⟨blocking, more, hPerform⟩ :=
      Queue.perform_claimsNext (AtomicQueue.slotCode w T bigEndian) hClaims 3
    have hRun := AtomicQueue.exists_runPop hBits hLoad hValue more
    rw [Queue.popAt, hNext, hIndexed.getSlot_ofNat, Option.bind_some] at hPerform
    rw [show (AtomicQueue.slotCode w T bigEndian).doPop = .load from rfl, hRun] at hPerform
    refine ⟨_, _, _, hPerform, ?_⟩
    cases blocking <;> rfl

end Words

theorem returned_oneSlot : ∃ results σ, runAll (AtomicQueue.oneSlot.perform
      (AtomicQueue.slotCode 64 (BitVec 64) false) 6)
      [.push 7#64, .pop, .tryPush 8#64, .tryPush 9#64, .observe .wasFull]
      (Memory.new 64 (AtomicValue.new 64)) = some (results, σ) ∧
    ∃ fuel result σ', AtomicQueue.oneSlot.perform (AtomicQueue.slotCode 64 (BitVec 64) false) fuel
      .tryPop σ = some (result, σ') ∧ result.popped = some 8#64 := by
  refine ⟨_, _, rfl, (@returned_iff_of_stored 64 (BitVec 64) _ _ _
    (.fixed _ AtomicQueue.new_oneSlot) rfl false 6 [.push 7#64, .pop]
    [.tryPush 9#64, .observe .wasFull] (.tryPush 8#64) .tryPop 8#64 [.push, .pop 7#64]
    [.tryPush false, .wasFull true] (.tryPush true) _ _ _ rfl ?_ rfl rfl rfl rfl ?_).mpr ?_⟩
  · decide
  · exact ⟨by decide, rfl⟩
  · exact ⟨by decide, rfl⟩

/-- `README.md` pushes 0 to tell the consumers to stop. The push is accepted
and the call that comes for it never returns. -/
theorem oneSlot_default_spins : ∃ σ, AtomicQueue.oneSlot.perform
      (AtomicQueue.slotCode 64 (BitVec 64) false) 6 (.tryPush 0#64)
      (Memory.new 64 (AtomicValue.new 64)) = some (.tryPush true, σ) ∧
    (∀ fuel, AtomicQueue.oneSlot.perform (AtomicQueue.slotCode 64 (BitVec 64) false) fuel .pop σ =
      none) ∧
    ∀ fuel, AtomicQueue.oneSlot.perform (AtomicQueue.slotCode 64 (BitVec 64) false) fuel .tryPop σ =
      none := by
  refine ⟨_, rfl, perform_eq_none_of_vacant trivial rfl (by decide),
    perform_eq_none_of_vacant ⟨by decide, rfl⟩ rfl (by decide)⟩

end AtomicQueueRs
