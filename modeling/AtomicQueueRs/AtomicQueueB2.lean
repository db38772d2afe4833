import AtomicQueueRs.Concurrency.Lockstep
import AtomicQueueRs.Shuffling

/-! `AtomicQueueB2` on its own: the second copy of the protocol in
`src/atomic_queue2.rs`, statement by statement, over two arrays behind raw
pointers. It runs in lockstep with the model that both queues share, and for a
size that can be rounded up with `AtomicQueue2`. -/
namespace AtomicQueueRs

set_option autoImplicit false

open Interleaving (Lockstep Action exec)

variable {w : Nat} {T : Type}

namespace AtomicQueueB2

open AtomicQueue2 (Local)

/-- The counters, and the flags and elements apart from each other. -/
structure Arrays (w : Nat) (T : Type) extends AtomicQueueCommon w where
  states : Nat → Flag
  elements : Nat → Option T

def Arrays.new (w : Nat) (T : Type) : Arrays w T :=
  { AtomicQueueCommon.new w with states := fun _ => .empty, elements := fun _ => none }

/-- The fields that `new` fixes, and the const parameters. -/
structure Fields (w : Nat) where
  build : Build
  capacity : Usize w
  shuffleBits : Nat
  maximizeThroughput : Bool
  totalOrder : Bool
  spsc : Bool

def Fields.new (target : Target w) (size : Usize w) (maximizeThroughput totalOrder spsc : Bool) :
    Option (Fields w) := do
  let capacity ← roundUpToPowerOf2 target.build size
  let elementsPerCacheLine := target.cacheLineSize / target.sizeOfPaddedState
  let shuffleBits := getIndexShuffleBits true capacity elementsPerCacheLine
  if target.allocates capacity then
    some { build := target.build, capacity, shuffleBits, maximizeThroughput, totalOrder, spsc }
  else none

variable (q : Fields w)

/-- `get_slot`, and the first line of `do_push_any`. -/
def claimedHead (blocking : Bool) (head : Usize w) (value : T) :
    Local w T × List (Event w T (Option T)) :=
  match getSlot q.build q.capacity q.shuffleBits head with
  | some offset =>
      if q.spsc then (.pushSlot blocking head offset (.loadState value), [.claimHead head])
      else (.pushSlot blocking head offset (.compareExchange value), [.claimHead head])
  | none => (.panicked, [.claimHead head, .panicked])

/-- `get_slot`, and the first line of `do_pop_any`. -/
def claimedTail (blocking : Bool) (tail : Usize w) : Local w T × List (Event w T (Option T)) :=
  match getSlot q.build q.capacity q.shuffleBits tail with
  | some offset =>
      if q.spsc then (.popSlot blocking tail offset .loadState, [.claimTail tail])
      else (.popSlot blocking tail offset .compareExchange, [.claimTail tail])
  | none => (.panicked, [.claimTail tail, .panicked])

/-- `push` returns nothing and `try_push` returns true. -/
def pushed (blocking : Bool) : Return w (Option T) := if blocking then .push else .tryPush true

/-- `pop` returns the value and `try_pop` returns it wrapped in `Some`. -/
def popped (blocking : Bool) (value : Option T) : Return w (Option T) :=
  if blocking then .pop value else .tryPop (some value)

/-- A step of `do_push_any`; the first three are its `SPSC` branch. -/
def doPushAny (blocking : Bool) (head : Usize w) (offset : Nat) :
    DoPushAny T → Arrays w T → Local w T × Arrays w T × List (Event w T (Option T))
  | .loadState value, σ =>
      if σ.states offset ≠ .empty then (.pushSlot blocking head offset (.loadState value), σ, [])
      else (.pushSlot blocking head offset (.writeElement value), σ, [])
  | .writeElement value, σ =>
      (.pushSlot blocking head offset .storeFull,
        { σ with elements := Function.update σ.elements offset (some value) },
        [.access head offset (.write value)])
  | .storeFull, σ =>
      (.idle, { σ with states := Function.update σ.states offset .full },
        [.access head offset .fill, .returned (pushed blocking)])
  | .compareExchange value, σ =>
      if σ.states offset = .empty then
        (.pushSlot blocking head offset (.write value),
          { σ with states := Function.update σ.states offset .full }, [.access head offset .fill])
      else (.pushSlot blocking head offset (.compareExchange value), σ, [])
  | .write value, σ =>
      (.idle, { σ with elements := Function.update σ.elements offset (some value) },
        [.access head offset (.write value), .returned (pushed blocking)])

/-- A step of `do_pop_any`; the first three are its `SPSC` branch. -/
def doPopAny (blocking : Bool) (tail : Usize w) (offset : Nat) :
    DoPopAny T → Arrays w T → Local w T × Arrays w T × List (Event w T (Option T))
  | .loadState, σ =>
      if σ.states offset = .full then (.popSlot blocking tail offset .readElement, σ, [])
      else (.popSlot blocking tail offset .loadState, σ, [])
  | .readElement, σ =>
      (.popSlot blocking tail offset (.storeEmpty (σ.elements offset)), σ,
        [.access tail offset (.read (σ.elements offset))])
  | .storeEmpty value, σ =>
      (.idle, { σ with states := Function.update σ.states offset .empty },
        [.access tail offset .drain, .returned (popped blocking value)])
  | .compareExchange, σ =>
      if σ.states offset = .full then
        (.popSlot blocking tail offset .read,
          { σ with states := Function.update σ.states offset .empty }, [.access tail offset .drain])
      else if q.maximizeThroughput then (.popSlot blocking tail offset .spin, σ, [])
      else (.popSlot blocking tail offset .compareExchange, σ, [])
  | .spin, σ =>
      if σ.states offset = .empty then (.popSlot blocking tail offset .spin, σ, [])
      else (.popSlot blocking tail offset .compareExchange, σ, [])
  | .read, σ =>
      (.idle, σ,
        [.access tail offset (.read (σ.elements offset)),
          .returned (popped blocking (σ.elements offset))])

/-- One indivisible step of `try_push`, `try_pop`, `push`, `pop` or an observer. -/
def step : Local w T → Arrays w T → Option (Local w T × Arrays w T × List (Event w T (Option T)))
  | .idle, _ => none
  | .panicked, _ => none
  | .tryPushLoadHead value, σ => some (.tryPushLoadTail value σ.head, σ, [.loadHead σ.head])
  | .tryPushLoadTail value head, σ =>
      match Usize.sub q.build head σ.tail with
      | none => some (.panicked, σ, [.loadTail σ.tail, .panicked])
      | some size =>
          if size ≥ q.capacity then
            some (.idle, σ, [.loadTail σ.tail, .returned (.tryPush false)])
          else some (.tryPushClaim value head, σ, [.loadTail σ.tail, .proceed value])
  | .tryPushClaim value head, σ =>
      if q.totalOrder then
        match Usize.add q.build head 1#w with
        | none => some (.panicked, σ, [.panicked])
        | some next =>
            if σ.head = head then
              some ((claimedHead q false head value).1, { σ with head := next },
                (claimedHead q false head value).2)
            else some (.idle, σ, [.returned (.tryPush false)])
      else
        some ((claimedHead q false head value).1, { σ with head := σ.head + 1#w },
          (claimedHead q false head value).2)
  | .pushClaim value, σ =>
      some ((claimedHead q true σ.head value).1, { σ with head := σ.head + 1#w },
        (claimedHead q true σ.head value).2)
  | .pushSlot blocking head offset pc, σ => some (doPushAny blocking head offset pc σ)
  | .tryPopLoadTail, σ => some (.tryPopLoadHead σ.tail, σ, [.loadTail σ.tail])
  | .tryPopLoadHead tail, σ =>
      if tail = σ.head then some (.idle, σ, [.loadHead σ.head, .returned (.tryPop none)])
      else some (.tryPopClaim tail, σ, [.loadHead σ.head])
  | .tryPopClaim tail, σ =>
      if q.totalOrder then
        match Usize.add q.build tail 1#w with
        | none => some (.panicked, σ, [.panicked])
        | some next =>
            if σ.tail = tail then
              some ((claimedTail q false tail).1, { σ with tail := next },
                (claimedTail q false tail).2)
            else some (.idle, σ, [.returned (.tryPop none)])
      else
        some ((claimedTail q false tail).1, { σ with tail := σ.tail + 1#w },
          (claimedTail q false tail).2)
  | .popClaim, σ =>
      some ((claimedTail q true σ.tail).1, { σ with tail := σ.tail + 1#w },
        (claimedTail q true σ.tail).2)
  | .popSlot blocking tail offset pc, σ => some (doPopAny q blocking tail offset pc σ)
  | .observeLoadHead observer, σ => some (.observeLoadTail observer σ.head, σ, [.loadHead σ.head])
  | .observeLoadTail observer head, σ =>
      match observer.result q.build q.capacity head σ.tail with
      | none => some (.panicked, σ, [.loadTail σ.tail, .panicked])
      | some result => some (.idle, σ, [.loadTail σ.tail, .returned result])

def Fields.threadCode (T : Type) :
    Interleaving.Code (Arrays w T) (Local w T) (Call T) (Event w T (Option T)) where
  call := Queue.call
  step := step q

/-- All threads idle and the arrays as constructed. -/
def initial (w : Nat) (T : Type) : Interleaving.State (Arrays w T) (Local w T) :=
  { shared := Arrays.new w T, threads := fun _ => .idle }

/-- The queue as the shared model has it. -/
abbrev Fields.queue : Queue w where
  build := q.build
  capacity := q.capacity
  getSlot := getSlot q.build q.capacity q.shuffleBits
  totalOrder := q.totalOrder

/-- The slots of the shared model, taken apart. -/
def arrays (σ : Memory w (Slot T)) : Arrays w T :=
  { σ.toAtomicQueueCommon with
    states := fun offset => (σ.slots offset).state
    elements := fun offset => (σ.slots offset).element }

section Lockstep

variable {q : Fields w}

/-- A whole slot written is one write to each of the two arrays. -/
theorem arrays_update (σ : Memory w (Slot T)) (offset : Nat) (slot : Slot T) :
    arrays { σ with slots := Function.update σ.slots offset slot } =
      { arrays σ with
        states := Function.update (arrays σ).states offset slot.state
        elements := Function.update (arrays σ).elements offset slot.element } := by
  have hStates := Function.comp_update Slot.state σ.slots offset slot
  have hElements := Function.comp_update Slot.element σ.slots offset slot
  simp only [arrays, Function.comp_def] at hStates hElements ⊢
  rw [hStates, hElements]

/-- A store to a flag leaves the array of the elements as it is. -/
theorem arrays_update_state (σ : Memory w (Slot T)) (offset : Nat) (state : Flag) :
    arrays { σ with slots := Function.update σ.slots offset { σ.slots offset with state } } =
      { arrays σ with states := Function.update (arrays σ).states offset state } := by
  have hSame : Function.update (arrays σ).elements offset (σ.slots offset).element =
      (arrays σ).elements := Function.update_eq_self offset _
  rw [arrays_update]
  dsimp only
  rw [hSame]

/-- A write through the pointer to the elements leaves the flags as they are. -/
theorem arrays_update_element (σ : Memory w (Slot T)) (offset : Nat) (element : Option T) :
    arrays { σ with slots := Function.update σ.slots offset { σ.slots offset with element } } =
      { arrays σ with elements := Function.update (arrays σ).elements offset element } := by
  have hSame : Function.update (arrays σ).states offset (σ.slots offset).state =
      (arrays σ).states := Function.update_eq_self offset _
  rw [arrays_update]
  dsimp only
  rw [hSame]

/-- The copy finds the slot of a position from `head` as the shared model does:
the offset is computed before the flag is looked at, and may panic. -/
theorem claimedHead_eq (blocking : Bool) (head : Usize w) (value : T) :
    claimedHead q blocking head value = q.queue.enterPush
      (AtomicQueue2.slotCode T q.maximizeThroughput q.spsc) blocking head value := by
  rw [claimedHead, Queue.enterPush]
  dsimp only
  cases getSlot q.build q.capacity q.shuffleBits head with
  | none => rfl
  | some offset => cases q.spsc <;> rfl

/-- The same on the side of the consumers. -/
theorem claimedTail_eq (blocking : Bool) (tail : Usize w) :
    (claimedTail q blocking tail : Local w T × List (Event w T (Option T))) = q.queue.enterPop
      (AtomicQueue2.slotCode T q.maximizeThroughput q.spsc) blocking tail := by
  rw [claimedTail, Queue.enterPop]
  dsimp only
  cases getSlot q.build q.capacity q.shuffleBits tail with
  | none => rfl
  | some offset => cases q.spsc <;> rfl

/-- Step by step, `do_push_any` on the two arrays does what the shared step does
on slots, with the same events and the same next step. -/
theorem doPushAny_arrays (maximizeThroughput spsc blocking : Bool) (head : Usize w) (offset : Nat)
    (pc : DoPushAny T) (σ : Memory w (Slot T)) :
    some (doPushAny blocking head offset pc (arrays σ)) =
      (Queue.step q.queue (AtomicQueue2.slotCode T maximizeThroughput spsc)
        (.pushSlot blocking head offset pc) σ).map
          fun next => (next.1, arrays next.2.1, next.2.2) := by
  have hState : (arrays σ).states offset = (σ.slots offset).state := rfl
  rw [Queue.step, Option.map_some]
  apply congrArg some
  cases pc with
  | loadState value =>
      simp only [doPushAny, AtomicQueue2.slotCode, AtomicQueue2.pushStep, Queue.afterPush, hState,
        Function.update_eq_self]
      split_ifs <;> first | rfl | contradiction
  | writeElement value =>
      simp only [doPushAny, AtomicQueue2.slotCode, AtomicQueue2.pushStep, Queue.afterPush,
        arrays_update_element]
      rfl
  | storeFull =>
      simp only [doPushAny, AtomicQueue2.slotCode, AtomicQueue2.pushStep, Queue.afterPush,
        arrays_update_state]
      rfl
  | compareExchange value =>
      simp only [doPushAny, AtomicQueue2.slotCode, AtomicQueue2.pushStep, hState]
      split_ifs with hEmpty
      · rw [arrays_update_state]
        rfl
      · rw [Function.update_eq_self]
        rfl
  | write value =>
      simp only [doPushAny, AtomicQueue2.slotCode, AtomicQueue2.pushStep, Queue.afterPush,
        arrays_update_element]
      rfl

/-- So does `do_pop_any`, the inner loop of the speculative variant included. -/
theorem doPopAny_arrays (spsc blocking : Bool) (tail : Usize w) (offset : Nat) (pc : DoPopAny T)
    (σ : Memory w (Slot T)) :
    some (doPopAny q blocking tail offset pc (arrays σ)) =
      (Queue.step q.queue (AtomicQueue2.slotCode T q.maximizeThroughput spsc)
        (.popSlot blocking tail offset pc) σ).map
          fun next => (next.1, arrays next.2.1, next.2.2) := by
  have hState : (arrays σ).states offset = (σ.slots offset).state := rfl
  rw [Queue.step, Option.map_some]
  apply congrArg some
  cases pc with
  | loadState =>
      simp only [doPopAny, AtomicQueue2.slotCode, AtomicQueue2.popStep, Queue.afterPop, hState,
        Function.update_eq_self]
      split_ifs <;> rfl
  | readElement | read =>
      simp only [doPopAny, AtomicQueue2.slotCode, AtomicQueue2.popStep, Queue.afterPop,
        Function.update_eq_self]
      rfl
  | storeEmpty value =>
      simp only [doPopAny, AtomicQueue2.slotCode, AtomicQueue2.popStep, Queue.afterPop,
        arrays_update_state]
      rfl
  | compareExchange =>
      simp only [doPopAny, AtomicQueue2.slotCode, AtomicQueue2.popStep, hState]
      split_ifs with hFull hThroughput
      · rw [arrays_update_state]
        rfl
      · rw [Function.update_eq_self]
        rfl
      · rw [Function.update_eq_self]
        rfl
  | spin =>
      simp only [doPopAny, AtomicQueue2.slotCode, AtomicQueue2.popStep, Queue.afterPop, hState,
        Function.update_eq_self]
      split_ifs <;> rfl

/-- The copy takes the steps of the shared model, one for one. -/
theorem Fields.lockstep (q : Fields w) :
    Lockstep (q.queue.threadCode (AtomicQueue2.slotCode T q.maximizeThroughput q.spsc))
      (q.threadCode T) arrays where
  call _ _ := rfl
  step pc σ := by
    have hHead : (arrays σ).head = σ.head := rfl
    have hTail : (arrays σ).tail = σ.tail := rfl
    simp only [Fields.threadCode, Queue.threadCode]
    cases pc with
    | idle | panicked | tryPushLoadHead | tryPopLoadTail | observeLoadHead => rfl
    | pushSlot blocking head offset pc => exact doPushAny_arrays _ _ blocking head offset pc σ
    | popSlot blocking tail offset pc => exact doPopAny_arrays _ blocking tail offset pc σ
    | pushClaim value =>
        simp only [step, Queue.step, claimedHead_eq]
        rfl
    | popClaim =>
        simp only [step, Queue.step, claimedTail_eq]
        rfl
    | tryPushLoadTail value head =>
        simp only [step, Queue.step, hTail, ge_iff_le]
        cases Usize.sub q.build head σ.tail with
        | none => rfl
        | some size =>
            dsimp only
            split_ifs <;> rfl
    | tryPopLoadHead tail =>
        simp only [step, Queue.step, hHead]
        split_ifs <;> rfl
    | observeLoadTail observer head =>
        simp only [step, Queue.step, hTail]
        cases observer.result q.build q.capacity head σ.tail <;> rfl
    | tryPushClaim value head =>
        simp only [step, Queue.step, claimedHead_eq, hHead]
        cases Usize.add q.build head 1#w with
        | none => split_ifs <;> rfl
        | some next =>
            dsimp only
            split_ifs <;> rfl
    | tryPopClaim tail =>
        simp only [step, Queue.step, claimedTail_eq, hTail]
        cases Usize.add q.build tail 1#w with
        | none => split_ifs <;> rfl
        | some next =>
            dsimp only
            split_ifs <;> rfl

/-- Both constructors round the size up alike and fail to allocate alike; the
copy keeps the three flags as fields besides. -/
theorem Fields.new_eq_some {target : Target w} {size : Usize w}
    {maximizeThroughput totalOrder spsc : Bool}
    (h : Fields.new target size maximizeThroughput totalOrder spsc = some q) :
    AtomicQueueB2.new target size totalOrder = some q.queue ∧
      q.maximizeThroughput = maximizeThroughput ∧ q.spsc = spsc := by
  simp only [Fields.new, Option.bind_eq_bind, Option.bind_eq_some_iff] at h
  obtain ⟨capacity, hCapacity, h⟩ := h
  split_ifs at h with hAllocates
  obtain rfl := Option.some.inj h
  refine ⟨?_, rfl, rfl⟩
  simp only [AtomicQueueB2.new, hCapacity, Option.bind_eq_bind, Option.bind_some, hAllocates,
    if_true]

end Lockstep

end AtomicQueueB2

attribute [ext] Queue

/-- The remainder and the mask come to the same for a capacity that was rounded
up, and neither the division nor a slice access panics. -/
theorem queue_eq_of_new {target : Target w} {n : Usize w} (hn : n.toNat ≤ 2 ^ (w - 1))
    {totalOrder : Bool} {q q' : Queue w} (h : AtomicQueue2.new target n true totalOrder = some q)
    (h' : AtomicQueueB2.new target n totalOrder = some q') : q = q' := by
  obtain ⟨hCapacity, hBuild, hOrder, _⟩ := AtomicQueue2.new_eq_some h
  obtain ⟨hCapacity', hBuild', hOrder', _⟩ := AtomicQueueB2.new_eq_some h'
  have hSame : q.capacity = q'.capacity := Option.some.inj (hCapacity.symm.trans hCapacity')
  obtain ⟨capacity, hRounded, hPower⟩ := roundUpToPowerOf2_of_le target.width target.build hn
  obtain rfl : capacity = q'.capacity := Option.some.inj (hRounded.symm.trans hCapacity')
  apply Queue.ext (hBuild.trans hBuild'.symm) hSame _ (hOrder.trans hOrder'.symm)
  funext position
  have hPos : 0 < q.capacity.toNat := by
    rw [hSame, hPower]
    exact Nat.two_pow_pos _
  rw [AtomicQueue2.getSlot_eq_lapSlot h hPos, AtomicQueueB2.getSlot_eq_lapSlot h' ⟨_, hPower⟩, hSame]

/-- On every schedule of any calls of any threads, the two queues go through the
same counters, flags and elements and return the same results, or neither can
follow it. -/
theorem variants_agree {target : Target w} {n : Usize w} (hn : n.toNat ≤ 2 ^ (w - 1))
    {maximizeThroughput totalOrder spsc : Bool} {q : Queue w} {q' : AtomicQueueB2.Fields w}
    (h : AtomicQueue2.new target n true totalOrder = some q)
    (h' : AtomicQueueB2.Fields.new target n maximizeThroughput totalOrder spsc = some q')
    (schedule : List (Action (Call T))) :
    exec (q'.threadCode T) (fun _ _ _ => true) schedule [] (AtomicQueueB2.initial w T) =
      (exec (q.threadCode (AtomicQueue2.slotCode T maximizeThroughput spsc)) (fun _ _ _ => true)
        schedule [] (initial w (Slot.new T))).map
          fun final => (final.1, final.2.view AtomicQueueB2.arrays) := by
  obtain ⟨hNew, rfl, rfl⟩ := AtomicQueueB2.Fields.new_eq_some h'
  rw [queue_eq_of_new hn h hNew]
  exact q'.lockstep.exec_view (fun _ _ _ => rfl) schedule [] (initial w (Slot.new T))

/-- Four slots on 32-bit Arm, where positions 1 and 2 change places, and a
consumer that waits for its producer. -/
theorem variants_agree_fourSlots :
    exec (AtomicQueueB2.Fields.threadCode ⟨.release, 4#32, 1, true, false, false⟩ Nat)
        (fun _ _ _ => true)
        [.call 1 .pop, .step 1, .step 1, .call 0 (.push 7), .step 0, .step 0, .step 0, .step 1]
        [] (AtomicQueueB2.initial 32 Nat) =
      (exec (Queue.threadCode ⟨.release, 4#32, AtomicQueue2.getSlot 4#32 1, false⟩
        (AtomicQueue2.slotCode Nat true false)) (fun _ _ _ => true)
        [.call 1 .pop, .step 1, .step 1, .call 0 (.push 7), .step 0, .step 0, .step 0, .step 1]
        [] (initial 32 (Slot.new Nat))).map
          fun final => (final.1, final.2.view AtomicQueueB2.arrays) :=
  variants_agree (show (3#32).toNat ≤ 2 ^ (32 - 1) by decide)
    (show AtomicQueue2.new Target.arm 3#32 true false = some _ from rfl)
    (show AtomicQueueB2.Fields.new Target.arm 3#32 true false false = some _ from rfl) _

end AtomicQueueRs
