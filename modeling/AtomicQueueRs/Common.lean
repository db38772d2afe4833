import AtomicQueueRs.Concurrency.Interleaving
import AtomicQueueRs.Usize
import Mathlib.Data.List.Basic

/-! `src/common.rs` and the control flow that the four queues share. Every
atomic load, store, `compare_exchange` and `fetch_add` is one step, and local
computation is done in the step that feeds it. The queues differ in how they
index slots and in what `push` and `pop` do to the slot of their position. -/
namespace AtomicQueueRs

set_option autoImplicit false

open Interleaving (Trace Action exec exec_threads)

/-- The shared counters, as `AtomicQueueCommon`. -/
structure AtomicQueueCommon (w : Nat) where
  head : Usize w
  tail : Usize w
  deriving DecidableEq, Repr

/-- A queue's memory. Only the slots below its capacity are allocated. -/
structure Memory (w : Nat) (C : Type) extends AtomicQueueCommon w where
  slots : Nat → C

def AtomicQueueCommon.new (w : Nat) : AtomicQueueCommon w := { head := 0#w, tail := 0#w }

/-- The memory of a queue on which no operation has been called. -/
def Memory.new (w : Nat) {C : Type} (empty : C) : Memory w C :=
  { AtomicQueueCommon.new w with slots := fun _ => empty }

inductive Observer where
  | wasSize
  | wasEmpty
  | wasFull
  deriving DecidableEq, Repr

/-- The calls of `AtomicQueueOps` that read or write shared memory. -/
inductive Call (T : Type) where
  | tryPush (element : T)
  | tryPop
  | push (element : T)
  | pop
  | observe (observer : Observer)
  deriving DecidableEq, Repr

/-- The element a call offers to the queue. -/
def Call.element {T : Type} : Call T → Option T
  | .tryPush element | .push element => some element
  | _ => none

/-- What a call hands back. `V` is what a pop reads out of a slot. -/
inductive Return (w : Nat) (V : Type) where
  | tryPush (pushed : Bool)
  | tryPop (popped : Option V)
  | push
  | pop (value : V)
  | wasSize (size : Usize w)
  | wasEmpty (empty : Bool)
  | wasFull (full : Bool)
  deriving DecidableEq, Repr

/-- `was_size`, `was_empty` and `was_full` of two loaded counters; `none` is
the overflow panic of the subtraction. -/
def Observer.result {w : Nat} {V : Type} (build : Build) (capacity head tail : Usize w) :
    Observer → Option (Return w V)
  | .wasSize => (Usize.sub build head tail).map .wasSize
  | .wasEmpty => some (.wasEmpty (head == tail))
  | .wasFull => (Usize.sub build head tail).map fun size => .wasFull (size == capacity)

def Return.isObservation {w : Nat} {V : Type} : Return w V → Prop
  | .wasSize _ | .wasEmpty _ | .wasFull _ => True
  | _ => False

/-- Observers answer with a size or a truth value, never as a push or a pop
does. -/
theorem Observer.isObservation_of_result {w : Nat} {V : Type} {build : Build}
    {capacity head tail : Usize w} {observer : Observer} {result : Return w V}
    (h : observer.result build capacity head tail = some result) : result.isObservation := by
  cases observer with
  | wasEmpty =>
      obtain rfl := Option.some.inj h
      trivial
  | wasSize | wasFull =>
      obtain ⟨size, _, rfl⟩ := Option.map_eq_some_iff.mp h
      trivial

/-- What happens to a slot: its empty/full marker changes, or its element is
written or read. -/
inductive Access (T V : Type) where
  | fill
  | drain
  | write (value : T)
  | read (value : V)
  deriving DecidableEq, Repr

/-- Where a slot operation stands after one of its steps. -/
inductive Outcome (P R : Type) where
  | goto (pc : P)
  | done (result : R)
  | panic

/-- What a queue does to the slot of a claimed position, step by step: `U`
and `O` are the program counters of its push and pop side and `C` is the
content of a slot. -/
structure SlotCode (T V C U O : Type) where
  doPush : T → U
  doPop : O
  pushStep : U → C → C × List (Access T V) × Outcome U Unit
  popStep : O → C → C × List (Access T V) × Outcome O V

/-- The immutable part of a queue. `getSlot` is `none` where indexing panics;
`totalOrder` says whether the non-blocking operations claim their position by
`compare_exchange` or by `fetch_add`. -/
structure Queue (w : Nat) where
  build : Build
  capacity : Usize w
  getSlot : Usize w → Option Nat
  totalOrder : Bool

/-- Program counters, named after the access that comes next. -/
inductive Pc (w : Nat) (T U O : Type) where
  | idle
  | panicked
  | tryPushLoadHead (element : T)
  | tryPushLoadTail (element : T) (head : Usize w)
  | tryPushClaim (element : T) (head : Usize w)
  | pushClaim (element : T)
  | pushSlot (blocking : Bool) (position : Usize w) (slot : Nat) (pc : U)
  | tryPopLoadTail
  | tryPopLoadHead (tail : Usize w)
  | tryPopClaim (tail : Usize w)
  | popClaim
  | popSlot (blocking : Bool) (position : Usize w) (slot : Nat) (pc : O)
  | observeLoadHead (observer : Observer)
  | observeLoadTail (observer : Observer) (head : Usize w)
  deriving DecidableEq

inductive Event (w : Nat) (T V : Type) where
  | call (call : Call T)
  | loadHead (head : Usize w)
  | loadTail (tail : Usize w)
  | proceed (element : T)
  | claimHead (position : Usize w)
  | claimTail (position : Usize w)
  | access (position : Usize w) (slot : Nat) (access : Access T V)
  | returned (result : Return w V)
  | panicked
  deriving DecidableEq

namespace Queue

variable {w : Nat} {T V C U O : Type}

def start : Call T → Pc w T U O
  | .tryPush element => .tryPushLoadHead element
  | .tryPop => .tryPopLoadTail
  | .push element => .pushClaim element
  | .pop => .popClaim
  | .observe observer => .observeLoadHead observer

/-- A thread runs one call at a time; a panicked thread runs none. -/
def call (operation : Call T) : Pc w T U O → Option (Pc w T U O × List (Event w T V))
  | .idle => some (start operation, [.call operation])
  | _ => none

variable (q : Queue w) (code : SlotCode T V C U O)

/-- `position` was taken from `head`; find its slot and turn to it. -/
def enterPush (blocking : Bool) (position : Usize w) (element : T) :
    Pc w T U O × List (Event w T V) :=
  match q.getSlot position with
  | some slot => (.pushSlot blocking position slot (code.doPush element), [.claimHead position])
  | none => (.panicked, [.claimHead position, .panicked])

/-- `position` was taken from `tail`; find its slot and turn to it. -/
def enterPop (blocking : Bool) (position : Usize w) : Pc w T U O × List (Event w T V) :=
  match q.getSlot position with
  | some slot => (.popSlot blocking position slot code.doPop, [.claimTail position])
  | none => (.panicked, [.claimTail position, .panicked])

def afterPush (blocking : Bool) (position : Usize w) (slot : Nat) :
    Outcome U Unit → Pc w T U O × List (Event w T V)
  | .goto pc => (.pushSlot blocking position slot pc, [])
  | .done () => (.idle, [.returned (if blocking then .push else .tryPush true)])
  | .panic => (.panicked, [.panicked])

def afterPop (blocking : Bool) (position : Usize w) (slot : Nat) :
    Outcome O V → Pc w T U O × List (Event w T V)
  | .goto pc => (.popSlot blocking position slot pc, [])
  | .done value => (.idle, [.returned (if blocking then .pop value else .tryPop (some value))])
  | .panic => (.panicked, [.panicked])

/-- One indivisible step of a call in progress. -/
def step : Pc w T U O → Memory w C → Option (Pc w T U O × Memory w C × List (Event w T V))
  | .idle, _ => none
  | .panicked, _ => none
  | .tryPushLoadHead element, σ => some (.tryPushLoadTail element σ.head, σ, [.loadHead σ.head])
  | .tryPushLoadTail element head, σ =>
      match Usize.sub q.build head σ.tail with
      | none => some (.panicked, σ, [.loadTail σ.tail, .panicked])
      | some size =>
          if q.capacity ≤ size then
            some (.idle, σ, [.loadTail σ.tail, .returned (.tryPush false)])
          else some (.tryPushClaim element head, σ, [.loadTail σ.tail, .proceed element])
  | .tryPushClaim element head, σ =>
      let entered := enterPush q code false head element
      if q.totalOrder then
        match Usize.add q.build head 1#w with
        | none => some (.panicked, σ, [.panicked])
        | some next =>
            if σ.head = head then some (entered.1, { σ with head := next }, entered.2)
            else some (.idle, σ, [.returned (.tryPush false)])
      else some (entered.1, { σ with head := σ.head + 1#w }, entered.2)
  | .pushClaim element, σ =>
      let entered := enterPush q code true σ.head element
      some (entered.1, { σ with head := σ.head + 1#w }, entered.2)
  | .pushSlot blocking position slot pc, σ =>
      let out := code.pushStep pc (σ.slots slot)
      let after := afterPush blocking position slot out.2.2
      some (after.1, { σ with slots := Function.update σ.slots slot out.1 },
        out.2.1.map (.access position slot) ++ after.2)
  | .tryPopLoadTail, σ => some (.tryPopLoadHead σ.tail, σ, [.loadTail σ.tail])
  | .tryPopLoadHead tail, σ =>
      if tail = σ.head then some (.idle, σ, [.loadHead σ.head, .returned (.tryPop none)])
      else some (.tryPopClaim tail, σ, [.loadHead σ.head])
  | .tryPopClaim tail, σ =>
      let entered := enterPop q code false tail
      if q.totalOrder then
        match Usize.add q.build tail 1#w with
        | none => some (.panicked, σ, [.panicked])
        | some next =>
            if σ.tail = tail then some (entered.1, { σ with tail := next }, entered.2)
            else some (.idle, σ, [.returned (.tryPop none)])
      else some (entered.1, { σ with tail := σ.tail + 1#w }, entered.2)
  | .popClaim, σ =>
      let entered := enterPop q code true σ.tail
      some (entered.1, { σ with tail := σ.tail + 1#w }, entered.2)
  | .popSlot blocking position slot pc, σ =>
      let out := code.popStep pc (σ.slots slot)
      let after := afterPop blocking position slot out.2.2
      some (after.1, { σ with slots := Function.update σ.slots slot out.1 },
        out.2.1.map (.access position slot) ++ after.2)
  | .observeLoadHead observer, σ => some (.observeLoadTail observer σ.head, σ, [.loadHead σ.head])
  | .observeLoadTail observer head, σ =>
      match observer.result q.build q.capacity head σ.tail with
      | none => some (.panicked, σ, [.loadTail σ.tail, .panicked])
      | some result => some (.idle, σ, [.loadTail σ.tail, .returned result])

/-- The code every thread runs. -/
def threadCode : Interleaving.Code (Memory w C) (Pc w T U O) (Call T) (Event w T V) where
  call := call
  step := step q code

end Queue

abbrev State (w : Nat) (T C U O : Type) := Interleaving.State (Memory w C) (Pc w T U O)

/-- All threads idle and the memory as constructed. -/
def initial (w : Nat) {T C U O : Type} (empty : C) : State w T C U O :=
  { shared := Memory.new w empty, threads := fun _ => .idle }

/-- No call is in progress. A call that panicked has ended. -/
def Quiescent {w : Nat} {T C U O : Type} (s : State w T C U O) : Prop :=
  ∀ thread, s.threads thread = .idle ∨ s.threads thread = .panicked

section Exec

variable {w : Nat} {T V C U O : Type} {q : Queue w} {code : SlotCode T V C U O} {empty : C}
  {test : Trace (Event w T V) → State w T C U O → Action (Call T) → Bool}
  {schedule : List (Action (Call T))} {trace : Trace (Event w T V)} {s : State w T C U O}

/-- After a schedule, threads that it does not pick are idle. -/
theorem idle_of_exec
    (h : exec (q.threadCode code) test schedule [] (initial w empty) = some (trace, s)) (bound : Nat)
    (hSchedule : ∀ action ∈ schedule, action.thread < bound)
    (hIdle : ∀ thread < bound, s.threads thread = .idle) (thread : Nat) :
    s.threads thread = .idle := by
  rcases Nat.lt_or_ge thread bound with hLt | hGe
  · exact hIdle thread hLt
  · rw [exec_threads h fun action hMem => Nat.ne_of_lt (Nat.lt_of_lt_of_le (hSchedule action hMem) hGe)]
    rfl

/-- Threads beyond the bound have not been scheduled, so they are as at the
start. -/
theorem idle_beyond_exec
    (h : exec (q.threadCode code) test schedule [] (initial w empty) = some (trace, s)) (bound : Nat)
    (hSchedule : ∀ action ∈ schedule, action.thread < bound) (thread : Nat) (hGe : bound ≤ thread) :
    s.threads thread = .idle :=
  exec_threads h fun action hMem => Nat.ne_of_lt (Nat.lt_of_lt_of_le (hSchedule action hMem) hGe)

/-- Only the threads of the schedule have to be looked at to see that none is in
a call. -/
theorem quiescent_of_exec
    (h : exec (q.threadCode code) test schedule [] (initial w empty) = some (trace, s)) (bound : Nat)
    (hSchedule : ∀ action ∈ schedule, action.thread < bound)
    (hIdle : ∀ thread < bound, s.threads thread = .idle) : Quiescent s :=
  fun thread => Or.inl (idle_of_exec h bound hSchedule hIdle thread)

end Exec

end AtomicQueueRs
