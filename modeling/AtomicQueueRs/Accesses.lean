import AtomicQueueRs.Concurrency.Accounting
import AtomicQueueRs.Common

/-! Slot accesses in a trace: fills and drains by the position they serve, and
the values written to and read from one slot in the order of the accesses. -/
namespace AtomicQueueRs

set_option autoImplicit false

open Interleaving (Trace)

variable {w : Nat} {T V : Type}

namespace Access

def written : Access T V → Option T
  | .write value => some value
  | _ => none

def taken : Access T V → Option V
  | .read value => some value
  | _ => none

@[simp] theorem written_fill : (fill : Access T V).written = none := rfl

@[simp] theorem written_drain : (drain : Access T V).written = none := rfl

@[simp] theorem written_write (value : T) : (write value : Access T V).written = some value := rfl

@[simp] theorem written_read (value : V) : (read value : Access T V).written = none := rfl

@[simp] theorem taken_fill : (fill : Access T V).taken = none := rfl

@[simp] theorem taken_drain : (drain : Access T V).taken = none := rfl

@[simp] theorem taken_write (value : T) : (write value : Access T V).taken = none := rfl

@[simp] theorem taken_read (value : V) : (read value : Access T V).taken = some value := rfl

end Access

namespace Event

/-- The position whose slot is filled. -/
def slotFill : Event w T V → Option (Usize w)
  | .access position _ .fill => some position
  | _ => none

/-- The position whose slot is drained. -/
def slotDrain : Event w T V → Option (Usize w)
  | .access position _ .drain => some position
  | _ => none

def writeAt (slot : Nat) : Event w T V → Option T
  | .access _ own a => if own = slot then a.written else none
  | _ => none

def readAt (slot : Nat) : Event w T V → Option V
  | .access _ own a => if own = slot then a.taken else none
  | _ => none

/-- The position for which a slot is drained. -/
def drainAt (slot : Nat) : Event w T V → Option (Usize w)
  | .access position own .drain => if own = slot then some position else none
  | _ => none

variable (slot own : Nat) (position : Usize w) (a : Access T V) (result : Return w V)

@[simp] theorem writeAt_access : (access position own a : Event w T V).writeAt slot =
    if own = slot then a.written else none := rfl

@[simp] theorem writeAt_returned : (returned result : Event w T V).writeAt slot = none := rfl

@[simp] theorem readAt_access : (access position own a : Event w T V).readAt slot =
    if own = slot then a.taken else none := rfl

@[simp] theorem readAt_returned : (returned result : Event w T V).readAt slot = none := rfl

@[simp] theorem drainAt_drain : (access position own .drain : Event w T V).drainAt slot =
    if own = slot then some position else none := rfl

@[simp] theorem drainAt_write (value : T) :
    (access position own (.write value) : Event w T V).drainAt slot = none := rfl

@[simp] theorem drainAt_read (value : V) :
    (access position own (.read value) : Event w T V).drainAt slot = none := rfl

@[simp] theorem drainAt_returned : (returned result : Event w T V).drainAt slot = none := rfl

end Event

/-- The positions filled, each with the thread that filled it. -/
def fills (trace : Trace (Event w T V)) : List (Nat × Usize w) := trace.tagged Event.slotFill

def drains (trace : Trace (Event w T V)) : List (Nat × Usize w) := trace.tagged Event.slotDrain

/-- The values written to a slot, in order. -/
def writesAt (slot : Nat) (trace : Trace (Event w T V)) : List T :=
  trace.select fun _ => Event.writeAt slot

def readsAt (slot : Nat) (trace : Trace (Event w T V)) : List V :=
  trace.select fun _ => Event.readAt slot

/-- The positions for which a slot was drained, in order. -/
def drainsAt (slot : Nat) (trace : Trace (Event w T V)) : List (Usize w) :=
  trace.select fun _ => Event.drainAt slot

section Append

variable (slot thread : Nat) (trace : Trace (Event w T V)) (es : List (Event w T V))
  (operation : Call T)

/-- The fills of a trace that one thread's step extends. All five lists grow at
the end only, by what the step itself reports. -/
theorem fills_append : fills (trace ++ es.map (Prod.mk thread)) =
    fills trace ++ (es.filterMap Event.slotFill).map (Prod.mk thread) :=
  Trace.tagged_append _ trace thread es

/-- The drains likewise; a step fills or drains one slot at most, but nothing
here depends on that. -/
theorem drains_append : drains (trace ++ es.map (Prod.mk thread)) =
    drains trace ++ (es.filterMap Event.slotDrain).map (Prod.mk thread) :=
  Trace.tagged_append _ trace thread es

/-- What is written to a slot is kept without the thread that wrote it, since
the values read there are compared with these in order. -/
theorem writesAt_append : writesAt slot (trace ++ es.map (Prod.mk thread)) =
    writesAt slot trace ++ es.filterMap (Event.writeAt slot) := by
  simp [writesAt]

/-- What is read from a slot, in order; a value read twice counts twice. -/
theorem readsAt_append : readsAt slot (trace ++ es.map (Prod.mk thread)) =
    readsAt slot trace ++ es.filterMap (Event.readAt slot) := by
  simp [readsAt]

/-- The drains of one slot by position. -/
theorem drainsAt_append : drainsAt slot (trace ++ es.map (Prod.mk thread)) =
    drainsAt slot trace ++ es.filterMap (Event.drainAt slot) := by
  simp [drainsAt]

@[simp] theorem fills_call :
    fills (trace ++ [Event.call operation].map (Prod.mk thread)) = fills trace := by
  rw [fills_append]
  exact List.append_nil _

@[simp] theorem drains_call :
    drains (trace ++ [Event.call operation].map (Prod.mk thread)) = drains trace := by
  rw [drains_append]
  exact List.append_nil _

@[simp] theorem writesAt_call :
    writesAt slot (trace ++ [Event.call operation].map (Prod.mk thread)) = writesAt slot trace := by
  rw [writesAt_append]
  exact List.append_nil _

@[simp] theorem readsAt_call :
    readsAt slot (trace ++ [Event.call operation].map (Prod.mk thread)) = readsAt slot trace := by
  rw [readsAt_append]
  exact List.append_nil _

@[simp] theorem drainsAt_call :
    drainsAt slot (trace ++ [Event.call operation].map (Prod.mk thread)) = drainsAt slot trace := by
  rw [drainsAt_append]
  exact List.append_nil _

end Append

end AtomicQueueRs
