import AtomicQueueRs.Refinement.Operations
import AtomicQueueRs.Steps

/-! One thread on its own. A call takes its steps without interruption until
it returns; one that spins or panics does not return. -/
namespace AtomicQueueRs

set_option autoImplicit false

variable {w : Nat} {T V C U O : Type}

def Event.result : Event w T V → Option (Return w V)
  | .returned result => some result
  | _ => none

namespace SlotCode

variable (code : SlotCode T V C U O)

/-- The push side at a slot that no one else touches. -/
def runPush : Nat → U → C → Option C
  | 0, _, _ => none
  | fuel + 1, pc, content =>
      let out := code.pushStep pc content
      match out.2.2 with
      | .goto pc' => runPush fuel pc' out.1
      | .done () => some out.1
      | .panic => none

def runPop : Nat → O → C → Option (V × C)
  | 0, _, _ => none
  | fuel + 1, pc, content =>
      let out := code.popStep pc content
      match out.2.2 with
      | .goto pc' => runPop fuel pc' out.1
      | .done value => some (value, out.1)
      | .panic => none

end SlotCode

namespace Queue

variable (q : Queue w) (code : SlotCode T V C U O)

/-- The rest of a call, for at most `fuel` steps. -/
def finish : Nat → Pc w T U O → Memory w C → Option (Return w V × Memory w C)
  | 0, _, _ => none
  | fuel + 1, pc, σ =>
      (step q code pc σ).bind fun next =>
        match next.2.2.findSome? Event.result with
        | some result => some (result, next.2.1)
        | none => finish fuel next.1 next.2.1

/-- A whole call. -/
def perform (fuel : Nat) (operation : Call T) (σ : Memory w C) :
    Option (Return w V × Memory w C) :=
  finish q code fuel (start operation) σ

variable {q} {code}

/-- A call that panics does not return, whatever the fuel. -/
theorem finish_panicked (fuel : Nat) (σ : Memory w C) : finish q code fuel .panicked σ = none := by
  cases fuel <;> rfl

/-- More fuel changes nothing once a call returns. -/
theorem finish_mono {fuel : Nat} (more : Nat) {pc : Pc w T U O} {σ : Memory w C}
    {out : Return w V × Memory w C} (h : finish q code fuel pc σ = some out) :
    finish q code (fuel + more) pc σ = some out := by
  induction fuel generalizing pc σ with
  | zero => contradiction
  | succ fuel ih =>
      rw [Nat.add_right_comm]
      simp only [finish, Option.bind_eq_some_iff] at h ⊢
      obtain ⟨next, hStep, hRest⟩ := h
      refine ⟨next, hStep, ?_⟩
      cases hResult : next.2.2.findSome? Event.result with
      | some result =>
          rw [hResult] at hRest
          exact hRest
      | none =>
          rw [hResult] at hRest
          exact ih hRest

/-- More fuel never changes what a call returns. -/
theorem perform_mono {fuel : Nat} (more : Nat) {operation : Call T} {σ : Memory w C}
    {out : Return w V × Memory w C} (h : perform q code fuel operation σ = some out) :
    perform q code (fuel + more) operation σ = some out :=
  finish_mono more h

/-- What a call returns does not depend on the fuel. -/
theorem perform_unique {fuel fuel' : Nat} {operation : Call T} {σ : Memory w C}
    {out out' : Return w V × Memory w C} (h : perform q code fuel operation σ = some out)
    (h' : perform q code fuel' operation σ = some out') : out = out' := by
  have hMore := perform_mono fuel' h
  have hMore' := perform_mono fuel h'
  rw [Nat.add_comm, hMore, Option.some.injEq] at hMore'
  exact hMore'

theorem findSome_accesses (position : Usize w) (slot : Nat) (accesses : List (Access T V))
    (es : List (Event w T V)) :
    (accesses.map (Event.access position slot) ++ es).findSome? Event.result =
      es.findSome? Event.result := by
  rw [List.findSome?_append, List.findSome?_map]
  have hNone : accesses.findSome? (Event.result ∘ Event.access (w := w) position slot) = none :=
    List.findSome?_eq_none_iff.mpr fun _ _ => rfl
  rw [hNone]
  rfl

/-- At a slot, the rest of a call is that of its slot code. -/
theorem finish_pushSlot (fuel : Nat) (blocking : Bool) (position : Usize w) (slot : Nat) (pc : U)
    (σ : Memory w C) :
    finish q code fuel (.pushSlot blocking position slot pc) σ =
      (code.runPush fuel pc (σ.slots slot)).map fun content =>
        (if blocking then .push else .tryPush true,
          { σ with slots := Function.update σ.slots slot content }) := by
  induction fuel generalizing pc σ with
  | zero => rfl
  | succ fuel ih =>
      simp only [finish, step, Option.bind_some, findSome_accesses, SlotCode.runPush]
      cases hOutcome : (code.pushStep pc (σ.slots slot)).2.2 with
      | goto pc' =>
          simp only [afterPush, List.findSome?_nil]
          rw [ih]
          simp only [Function.update_self, Function.update_idem]
      | done => rfl
      | panic =>
          simp only [afterPush]
          exact finish_panicked fuel _

/-- At its slot a call runs the slot code on that slot alone, and reports as
`pop` or as `try_pop`. -/
theorem finish_popSlot (fuel : Nat) (blocking : Bool) (position : Usize w) (slot : Nat) (pc : O)
    (σ : Memory w C) :
    finish q code fuel (.popSlot blocking position slot pc) σ =
      (code.runPop fuel pc (σ.slots slot)).map fun out =>
        (if blocking then .pop out.1 else .tryPop (some out.1),
          { σ with slots := Function.update σ.slots slot out.2 }) := by
  induction fuel generalizing pc σ with
  | zero => rfl
  | succ fuel ih =>
      simp only [finish, step, Option.bind_some, findSome_accesses, SlotCode.runPop]
      cases hOutcome : (code.popStep pc (σ.slots slot)).2.2 with
      | goto pc' =>
          simp only [afterPop, List.findSome?_nil]
          rw [ih]
          simp only [Function.update_self, Function.update_idem]
      | done value => rfl
      | panic =>
          simp only [afterPop]
          exact finish_panicked fuel _

section Calls

variable (q) (code)

/-- What a producer does with a position it has claimed. -/
def pushAt (fuel : Nat) (blocking : Bool) (position : Usize w) (element : T) (σ : Memory w C) :
    Option (Return w V × Memory w C) :=
  (q.getSlot position).bind fun slot =>
    (code.runPush fuel (code.doPush element) (σ.slots slot)).map fun content =>
      (if blocking then .push else .tryPush true,
        { σ with slots := Function.update σ.slots slot content })

def popAt (fuel : Nat) (blocking : Bool) (position : Usize w) (σ : Memory w C) :
    Option (Return w V × Memory w C) :=
  (q.getSlot position).bind fun slot =>
    (code.runPop fuel code.doPop (σ.slots slot)).map fun out =>
      (if blocking then .pop out.1 else .tryPop (some out.1),
        { σ with slots := Function.update σ.slots slot out.2 })

/-- The counter after a non-blocking claim that nobody else competes for. -/
def advance (position : Usize w) : Option (Usize w) :=
  if q.totalOrder then Usize.add q.build position 1#w else some (position + 1#w)

variable {q} {code}

/-- Where the increment does not panic it is the one of the counter. -/
theorem eq_of_advance {position next : Usize w} (h : advance q position = some next) :
    next = position + 1#w := by
  unfold advance at h
  split_ifs at h
  · exact Usize.eq_of_add h
  · exact (Option.some.inj h).symm

theorem advance_release (hRelease : q.build = .release) (position : Usize w) :
    advance q position = some (position + 1#w) := by
  rw [advance, hRelease, Usize.add_release, ite_self]

theorem finish_enterPush (fuel : Nat) (blocking : Bool) (position : Usize w) (element : T)
    (σ : Memory w C) :
    finish q code fuel (enterPush (V := V) q code blocking position element).1 σ =
      pushAt q code fuel blocking position element σ := by
  unfold enterPush pushAt
  cases q.getSlot position with
  | none => exact finish_panicked fuel σ
  | some slot => exact finish_pushSlot fuel blocking position slot _ σ

theorem finish_enterPop (fuel : Nat) (blocking : Bool) (position : Usize w) (σ : Memory w C) :
    finish q code fuel (enterPop q code blocking position).1 σ =
      popAt q code fuel blocking position σ := by
  unfold enterPop popAt
  cases q.getSlot position with
  | none => exact finish_panicked fuel σ
  | some slot => exact finish_popSlot fuel blocking position slot _ σ

theorem findSome_enterPush (blocking : Bool) (position : Usize w) (element : T) :
    (enterPush (V := V) q code blocking position element).2.findSome? Event.result = none := by
  unfold enterPush
  split <;> rfl

theorem findSome_enterPop (blocking : Bool) (position : Usize w) :
    (enterPop q code blocking position).2.findSome? Event.result = none := by
  unfold enterPop
  split <;> rfl

/-- `push` takes the position that `head` shows without looking at `tail`. -/
theorem perform_push (fuel : Nat) (element : T) (σ : Memory w C) :
    perform q code (fuel + 1) (.push element) σ =
      pushAt q code fuel true σ.head element { σ with head := σ.head + 1#w } := by
  simp only [perform, start, finish, step, Option.bind_some, findSome_enterPush, finish_enterPush]

/-- `pop` takes the position that `tail` shows without looking at `head`. -/
theorem perform_pop (fuel : Nat) (σ : Memory w C) :
    perform q code (fuel + 1) .pop σ =
      popAt q code fuel true σ.tail { σ with tail := σ.tail + 1#w } := by
  simp only [perform, start, finish, step, Option.bind_some, findSome_enterPop, finish_enterPop]

/-- An observer loads both counters and leaves the memory as it is. -/
theorem perform_observe (fuel : Nat) (observer : Observer) (σ : Memory w C) :
    perform q code (fuel + 2) (.observe observer) σ =
      (observer.result q.build q.capacity σ.head σ.tail).map fun result => (result, σ) := by
  simp only [perform, start, finish, step, Option.bind_some, List.findSome?_cons, Event.result,
    List.findSome?_nil]
  cases observer.result (V := V) q.build q.capacity σ.head σ.tail with
  | none =>
      simp only [Option.bind_some]
      exact finish_panicked fuel σ
  | some result => rfl

/-- Left alone, the exchange of `try_push` finds the word that it loaded. -/
theorem finish_tryPushClaim (fuel : Nat) (element : T) (σ : Memory w C) :
    finish q code (fuel + 1) (.tryPushClaim element σ.head) σ =
      (advance q σ.head).bind fun next =>
        pushAt q code fuel false σ.head element { σ with head := next } := by
  cases hOrder : q.totalOrder with
  | false =>
      simp only [finish, step, advance, hOrder, Bool.false_eq_true, if_false, Option.bind_some,
        findSome_enterPush, finish_enterPush]
  | true =>
      simp only [finish, step, advance, hOrder, if_true]
      cases Usize.add q.build σ.head 1#w with
      | none =>
          simp only [Option.bind_some, Option.bind_none]
          exact finish_panicked fuel σ
      | some next => simp only [Option.bind_some, findSome_enterPush, finish_enterPush]

theorem finish_tryPopClaim (fuel : Nat) (σ : Memory w C) :
    finish q code (fuel + 1) (.tryPopClaim σ.tail) σ =
      (advance q σ.tail).bind fun next =>
        popAt q code fuel false σ.tail { σ with tail := next } := by
  cases hOrder : q.totalOrder with
  | false =>
      simp only [finish, step, advance, hOrder, Bool.false_eq_true, if_false, Option.bind_some,
        findSome_enterPop, finish_enterPop]
  | true =>
      simp only [finish, step, advance, hOrder, if_true]
      cases Usize.add q.build σ.tail 1#w with
      | none =>
          simp only [Option.bind_some, Option.bind_none]
          exact finish_panicked fuel σ
      | some next => simp only [Option.bind_some, findSome_enterPop, finish_enterPop]

/-- `try_push` refuses on the size alone, and otherwise goes on as `push` does.
The size is a wrapped difference, and the whole call panics where it is
checked. -/
theorem perform_tryPush (fuel : Nat) (element : T) (σ : Memory w C) :
    perform q code (fuel + 3) (.tryPush element) σ =
      (Usize.sub q.build σ.head σ.tail).bind fun size =>
        if q.capacity ≤ size then some (.tryPush false, σ)
        else (advance q σ.head).bind fun next =>
          pushAt q code fuel false σ.head element { σ with head := next } := by
  have hLoad : perform q code (fuel + 3) (.tryPush element) σ =
      finish q code (fuel + 2) (.tryPushLoadTail element σ.head) σ := rfl
  rw [hLoad, finish, step]
  cases Usize.sub q.build σ.head σ.tail with
  | none =>
      simp only [Option.bind_some, Option.bind_none]
      exact finish_panicked (fuel + 1) σ
  | some size =>
      simp only [Option.bind_some]
      split_ifs with hFull
      · rfl
      · exact finish_tryPushClaim fuel element σ

/-- `try_pop` refuses exactly where the counters are equal, not where `tail` is
past `head`. -/
theorem perform_tryPop (fuel : Nat) (σ : Memory w C) :
    perform q code (fuel + 3) .tryPop σ =
      if σ.tail = σ.head then some (.tryPop none, σ)
      else (advance q σ.tail).bind fun next =>
        popAt q code fuel false σ.tail { σ with tail := next } := by
  have hLoad : perform q code (fuel + 3) .tryPop σ =
      finish q code (fuel + 2) (.tryPopLoadHead σ.tail) σ := rfl
  rw [hLoad, finish, step]
  split_ifs with hEmpty
  · rfl
  · exact finish_tryPopClaim fuel σ

variable (q) in
/-- The call claims the position that `tail` shows. -/
def ClaimsNext (σ : Memory w C) : Call T → Prop
  | .pop => True
  | .tryPop => σ.tail ≠ σ.head ∧ (advance q σ.tail).isSome
  | _ => False

variable (code) in
/-- A call that claims a position goes to its slot. -/
theorem perform_claimsNext {σ : Memory w C} {consumer : Call T} (hClaims : q.ClaimsNext σ consumer)
    (fuel : Nat) : ∃ blocking more, perform q code (fuel + 3) consumer σ =
      popAt q code (more + fuel) blocking σ.tail { σ with tail := σ.tail + 1#w } := by
  cases consumer with
  | pop =>
      refine ⟨true, 2, ?_⟩
      rw [perform_pop, Nat.add_comm]
  | tryPop =>
      obtain ⟨hNonempty, hAdvance⟩ := hClaims
      obtain ⟨next, hNext⟩ := Option.isSome_iff_exists.mp hAdvance
      obtain rfl := eq_of_advance hNext
      refine ⟨false, 0, ?_⟩
      rw [perform_tryPop, if_neg hNonempty, hNext, Option.bind_some, Nat.zero_add]
  | tryPush | push | observe => contradiction

end Calls

end Queue

end AtomicQueueRs
