import AtomicQueueRs.Accesses
import AtomicQueueRs.Concurrency.Moments
import AtomicQueueRs.Indexing

/-! Where threads reach. `AtomicQueueB` and `AtomicQueueB2` add an index to a
raw pointer and all queues hand out slots through shared references; whatever
the calls and the interleaving, a thread touches only slots of positions that it
has claimed, and none outside the allocation. -/
namespace AtomicQueueRs

set_option autoImplicit false

open Interleaving (Trace Run anyAction)

variable {w : Nat} {T V C U O : Type}

/-- Producers fill and write, consumers drain and read. -/
def Access.byProducer : Access T V → Prop
  | .fill | .write _ => True
  | .drain | .read _ => False

/-- Both sides keep to their accesses, and neither panics. -/
structure SlotCode.Tidy (code : SlotCode T V C U O) : Prop where
  push : ∀ pc content, ∀ change ∈ (code.pushStep pc content).2.1, change.byProducer
  pop : ∀ pc content, ∀ change ∈ (code.popStep pc content).2.1, ¬ change.byProducer
  push_ne_panic : ∀ pc content, (code.pushStep pc content).2.2 ≠ .panic
  pop_ne_panic : ∀ pc content, (code.popStep pc content).2.2 ≠ .panic

/-- Neither branch of the `atomic_queue2.rs` slot code panics: flags and storage
are only compared and written. This covers the MPMC and the SPSC code. -/
theorem AtomicQueue2.slotCode_tidy (T : Type) (maximizeThroughput spsc : Bool) :
    (AtomicQueue2.slotCode T maximizeThroughput spsc).Tidy where
  push pc slot := by
    cases pc with
    | compareExchange value =>
        cases hState : slot.state <;> simp [slotCode, pushStep, Access.byProducer, hState]
    | _ => simp [slotCode, pushStep, Access.byProducer]
  pop pc slot := by
    cases pc with
    | compareExchange =>
        cases hState : slot.state <;> simp [slotCode, popStep, Access.byProducer, hState]
    | _ => simp [slotCode, popStep, Access.byProducer]
  push_ne_panic pc slot := by
    cases pc with
    | compareExchange value => cases hState : slot.state <;> simp [slotCode, pushStep, hState]
    | _ => simp [slotCode, pushStep]
  pop_ne_panic pc slot := by
    cases pc with
    | compareExchange => cases hState : slot.state <;> simp [slotCode, popStep, hState]
    | _ => simp [slotCode, popStep]

theorem AtomicValue.exists_load [Element T] (hBits : Element.bits T = w) (bigEndian : Bool)
    (raw : Usize w) : ∃ current : T, AtomicValue.load bigEndian raw = some current := by
  rw [← Option.ne_none_iff_exists', ne_eq, AtomicValue.load_eq_none_iff]
  omega

/-- For elements as wide as the word the conversions of `AtomicValue` cannot
fail. The width is needed: the slot code of a narrower element panics. -/
theorem AtomicQueue.slotCode_tidy [Element T] (hBits : Element.bits T = w) (bigEndian : Bool) :
    (AtomicQueue.slotCode w T bigEndian).Tidy where
  push pc raw := by
    obtain ⟨element⟩ := pc
    simp [slotCode, pushStep, AtomicValue.store_eq hBits, Access.byProducer]
  pop pc raw := by
    cases pc with
    | load =>
        obtain ⟨current, hLoad⟩ := AtomicValue.exists_load hBits bigEndian raw
        by_cases hDefault : Element.IsDefault current <;>
          simp [slotCode, popStep, hLoad, hDefault, Access.byProducer]
    | clear current => simp [slotCode, popStep, AtomicValue.store_eq hBits, Access.byProducer]
  push_ne_panic pc raw := by
    obtain ⟨element⟩ := pc
    simp [slotCode, pushStep, AtomicValue.store_eq hBits]
  pop_ne_panic pc raw := by
    cases pc with
    | load =>
        obtain ⟨current, hLoad⟩ := AtomicValue.exists_load hBits bigEndian raw
        by_cases hDefault : Element.IsDefault current <;> simp [slotCode, popStep, hLoad, hDefault]
    | clear current => simp [slotCode, popStep, AtomicValue.store_eq hBits]

/-- The side from which the access is made has claimed the position before. -/
def Entitled (q : Queue w) (before : Trace (Event w T V)) (thread : Nat) : Event w T V → Prop
  | .access position slot change =>
      slot < q.capacity.toNat ∧ q.getSlot position = some slot ∧
        (change.byProducer → (thread, position) ∈ headClaims before) ∧
        (¬ change.byProducer → (thread, position) ∈ tailClaims before)
  | _ => True

/-- A call at a slot, which may only be polling it, has claimed a position of
this slot, and the slot is allocated. -/
def Pc.HoldsTicket (q : Queue w) (trace : Trace (Event w T V)) (thread : Nat) : Pc w T U O → Prop
  | .pushSlot _ position slot _ =>
      slot < q.capacity.toNat ∧ q.getSlot position = some slot ∧ (thread, position) ∈ headClaims trace
  | .popSlot _ position slot _ =>
      slot < q.capacity.toNat ∧ q.getSlot position = some slot ∧ (thread, position) ∈ tailClaims trace
  | _ => True

/-- Every access is to an allocated slot that the thread has claimed, the rest
of the memory is as constructed, and without overflow checks no call panics.
Loads of a flag and exchanges that fail leave no event; `holds` is for them. -/
structure Confined (q : Queue w) (empty : C) (trace : Trace (Event w T V)) (s : State w T C U O) :
    Prop where
  entitled : trace.Each (Entitled q)
  holds : ∀ thread, (s.threads thread).HoldsTicket q trace thread
  untouched : ∀ slot, q.capacity.toNat ≤ slot → s.shared.slots slot = empty
  panicFree : q.build = .release → ∀ thread, s.threads thread ≠ .panicked

section Run

variable {q : Queue w} {code : SlotCode T V C U O} {empty : C}
  {trace : Trace (Event w T V)} {s : State w T C U O}

theorem headClaims_mono {trace : Trace (Event w T V)} {claim : Nat × Usize w}
    (h : claim ∈ headClaims trace) (more : Trace (Event w T V)) : claim ∈ headClaims (trace ++ more) := by
  rw [headClaims, Trace.tagged, Trace.select_append]
  exact List.mem_append_left _ h

theorem tailClaims_mono {trace : Trace (Event w T V)} {claim : Nat × Usize w}
    (h : claim ∈ tailClaims trace) (more : Trace (Event w T V)) : claim ∈ tailClaims (trace ++ more) := by
  rw [tailClaims, Trace.tagged, Trace.select_append]
  exact List.mem_append_left _ h

/-- A claim once made is never taken back, so an access stays entitled however
the trace goes on. -/
theorem Entitled.mono (before more : Trace (Event w T V)) (thread : Nat) (e : Event w T V)
    (h : Entitled q before thread e) : Entitled q (before ++ more) thread e := by
  cases e with
  | access position slot change =>
      obtain ⟨hLt, hSlot, hPush, hPop⟩ := h
      exact ⟨hLt, hSlot, fun hSide => headClaims_mono (hPush hSide) more,
        fun hSide => tailClaims_mono (hPop hSide) more⟩
  | _ => exact trivial

theorem Pc.HoldsTicket.mono {thread : Nat} {pc : Pc w T U O} (h : pc.HoldsTicket q trace thread)
    (more : Trace (Event w T V)) : pc.HoldsTicket q (trace ++ more) thread := by
  cases pc with
  | pushSlot blocking position slot own => exact ⟨h.1, h.2.1, headClaims_mono h.2.2 more⟩
  | popSlot blocking position slot own => exact ⟨h.1, h.2.1, tailClaims_mono h.2.2 more⟩
  | _ => exact trivial

theorem holdsTicket_start (thread : Nat) (operation : Call T) :
    (Queue.start operation : Pc w T U O).HoldsTicket q trace thread := by
  cases operation <;> exact trivial

/-- A step that is not at a slot makes no access and reaches no slot, so it can
hand on neither a right nor a ticket. -/
theorem Queue.Quiet.entitled {σ : Memory w C} {pc pc' : Pc w T U O} {es : List (Event w T V)}
    (h : q.Quiet σ pc pc' es) (trace : Trace (Event w T V)) (thread : Nat) :
    pc'.HoldsTicket q trace thread ∧ ∀ e ∈ es, Entitled q trace thread e := by
  cases h <;> simp [Pc.HoldsTicket, Entitled]

/-- The step that claims a position from `head` also finds its slot. The claim
is the event just recorded, which is what the ticket of the new program counter
refers to. -/
theorem Queue.enterPush_entitled (hIndexed : q.Indexed) (trace : Trace (Event w T V))
    (thread : Nat) (blocking : Bool) (position : Usize w) (element : T) :
    (q.enterPush code blocking position element).1.HoldsTicket q
        (trace ++ (q.enterPush code blocking position element).2.map (Prod.mk thread)) thread ∧
      ∀ e ∈ (q.enterPush code blocking position element).2, Entitled q trace thread e := by
  rw [Queue.enterPush]
  split
  · rename_i slot hSlot
    refine ⟨⟨hIndexed.lt_of_getSlot hSlot, hSlot, ?_⟩, by simp [Entitled]⟩
    rw [headClaims_append]
    exact List.mem_append_right _ (List.mem_singleton_self _)
  · exact ⟨trivial, by simp [Entitled]⟩

/-- The same for the step that claims a position from `tail`. -/
theorem Queue.enterPop_entitled (hIndexed : q.Indexed) (trace : Trace (Event w T V))
    (thread : Nat) (blocking : Bool) (position : Usize w) :
    (q.enterPop code blocking position).1.HoldsTicket q
        (trace ++ (q.enterPop code blocking position).2.map (Prod.mk thread)) thread ∧
      ∀ e ∈ (q.enterPop code blocking position).2, Entitled q trace thread e := by
  rw [Queue.enterPop]
  split
  · rename_i slot hSlot
    refine ⟨⟨hIndexed.lt_of_getSlot hSlot, hSlot, ?_⟩, by simp [Entitled]⟩
    rw [tailClaims_append]
    exact List.mem_append_right _ (List.mem_singleton_self _)
  · exact ⟨trivial, by simp [Entitled]⟩

/-- A producer that stays at its slot keeps its ticket, and one that leaves it
needs none. -/
theorem Queue.afterPush_holdsTicket {thread slot : Nat} {position : Usize w} {blocking : Bool} {own : U}
    (hHolds : (.pushSlot blocking position slot own : Pc w T U O).HoldsTicket q trace thread)
    (outcome : Outcome U Unit) :
    (Queue.afterPush blocking position slot outcome : Pc w T U O × List (Event w T V)).1.HoldsTicket q
      trace thread := by
  cases outcome with
  | goto pc => exact hHolds
  | done | panic => exact trivial

theorem Queue.afterPop_holdsTicket {thread slot : Nat} {position : Usize w} {blocking : Bool} {own : O}
    (hHolds : (.popSlot blocking position slot own : Pc w T U O).HoldsTicket q trace thread)
    (outcome : Outcome O V) :
    (Queue.afterPop blocking position slot outcome : Pc w T U O × List (Event w T V)).1.HoldsTicket q
      trace thread := by
  cases outcome with
  | goto pc => exact hHolds
  | done | panic => exact trivial

theorem Queue.afterPush_entitled (thread : Nat) (blocking : Bool) (position : Usize w) (slot : Nat)
    (outcome : Outcome U Unit) :
    ∀ e ∈ (Queue.afterPush blocking position slot outcome : Pc w T U O × List (Event w T V)).2,
      Entitled q trace thread e := by
  cases outcome <;> simp [Queue.afterPush, Entitled]

theorem Queue.afterPop_entitled (thread : Nat) (blocking : Bool) (position : Usize w) (slot : Nat)
    (outcome : Outcome O V) :
    ∀ e ∈ (Queue.afterPop blocking position slot outcome : Pc w T U O × List (Event w T V)).2,
      Entitled q trace thread e := by
  cases outcome <;> simp [Queue.afterPop, Entitled]

/-- What a step reaches, from a call that holds its ticket. -/
theorem Queue.Step.confined (hIndexed : q.Indexed) (hCode : code.Tidy) {pc pc' : Pc w T U O}
    {σ σ' : Memory w C} {es : List (Event w T V)} {thread : Nat} (h : q.Step code pc σ pc' σ' es)
    (hHolds : pc.HoldsTicket q trace thread) :
    pc'.HoldsTicket q (trace ++ es.map (Prod.mk thread)) thread ∧
      (∀ e ∈ es, Entitled q trace thread e) ∧
      ∀ slot, q.capacity.toNat ≤ slot → σ'.slots slot = σ.slots slot := by
  cases h with
  | quiet h =>
      obtain ⟨hHolds', hEvents⟩ := h.entitled trace thread
      exact ⟨hHolds'.mono _, hEvents, fun _ _ => rfl⟩
  | claimHead h =>
      obtain ⟨hHolds', hEvents⟩ := Queue.enterPush_entitled hIndexed trace thread _ _ _
      exact ⟨hHolds', hEvents, fun _ _ => rfl⟩
  | claimTail h =>
      obtain ⟨hHolds', hEvents⟩ := Queue.enterPop_entitled hIndexed trace thread _ _
      exact ⟨hHolds', hEvents, fun _ _ => rfl⟩
  | pushSlot blocking position slot own =>
      obtain ⟨hLt, hSlot, hTicket⟩ := id hHolds
      refine ⟨(Queue.afterPush_holdsTicket hHolds _).mono _, ?_,
        fun other hGe => Function.update_of_ne (by omega) _ _⟩
      rw [List.forall_mem_append, List.forall_mem_map]
      refine ⟨fun change hChange => ?_, Queue.afterPush_entitled thread blocking position _ _⟩
      have hSide := hCode.push own _ change hChange
      exact ⟨hLt, hSlot, fun _ => hTicket, fun hOther => absurd hSide hOther⟩
  | popSlot blocking position slot own =>
      obtain ⟨hLt, hSlot, hTicket⟩ := id hHolds
      refine ⟨(Queue.afterPop_holdsTicket hHolds _).mono _, ?_,
        fun other hGe => Function.update_of_ne (by omega) _ _⟩
      rw [List.forall_mem_append, List.forall_mem_map]
      refine ⟨fun change hChange => ?_, Queue.afterPop_entitled thread blocking position _ _⟩
      have hSide := hCode.pop own _ change hChange
      exact ⟨hLt, hSlot, fun hOther => absurd hOther hSide, fun _ => hTicket⟩

/-- Without overflow checks nothing in the shared control flow panics either. -/
theorem Queue.Indexed.step_ne_panicked (hIndexed : q.Indexed) (hCode : code.Tidy)
    (hRelease : q.build = .release) {pc pc' : Pc w T U O} {σ σ' : Memory w C}
    {es : List (Event w T V)} (h : q.step code pc σ = some (pc', σ', es)) : pc' ≠ .panicked := by
  cases Queue.step_cases h with
  | quiet hQuiet =>
      cases hQuiet with
      | tryPushUnderflow _ _ hSize => simp [hRelease] at hSize
      | tryPushOverflow _ _ hNext | tryPopOverflow _ hNext => simp [hRelease] at hNext
      | observeUnderflow observer head =>
          cases observer <;> simp [Queue.step, Observer.result, hRelease] at h
      | _ => simp
  | @claimHead _ _ blocking position element =>
      obtain ⟨_, _, hSlot⟩ := hIndexed.exists_getSlot position
      simp [Queue.enterPush, hSlot]
  | @claimTail _ _ blocking position =>
      obtain ⟨_, _, hSlot⟩ := hIndexed.exists_getSlot position
      simp [Queue.enterPop, hSlot]
  | pushSlot blocking position slot own =>
      have hOutcome := hCode.push_ne_panic own (σ.slots slot)
      cases hOut : (code.pushStep own (σ.slots slot)).2.2 with
      | panic => exact (hOutcome hOut).elim
      | goto | done => simp [Queue.afterPush]
  | popSlot blocking position slot own =>
      have hOutcome := hCode.pop_ne_panic own (σ.slots slot)
      cases hOut : (code.popStep own (σ.slots slot)).2.2 with
      | panic => exact (hOutcome hOut).elim
      | goto | done => simp [Queue.afterPop]

/-- The run lemma, for any slot code that is tidy and any calls: nothing is
asked of the schedule or of the number of threads. -/
theorem confined_of_indexed (hIndexed : q.Indexed) (hCode : code.Tidy)
    (run : Run (q.threadCode code) anyAction (initial w empty) trace s) :
    Confined q empty trace s := by
  refine run.invariant (Confined q empty) ?_ ?_ ?_
  · exact ⟨.nil, fun _ => trivial, fun _ _ => rfl, by simp [initial]⟩
  · intro trace s thread operation pc es _ ih _ hCall
    obtain ⟨_, rfl, rfl⟩ := Queue.call_cases hCall
    refine ⟨ih.entitled.append Entitled.mono (by simp [Entitled]), ?_, ih.untouched, fun hRelease => ?_⟩
    · rw [Function.forall_update_iff s.threads fun other pc => pc.HoldsTicket q _ other]
      exact ⟨holdsTicket_start thread operation, fun other _ => (ih.holds other).mono _⟩
    · rw [Function.forall_update_iff s.threads fun _ pc => pc ≠ .panicked]
      exact ⟨by cases operation <;> simp [Queue.start], fun other _ => ih.panicFree hRelease other⟩
  · intro trace s thread pc shared es _ ih _ hStep
    obtain ⟨hHolds, hEvents, hSame⟩ :=
      (Queue.step_cases hStep).confined hIndexed hCode (ih.holds thread)
    refine ⟨ih.entitled.append Entitled.mono hEvents, ?_,
      fun slot hGe => (hSame slot hGe).trans (ih.untouched slot hGe), fun hRelease => ?_⟩
    · rw [Function.forall_update_iff s.threads fun other pc => pc.HoldsTicket q _ other]
      exact ⟨hHolds, fun other _ => (ih.holds other).mono _⟩
    · rw [Function.forall_update_iff s.threads fun _ pc => pc ≠ .panicked]
      exact ⟨hIndexed.step_ne_panicked hCode hRelease hStep, fun other _ => ih.panicFree hRelease other⟩

end Run

/-- `AtomicQueueB2::new(2)`. -/
def rawSlots : Queue 64 where
  build := .release
  capacity := 2#64
  getSlot := AtomicQueueB2.getSlot .release 2#64 0
  totalOrder := false

theorem new_rawSlots : AtomicQueueB2.new Target.x86_64 2#64 false = some rawSlots := rfl

end AtomicQueueRs
