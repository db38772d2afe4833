import AtomicQueueRs.Drop
import AtomicQueueRs.Settlement
import AtomicQueueRs.SpscOrder
import AtomicQueueRs.Transparency

/-! No element is lost or doubled up to and including `drop`. A slot is full
exactly while it holds an element that was accepted and not popped, whatever the
counters show; `drop` walks the full slots. -/
namespace AtomicQueueRs

set_option autoImplicit false

open Interleaving (Trace Run Action exec)
open Refinement (runAll)

variable {w : Nat} {T : Type}

/-- Indexing never leaves the slots. -/
def Queue.Inside (q : Queue w) : Prop :=
  ∀ position slot, q.getSlot position = some slot → slot < q.capacity.toNat

theorem Queue.Indexed.inside {q : Queue w} (h : q.Indexed) : q.Inside :=
  fun _ _ hSlot => h.lt_of_getSlot hSlot

/-- A queue without slots panics before it touches one. -/
theorem AtomicQueue2.new_inside {target : Target w} {size : Usize w}
    {minimizeContention totalOrder : Bool} {q : Queue w}
    (h : AtomicQueue2.new target size minimizeContention totalOrder = some q) : q.Inside := by
  rcases Nat.eq_zero_or_pos q.capacity.toNat with hZero | hPos
  · intro position slot hSlot
    obtain ⟨_, _, _, hGetSlot, _⟩ := AtomicQueue2.new_eq_some h
    rw [hGetSlot, AtomicQueue2.getSlot, if_pos (BitVec.eq_of_toNat_eq hZero)] at hSlot
    contradiction
  · exact (AtomicQueue2.new_indexed h hPos).inside

namespace AtomicQueue2

/-- The slots hold what was accepted and not popped. -/
def Kept (q : Queue w) (slots : Nat → Slot T) (accepted : List T) (popped : List (Option T)) : Prop :=
  Ring.Conserved q.capacity.toNat (content ∘ slots) (accepted.map some) popped

/-- What a call or a step of one does to the slots, with what it accepts and
what it pops. -/
def Moves (q : Queue w) (slots slots' : Nat → Slot T) (put : Option T) (got : Option (Option T)) :
    Prop :=
  Ring.Exchange q.capacity.toNat (content ∘ slots) (put.map some) got (content ∘ slots')

variable {q : Queue w} {slots slots' : Nat → Slot T} {put : Option T} {got : Option (Option T)}

/-- A new queue has accepted nothing, popped nothing and holds nothing. -/
theorem kept_new : Kept q (Memory.new w (Slot.new T)).slots [] [] :=
  Ring.conserved_nil fun _ _ => content_new

/-- What a step takes in goes to the accepted elements and what it hands out to
the popped ones, so the slots keep the difference. -/
theorem Kept.moves {accepted : List T} {popped : List (Option T)} (h : Kept q slots accepted popped)
    (hMoves : Moves q slots slots' put got) :
    Kept q slots' (accepted ++ put.toList) (popped ++ got.toList) := by
  have hAfter := Ring.Conserved.exchange h hMoves
  have hPut : accepted.map some ++ (put.map some).toList = (accepted ++ put.toList).map some := by
    rw [List.map_append, Option.toList_map]
  rw [hPut] at hAfter
  exact hAfter

/-- A step that changes no content, whatever else it writes, exchanges nothing
with its caller. -/
theorem moves_none (h : content ∘ slots' = content ∘ slots) : Moves q slots slots' none none := by
  rw [Moves, h]
  exact .none

/-- Setting the flag of an empty slot to full takes in the element that the
storage holds at that moment, not the one written first. -/
theorem moves_fill {slot : Nat} {filled : Slot T} {value : T} (hSlot : slot < q.capacity.toNat)
    (hEmpty : (slots slot).state = .empty) (hFull : filled.state = .full)
    (hElement : filled.element = some value) :
    Moves q slots (Function.update slots slot filled) (some value) none := by
  rw [Moves, Function.comp_update, content_eq_some_iff.mpr ⟨hFull, hElement⟩]
  exact .filled hSlot (content_eq_none_iff.mpr hEmpty)

/-- Setting the flag of a full slot to empty hands out what the storage held. -/
theorem moves_drain {slot : Nat} {drained : Slot T} (hSlot : slot < q.capacity.toNat)
    (hFull : (slots slot).state = .full) (hEmpty : drained.state = .empty) :
    Moves q slots (Function.update slots slot drained) none (some (slots slot).element) := by
  rw [Moves, Function.comp_update, content_eq_none_iff.mpr hEmpty]
  exact .emptied hSlot (content_eq_some_iff.mpr ⟨hFull, rfl⟩)

section Calls

variable {maximizeThroughput spsc : Bool}

/-- Whole calls exchange elements with the slots. -/
theorem moves_of_performed (hInside : q.Inside) {σ σ' : Memory w (Slot T)}
    (h : q.Performed (slotCode T maximizeThroughput spsc) σ put got σ') :
    Moves q σ.slots σ'.slots put got := by
  cases h with
  | pushed hSlot hRun =>
      obtain ⟨hEmpty, rfl⟩ := runPush_eq_some hRun
      exact moves_fill (hInside _ _ hSlot) hEmpty rfl rfl
  | popped hSlot hRun =>
      obtain ⟨hFull, rfl, rfl⟩ := runPop_eq_some hRun
      exact moves_drain (hInside _ _ hSlot) hFull rfl
  | unchanged => exact moves_none rfl

/-- One thread, over any number of calls. -/
theorem kept_of_runAll (hInside : q.Inside) {fuel : Nat} {operations : List (Call T)}
    {results : List (Return w (Option T))} {σ : Memory w (Slot T)}
    (hRun : runAll (q.perform (slotCode T maximizeThroughput spsc) fuel) operations
      (Memory.new w (Slot.new T)) = some (results, σ)) :
    Kept q σ.slots (storedBy operations results) (poppedIn results) := by
  have hLast := Queue.runAll_invariant
    (I := fun stored popped (σ : Memory w (Slot T)) => Kept q σ.slots stored popped)
    (fun _ _ _ _ _ _ hKept hPerformed => hKept.moves (moves_of_performed hInside hPerformed))
    kept_new hRun
  exact hLast

end Calls

end AtomicQueue2

namespace Spsc

open AtomicQueue2 (Local Config Kept Moves slotCode moves_none moves_fill moves_drain)

/-- Pushing and popping calls keep to their threads. -/
def Sided (producer consumer thread : Nat) : Local w T → Prop
  | .tryPushLoadHead _ | .tryPushLoadTail _ _ | .tryPushClaim _ _ | .pushClaim _
  | .pushSlot _ _ _ _ => thread = producer
  | .tryPopLoadTail | .tryPopLoadHead _ | .tryPopClaim _ | .popClaim
  | .popSlot _ _ _ _ => thread = consumer
  | _ => True

/-- What a call in progress can count on: the element it was made with, and,
between finding a flag and changing it, that the slot is left alone. -/
def Owns (q : Queue w) (slots : Nat → Slot T) (pending : Option T) : Local w T → Prop
  | .tryPushLoadHead value | .tryPushLoadTail value _ | .tryPushClaim value _
  | .pushClaim value => pending = some value
  | .pushSlot _ _ slot pc => slot < q.capacity.toNat ∧
      match pc with
      | .loadState value => pending = some value
      | .writeElement value => pending = some value ∧ (slots slot).state = .empty
      | .storeFull => (slots slot).state = .empty ∧
          ∃ value, pending = some value ∧ (slots slot).element = some value
      | _ => False
  | .popSlot _ _ slot pc => slot < q.capacity.toNat ∧
      match pc with
      | .loadState => True
      | .readElement => (slots slot).state = .full
      | .storeEmpty value => slots slot = { state := .full, element := value }
      | _ => False
  | _ => True

variable {q : Queue w} {maximizeThroughput : Bool} {producer consumer thread : Nat}
  {pc pc' : Local w T} {σ σ' : Memory w (Slot T)} {slots slots' : Nat → Slot T}
  {es : List (Event w T (Option T))} {pending : Option T}

/-- A call stays on the side it was made on. -/
theorem Sided.step (h : q.Step (slotCode T maximizeThroughput true) pc σ pc' σ' es)
    (hSided : Sided producer consumer thread pc) : Sided producer consumer thread pc' := by
  cases h with
  | quiet h => cases h <;> first | exact hSided | exact trivial
  | claimHead h =>
      unfold Queue.enterPush
      cases h <;> split <;> first | exact hSided | exact trivial
  | claimTail h =>
      unfold Queue.enterPop
      cases h <;> split <;> first | exact hSided | exact trivial
  | pushSlot =>
      unfold Queue.afterPush
      split <;> first | exact hSided | exact trivial
  | popSlot =>
      unfold Queue.afterPop
      split <;> first | exact hSided | exact trivial

theorem Owns.state_of_writing (h : Owns q slots pending pc) {slot : Nat}
    (hWriting : WritingAt slot pc) : (slots slot).state = .empty := by
  cases pc with
  | pushSlot blocking position own pc =>
      cases pc with
      | writeElement value =>
          obtain rfl : own = slot := hWriting
          exact h.2.2
      | storeFull =>
          obtain rfl : own = slot := hWriting
          exact h.2.1
      | _ => exact hWriting.elim
  | _ => exact hWriting.elim

theorem Owns.state_of_reading (h : Owns q slots pending pc) {slot : Nat}
    (hReading : ReadingAt slot pc) : (slots slot).state = .full := by
  cases pc with
  | popSlot blocking position own pc =>
      cases pc with
      | readElement =>
          obtain rfl : own = slot := hReading
          exact h.2
      | storeEmpty value =>
          obtain rfl : own = slot := hReading
          exact congrArg Slot.state h.2
      | _ => exact hReading.elim
  | _ => exact hReading.elim

/-- Only the slot that a call is at matters to it. -/
theorem Owns.frame (h : Owns q slots pending pc)
    (hWriting : ∀ slot, WritingAt slot pc → slots' slot = slots slot)
    (hReading : ∀ slot, ReadingAt slot pc → slots' slot = slots slot) :
    Owns q slots' pending pc := by
  cases pc with
  | pushSlot blocking position slot pc =>
      cases pc with
      | writeElement value =>
          refine ⟨h.1, h.2.1, ?_⟩
          rw [hWriting slot rfl]
          exact h.2.2
      | storeFull =>
          refine ⟨h.1, ?_⟩
          dsimp only
          rw [hWriting slot rfl]
          exact h.2
      | _ => exact h
  | popSlot blocking position slot pc =>
      cases pc with
      | readElement =>
          refine ⟨h.1, ?_⟩
          dsimp only
          rw [hReading slot rfl]
          exact h.2
      | storeEmpty value => exact ⟨h.1, (hReading slot rfl).trans h.2⟩
      | _ => exact h
  | _ => exact h

theorem writing_sided {slot : Nat} (hWriting : WritingAt slot pc)
    (hSided : Sided producer consumer thread pc) : thread = producer := by
  cases pc with
  | pushSlot => exact hSided
  | _ => exact hWriting.elim

theorem reading_sided {slot : Nat} (hReading : ReadingAt slot pc)
    (hSided : Sided producer consumer thread pc) : thread = consumer := by
  cases pc with
  | popSlot => exact hSided
  | _ => exact hReading.elim

/-- What one step does: it keeps to its slot, and what it tells its caller is
what it does to the flags. -/
structure Worked (q : Queue w) (thread : Nat) (before : Offers T) (pc : Local w T)
    (slots slots' : Nat → Slot T) (es : List (Event w T (Option T))) (put : Option T)
    (got : Option (Option T)) : Prop where
  same : ∀ slot, ¬ WritingAt slot pc → ¬ ReadingAt slot pc → slots' slot = slots slot
  moves : Moves q slots slots' put got
  popped : es.filterMap Event.popped = got.toList
  offers : (es.map (Prod.mk thread)).foldl Offers.record before =
    { before with accepted := before.accepted ++ put.toList }

theorem worked_nothing {before : Offers T} (hPopped : es.filterMap Event.popped = [])
    (hOffers : (es.map (Prod.mk thread)).foldl Offers.record before = before) :
    Worked q thread before pc slots slots es none none := by
  refine ⟨fun _ _ _ => rfl, moves_none rfl, hPopped, ?_⟩
  rw [hOffers, Option.toList_none, List.append_nil]

/-- A step at a slot keeps to that slot. -/
theorem same_of_update {slot : Nat} {content : Slot T} (hAt : WritingAt slot pc ∨ ReadingAt slot pc)
    (other : Nat) (hWriting : ¬ WritingAt other pc) (hReading : ¬ ReadingAt other pc) :
    Function.update slots slot content other = slots other := by
  apply Function.update_of_ne
  rintro rfl
  exact hAt.elim hWriting hReading

/-- One step of the SPSC code: what the call counted on still holds of the
memory after the step, and the flags change by exactly what the call reports. -/
theorem Owns.step (hInside : q.Inside) {before : Offers T}
    (h : q.Step (slotCode T maximizeThroughput true) pc σ pc' σ' es)
    (hOwns : Owns q σ.slots (before.pending thread) pc) :
    Owns q σ'.slots (before.pending thread) pc' ∧
      ∃ put got, Worked q thread before pc σ.slots σ'.slots es put got := by
  cases h with
  | quiet h =>
      refine ⟨?_, none, none, worked_nothing h.popped (h.offers thread before)⟩
      cases h <;> first | exact hOwns | exact trivial
  | @claimHead _ _ blocking position element h =>
      have hPending : before.pending thread = some element := by cases h <;> exact hOwns
      unfold Queue.enterPush
      cases hSlot : q.getSlot position with
      | none => exact ⟨trivial, none, none, worked_nothing rfl rfl⟩
      | some slot => exact ⟨⟨hInside _ _ hSlot, hPending⟩, none, none, worked_nothing rfl rfl⟩
  | @claimTail _ _ blocking position h =>
      unfold Queue.enterPop
      cases hSlot : q.getSlot position with
      | none => exact ⟨trivial, none, none, worked_nothing rfl rfl⟩
      | some slot => exact ⟨⟨hInside _ _ hSlot, trivial⟩, none, none, worked_nothing rfl rfl⟩
  | pushSlot blocking position slot pc =>
      obtain ⟨hSlot, hPc⟩ := hOwns
      cases pc with
      | loadState value =>
          simp only [slotCode, AtomicQueue2.pushStep, Queue.afterPush, Function.update_eq_self]
          refine ⟨⟨hSlot, ?_⟩, none, none, worked_nothing rfl rfl⟩
          split_ifs with hEmpty
          · exact ⟨hPc, hEmpty⟩
          · exact hPc
      | writeElement value =>
          obtain ⟨hPending, hEmpty⟩ := hPc
          refine ⟨⟨hSlot, ?_, value, hPending, ?_⟩, none, none, same_of_update (.inl rfl), ?_, rfl, ?_⟩
          · exact (congrArg Slot.state (Function.update_self slot _ σ.slots)).trans hEmpty
          · exact congrArg Slot.element (Function.update_self slot _ σ.slots)
          · -- what an empty slot's storage holds is no content
            apply moves_none
            rw [Function.comp_update, Function.update_eq_self_iff]
            simp [slotCode, AtomicQueue2.pushStep, AtomicQueue2.content, hEmpty]
          · simp [slotCode, AtomicQueue2.pushStep, Queue.afterPush, Offers.record]
      | storeFull =>
          obtain ⟨hEmpty, value, hPending, hElement⟩ := hPc
          refine ⟨trivial, some value, none, same_of_update (.inl rfl), ?_, ?_, ?_⟩
          · exact moves_fill hSlot hEmpty rfl hElement
          · cases blocking <;> rfl
          · cases blocking <;>
              simp [slotCode, AtomicQueue2.pushStep, Queue.afterPush, Offers.record, hPending]
      | compareExchange | write => exact hPc.elim
  | popSlot blocking position slot pc =>
      obtain ⟨hSlot, hPc⟩ := hOwns
      cases pc with
      | loadState =>
          simp only [slotCode, AtomicQueue2.popStep, Queue.afterPop, Function.update_eq_self]
          refine ⟨⟨hSlot, ?_⟩, none, none, worked_nothing rfl rfl⟩
          split_ifs with hFull
          · exact hFull
          · exact trivial
      | readElement =>
          simp only [slotCode, AtomicQueue2.popStep, Queue.afterPop, Function.update_eq_self]
          refine ⟨⟨hSlot, ?_⟩, none, none, worked_nothing rfl rfl⟩
          exact congrArg (Slot.mk · _) hPc
      | storeEmpty value =>
          have hFull : (σ.slots slot).state = .full := congrArg Slot.state hPc
          obtain rfl : (σ.slots slot).element = value := congrArg Slot.element hPc
          refine ⟨trivial, none, some (σ.slots slot).element, same_of_update (.inr rfl), ?_, ?_, ?_⟩
          · exact moves_drain hSlot hFull rfl
          · cases blocking <;> rfl
          · cases blocking <;> simp [slotCode, AtomicQueue2.popStep, Queue.afterPop, Offers.record]
      | compareExchange | spin | read => exact hPc.elim

/-- At every moment of a run. -/
structure Balance (q : Queue w) (producer consumer : Nat) (trace : Trace (Event w T (Option T)))
    (s : Config w T) : Prop where
  sided : ∀ thread, Sided producer consumer thread (s.threads thread)
  owns : ∀ thread, Owns q s.shared.slots ((offers trace).pending thread) (s.threads thread)
  kept : Kept q s.shared.slots (accepted trace) (popped trace)

/-- A new call moves nothing. The element it brings is noted as pending, which
is where the store will find it. -/
theorem balance_call {trace : Trace (Event w T (Option T))} {s : Config w T} {operation : Call T}
    (h : Balance q producer consumer trace s) (hIdle : s.threads thread = .idle)
    (hAllowed : spscCalls producer consumer trace s (.call thread operation)) :
    Balance q producer consumer (trace ++ [Event.call operation].map (Prod.mk thread))
      ⟨s.shared, Function.update s.threads thread (Queue.start operation)⟩ := by
  have hOffers := offers_call trace thread operation
  refine ⟨?_, ?_, ?_⟩
  · rw [Function.forall_update_iff s.threads fun thread pc => Sided producer consumer thread pc]
    refine ⟨?_, fun other _ => h.sided other⟩
    cases operation <;> first | exact hAllowed | exact trivial
  · intro other
    rw [hOffers]
    by_cases hThread : other = thread
    · subst hThread
      dsimp only
      rw [Function.update_self, Function.update_self]
      cases operation <;> first | rfl | exact trivial
    · dsimp only
      rw [Function.update_of_ne hThread, Function.update_of_ne hThread]
      exact h.owns other
  · rw [accepted, hOffers, popped, Trace.select_append, Trace.select_map]
    exact (List.append_nil (popped trace)).symm ▸ h.kept

/-- The other call in progress is on the other side, and the slots that its
claims rest on are left alone by this step. -/
theorem balance_step (hInside : q.Inside) {trace : Trace (Event w T (Option T))} {s : Config w T}
    (h : Balance q producer consumer trace s)
    (hStep : q.Step (slotCode T maximizeThroughput true) (s.threads thread) s.shared pc' σ' es) :
    Balance q producer consumer (trace ++ es.map (Prod.mk thread))
      ⟨σ', Function.update s.threads thread pc'⟩ := by
  obtain ⟨hOwns, put, got, hWorked⟩ := (h.owns thread).step hInside hStep
  have hOffers := (offers_append trace thread es).trans hWorked.offers
  refine ⟨?_, ?_, ?_⟩
  · rw [Function.forall_update_iff s.threads fun thread pc => Sided producer consumer thread pc]
    exact ⟨(h.sided thread).step hStep, fun other _ => h.sided other⟩
  · intro other
    rw [hOffers]
    by_cases hThread : other = thread
    · subst hThread
      dsimp only
      rw [Function.update_self]
      exact hOwns
    · dsimp only
      rw [Function.update_of_ne hThread]
      -- two calls at one slot would be on one side, or would see two flags
      apply (h.owns other).frame
      · intro slot hWriting
        apply hWorked.same slot
        · intro hActor
          exact hThread ((writing_sided hWriting (h.sided other)).trans
            (writing_sided hActor (h.sided thread)).symm)
        · intro hActor
          have hEmpty := (h.owns other).state_of_writing hWriting
          rw [(h.owns thread).state_of_reading hActor] at hEmpty
          contradiction
      · intro slot hReading
        apply hWorked.same slot
        · intro hActor
          have hFull := (h.owns other).state_of_reading hReading
          rw [(h.owns thread).state_of_writing hActor] at hFull
          contradiction
        · intro hActor
          exact hThread ((reading_sided hReading (h.sided other)).trans
            (reading_sided hActor (h.sided thread)).symm)
  · rw [accepted, hOffers, popped, Trace.select_append, Trace.select_map, hWorked.popped]
    exact h.kept.moves hWorked.moves

/-- By induction on the run, from a queue whose slots are all empty. -/
theorem balance_of_run (hInside : q.Inside) {trace : Trace (Event w T (Option T))} {s : Config w T}
    (run : Run (q.threadCode (slotCode T maximizeThroughput true)) (spscCalls producer consumer)
      (initial w (Slot.new T)) trace s) : Balance q producer consumer trace s := by
  refine run.invariant (Balance q producer consumer) ?_ ?_ ?_
  · exact ⟨fun _ => trivial, fun _ => trivial, AtomicQueue2.kept_new⟩
  · intro trace s thread operation pc es _ ih hAllowed hCall
    obtain ⟨hIdle, rfl, rfl⟩ := Queue.call_cases hCall
    exact balance_call ih hIdle hAllowed
  · intro trace s thread pc shared es _ ih _ hStep
    exact balance_step hInside ih (Queue.step_cases hStep)

end Spsc

/-- What calls on a new queue have accepted and popped, and the memory they
leave: the calls of one thread, or of one producer and one consumer of an SPSC
queue. All have returned, as `drop` has the queue to itself. -/
inductive Used (q : Queue w) (maximizeThroughput : Bool) :
    Bool → List T → List (Option T) → Memory w (Slot T) → Prop where
  | alone (spsc : Bool) (fuel : Nat) {operations : List (Call T)}
      {results : List (Return w (Option T))} {σ : Memory w (Slot T)}
      (hRun : runAll (q.perform (AtomicQueue2.slotCode T maximizeThroughput spsc) fuel) operations
        (Memory.new w (Slot.new T)) = some (results, σ)) :
      Used q maximizeThroughput spsc (storedBy operations results) (poppedIn results) σ
  | paired (producer consumer : Nat) {trace : Trace (Event w T (Option T))}
      {s : AtomicQueue2.Config w T}
      (run : Run (q.threadCode (AtomicQueue2.slotCode T maximizeThroughput true))
        (Spsc.spscCalls producer consumer) (initial w (Slot.new T)) trace s)
      (hIdle : ∀ thread, s.threads thread = .idle) :
      Used q maximizeThroughput true (accepted trace) (popped trace) s.shared

/-- Both ways of using a queue leave in its slots what was accepted and not
popped, which is all that `drop` relies on. -/
theorem Used.kept {q : Queue w} {maximizeThroughput spsc : Bool} {accepted : List T}
    {popped : List (Option T)} {σ : Memory w (Slot T)} (hInside : q.Inside)
    (h : Used q maximizeThroughput spsc accepted popped σ) :
    AtomicQueue2.Kept q σ.slots accepted popped := by
  cases h with
  | alone spsc fuel hRun => exact AtomicQueue2.kept_of_runAll hInside hRun
  | paired producer consumer run hIdle => exact (Spsc.balance_of_run hInside run).kept

/-- `drop` drops what was accepted and not popped, and touches nothing else:
each full slot once, none that is empty, and no storage that was never
written. -/
theorem released_of_used {target : Target w} {totalOrder maximizeThroughput spsc : Bool}
    {q : Queue w} {accepted : List T} {popped : List (Option T)} {σ : Memory w (Slot T)}
    (hUsed : Used q maximizeThroughput spsc accepted popped σ) :
    (∀ size minimizeContention,
      AtomicQueue2.new target size minimizeContention totalOrder = some q →
      ∃ dropped, AtomicQueue2.drop q.capacity (getIndexShuffleBits minimizeContention q.capacity
          (target.cacheLineSize / target.sizeOfPaddedState)) σ.slots = some dropped ∧
        Released q.capacity.toNat σ.slots accepted popped dropped) ∧
    ∀ size : Usize w, size.toNat ≤ 2 ^ (w - 1) →
      AtomicQueueB2.new target size totalOrder = some q →
      ∃ dropped, AtomicQueueB2.drop target.build q.capacity (getIndexShuffleBits true q.capacity
          (target.cacheLineSize / target.sizeOfPaddedState)) σ.slots = some dropped ∧
        Released q.capacity.toNat σ.slots accepted popped dropped := by
  constructor
  · intro size minimizeContention hNew
    refine ⟨_, AtomicQueue2.drop_eq hNew σ.slots, ?_⟩
    apply released_of_walk _ (hUsed.kept (AtomicQueue2.new_inside hNew))
    rcases Nat.eq_zero_or_pos q.capacity.toNat with hZero | hPos
    · rw [hZero, List.range_zero, List.map_nil]
    · exact (AtomicQueue2.new_indexed hNew hPos).walk_perm
  · intro size hSize hNew
    have hPos : 0 < q.capacity.toNat := by
      obtain ⟨k, hk⟩ := exists_two_pow_of_le target.width (AtomicQueueB2.new_eq_some hNew).1 hSize
      rw [hk]
      exact Nat.two_pow_pos k
    have hIndexed := AtomicQueueB2.new_indexed hNew hPos
    refine ⟨_, AtomicQueueB2.drop_eq hNew σ.slots, ?_⟩
    exact released_of_walk hIndexed.walk_perm (hUsed.kept hIndexed.inside)

/-- One thread, and two threads with `SPSC`, that leave the second element to
`drop`. -/
theorem released_twoSlots :
    (∃ σ, runAll ((AtomicQueue2.twoSlots false).perform (AtomicQueue2.slotCode Nat true false) 6)
        [.push 7, .tryPush 8, .tryPop] (Memory.new 64 (Slot.new Nat)) =
        some ([.push, .tryPush true, .tryPop (some (some 7))], σ) ∧
      ∃ dropped, AtomicQueue2.drop 2#64 0 σ.slots = some dropped ∧
        Released 2 σ.slots [7, 8] [some 7] dropped) ∧
    ∃ trace : Trace (Event 64 Nat (Option Nat)), ∃ s : AtomicQueue2.Config 64 Nat,
      accepted trace = [7, 8] ∧ popped trace = [some 7] ∧
      ∃ dropped, AtomicQueue2.drop 2#64 0 s.shared.slots = some dropped ∧
        Released 2 s.shared.slots (accepted trace) (popped trace) dropped := by
  have hBits : getIndexShuffleBits true (AtomicQueue2.twoSlots false).capacity
      (Target.x86_64.cacheLineSize / Target.x86_64.sizeOfPaddedState) = 0 := by decide
  constructor
  · obtain ⟨σ, hRun⟩ : ∃ σ, runAll
        ((AtomicQueue2.twoSlots false).perform (AtomicQueue2.slotCode Nat true false) 6)
        [.push 7, .tryPush 8, .tryPop] (Memory.new 64 (Slot.new Nat)) =
        some ([.push, .tryPush true, .tryPop (some (some 7))], σ) := ⟨_, rfl⟩
    have hReleased :=
      (released_of_used (.alone false 6 hRun)).1 2#64 true (AtomicQueue2.new_twoSlots false)
    rw [hBits] at hReleased
    exact ⟨σ, hRun, hReleased⟩
  · have hRun : (exec ((AtomicQueue2.twoSlots false).threadCode (AtomicQueue2.slotCode Nat true true))
        (fun trace s action => decide (Spsc.spscCalls 0 1 trace s action))
        [.call 1 .pop, .step 1, .step 1, .call 0 (.push 7), .step 0, .step 0, .step 0, .step 1,
          .step 0, .step 1, .step 1, .step 1, .call 0 (.tryPush 8), .step 0, .step 0, .step 0,
          .step 0, .step 0, .step 0] [] (initial 64 (Slot.new Nat))).isSome := by decide +kernel
    have hReleased := (released_of_used (.paired 0 1
      (Run.ofExec 2 _ (fun _ _ _ _ => of_decide_eq_true) _ (by decide) hRun)
      (idle_of_exec (Option.some_get hRun).symm 2 (by decide) (by decide +kernel +revert)))).1 2#64
        true (AtomicQueue2.new_twoSlots false)
    rw [hBits] at hReleased
    refine ⟨_, _, ?_, ?_, hReleased⟩
    · clear hReleased
      decide +kernel +revert
    · clear hReleased
      decide +kernel +revert

end AtomicQueueRs
