import AtomicQueueRs.Accesses
import AtomicQueueRs.Concurrency.Ownership
import AtomicQueueRs.Mpmc

/-! Elements of the MPMC branch, slot by slot. The flag changes hands before
the element is written or read; the values read are the values written, in
order, as long as nobody wins a flag whose last winner is not done. -/
namespace AtomicQueueRs

set_option autoImplicit false

open Interleaving (Trace Run Action OwnedBy anyAction ownedBy_none)

variable {w : Nat} {T : Type}

namespace Mpmc

open AtomicQueue2 (Local Config)

/-- Has set the flag of `slot` to full and not yet written the element. -/
def Writing (slot : Nat) : Local w T → Prop
  | .pushSlot _ _ own (.write _) => own = slot
  | _ => False

/-- Has set the flag of `slot` to empty and not yet read the element. -/
def Reading (slot : Nat) : Local w T → Prop
  | .popSlot _ _ own .read => own = slot
  | _ => False

/-- Is between winning the flag of `slot` and finishing the element access. -/
def Holds (slot : Nat) (pc : Local w T) : Prop := Writing slot pc ∨ Reading slot pc

/-- Each read takes the next written value, at most one value waits, and the
element has at most one user. -/
structure SlotSound (slot : Nat) (trace : Trace (Event w T (Option T))) (s : Config w T) : Prop where
  reads_isPrefix : readsAt slot trace <+: (writesAt slot trace).map some
  writes_le : (writesAt slot trace).length ≤ (readsAt slot trace).length + 1
  holder_unique : ∀ thread thread', Holds slot (s.threads thread) →
    Holds slot (s.threads thread') → thread = thread'

/-- The slot whose flag the next step wins by `compare_exchange`, if any. -/
def winsFlag (σ : Memory w (Slot T)) : Local w T → Option Nat
  | .pushSlot _ _ own (.compareExchange _) =>
      if (σ.slots own).state = .empty then some own else none
  | .popSlot _ _ own .compareExchange => if (σ.slots own).state = .full then some own else none
  | _ => none

/-- Whoever wins a flag finds its last winner done with the element. -/
def WinsAlone (s : Config w T) : Action (Call T) → Prop
  | .call _ _ => True
  | .step thread => ∀ slot, winsFlag s.shared (s.threads thread) = some slot →
      ∀ other, ¬ Holds slot (s.threads other)

/-- The four situations of a slot, by flag and holder. -/
inductive Owned (slot : Nat) (threads : Nat → Local w T) (content : Slot T) (writes : List T)
    (reads : List (Option T)) : Prop where
  | free (hHolder : OwnedBy (Holds slot) threads none) (hState : content.state = .empty)
      (hReads : writes.map some = reads)
  | writing (holder : Nat) (hHolder : OwnedBy (Holds slot) threads (some holder))
      (hWriting : Writing slot (threads holder)) (hState : content.state = .full)
      (hReads : writes.map some = reads)
  | stored (hHolder : OwnedBy (Holds slot) threads none) (hState : content.state = .full)
      (hReads : writes.map some = reads ++ [content.element])
  | reading (holder : Nat) (hHolder : OwnedBy (Holds slot) threads (some holder))
      (hReading : Reading slot (threads holder)) (hState : content.state = .empty)
      (hReads : writes.map some = reads ++ [content.element])

section Owned

variable {slot thread : Nat} {threads : Nat → Local w T} {pc : Local w T} {content : Slot T}
  {writes : List T} {reads : List (Option T)}

theorem not_reading_of_writing (h : Writing slot pc) : ¬ Reading slot pc := by
  cases pc with
  | pushSlot => exact id
  | _ => exact h.elim

/-- A thread that has nothing to do with the slot. -/
theorem Owned.frame (h : Owned slot threads content writes reads)
    (hBefore : ¬ Holds slot (threads thread)) (hAfter : ¬ Holds slot pc)
    {writes' : List T} {reads' : List (Option T)} (hWrites : writes' = []) (hReads : reads' = []) :
    Owned slot (Function.update threads thread pc) content (writes ++ writes') (reads ++ reads') := by
  have hMove : Holds slot (threads thread) ↔ Holds slot pc := iff_of_false hBefore hAfter
  rw [hWrites, hReads, List.append_nil, List.append_nil]
  cases h with
  | free hHolder hState hReads => exact .free (hHolder.frame hMove) hState hReads
  | writing holder hHolder hWriting hState hReads =>
      have hOther : holder ≠ thread := fun hEq => hBefore (hEq ▸ Or.inl hWriting)
      refine .writing holder (hHolder.frame hMove) ?_ hState hReads
      rwa [Function.update_of_ne hOther]
  | stored hHolder hState hReads => exact .stored (hHolder.frame hMove) hState hReads
  | reading holder hHolder hReading hState hReads =>
      have hOther : holder ≠ thread := fun hEq => hBefore (hEq ▸ Or.inr hReading)
      refine .reading holder (hHolder.frame hMove) ?_ hState hReads
      rwa [Function.update_of_ne hOther]

/-- A producer wins the flag of a slot nobody holds. -/
theorem Owned.fill (h : Owned slot threads content writes reads)
    (hAlone : ∀ other, ¬ Holds slot (threads other)) (hEmpty : content.state = .empty)
    (hAfter : Writing slot pc) :
    Owned slot (Function.update threads thread pc) { content with state := .full } writes reads := by
  have hHolder := (ownedBy_none hAlone).acquire thread (Or.inl hAfter)
  cases h with
  | free _ _ hReads =>
      exact .writing thread hHolder (by rwa [Function.update_self]) rfl hReads
  | writing _ _ _ hState | stored _ hState =>
      rw [hEmpty] at hState
      contradiction
  | reading holder _ hReading => exact (hAlone holder (Or.inr hReading)).elim

/-- The holder writes its element. -/
theorem Owned.write (h : Owned slot threads content writes reads)
    (hBefore : Writing slot (threads thread)) (hAfter : ¬ Holds slot pc) (value : T) :
    Owned slot (Function.update threads thread pc) { content with element := some value }
      (writes ++ [value]) reads := by
  cases h with
  | free hHolder | stored hHolder => exact (hHolder.not_at thread (Or.inl hBefore)).elim
  | writing holder hHolder _ hState hReads =>
      obtain rfl := Option.some.inj (hHolder.eq_some (Or.inl hBefore))
      refine .stored (hHolder.release hAfter) hState ?_
      rw [List.map_append, hReads]
      rfl
  | reading holder hHolder hReading =>
      obtain rfl := Option.some.inj (hHolder.eq_some (Or.inl hBefore))
      exact (not_reading_of_writing hBefore hReading).elim

/-- A consumer wins the flag of a slot nobody holds. -/
theorem Owned.drain (h : Owned slot threads content writes reads)
    (hAlone : ∀ other, ¬ Holds slot (threads other)) (hFull : content.state = .full)
    (hAfter : Reading slot pc) :
    Owned slot (Function.update threads thread pc) { content with state := .empty } writes reads := by
  have hHolder := (ownedBy_none hAlone).acquire thread (Or.inr hAfter)
  cases h with
  | stored _ _ hReads =>
      exact .reading thread hHolder (by rwa [Function.update_self]) rfl hReads
  | free _ hState | reading _ _ _ hState =>
      rw [hFull] at hState
      contradiction
  | writing holder _ hWriting => exact (hAlone holder (Or.inl hWriting)).elim

/-- The holder reads the element last written. -/
theorem Owned.read (h : Owned slot threads content writes reads)
    (hBefore : Reading slot (threads thread)) (hAfter : ¬ Holds slot pc) :
    Owned slot (Function.update threads thread pc) content writes (reads ++ [content.element]) := by
  cases h with
  | free hHolder | stored hHolder => exact (hHolder.not_at thread (Or.inr hBefore)).elim
  | writing holder hHolder hWriting =>
      obtain rfl := Option.some.inj (hHolder.eq_some (Or.inr hBefore))
      exact (not_reading_of_writing hWriting hBefore).elim
  | reading holder hHolder _ hState hReads =>
      obtain rfl := Option.some.inj (hHolder.eq_some (Or.inr hBefore))
      exact .free (hHolder.release hAfter) hState hReads

end Owned

variable {q : Queue w}

theorem quiet_not_holds {σ : Memory w (Slot T)} {pc pc' : Local w T}
    {es : List (Event w T (Option T))} (h : q.Quiet σ pc pc' es) (slot : Nat) :
    ¬ Holds slot pc ∧ ¬ Holds slot pc' ∧ es.filterMap (Event.writeAt slot) = [] ∧
      es.filterMap (Event.readAt slot) = [] := by
  cases h <;> exact ⟨fun h => h.elim id id, fun h => h.elim id id, rfl, rfl⟩

theorem claimsHead_not_holds {σ : Memory w (Slot T)} {pc : Local w T} {blocking : Bool}
    {position : Usize w} {value : T} (h : q.ClaimsHead σ pc blocking position value) (slot : Nat) :
    ¬ Holds slot pc := by
  cases h <;> exact fun h => h.elim id id

theorem claimsTail_not_holds {σ : Memory w (Slot T)} {pc : Local w T} {blocking : Bool}
    {position : Usize w} (h : q.ClaimsTail σ pc blocking position) (slot : Nat) :
    ¬ Holds slot pc := by
  cases h <;> exact fun h => h.elim id id

theorem wait_not_holds {blocking : Bool} {position : Usize w} {own : Nat} {pc : DoPopAny T}
    (h : pc = .compareExchange ∨ pc = .spin) (slot : Nat) :
    ¬ Holds slot (.popSlot blocking position own pc : Local w T) := by
  rcases h with rfl | rfl <;> exact fun h => h.elim id id

/-- One step keeps every slot in one of the four situations. -/
theorem Step.owned {slot thread : Nat} {threads : Nat → Local w T} {σ σ' : Memory w (Slot T)}
    {pc' : Local w T} {es : List (Event w T (Option T))} {writes : List T} {reads : List (Option T)}
    (hStep : Step q (threads thread) σ pc' σ' es)
    (hAlone : winsFlag σ (threads thread) = some slot → ∀ other, ¬ Holds slot (threads other))
    (h : Owned slot threads (σ.slots slot) writes reads) :
    Owned slot (Function.update threads thread pc') (σ'.slots slot)
      (writes ++ es.filterMap (Event.writeAt slot)) (reads ++ es.filterMap (Event.readAt slot)) := by
  generalize hPc : threads thread = pc at hStep hAlone
  cases hStep with
  | quiet hQuiet =>
      obtain ⟨hBefore, hAfter, hWrites, hReads⟩ := quiet_not_holds hQuiet slot
      exact h.frame (hPc ▸ hBefore) hAfter hWrites hReads
  | claimHead hClaim | pushPanic hClaim =>
      exact h.frame (hPc ▸ claimsHead_not_holds hClaim slot) (fun h => h.elim id id) rfl rfl
  | claimTail hClaim | popPanic hClaim =>
      exact h.frame (hPc ▸ claimsTail_not_holds hClaim slot) (fun h => h.elim id id) rfl rfl
  | pushWait =>
      exact h.frame (by rw [hPc]; exact fun h => h.elim id id) (fun h => h.elim id id) rfl rfl
  | popWait hWait hWait' =>
      exact h.frame (hPc ▸ wait_not_holds hWait slot) (wait_not_holds hWait' slot) rfl rfl
  | @fill blocking position own value _ hEmpty =>
      by_cases hOwn : own = slot
      · subst hOwn
        have hAfter : Writing own (.pushSlot blocking position own (.write value) : Local w T) := rfl
        simpa using h.fill (hAlone (if_pos hEmpty)) hEmpty hAfter
      · have hBefore : ¬ Holds slot (threads thread) := by
          rw [hPc]
          exact fun h => h.elim id id
        have hAfter : ¬ Holds slot (.pushSlot blocking position own (.write value) : Local w T) :=
          fun h => h.elim hOwn id
        simpa [Function.update_of_ne (Ne.symm hOwn)] using h.frame hBefore hAfter rfl rfl
  | @write blocking position own value =>
      have hDone : ¬ Holds slot (.idle : Local w T) := fun h => h.elim id id
      by_cases hOwn : own = slot
      · subst hOwn
        have hBefore : Writing own (threads thread) := by rw [hPc]; rfl
        simpa [List.filterMap_cons] using h.write hBefore hDone value
      · have hBefore : ¬ Holds slot (threads thread) := by
          rw [hPc]
          exact fun h => h.elim hOwn id
        simpa [List.filterMap_cons, Function.update_of_ne (Ne.symm hOwn), hOwn] using
          h.frame hBefore hDone rfl rfl
  | @drain blocking position own _ hFull =>
      by_cases hOwn : own = slot
      · subst hOwn
        have hAfter : Reading own (.popSlot blocking position own .read : Local w T) := rfl
        simpa using h.drain (hAlone (if_pos hFull)) hFull hAfter
      · have hBefore : ¬ Holds slot (threads thread) := by
          rw [hPc]
          exact fun h => h.elim id id
        have hAfter : ¬ Holds slot (.popSlot blocking position own .read : Local w T) :=
          fun h => h.elim id hOwn
        simpa [Function.update_of_ne (Ne.symm hOwn)] using h.frame hBefore hAfter rfl rfl
  | @read blocking position own =>
      have hDone : ¬ Holds slot (.idle : Local w T) := fun h => h.elim id id
      by_cases hOwn : own = slot
      · subst hOwn
        have hBefore : Reading own (threads thread) := by rw [hPc]; rfl
        simpa [List.filterMap_cons] using h.read hBefore hDone
      · have hBefore : ¬ Holds slot (threads thread) := by
          rw [hPc]
          exact fun h => h.elim id hOwn
        simpa [List.filterMap_cons, hOwn] using h.frame hBefore hDone rfl rfl

variable {maximizeThroughput : Bool}

theorem start_not_holds (operation : Call T) (slot : Nat) :
    ¬ Holds slot (Queue.start operation : Local w T) := by
  cases operation <;> exact fun h => h.elim id id

theorem owned_of_run {trace : Trace (Event w T (Option T))} {s : Config w T}
    (run : Run (q.threadCode (AtomicQueue2.slotCode T maximizeThroughput false))
      (fun _ => WinsAlone) (initial w (Slot.new T)) trace s) (slot : Nat) :
    Owned slot s.threads (s.shared.slots slot) (writesAt slot trace) (readsAt slot trace) := by
  refine invariant_of_run (fun trace s =>
    Owned slot s.threads (s.shared.slots slot) (writesAt slot trace) (readsAt slot trace)) ?_ ?_ ?_ run
  · exact .free (ownedBy_none fun _ h => h.elim id id) rfl rfl
  · intro trace s thread operation ih hIdle _
    rw [writesAt_append, readsAt_append]
    exact ih.frame (by rw [hIdle]; exact fun h => h.elim id id) (start_not_holds operation slot) rfl rfl
  · intro trace s thread pc shared es _ ih hAllowed _ hStep
    rw [writesAt_append, readsAt_append]
    exact hStep.owned (hAllowed slot) ih

theorem Owned.sound {slot : Nat} {trace : Trace (Event w T (Option T))} {s : Config w T}
    (h : Owned slot s.threads (s.shared.slots slot) (writesAt slot trace) (readsAt slot trace)) :
    SlotSound slot trace s := by
  cases h with
  | free hHolder _ hReads | writing _ hHolder _ _ hReads =>
      refine ⟨hReads ▸ List.prefix_refl _, ?_, fun _ _ hHolds hHolds' => hHolder.unique hHolds hHolds'⟩
      rw [← hReads, List.length_map]
      exact Nat.le_succ _
  | stored hHolder _ hReads | reading _ hHolder _ _ hReads =>
      refine ⟨hReads ▸ List.prefix_append _ _, ?_,
        fun _ _ hHolds hHolds' => hHolder.unique hHolds hHolds'⟩
      rw [← List.length_map some, hReads, List.length_append, List.length_singleton]

end Mpmc

/-- As long as nobody wins a flag between its last winner's `compare_exchange`
and element access, each read returns the next value written, no unread value is
overwritten, and one thread at a time has a slot's element. The flag itself does
not see to that: it is set before the element is written and cleared before it
is read. -/
theorem slotSound_of_winsAlone (q : Queue w) (maximizeThroughput : Bool)
    {trace : Trace (Event w T (Option T))} {s : AtomicQueue2.Config w T}
    (run : Run (q.threadCode (AtomicQueue2.slotCode T maximizeThroughput false))
      (fun _ => Mpmc.WinsAlone) (initial w (Slot.new T)) trace s) (slot : Nat) :
    Mpmc.SlotSound slot trace s :=
  (Mpmc.owned_of_run run slot).sound

/-- A decidable form of `Holds`. -/
def Mpmc.heldSlot : AtomicQueue2.Local w T → Option Nat
  | .pushSlot _ _ own (.write _) => some own
  | .popSlot _ _ own .read => some own
  | _ => none

theorem Mpmc.heldSlot_eq_of_holds {slot : Nat} {pc : AtomicQueue2.Local w T}
    (h : Mpmc.Holds slot pc) : Mpmc.heldSlot pc = some slot := by
  cases pc with
  | pushSlot blocking position own pc =>
      cases pc with
      | write value => exact congrArg some (h.resolve_right id)
      | _ => exact (h.elim id id).elim
  | popSlot blocking position own pc =>
      cases pc with
      | read => exact congrArg some (h.resolve_left id)
      | _ => exact (h.elim id id).elim
  | _ => exact (h.elim id id).elim

theorem slotSound_twoSlots : ∃ trace, ∃ s : AtomicQueue2.Config 64 Nat,
    readsAt 0 trace = [some 7] ∧ s.shared.tail = 1#64 ∧ Mpmc.SlotSound 0 trace s := by
  refine ⟨_, _, ?_, ?_, slotSound_of_winsAlone (AtomicQueue2.twoSlots false) true
    (Run.ofExec 2
      (fun _ s action => match action with
        | .call _ _ => true
        | .step thread => match Mpmc.winsFlag s.shared (s.threads thread) with
          | none => true
          | some slot => (List.range 2).all fun other => Mpmc.heldSlot (s.threads other) != some slot)
      ?_
      [.call 0 (.push 7), .step 0, .call 1 .pop, .step 1, .step 0, .step 0, .step 1, .step 1]
      (by decide) (by decide +kernel)) 0⟩
  · decide +kernel
  · decide +kernel
  · intro _ s action hRest hTest
    cases action with
    | call => exact trivial
    | step thread =>
        intro slot hWins other hHolds
        simp only [hWins, List.all_eq_true, List.mem_range, bne_iff_ne] at hTest
        have hHeld := Mpmc.heldSlot_eq_of_holds hHolds
        rcases Nat.lt_or_ge other 2 with hLt | hGe
        · exact hTest other hLt hHeld
        · rw [hRest other hGe] at hHeld
          cases hHeld

/-- A producer has set the flag and not written yet when a consumer wins the
same flag and reads storage that was never written. -/
theorem twoSlots_reads_unwritten : ∃ trace, ∃ s : AtomicQueue2.Config 64 Nat,
    Run ((AtomicQueue2.twoSlots false).threadCode (AtomicQueue2.slotCode Nat true false))
        anyAction (initial 64 (Slot.new Nat)) trace s ∧
      (0, Event.call (.push 7)) ∈ trace ∧ (1, .returned (.pop none)) ∈ trace ∧
      readsAt 0 trace = [none] ∧ writesAt 0 trace = [] ∧ ¬ Mpmc.SlotSound 0 trace s := by
  refine ⟨_, _, Run.ofExec 2 (fun _ _ _ => true) (fun _ _ _ _ _ => trivial)
    [.call 0 (.push 7), .step 0, .step 0, .call 1 .pop, .step 1, .step 1, .step 1]
    (by decide) (by decide +kernel), ?_, ?_, ?_, ?_, fun h => ?_⟩
  · decide +kernel
  · decide +kernel
  · decide +kernel
  · decide +kernel
  · have hPrefix := h.reads_isPrefix.length_le
    revert hPrefix
    decide +kernel

end AtomicQueueRs
