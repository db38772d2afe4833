import AtomicQueueRs.AtomicQueue
import AtomicQueueRs.Concurrency.WaitFreedom
import AtomicQueueRs.Progress

/-! Producers of the queues of atomic words. They store without looking, so
that neither a full queue nor another thread makes them wait. -/
namespace AtomicQueueRs

set_option autoImplicit false

open Interleaving (Action EndsWithin Ranked)

variable {w : Nat} {T V C U O : Type}

/-- The accesses to shared memory of a call that waits for nothing. -/
def Call.accesses : Call T → Nat
  | .tryPush _ | .tryPop => 4
  | .push _ | .pop | .observe _ => 2

/-- Everything but `pop` and `try_pop`. -/
def Call.takesNothing : Call T → Prop
  | .tryPop | .pop => False
  | _ => True

def Pc.takesNothing : Pc w T U O → Prop
  | .tryPopLoadTail | .tryPopLoadHead _ | .tryPopClaim _ | .popClaim | .popSlot .. => False
  | _ => True

/-- The accesses that are left if the slot takes one. -/
def Pc.accessesLeft : Pc w T U O → Nat
  | .idle | .panicked => 0
  | .tryPushLoadHead _ | .tryPopLoadTail => 4
  | .tryPushLoadTail _ _ | .tryPopLoadHead _ => 3
  | .tryPushClaim _ _ | .tryPopClaim _ | .pushClaim _ | .popClaim | .observeLoadHead _ => 2
  | .pushSlot .. | .popSlot .. | .observeLoadTail _ _ => 1

theorem accessesLeft_pos {pc : Pc w T U O} (h : ¬ pc.Ended) : 0 < pc.accessesLeft := by
  cases pc with
  | idle | panicked => exact absurd trivial h
  | _ => simp [Pc.accessesLeft]

theorem Pc.Ended.accessesLeft_eq {pc : Pc w T U O} (h : pc.Ended) : pc.accessesLeft = 0 := by
  cases pc with
  | idle | panicked => rfl
  | _ => exact h.elim

theorem Pc.Ended.takesNothing {pc : Pc w T U O} (h : pc.Ended) : pc.takesNothing := by
  cases pc with
  | idle | panicked => trivial
  | _ => exact h.elim

theorem accessesLeft_start (operation : Call T) :
    (Queue.start operation : Pc w T U O).accessesLeft = operation.accesses := by
  cases operation <;> rfl

/-- A call that takes nothing starts at a program counter that does not. -/
theorem takesNothing_start {operation : Call T} (h : operation.takesNothing) :
    (Queue.start operation : Pc w T U O).takesNothing := by
  cases operation with
  | tryPop | pop => exact h.elim
  | _ => trivial

/-- Claiming leads to the slot or to a panic, with one access left at most. -/
theorem Queue.lowers_enterPush (q : Queue w) (code : SlotCode T V C U O) (blocking : Bool)
    (position : Usize w) (element : T) : (q.enterPush code blocking position element).1.takesNothing ∧
      (q.enterPush code blocking position element).1.accessesLeft < 2 := by
  rw [Queue.enterPush]
  split
  · exact ⟨trivial, Nat.lt_succ_self 1⟩
  · exact ⟨trivial, Nat.two_pos⟩

section Producers

variable [Element T]

/-- One store, which goes through or panics. -/
theorem ended_afterPush (bigEndian : Bool) (own : StoreElement T) (raw : Usize w)
    (blocking : Bool) (position : Usize w) (slot : Nat) :
    (Queue.afterPush blocking position slot (AtomicQueue.pushStep bigEndian own raw).2.2 :
      AtomicQueue.Local w T × List (Event w T T)).1.Ended := by
  cases own with
  | store element =>
      rw [AtomicQueue.pushStep]
      split <;> exact trivial

/-- The slot code of `atomic_queue.rs` stores without looking, so a producer has
a bounded number of steps left wherever it is. -/
theorem ranked_producers (q : Queue w) (bigEndian : Bool) :
    Ranked (q.threadCode (AtomicQueue.slotCode w T bigEndian)) Pc.Ended Pc.takesNothing
      Pc.accessesLeft where
  isSome _ _ _ hEnded := Option.isSome_iff_exists.mpr (Queue.exists_step hEnded)
  step pc σ pc' σ' es hInside hStep := by
    cases Queue.step_cases hStep with
    | quiet hQuiet => cases hQuiet <;> simp_all [Pc.takesNothing, Pc.accessesLeft]
    | claimHead hClaim =>
        obtain ⟨hAfter, hLower⟩ := q.lowers_enterPush (AtomicQueue.slotCode w T bigEndian) _ _ _
        refine ⟨hAfter, ?_⟩
        cases hClaim <;> exact hLower
    | claimTail hClaim => cases hClaim <;> exact hInside.elim
    | pushSlot blocking position slot own =>
        have hEnded := ended_afterPush bigEndian own (σ.slots slot) blocking position slot
        refine ⟨hEnded.takesNothing, ?_⟩
        exact Nat.lt_succ_of_le hEnded.accessesLeft_eq.le
    | popSlot => exact hInside.elim

/-- However the other threads run, `try_push` ends with its fourth access and
`push` and the observers with their second. The store of an element waits for
nothing, as it looks at nothing. -/
theorem endsWithin_of_takesNothing (q : Queue w) (bigEndian : Bool) {operation : Call T}
    (hTakes : operation.takesNothing) {s : AtomicQueue.Config w T} {thread : Nat}
    (hStart : s.threads thread = Queue.start operation) :
    EndsWithin (q.threadCode (AtomicQueue.slotCode w T bigEndian)) Pc.Ended thread
      operation.accesses s := by
  have hInside : (s.threads thread).takesNothing := hStart ▸ takesNothing_start hTakes
  have hEnds := (ranked_producers q bigEndian).endsWithin (fun _ => accessesLeft_pos) hInside
  rwa [hStart, accessesLeft_start] at hEnds

/-- A producer on a queue that is full of another's element. -/
theorem endsWithin_oneSlot : EndsWithin (AtomicQueue.oneSlot.threadCode
    (AtomicQueue.slotCode 64 (BitVec 64) false)) Pc.Ended 1 2
    { shared := { head := 1#64, tail := 0#64, slots := fun _ => 7#64 },
      threads := Function.update (fun _ => .idle) 1 (.pushClaim 8#64) } :=
  endsWithin_of_takesNothing AtomicQueue.oneSlot false
    (show (Call.push 8#64).takesNothing from trivial) rfl

end Producers

end AtomicQueueRs
