import AtomicQueueRs.Concurrency.Renaming
import AtomicQueueRs.Indexing
import Mathlib.Logic.Equiv.Fintype

/-! Which slot a position gets. Queues of one capacity, whether they shuffle
their indices, mask them or take a remainder, differ by a permutation of the
slots, which no call can tell. -/
namespace AtomicQueueRs

set_option autoImplicit false

open Interleaving (Action Renaming Trace.renamed exec)

variable {w : Nat} {T V C U O : Type}

section Renamed

variable (f : Equiv.Perm Nat)

def Memory.renamed (σ : Memory w C) : Memory w C := { σ with slots := σ.slots ∘ f.symm }

def Pc.renamed : Pc w T U O → Pc w T U O
  | .pushSlot blocking position slot pc => .pushSlot blocking position (f slot) pc
  | .popSlot blocking position slot pc => .popSlot blocking position (f slot) pc
  | pc => pc

/-- Only accesses name a slot. -/
def Event.renamed : Event w T V → Event w T V
  | .access position slot change => .access position (f slot) change
  | e => e

@[simp] theorem Memory.renamed_slots (σ : Memory w C) (slot : Nat) :
    (σ.renamed f).slots (f slot) = σ.slots slot := by
  simp [Memory.renamed]

/-- Renaming the slots after an update is an update at the renamed slot. -/
theorem Memory.renamed_update (σ : Memory w C) (slot : Nat) (content : C) :
    Memory.renamed f { σ with slots := Function.update σ.slots slot content } =
      { σ.renamed f with slots := Function.update (σ.renamed f).slots (f slot) content } := by
  simp [Memory.renamed, Function.update_comp_equiv]

@[simp] theorem Event.renamed_access (position : Usize w) (slot : Nat) (change : Access T V) :
    (Event.access position slot change).renamed f = .access position (f slot) change := rfl

end Renamed

/-- The queues differ in nothing but the names of the slots. -/
structure Queue.Relabelled (q q' : Queue w) (f : Equiv.Perm Nat) : Prop where
  build : q'.build = q.build
  capacity : q'.capacity = q.capacity
  totalOrder : q'.totalOrder = q.totalOrder
  getSlot : ∀ position, q'.getSlot position = (q.getSlot position).map f

namespace Queue.Relabelled

variable {q q' : Queue w} {f : Equiv.Perm Nat} (h : q.Relabelled q' f) {code : SlotCode T V C U O}

include h in
theorem enterPush (blocking : Bool) (position : Usize w) (element : T) :
    q'.enterPush code blocking position element =
      Prod.map (Pc.renamed f) (List.map (Event.renamed f))
        (q.enterPush code blocking position element) := by
  rw [Queue.enterPush, Queue.enterPush, h.getSlot]
  cases q.getSlot position <;> rfl

include h in
theorem enterPop (blocking : Bool) (position : Usize w) :
    q'.enterPop code blocking position =
      Prod.map (Pc.renamed f) (List.map (Event.renamed f)) (q.enterPop code blocking position) := by
  rw [Queue.enterPop, Queue.enterPop, h.getSlot]
  cases q.getSlot position <;> rfl

theorem afterPush (blocking : Bool) (position : Usize w) (slot : Nat) (outcome : Outcome U Unit) :
    (Queue.afterPush blocking position (f slot) outcome :
        Pc w T U O × List (Event w T V)) =
      Prod.map (Pc.renamed f) (List.map (Event.renamed f))
        (Queue.afterPush blocking position slot outcome) := by
  cases outcome <;> rfl

theorem afterPop (blocking : Bool) (position : Usize w) (slot : Nat) (outcome : Outcome O V) :
    (Queue.afterPop blocking position (f slot) outcome :
        Pc w T U O × List (Event w T V)) =
      Prod.map (Pc.renamed f) (List.map (Event.renamed f))
        (Queue.afterPop blocking position slot outcome) := by
  cases outcome <;> rfl

include h in
/-- Slot code never learns which slot it is at, so every step has its image
under the renaming. -/
theorem toRenaming : Renaming (q.threadCode code) (q'.threadCode code) (Memory.renamed f)
    (Pc.renamed f) (Event.renamed f) where
  call operation pc := by
    cases pc with
    | idle => cases operation <;> rfl
    | _ => rfl
  step pc σ := by
    cases pc with
    | idle | panicked => rfl
    | tryPushLoadHead | tryPopLoadTail | observeLoadHead => rfl
    | tryPushLoadTail element head =>
        simp only [Queue.threadCode, Pc.renamed, Queue.step, h.build, h.capacity, Memory.renamed]
        cases Usize.sub q.build head σ.tail with
        | none => rfl
        | some size => by_cases hFull : q.capacity ≤ size <;> simp [hFull, Event.renamed]
    | tryPushClaim element head =>
        simp only [Queue.threadCode, Pc.renamed, Queue.step, h.build, h.totalOrder, h.enterPush]
        cases q.totalOrder with
        | false => rfl
        | true =>
            cases Usize.add q.build head 1#w with
            | none => rfl
            | some next =>
                by_cases hHead : σ.head = head <;> simp [hHead, Memory.renamed, Pc.renamed, Event.renamed]
    | pushClaim element =>
        simp only [Queue.threadCode, Pc.renamed, Queue.step, h.enterPush]
        rfl
    | pushSlot blocking position slot pc =>
        simp [Queue.threadCode, Pc.renamed, Queue.step, afterPush, Memory.renamed_update,
          Function.comp_def]
    | tryPopLoadHead tail =>
        by_cases hTail : tail = σ.head <;>
          simp [Queue.threadCode, Pc.renamed, Queue.step, Memory.renamed, Event.renamed, hTail]
    | tryPopClaim tail =>
        simp only [Queue.threadCode, Pc.renamed, Queue.step, h.build, h.totalOrder, h.enterPop]
        cases q.totalOrder with
        | false => rfl
        | true =>
            cases Usize.add q.build tail 1#w with
            | none => rfl
            | some next =>
                by_cases hTail : σ.tail = tail <;> simp [hTail, Memory.renamed, Pc.renamed, Event.renamed]
    | popClaim =>
        simp only [Queue.threadCode, Pc.renamed, Queue.step, h.enterPop]
        rfl
    | popSlot blocking position slot pc =>
        simp [Queue.threadCode, Pc.renamed, Queue.step, afterPop, Memory.renamed_update,
          Function.comp_def]
    | observeLoadTail observer head =>
        simp only [Queue.threadCode, Pc.renamed, Queue.step, h.build, h.capacity, Memory.renamed]
        cases observer.result q.build q.capacity head σ.tail <;> rfl

end Queue.Relabelled

section Indexed

variable {q q' : Queue w}

/-- The slot of a position is decided by its remainder, also where the counters
have wrapped. -/
theorem Queue.Indexed.getSlot_eq (h : q.Indexed) (position : Usize w) :
    q.getSlot position = some (q.slotAt (position.toNat % q.capacity.toNat)) := by
  rw [← h.getSlot_ofNat, h.getSlot_eq_iff, BitVec.toNat_ofNat]
  have hLt := Nat.mod_lt position.toNat h.capacity_pos
  rw [Nat.mod_eq_of_lt (Nat.lt_trans hLt q.capacity.isLt), Nat.mod_mod]

/-- The slots of a lap, in the order of its positions. -/
theorem Queue.Indexed.exists_perm (h : q.Indexed) : ∃ f : Equiv.Perm Nat,
    (∀ n < q.capacity.toNat, f n = q.slotAt n) ∧ ∀ n, q.capacity.toNat ≤ n → f n = n := by
  have hInj : Function.Injective fun i : Fin q.capacity.toNat =>
      (⟨q.slotAt i, h.slotAt_lt i⟩ : Fin q.capacity.toNat) := by
    intro i j hEq
    have hRest := (h.slotAt_eq_iff_of_lt (Nat.lt_trans i.isLt q.capacity.isLt)
      (Nat.lt_trans j.isLt q.capacity.isLt)).mp (congrArg Fin.val hEq)
    rw [Nat.mod_eq_of_lt i.isLt, Nat.mod_eq_of_lt j.isLt] at hRest
    exact Fin.ext hRest
  let lap : Equiv.Perm (Fin q.capacity.toNat) :=
    Equiv.ofBijective _ (Finite.injective_iff_bijective.mp hInj)
  refine ⟨lap.extendDomain Fin.equivSubtype, fun n hn => ?_, fun n hn => ?_⟩
  · exact lap.extendDomain_apply_image Fin.equivSubtype ⟨n, hn⟩
  · exact lap.extendDomain_apply_not_subtype Fin.equivSubtype (Nat.not_lt.mpr hn)

/-- Both queues index the same number of slots, each with every slot once in a
lap. The renaming takes the slot of a position in one to its slot in the other,
and leaves what lies beyond the capacity where it is. -/
theorem Queue.Indexed.exists_relabelled (h : q.Indexed) (h' : q'.Indexed)
    (hBuild : q'.build = q.build) (hCapacity : q'.capacity = q.capacity)
    (hOrder : q'.totalOrder = q.totalOrder) :
    ∃ f : Equiv.Perm Nat, (∀ slot, q.capacity.toNat ≤ slot → f slot = slot) ∧ q.Relabelled q' f := by
  obtain ⟨lap, hLap, hBeyond⟩ := h.exists_perm
  obtain ⟨lap', hLap', hBeyond'⟩ := h'.exists_perm
  rw [hCapacity] at hLap' hBeyond'
  refine ⟨lap.symm.trans lap', fun slot hGe => ?_, hBuild, hCapacity, hOrder, fun position => ?_⟩
  · rw [Equiv.trans_apply, lap.symm_apply_eq.mpr (hBeyond slot hGe).symm]
    exact hBeyond' slot hGe
  · have hLt := Nat.mod_lt position.toNat h.capacity_pos
    rw [h.getSlot_eq, h'.getSlot_eq, hCapacity, Option.map_some, Equiv.trans_apply, ← hLap _ hLt,
      Equiv.symm_apply_apply, hLap' _ hLt]

end Indexed

/-- On every schedule of any calls of any threads, two queues of one capacity
return the same and hold the same, in other slots. This covers remapped and
plain indices, and fixed and runtime sizes. -/
theorem layouts_agree {target : Target w} {q q' : Queue w} (hq : IsQueue target q)
    (hq' : IsQueue target q') (hPos : 0 < q.capacity.toNat) (hCapacity : q'.capacity = q.capacity)
    (hOrder : q'.totalOrder = q.totalOrder) (code : SlotCode T V C U O) (empty : C) :
    ∃ f : Equiv.Perm Nat, (∀ slot, q.capacity.toNat ≤ slot → f slot = slot) ∧
      ∀ schedule : List (Action (Call T)),
        exec (q'.threadCode code) (fun _ _ _ => true) schedule [] (initial w empty) =
          (exec (q.threadCode code) (fun _ _ _ => true) schedule [] (initial w empty)).map
            fun final => (Trace.renamed (Event.renamed f) final.1,
              final.2.renamed (Memory.renamed f) (Pc.renamed f)) := by
  obtain ⟨f, hBeyond, hRelabelled⟩ := (hq.indexed hPos).exists_relabelled
    (hq'.indexed (hCapacity ▸ hPos)) (hq'.build_eq.trans hq.build_eq.symm) hCapacity hOrder
  refine ⟨f, hBeyond, fun schedule => ?_⟩
  exact hRelabelled.toRenaming.exec_renamed (fun _ _ _ => rfl) schedule [] (initial w empty)

/-- Four slots on 32-bit Arm, with and without `MINIMIZE_CONTENTION`. -/
theorem layouts_agree_fourSlots : ∃ f : Equiv.Perm Nat, (∀ slot, 4 ≤ slot → f slot = slot) ∧
    ∀ schedule : List (Action (Call Nat)),
      exec (Queue.threadCode ⟨.release, 4#32, AtomicQueue2.getSlot 4#32 1, false⟩
          (AtomicQueue2.slotCode Nat true false)) (fun _ _ _ => true) schedule []
          (initial 32 (Slot.new Nat)) =
        (exec (Queue.threadCode ⟨.release, 4#32, AtomicQueue2.getSlot 4#32 0, false⟩
          (AtomicQueue2.slotCode Nat true false)) (fun _ _ _ => true) schedule []
          (initial 32 (Slot.new Nat))).map
            fun final => (Trace.renamed (Event.renamed f) final.1,
              final.2.renamed (Memory.renamed f) (Pc.renamed f)) :=
  layouts_agree (show IsQueue Target.arm _ from .nonAtomic _ (.fixed 4#32 false rfl))
    (.nonAtomic _ (.fixed 4#32 true rfl)) (by decide) rfl rfl _ _

end AtomicQueueRs
