import AtomicQueueRs.Quiescence

/-! How many slots are full. On an MPMC queue every claimed position is filled
or drained once by whoever claimed it, if not always at the position that its
counter showed; so the difference of the counters says how many slots are full
also where it does not say which. -/
namespace AtomicQueueRs

set_option autoImplicit false

open Interleaving (Trace Run exec anyAction)

variable {w : Nat} {T : Type}

namespace Mpmc

open AtomicQueue2 (Local Config)

variable {q : Queue w}

/-- The slots that are full. -/
def fullSlots (q : Queue w) (σ : Memory w (Slot T)) : Nat :=
  (List.range q.capacity.toNat).countP fun slot => (σ.slots slot).state = .full

/-- The threads below the bound that have a position left to fill. -/
def filling (bound : Nat) (s : Config w T) : Nat :=
  (List.range bound).countP fun thread => (owesFill (s.threads thread)).isSome

def draining (bound : Nat) (s : Config w T) : Nat :=
  (List.range bound).countP fun thread => (owesDrain (s.threads thread)).isSome

/-- Whatever the counters say, no more slots are full than there are. -/
theorem fullSlots_le (q : Queue w) (σ : Memory w (Slot T)) : fullSlots q σ ≤ q.capacity.toNat := by
  rw [fullSlots]
  exact List.countP_le_length.trans List.length_range.le

theorem sum_toNat (states : Nat → Flag) (n : Nat) :
    ((List.range n).map fun slot => (states slot).toNat).sum =
      (List.range n).countP fun slot => states slot = .full := by
  induction n with
  | zero => rfl
  | succ n ih =>
      rw [List.range_succ, List.map_append, List.sum_append, ih, List.countP_append]
      cases hState : states n <;> simp [hState, Flag.toNat]

/-- Every position has one slot. -/
theorem sum_countP_atSlot (hIndexed : q.Indexed) (positions : List (Usize w)) :
    ((List.range q.capacity.toNat).map fun slot => positions.countP (q.atSlot slot)).sum =
      positions.length := by
  induction positions with
  | nil => simp
  | cons position rest ih =>
      obtain ⟨own, hLt, hOwn⟩ := hIndexed.exists_getSlot position
      have hOne : ((List.range q.capacity.toNat).map fun slot =>
          if q.atSlot slot position then 1 else 0).sum = 1 := by
        rw [List.sum_map_eq_nsmul_single own _ fun slot hNe _ => by
            simp [Queue.atSlot, hOwn, Ne.symm hNe],
          List.count_eq_one_of_mem List.nodup_range (List.mem_range.mpr hLt)]
        simp [Queue.atSlot, hOwn]
      simp only [List.countP_cons, List.sum_map_add]
      rw [ih, hOne, List.length_cons]

/-- Each slot was filled as often as drained, and once more if it is full.
Summed over the slots this counts the fills of the whole run. -/
theorem Accounted.length_fills (hIndexed : q.Indexed) {trace : Trace (Event w T (Option T))}
    {s : Config w T} (h : Accounted q trace s) :
    (AtomicQueueRs.fills trace).length =
      (AtomicQueueRs.drains trace).length + fullSlots q s.shared := by
  have hSum : ((List.range q.capacity.toNat).map fun slot =>
        ((AtomicQueueRs.fills trace).map Prod.snd).countP (q.atSlot slot)).sum =
      ((List.range q.capacity.toNat).map fun slot =>
        ((AtomicQueueRs.drains trace).map Prod.snd).countP (q.atSlot slot) +
          (s.shared.slots slot).state.toNat).sum := by
    congr 2
    funext slot
    exact h.flags slot
  rw [List.sum_map_add, sum_countP_atSlot hIndexed, sum_countP_atSlot hIndexed, sum_toNat,
    List.length_map, List.length_map] at hSum
  exact hSum

/-- Claims from `head` are filled slots, drained slots or work in progress. -/
theorem Accounted.length_claims (hIndexed : q.Indexed) {trace : Trace (Event w T (Option T))}
    {s : Config w T} (h : Accounted q trace s) {bound : Nat}
    (hBound : ∀ thread, bound ≤ thread → s.threads thread = .idle) :
    (headClaims trace).length + draining bound s =
      (tailClaims trace).length + filling bound s + fullSlots q s.shared := by
  have hFills : (headClaims trace).length = (AtomicQueueRs.fills trace).length + filling bound s :=
    h.fills.length_eq fun thread hLe => by rw [hBound thread hLe]; rfl
  have hDrains : (tailClaims trace).length =
      (AtomicQueueRs.drains trace).length + draining bound s :=
    h.drains.length_eq fun thread hLe => by rw [hBound thread hLe]; rfl
  have hFlags := h.length_fills hIndexed
  omega

/-- Between calls nobody has claimed a position and not filled its slot. -/
theorem filling_of_quiescent {s : Config w T} (hQuiescent : Quiescent s) (bound : Nat) :
    filling bound s = 0 := by
  rw [filling, List.countP_eq_zero]
  intro thread _
  rw [(owes_of_quiescent hQuiescent thread).1]
  exact Bool.false_ne_true

theorem draining_of_quiescent {s : Config w T} (hQuiescent : Quiescent s) (bound : Nat) :
    draining bound s = 0 := by
  rw [draining, List.countP_eq_zero]
  intro thread _
  rw [(owes_of_quiescent hQuiescent thread).2]
  exact Bool.false_ne_true

/-- The counters differ by the full slots and what producers have still to
fill, less what consumers have still to drain. At rest their difference is the
number of full slots, and no more than there are slots. -/
structure Occupied (q : Queue w) (bound : Nat) (s : Config w T) : Prop where
  counters : s.shared.head + BitVec.ofNat w (draining bound s) =
    s.shared.tail + BitVec.ofNat w (filling bound s + fullSlots q s.shared)
  size_eq : Quiescent s → (s.shared.head - s.shared.tail).toNat = fullSlots q s.shared
  size_le : Quiescent s → (s.shared.head - s.shared.tail).toNat ≤ q.capacity.toNat

end Mpmc

/-- Also in the default configuration, and whatever the counters miscount while
calls are in progress: their difference is the full slots with those still to be
filled, less those still to be drained. -/
theorem occupied_of_run {target : Target w} {totalOrder : Bool} {q : Queue w}
    (hq : IsAtomicQueue2 target totalOrder q) (hPos : 0 < q.capacity.toNat)
    (maximizeThroughput : Bool) {trace : Trace (Event w T (Option T))} {s : AtomicQueue2.Config w T}
    (run : Run (q.threadCode (AtomicQueue2.slotCode T maximizeThroughput false)) anyAction
      (initial w (Slot.new T)) trace s)
    (bound : Nat) (hBound : ∀ thread, bound ≤ thread → s.threads thread = .idle) :
    Mpmc.Occupied q bound s := by
  have hIndexed := hq.indexed hPos
  have hCounted := counted_of_run run
  have hClaims := (Mpmc.accounted_of_run hIndexed run).length_claims hIndexed hBound
  have hSize (hQuiescent : Quiescent s) :
      (s.shared.head - s.shared.tail).toNat = Mpmc.fullSlots q s.shared := by
    rw [Mpmc.filling_of_quiescent hQuiescent, Mpmc.draining_of_quiescent hQuiescent] at hClaims
    have hFull := Mpmc.fullSlots_le q s.shared
    have hCapacity := q.capacity.isLt
    rw [hCounted.head, hCounted.tail, Usize.toNat_ofNat_sub_ofNat (by omega) (by omega)]
    omega
  refine ⟨?_, hSize, fun hQuiescent => (hSize hQuiescent).le.trans (Mpmc.fullSlots_le q s.shared)⟩
  rw [hCounted.head, hCounted.tail, ← BitVec.ofNat_add, hClaims, Nat.add_assoc, BitVec.ofNat_add]

/-- The second producer has claimed the position of the first again. -/
def staleClaim : Option (Trace (Event 64 Nat (Option Nat)) × AtomicQueue2.Config 64 Nat) :=
  exec ((AtomicQueue2.twoSlots false).threadCode (AtomicQueue2.slotCode Nat true false))
    (fun _ _ _ => true) [.call 0 (.tryPush 7), .step 0, .call 1 (.tryPush 8), .step 1, .step 0,
      .step 1, .step 0, .step 1, .step 0, .step 0] [] (initial 64 (Slot.new Nat))

theorem staleClaim_isSome : staleClaim.isSome := by decide +kernel

/-- The equation in a state with a producer between its claim and its fill: two
positions are claimed, and one slot is full. -/
theorem occupied_twoSlots : ∃ s : AtomicQueue2.Config 64 Nat, s.shared.head = 2#64 ∧
    Mpmc.filling 2 s = 1 ∧ Mpmc.fullSlots (AtomicQueue2.twoSlots false) s.shared = 1 ∧
      Mpmc.Occupied (AtomicQueue2.twoSlots false) 2 s := by
  refine ⟨(staleClaim.get staleClaim_isSome).2, ?_, ?_, ?_,
    occupied_of_run (.fixed _ _ (AtomicQueue2.new_twoSlots false)) (by decide) true
      (Run.ofExec 2 _ (fun _ _ _ _ _ => trivial) _ (by decide) staleClaim_isSome) 2
      (idle_beyond_exec (Option.some_get staleClaim_isSome).symm 2 (by decide))⟩
  · decide +kernel
  · decide +kernel
  · decide +kernel

end AtomicQueueRs
