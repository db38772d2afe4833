import AtomicQueueRs.Concurrency.Completion
import AtomicQueueRs.Quiescence

/-! Who waits for whom in the MPMC branch. A call at a slot waits for the other
side; if nothing happens any more, only one side waits, and the counters tell
which. -/
namespace AtomicQueueRs

set_option autoImplicit false

open Interleaving (Trace Run Action onlySteps Stalled anyAction exec exec_threads)

variable {w : Nat} {T V C U O : Type}

/-- No call is in progress. -/
def Pc.Ended : Pc w T U O → Prop
  | .idle | .panicked => True
  | _ => False

instance : DecidablePred (Pc.Ended (w := w) (T := T) (U := U) (O := O)) := fun pc =>
  match pc with
  | .idle | .panicked => isTrue trivial
  | .tryPushLoadHead _ | .tryPushLoadTail _ _ | .tryPushClaim _ _ | .pushClaim _
  | .pushSlot _ _ _ _ | .tryPopLoadTail | .tryPopLoadHead _ | .tryPopClaim _ | .popClaim
  | .popSlot _ _ _ _ | .observeLoadHead _ | .observeLoadTail _ _ => isFalse id

/-- The call has claimed a position and works on its slot. -/
def Pc.AtSlot : Pc w T U O → Prop
  | .pushSlot _ _ _ _ | .popSlot _ _ _ _ => True
  | _ => False

/-- A call that panicked has ended too; it will not return. -/
theorem quiescent_iff {s : State w T C U O} : Quiescent s ↔ ∀ thread, (s.threads thread).Ended := by
  refine forall_congr' fun thread => ?_
  cases s.threads thread <;> simp [Pc.Ended]

namespace Queue

variable {q : Queue w} {code : SlotCode T V C U O} {pc pc' : Pc w T U O}
  {σ σ' : Memory w C} {es : List (Event w T V)}

/-- A call in progress always has a next step. -/
theorem exists_step (hBusy : ¬ pc.Ended) : ∃ next, step q code pc σ = some next := by
  cases pc with
  | idle | panicked => exact (hBusy trivial).elim
  | tryPushLoadTail =>
      simp only [step]
      split
      · exact ⟨_, rfl⟩
      · split_ifs <;> exact ⟨_, rfl⟩
  | tryPushClaim | tryPopClaim =>
      simp only [step]
      split_ifs <;> first | exact ⟨_, rfl⟩ | (split <;> exact ⟨_, rfl⟩)
  | tryPopLoadHead =>
      simp only [step]
      split_ifs <;> exact ⟨_, rfl⟩
  | observeLoadTail =>
      simp only [step]
      split <;> exact ⟨_, rfl⟩
  | tryPushLoadHead | pushClaim | pushSlot | tryPopLoadTail | popClaim | popSlot
  | observeLoadHead => exact ⟨_, rfl⟩

/-- Before it is at a slot, every step of a call is an event. -/
theorem Step.events_ne_nil (h : Step q code pc σ pc' σ' es) (hBefore : ¬ pc.Landed) : es ≠ [] := by
  cases h with
  | quiet h => cases h <;> exact List.cons_ne_nil _ _
  | claimHead =>
      unfold enterPush
      split <;> exact List.cons_ne_nil _ _
  | claimTail =>
      unfold enterPop
      split <;> exact List.cons_ne_nil _ _
  | pushSlot | popSlot => exact (hBefore trivial).elim

end Queue

namespace Mpmc

open AtomicQueue2 (Local Config)

variable {q : Queue w} {maximizeThroughput : Bool}

/-- A producer at a slot that is still full. -/
def WaitsToPush (σ : Memory w (Slot T)) : Local w T → Prop
  | .pushSlot _ _ slot (.compareExchange _) => (σ.slots slot).state = .full
  | _ => False

/-- A consumer at a slot that is still empty. -/
def WaitsToPop (σ : Memory w (Slot T)) : Local w T → Prop
  | .popSlot _ _ slot .compareExchange => (σ.slots slot).state = .empty
  | .popSlot _ _ slot .spin => (σ.slots slot).state = .empty
  | _ => False

/-- Every call at a slot waits there. -/
def Blocked (s : Config w T) : Prop :=
  ∀ thread, (s.threads thread).AtSlot →
    WaitsToPush s.shared (s.threads thread) ∨ WaitsToPop s.shared (s.threads thread)

section Slots

variable {blocking : Bool} {position : Usize w} {slot : Nat} {σ : Memory w (Slot T)}

/-- A producer that finds its slot empty sets the flag, and writes in a later
step. -/
theorem step_fill (value : T) (hEmpty : (σ.slots slot).state = .empty) :
    q.step (AtomicQueue2.slotCode T maximizeThroughput false)
        (.pushSlot blocking position slot (.compareExchange value)) σ =
      some (.pushSlot blocking position slot (.write value),
        { σ with slots := Function.update σ.slots slot { σ.slots slot with state := .full } },
        [.access position slot .fill]) := by
  simp [Queue.step, AtomicQueue2.slotCode, AtomicQueue2.pushStep, hEmpty, Queue.afterPush]

/-- A consumer that finds its slot full clears the flag, and reads in a later
step. -/
theorem step_drain (hFull : (σ.slots slot).state = .full) :
    q.step (AtomicQueue2.slotCode T maximizeThroughput false)
        (.popSlot blocking position slot .compareExchange) σ =
      some (.popSlot blocking position slot .read,
        { σ with slots := Function.update σ.slots slot { σ.slots slot with state := .empty } },
        [.access position slot .drain]) := by
  simp [Queue.step, AtomicQueue2.slotCode, AtomicQueue2.popStep, hFull, Queue.afterPop]

/-- Polling ends with the flag full. The exchange that follows may fail once
more. -/
theorem step_leave (hFull : (σ.slots slot).state = .full) :
    q.step (AtomicQueue2.slotCode T maximizeThroughput false)
        (.popSlot blocking position slot .spin) σ =
      some (.popSlot blocking position slot .compareExchange, σ, []) := by
  simp [Queue.step, AtomicQueue2.slotCode, AtomicQueue2.popStep, hFull, Queue.afterPop]

end Slots

section Counters

variable {trace : Trace (Event w T (Option T))} {s : Config w T}

/-- What is claimed of a slot, from either side. -/
theorem visits_eq (hIndexed : q.Indexed) (hOrdered : Ordered trace s) (slot : Nat) :
    ((headClaims trace).map Prod.snd).countP (q.atSlot slot) =
        Ring.visits q.slotAt slot (headClaims trace).length ∧
      ((tailClaims trace).map Prod.snd).countP (q.atSlot slot) =
        Ring.visits q.slotAt slot (tailClaims trace).length := by
  rw [← hIndexed.countP_positions, ← hIndexed.countP_positions, ← hOrdered.heads, ← hOrdered.tails]
  exact ⟨rfl, rfl⟩

/-- No consumer is due to drain a full slot, if all calls at slots wait. -/
theorem Blocked.drains_eq (hBlocked : Blocked s) (hPlaced : ∀ thread, Placed q (s.threads thread))
    (hAccounted : Accounted q trace s) {slot : Nat} (hFull : (s.shared.slots slot).state = .full) :
    ((tailClaims trace).map Prod.snd).countP (q.atSlot slot) =
      ((drains trace).map Prod.snd).countP (q.atSlot slot) := by
  refine hAccounted.drains.countP_eq fun thread position hOwes => ?_
  have hWaits := hBlocked thread
  have hAt := hPlaced thread
  generalize s.threads thread = pc at hOwes hWaits hAt
  cases pc with
  | popSlot blocking own other pc =>
      have hOther : (s.shared.slots other).state = .empty := by
        cases pc with
        | compareExchange | spin => exact (hWaits trivial).resolve_left id
        | _ => contradiction
      have hSame : own = position := by cases pc <;> first | exact Option.some.inj hOwes | contradiction
      have hNe : other ≠ slot := by
        rintro rfl
        rw [hFull] at hOther
        contradiction
      simpa [Queue.atSlot, ← hSame, hAt.1] using hNe
  | _ => contradiction

/-- No producer is due to fill an empty slot, if all calls at slots wait. -/
theorem Blocked.fills_eq (hBlocked : Blocked s) (hPlaced : ∀ thread, Placed q (s.threads thread))
    (hAccounted : Accounted q trace s) {slot : Nat} (hEmpty : (s.shared.slots slot).state = .empty) :
    ((headClaims trace).map Prod.snd).countP (q.atSlot slot) =
      ((fills trace).map Prod.snd).countP (q.atSlot slot) := by
  refine hAccounted.fills.countP_eq fun thread position hOwes => ?_
  have hWaits := hBlocked thread
  have hAt := hPlaced thread
  generalize s.threads thread = pc at hOwes hWaits hAt
  cases pc with
  | pushSlot blocking own other pc =>
      have hOther : (s.shared.slots other).state = .full := by
        cases pc with
        | compareExchange => exact (hWaits trivial).resolve_right id
        | _ => contradiction
      have hSame : own = position := by cases pc <;> first | exact Option.some.inj hOwes | contradiction
      have hNe : other ≠ slot := by
        rintro rfl
        rw [hEmpty] at hOther
        contradiction
      simpa [Queue.atSlot, ← hSame, hAt.1] using hNe
  | _ => contradiction

variable (hIndexed : q.Indexed) (hAccounted : Accounted q trace s) (hOrdered : Ordered trace s)
  (hPlaced : ∀ thread, Placed q (s.threads thread)) (hBlocked : Blocked s)

include hIndexed hAccounted hOrdered hPlaced hBlocked

/-- Producers wait only if more than a lap is claimed from `head` alone. -/
theorem Blocked.lt_of_waitsToPush (hHeads : (headClaims trace).length < 2 ^ w) {thread : Nat}
    (hWaits : WaitsToPush s.shared (s.threads thread)) :
    (tailClaims trace).length + q.capacity.toNat < (headClaims trace).length := by
  have hAt := hPlaced thread
  generalize hPc : s.threads thread = pc at hWaits hAt
  cases pc with
  | pushSlot blocking position slot pc =>
      cases pc with
      | compareExchange value =>
          have hFull : (s.shared.slots slot).state = .full := hWaits
          have hOwes : owesFill (s.threads thread) = some position := by rw [hPc]; rfl
          have hFills : ((AtomicQueueRs.fills trace).map Prod.snd).countP (q.atSlot slot) <
              ((headClaims trace).map Prod.snd).countP (q.atSlot slot) :=
            hAccounted.fills.countP_lt hOwes (by simp [Queue.atSlot, hAt.1])
          have hDrains := hBlocked.drains_eq hPlaced hAccounted hFull
          have hFlag := hAccounted.flags slot
          obtain ⟨hHeadVisits, hTailVisits⟩ := visits_eq hIndexed hOrdered slot
          rw [hFull, Flag.toNat] at hFlag
          have hTwo : Ring.visits q.slotAt slot (tailClaims trace).length + 2 ≤
              Ring.visits q.slotAt slot (headClaims trace).length := by
            rw [← hHeadVisits, ← hTailVisits, hDrains]
            omega
          obtain ⟨m, n, hLower, hLt, hUpper, hm, hn⟩ := Ring.exists_two_of_visits hTwo
          have hRest := (hIndexed.slotAt_eq_iff_of_lt (by omega) (by omega)).mp (hm.trans hn.symm)
          by_contra hFew
          have hEq := Ring.eq_of_mod_eq hLt.le (by omega) hRest
          omega
      | _ => exact hWaits.elim
  | _ => exact hWaits.elim

/-- Consumers wait only if `tail` has overtaken `head`. -/
theorem Blocked.lt_of_waitsToPop {thread : Nat} (hWaits : WaitsToPop s.shared (s.threads thread)) :
    (headClaims trace).length < (tailClaims trace).length := by
  have hAt := hPlaced thread
  generalize hPc : s.threads thread = pc at hWaits hAt
  cases pc with
  | popSlot blocking position slot pc =>
      have hEmpty : (s.shared.slots slot).state = .empty := by
        cases pc with
        | compareExchange | spin => exact hWaits
        | _ => exact hWaits.elim
      have hOwes : owesDrain (s.threads thread) = some position := by
        rw [hPc]
        cases pc with
        | compareExchange | spin => rfl
        | _ => exact hWaits.elim
      have hDrains : ((AtomicQueueRs.drains trace).map Prod.snd).countP (q.atSlot slot) <
          ((tailClaims trace).map Prod.snd).countP (q.atSlot slot) :=
        hAccounted.drains.countP_lt hOwes (by simp [Queue.atSlot, hAt.1])
      have hFills := hBlocked.fills_eq hPlaced hAccounted hEmpty
      have hFlag := hAccounted.flags slot
      obtain ⟨hHeadVisits, hTailVisits⟩ := visits_eq hIndexed hOrdered slot
      rw [hEmpty, Flag.toNat, Nat.add_zero] at hFlag
      by_contra hLe
      have hMono : Ring.visits q.slotAt slot (tailClaims trace).length ≤
          Ring.visits q.slotAt slot (headClaims trace).length :=
        Ring.visits_mono (Nat.le_of_not_lt hLe)
      rw [← hHeadVisits, ← hTailVisits, hFills] at hMono
      omega
  | _ => exact hWaits.elim

/-- As long as the claims are within a lap of each other, a call at a slot can
go on. -/
theorem Blocked.not_atSlot (hLe : (tailClaims trace).length ≤ (headClaims trace).length)
    (hRoom : (headClaims trace).length ≤ (tailClaims trace).length + q.capacity.toNat)
    (hHeads : (headClaims trace).length < 2 ^ w) (thread : Nat) : ¬ (s.threads thread).AtSlot := by
  intro hSlot
  rcases hBlocked thread hSlot with hPush | hPop
  · have hMore := hBlocked.lt_of_waitsToPush hIndexed hAccounted hOrdered hPlaced hHeads hPush
    omega
  · have hMore := hBlocked.lt_of_waitsToPop hIndexed hAccounted hOrdered hPlaced hPop
    omega

end Counters

section NoneAtSlot

variable {trace : Trace (Event w T (Option T))} {s : Config w T}

theorem owes_of_not_atSlot {pc : Local w T} (h : ¬ pc.AtSlot) :
    owesFill pc = none ∧ owesDrain pc = none := by
  cases pc <;> first | exact ⟨rfl, rfl⟩ | exact (h trivial).elim

variable (hIndexed : q.Indexed) (hAccounted : Accounted q trace s) (hOrdered : Ordered trace s)
  (hNone : ∀ thread, ¬ (s.threads thread).AtSlot)

include hIndexed hAccounted hOrdered hNone

/-- With no call at a slot every claim has been served. -/
theorem visits_of_not_atSlot (slot : Nat) :
    Ring.visits q.slotAt slot (headClaims trace).length =
      Ring.visits q.slotAt slot (tailClaims trace).length + (s.shared.slots slot).state.toNat := by
  have hFills : ((headClaims trace).map Prod.snd).countP (q.atSlot slot) =
      ((fills trace).map Prod.snd).countP (q.atSlot slot) :=
    hAccounted.fills.countP_eq fun thread _ hOwes => by
      rw [(owes_of_not_atSlot (hNone thread)).1] at hOwes
      contradiction
  have hDrains : ((tailClaims trace).map Prod.snd).countP (q.atSlot slot) =
      ((drains trace).map Prod.snd).countP (q.atSlot slot) :=
    hAccounted.drains.countP_eq fun thread _ hOwes => by
      rw [(owes_of_not_atSlot (hNone thread)).2] at hOwes
      contradiction
  obtain ⟨hHeadVisits, hTailVisits⟩ := visits_eq hIndexed hOrdered slot
  rw [← hHeadVisits, ← hTailVisits, hFills, hDrains]
  exact hAccounted.flags slot

end NoneAtSlot

section Waiting

/-- The call has ended or waits at a slot. -/
def Waiting (σ : Memory w (Slot T)) (pc : Local w T) : Prop :=
  pc.Ended ∨ WaitsToPush σ pc ∨ WaitsToPop σ pc

/-- A waiting call goes round in circles. -/
theorem Waiting.step {pc pc' : Local w T} {σ σ' : Memory w (Slot T)}
    {es : List (Event w T (Option T))} (hWaiting : Waiting σ pc) (hPlaced : Placed q pc)
    (hStep : q.step (AtomicQueue2.slotCode T maximizeThroughput false) pc σ = some (pc', σ', es)) :
    es = [] ∧ σ' = σ ∧ Waiting σ pc' := by
  have hCases := step_cases hPlaced (Queue.step_cases hStep)
  rcases hWaiting with hEnded | hPush | hPop
  · cases pc <;> contradiction
  · cases hCases with
    | pushWait value hFull => exact ⟨rfl, rfl, Or.inr (Or.inl hFull)⟩
    | fill value hEmpty =>
        rw [WaitsToPush, hEmpty] at hPush
        contradiction
    | quiet h => cases h <;> exact hPush.elim
    | claimHead h | pushPanic h => cases h <;> exact hPush.elim
    | claimTail h | popPanic h => cases h <;> exact hPush.elim
    | write | popWait | drain | read => exact hPush.elim
  · cases hCases with
    | popWait hPc hPc' =>
        refine ⟨rfl, rfl, Or.inr (Or.inr ?_)⟩
        rcases hPc with rfl | rfl <;> rcases hPc' with rfl | rfl <;> exact hPop
    | drain hFull =>
        rw [WaitsToPop, hFull] at hPop
        contradiction
    | quiet h => cases h <;> exact hPop.elim
    | claimHead h | pushPanic h => cases h <;> exact hPop.elim
    | claimTail h | popPanic h => cases h <;> exact hPop.elim
    | pushWait | fill | write | read => exact hPop.elim

variable {s : Config w T} (hPlaced : ∀ thread, Placed q (s.threads thread))

include hPlaced

/-- If every call waits, nothing happens any more. -/
theorem stalled_of_waiting (hWaiting : ∀ thread, Waiting s.shared (s.threads thread)) :
    Stalled (q.threadCode (AtomicQueue2.slotCode T maximizeThroughput false)) s := by
  intro trace s' run
  suffices h : trace = [] ∧ s'.shared = s.shared ∧
      ∀ thread, Placed q (s'.threads thread) ∧ Waiting s.shared (s'.threads thread) from h.1
  refine run.invariant (fun trace s' => trace = [] ∧ s'.shared = s.shared ∧
    ∀ thread, Placed q (s'.threads thread) ∧ Waiting s.shared (s'.threads thread)) ?_ ?_ ?_
  · exact ⟨rfl, rfl, fun thread => ⟨hPlaced thread, hWaiting thread⟩⟩
  · intro trace s' thread operation pc es _ _ hNever
    exact hNever.elim
  · rintro _ s' thread pc shared es _ ⟨rfl, hShared, hThreads⟩ _ hStep
    obtain ⟨hAt, hWaits⟩ := hThreads thread
    change q.step _ _ _ = _ at hStep
    rw [hShared] at hStep
    obtain ⟨rfl, rfl, hWaits'⟩ := hWaits.step hAt hStep
    refine ⟨rfl, rfl, ?_⟩
    rw [Function.forall_update_iff s'.threads fun _ pc => Placed q pc ∧ Waiting s.shared pc]
    exact ⟨⟨(step_cases hAt (Queue.step_cases hStep)).placed hAt, hWaits'⟩,
      fun other _ => hThreads other⟩

/-- If nothing happens any more, every call waits. -/
theorem waiting_of_stalled
    (hStalled : Stalled (q.threadCode (AtomicQueue2.slotCode T maximizeThroughput false)) s)
    (thread : Nat) : Waiting s.shared (s.threads thread) := by
  by_contra hWaits
  obtain ⟨hBusy, hPush, hPop⟩ : ¬ (s.threads thread).Ended ∧
      ¬ WaitsToPush s.shared (s.threads thread) ∧ ¬ WaitsToPop s.shared (s.threads thread) := by
    simpa [Waiting] using hWaits
  have hAt := hPlaced thread
  by_cases hLanded : (s.threads thread).Landed
  · generalize hPc : s.threads thread = pc at *
    have hSilent {pc' : Local w T} {σ' : Memory w (Slot T)} {es : List (Event w T (Option T))}
        (hStep : q.step (AtomicQueue2.slotCode T maximizeThroughput false) pc s.shared =
          some (pc', σ', es)) : es = [] := hStalled.eq_nil (hPc ▸ hStep)
    cases pc with
    | pushSlot blocking position slot pc =>
        obtain ⟨_, ⟨value, rfl⟩ | ⟨value, rfl⟩⟩ := hAt
        · exact List.cons_ne_nil _ _ (hSilent (step_fill value (Flag.eq_empty hPush)))
        · exact List.cons_ne_nil _ _ (hSilent rfl)
    | popSlot blocking position slot pc =>
        obtain ⟨_, rfl | rfl | rfl⟩ := hAt
        · exact List.cons_ne_nil _ _ (hSilent (step_drain (Flag.eq_full hPop)))
        · have hFull := Flag.eq_full hPop
          have hStep : q.step (AtomicQueue2.slotCode T maximizeThroughput false) (s.threads thread)
              s.shared = some (.popSlot blocking position slot .compareExchange, s.shared, []) := by
            rw [hPc]
            exact step_leave hFull
          have hAfter := hStalled.after (Run.single hStep)
          obtain ⟨σ', hDrain⟩ : ∃ σ', q.step (AtomicQueue2.slotCode T maximizeThroughput false)
              (Function.update s.threads thread (.popSlot blocking position slot .compareExchange) thread)
              s.shared = some (.popSlot blocking position slot .read, σ',
                [.access position slot .drain]) := by
            rw [Function.update_self]
            exact ⟨_, step_drain hFull⟩
          exact List.cons_ne_nil _ _ (hAfter.eq_nil hDrain)
        · exact List.cons_ne_nil _ _ (hSilent rfl)
    | idle | panicked => exact hBusy trivial
    | _ => exact hLanded.elim
  · obtain ⟨⟨pc', σ', es⟩, hStep⟩ : ∃ next, q.step (AtomicQueue2.slotCode T maximizeThroughput false)
        (s.threads thread) s.shared = some next := Queue.exists_step hBusy
    exact (Queue.step_cases hStep).events_ne_nil hLanded (hStalled.eq_nil hStep)

end Waiting

/-- Every call has ended or waits, producers exactly if more than a lap is
claimed from `head` alone and consumers exactly if `tail` is ahead. -/
structure OneSided (q : Queue w) (s : Config w T) : Prop where
  waiting : ∀ thread, Waiting s.shared (s.threads thread)
  producers : (∃ thread, WaitsToPush s.shared (s.threads thread)) ↔
    s.shared.tail.toNat + q.capacity.toNat < s.shared.head.toNat
  consumers : (∃ thread, WaitsToPop s.shared (s.threads thread)) ↔
    s.shared.head.toNat < s.shared.tail.toNat

section Stalled

variable {trace : Trace (Event w T (Option T))} {s : Config w T}

/-- A consumer waits only with `tail` ahead, and a producer only with more than
a lap claimed from `head` alone, so no two sides wait. Where nobody waits on one
side, the slots balance and keep the counters within these bounds. -/
theorem oneSided_of_waiting (hIndexed : q.Indexed) (hAccounted : Accounted q trace s)
    (hOrdered : Ordered trace s) (hPlaced : ∀ thread, Placed q (s.threads thread))
    (hHeads : (headClaims trace).length < 2 ^ w) (hTails : (tailClaims trace).length < 2 ^ w)
    (hWaiting : ∀ thread, Waiting s.shared (s.threads thread)) : OneSided q s := by
  have hBlocked : Blocked s := by
    intro thread hSlot
    refine (hWaiting thread).resolve_left fun hEnded => ?_
    generalize s.threads thread = pc at hSlot hEnded
    cases pc <;> contradiction
  have hPush : ∀ thread, WaitsToPush s.shared (s.threads thread) →
      (tailClaims trace).length + q.capacity.toNat < (headClaims trace).length :=
    fun _ => hBlocked.lt_of_waitsToPush hIndexed hAccounted hOrdered hPlaced hHeads
  have hPop : ∀ thread, WaitsToPop s.shared (s.threads thread) →
      (headClaims trace).length < (tailClaims trace).length :=
    fun _ => hBlocked.lt_of_waitsToPop hIndexed hAccounted hOrdered hPlaced
  have hBalance (hNone : ∀ thread, ¬ WaitsToPush s.shared (s.threads thread) ∧
      ¬ WaitsToPop s.shared (s.threads thread)) (slot : Nat) :=
    visits_of_not_atSlot hIndexed hAccounted hOrdered (fun thread hSlot =>
      (hBlocked thread hSlot).elim (hNone thread).1 (hNone thread).2) slot
  have hHead : s.shared.head.toNat = (headClaims trace).length := by
    rw [hOrdered.head, BitVec.toNat_ofNat, Nat.mod_eq_of_lt hHeads]
  have hTail : s.shared.tail.toNat = (tailClaims trace).length := by
    rw [hOrdered.tail, BitVec.toNat_ofNat, Nat.mod_eq_of_lt hTails]
  refine ⟨hWaiting, ?_, ?_⟩
  · rw [hHead, hTail]
    refine ⟨fun ⟨thread, hWaits⟩ => hPush thread hWaits, fun hMore => ?_⟩
    by_contra hNone
    rw [not_exists] at hNone
    have hNoPop : ∀ thread, ¬ WaitsToPop s.shared (s.threads thread) := fun thread hWaits => by
      have hLess := hPop thread hWaits
      omega
    have hFew := Ring.length_le_of_balanced hIndexed.slotAt_lt
      (fun slot _ => hBalance (fun thread => ⟨hNone thread, hNoPop thread⟩) slot)
      (fun slot _ => Flag.toNat_le_one _)
    omega
  · rw [hHead, hTail]
    refine ⟨fun ⟨thread, hWaits⟩ => hPop thread hWaits, fun hMore => ?_⟩
    by_contra hNone
    rw [not_exists] at hNone
    have hNoPush : ∀ thread, ¬ WaitsToPush s.shared (s.threads thread) := fun thread hWaits => by
      have hLess := hPush thread hWaits
      omega
    have hLe := Ring.le_of_balanced hIndexed.slotAt_lt
      (fun slot _ => hBalance (fun thread => ⟨hNoPush thread, hNone thread⟩) slot)
    omega

end Stalled

end Mpmc

/-- Whatever calls were made, a queue that has come to rest with calls in
progress holds up one side only, and the counters tell which: producers wait
exactly if `head` is more than a lap ahead, consumers exactly if `tail` is
ahead. -/
theorem oneSided_of_stalled {target : Target w} {q : Queue w} (hq : IsAtomicQueue2 target true q)
    (hPos : 0 < q.capacity.toNat) (maximizeThroughput : Bool)
    {trace : Trace (Event w T (Option T))} {s : AtomicQueue2.Config w T}
    (run : Run (q.threadCode (AtomicQueue2.slotCode T maximizeThroughput false)) anyAction
      (initial w (Slot.new T)) trace s)
    (hHeads : (headClaims trace).length < 2 ^ w) (hTails : (tailClaims trace).length < 2 ^ w)
    (hStalled : Stalled (q.threadCode (AtomicQueue2.slotCode T maximizeThroughput false)) s) :
    Mpmc.OneSided q s := by
  have hIndexed := hq.indexed hPos
  have hPlaced := Mpmc.placed_of_run run
  have hOrdered := ordered_of_totalOrder hq.totalOrder_eq run
  exact Mpmc.oneSided_of_waiting hIndexed (Mpmc.accounted_of_run hIndexed run) hOrdered hPlaced hHeads
    hTails (Mpmc.waiting_of_stalled hPlaced hStalled)

/-- A consumer left waiting on an empty queue. -/
def lonelyPop : Option (Trace (Event 64 Nat (Option Nat)) × AtomicQueue2.Config 64 Nat) :=
  exec ((AtomicQueue2.twoSlots true).threadCode (AtomicQueue2.slotCode Nat true false))
    (fun _ _ _ => true) [.call 0 .pop, .step 0, .step 0] [] (initial 64 (Slot.new Nat))

theorem lonelyPop_isSome : lonelyPop.isSome := by decide +kernel

theorem waiting_lonelyPop (thread : Nat) : Mpmc.Waiting (lonelyPop.get lonelyPop_isSome).2.shared
    ((lonelyPop.get lonelyPop_isSome).2.threads thread) := by
  by_cases hThread : thread = 0
  · subst hThread
    have hPc : (lonelyPop.get lonelyPop_isSome).2.threads 0 = .popSlot true 0#64 0 .spin := by
      decide +kernel
    have hEmpty : ((lonelyPop.get lonelyPop_isSome).2.shared.slots 0).state = .empty := by
      decide +kernel
    rw [hPc]
    exact Or.inr (Or.inr hEmpty)
  · have hIdle : (lonelyPop.get lonelyPop_isSome).2.threads thread = .idle := by
      refine exec_threads (Option.some_get lonelyPop_isSome).symm ?_
      simpa [Action.thread] using Ne.symm hThread
    rw [hIdle]
    exact Or.inl trivial

theorem oneSided_twoSlots : ∃ s : AtomicQueue2.Config 64 Nat, s.shared.head = 0#64 ∧
    s.shared.tail = 1#64 ∧ Mpmc.OneSided (AtomicQueue2.twoSlots true) s := by
  have hRun : Run ((AtomicQueue2.twoSlots true).threadCode (AtomicQueue2.slotCode Nat true false))
      anyAction (initial 64 (Slot.new Nat)) _ _ :=
    Run.ofExec 1 _ (fun _ _ _ _ _ => trivial) _ (by decide) lonelyPop_isSome
  refine ⟨_, ?_, ?_, oneSided_of_stalled (.fixed _ _ (AtomicQueue2.new_twoSlots true)) (by decide)
    true hRun ?_ ?_ (Mpmc.stalled_of_waiting (Mpmc.placed_of_run hRun) waiting_lonelyPop)⟩
  · decide +kernel
  · decide +kernel
  · decide +kernel
  · decide +kernel

end AtomicQueueRs
