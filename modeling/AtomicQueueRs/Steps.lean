import AtomicQueueRs.Common

/-! What one step of the shared control flow can do, said once: every
invariant is derived from `Step`, and none unfolds `Queue.step` again. -/
namespace AtomicQueueRs

set_option autoImplicit false

variable {w : Nat} {T V C U O : Type}

namespace Queue

variable (q : Queue w) (code : SlotCode T V C U O)

/-- Steps that only load: the counters and all slots keep their values. -/
inductive Quiet (σ : Memory w C) : Pc w T U O → Pc w T U O → List (Event w T V) → Prop where
  | tryPushLoadHead (element : T) :
      Quiet σ (.tryPushLoadHead element) (.tryPushLoadTail element σ.head) [.loadHead σ.head]
  | tryPushUnderflow (element : T) (head : Usize w) (hSize : Usize.sub q.build head σ.tail = none) :
      Quiet σ (.tryPushLoadTail element head) .panicked [.loadTail σ.tail, .panicked]
  | tryPushFull (element : T) (head : Usize w) (hFull : q.capacity ≤ head - σ.tail) :
      Quiet σ (.tryPushLoadTail element head) .idle [.loadTail σ.tail, .returned (.tryPush false)]
  | tryPushProceed (element : T) (head : Usize w) (hSpace : ¬ q.capacity ≤ head - σ.tail) :
      Quiet σ (.tryPushLoadTail element head) (.tryPushClaim element head)
        [.loadTail σ.tail, .proceed element]
  | tryPushOverflow (element : T) (head : Usize w) (hNext : Usize.add q.build head 1#w = none) :
      Quiet σ (.tryPushClaim element head) .panicked [.panicked]
  | tryPushLost (element : T) (head : Usize w) (hMoved : σ.head ≠ head) :
      Quiet σ (.tryPushClaim element head) .idle [.returned (.tryPush false)]
  | tryPopLoadTail : Quiet σ .tryPopLoadTail (.tryPopLoadHead σ.tail) [.loadTail σ.tail]
  | tryPopEmpty (tail : Usize w) (hEmpty : tail = σ.head) :
      Quiet σ (.tryPopLoadHead tail) .idle [.loadHead σ.head, .returned (.tryPop none)]
  | tryPopProceed (tail : Usize w) (hSome : tail ≠ σ.head) :
      Quiet σ (.tryPopLoadHead tail) (.tryPopClaim tail) [.loadHead σ.head]
  | tryPopOverflow (tail : Usize w) (hNext : Usize.add q.build tail 1#w = none) :
      Quiet σ (.tryPopClaim tail) .panicked [.panicked]
  | tryPopLost (tail : Usize w) (hMoved : σ.tail ≠ tail) :
      Quiet σ (.tryPopClaim tail) .idle [.returned (.tryPop none)]
  | observeLoadHead (observer : Observer) :
      Quiet σ (.observeLoadHead observer) (.observeLoadTail observer σ.head) [.loadHead σ.head]
  | observeUnderflow (observer : Observer) (head : Usize w) :
      Quiet σ (.observeLoadTail observer head) .panicked [.loadTail σ.tail, .panicked]
  | observeReturn (observer : Observer) (head : Usize w) (result : Return w V)
      (hResult : observer.result q.build q.capacity head σ.tail = some result) :
      Quiet σ (.observeLoadTail observer head) .idle [.loadTail σ.tail, .returned result]

/-- A producer takes a position from `head`. Only the `fetch_add` of a
non-blocking push may take one that `head` no longer holds. -/
inductive ClaimsHead (σ : Memory w C) : Pc w T U O → Bool → Usize w → T → Prop where
  | push (element : T) : ClaimsHead σ (.pushClaim element) true σ.head element
  | compareExchange (element : T) (hOrder : q.totalOrder = true) :
      ClaimsHead σ (.tryPushClaim element σ.head) false σ.head element
  | fetchAdd (element : T) (head : Usize w) (hOrder : q.totalOrder = false) :
      ClaimsHead σ (.tryPushClaim element head) false head element

inductive ClaimsTail (σ : Memory w C) : Pc w T U O → Bool → Usize w → Prop where
  | pop : ClaimsTail σ .popClaim true σ.tail
  | compareExchange (hOrder : q.totalOrder = true) :
      ClaimsTail σ (.tryPopClaim σ.tail) false σ.tail
  | fetchAdd (tail : Usize w) (hOrder : q.totalOrder = false) :
      ClaimsTail σ (.tryPopClaim tail) false tail

/-- The five kinds of step. -/
inductive Step : Pc w T U O → Memory w C → Pc w T U O → Memory w C → List (Event w T V) → Prop where
  | quiet {pc pc' : Pc w T U O} {σ : Memory w C} {es : List (Event w T V)}
      (h : Quiet q σ pc pc' es) : Step pc σ pc' σ es
  | claimHead {pc : Pc w T U O} {σ : Memory w C} {blocking : Bool} {position : Usize w} {element : T}
      (h : ClaimsHead q σ pc blocking position element) :
      Step pc σ (enterPush (V := V) q code blocking position element).1
        { σ with head := σ.head + 1#w } (enterPush q code blocking position element).2
  | claimTail {pc : Pc w T U O} {σ : Memory w C} {blocking : Bool} {position : Usize w}
      (h : ClaimsTail q σ pc blocking position) :
      Step pc σ (enterPop q code blocking position).1
        { σ with tail := σ.tail + 1#w } (enterPop q code blocking position).2
  | pushSlot (blocking : Bool) (position : Usize w) (slot : Nat) (pc : U) (σ : Memory w C) :
      Step (.pushSlot blocking position slot pc) σ
        (afterPush (V := V) blocking position slot (code.pushStep pc (σ.slots slot)).2.2).1
        { σ with slots := Function.update σ.slots slot (code.pushStep pc (σ.slots slot)).1 }
        ((code.pushStep pc (σ.slots slot)).2.1.map (.access position slot) ++
          (afterPush (O := O) blocking position slot (code.pushStep pc (σ.slots slot)).2.2).2)
  | popSlot (blocking : Bool) (position : Usize w) (slot : Nat) (pc : O) (σ : Memory w C) :
      Step (.popSlot blocking position slot pc) σ
        (afterPop blocking position slot (code.popStep pc (σ.slots slot)).2.2).1
        { σ with slots := Function.update σ.slots slot (code.popStep pc (σ.slots slot)).1 }
        ((code.popStep pc (σ.slots slot)).2.1.map (.access position slot) ++
          (afterPop (T := T) (U := U) blocking position slot
            (code.popStep pc (σ.slots slot)).2.2).2)

variable {q} {code}

/-- Inversion of `step`: no step does anything else. -/
theorem step_cases {pc pc' : Pc w T U O} {σ σ' : Memory w C} {es : List (Event w T V)}
    (h : step q code pc σ = some (pc', σ', es)) : Step q code pc σ pc' σ' es := by
  cases pc with
  | idle => simp [step] at h
  | panicked => simp [step] at h
  | tryPushLoadHead element =>
      simp only [step, Option.some.injEq, Prod.mk.injEq] at h
      obtain ⟨rfl, rfl, rfl⟩ := h
      exact .quiet (.tryPushLoadHead element)
  | tryPushLoadTail element head =>
      simp only [step] at h
      split at h
      · rename_i hSize
        obtain ⟨rfl, rfl, rfl⟩ := by simpa using h
        exact .quiet (.tryPushUnderflow element head hSize)
      · rename_i size hSize
        rw [Usize.eq_of_sub hSize] at h
        split_ifs at h with hFull
        · obtain ⟨rfl, rfl, rfl⟩ := by simpa using h
          exact .quiet (.tryPushFull element head hFull)
        · obtain ⟨rfl, rfl, rfl⟩ := by simpa using h
          exact .quiet (.tryPushProceed element head hFull)
  | tryPushClaim element head =>
      cases hOrder : q.totalOrder with
      | true =>
          simp only [step, hOrder, if_true] at h
          cases hNext : Usize.add q.build head 1#w with
          | none =>
              obtain ⟨rfl, rfl, rfl⟩ := by simpa [hNext] using h
              exact .quiet (.tryPushOverflow element head hNext)
          | some next =>
              by_cases hHead : σ.head = head
              · obtain ⟨rfl, rfl, rfl⟩ := by simpa [hNext, hHead] using h
                rw [Usize.eq_of_add hNext, ← hHead]
                exact .claimHead (.compareExchange element hOrder)
              · obtain ⟨rfl, rfl, rfl⟩ := by simpa [hNext, hHead] using h
                exact .quiet (.tryPushLost element head hHead)
      | false =>
          obtain ⟨rfl, rfl, rfl⟩ := by simpa [step, hOrder] using h
          exact .claimHead (.fetchAdd element head hOrder)
  | pushClaim element =>
      simp only [step, Option.some.injEq, Prod.mk.injEq] at h
      obtain ⟨rfl, rfl, rfl⟩ := h
      exact .claimHead (.push element)
  | pushSlot blocking position slot pc =>
      simp only [step, Option.some.injEq, Prod.mk.injEq] at h
      obtain ⟨rfl, rfl, rfl⟩ := h
      exact .pushSlot blocking position slot pc σ
  | tryPopLoadTail =>
      simp only [step, Option.some.injEq, Prod.mk.injEq] at h
      obtain ⟨rfl, rfl, rfl⟩ := h
      exact .quiet .tryPopLoadTail
  | tryPopLoadHead tail =>
      simp only [step] at h
      split_ifs at h with hEmpty
      · obtain ⟨rfl, rfl, rfl⟩ := by simpa using h
        exact .quiet (.tryPopEmpty tail hEmpty)
      · obtain ⟨rfl, rfl, rfl⟩ := by simpa using h
        exact .quiet (.tryPopProceed tail hEmpty)
  | tryPopClaim tail =>
      cases hOrder : q.totalOrder with
      | true =>
          simp only [step, hOrder, if_true] at h
          cases hNext : Usize.add q.build tail 1#w with
          | none =>
              obtain ⟨rfl, rfl, rfl⟩ := by simpa [hNext] using h
              exact .quiet (.tryPopOverflow tail hNext)
          | some next =>
              by_cases hTail : σ.tail = tail
              · obtain ⟨rfl, rfl, rfl⟩ := by simpa [hNext, hTail] using h
                rw [Usize.eq_of_add hNext, ← hTail]
                exact .claimTail (.compareExchange hOrder)
              · obtain ⟨rfl, rfl, rfl⟩ := by simpa [hNext, hTail] using h
                exact .quiet (.tryPopLost tail hTail)
      | false =>
          obtain ⟨rfl, rfl, rfl⟩ := by simpa [step, hOrder] using h
          exact .claimTail (.fetchAdd tail hOrder)
  | popClaim =>
      simp only [step, Option.some.injEq, Prod.mk.injEq] at h
      obtain ⟨rfl, rfl, rfl⟩ := h
      exact .claimTail .pop
  | popSlot blocking position slot pc =>
      simp only [step, Option.some.injEq, Prod.mk.injEq] at h
      obtain ⟨rfl, rfl, rfl⟩ := h
      exact .popSlot blocking position slot pc σ
  | observeLoadHead observer =>
      simp only [step, Option.some.injEq, Prod.mk.injEq] at h
      obtain ⟨rfl, rfl, rfl⟩ := h
      exact .quiet (.observeLoadHead observer)
  | observeLoadTail observer head =>
      simp only [step] at h
      split at h
      · obtain ⟨rfl, rfl, rfl⟩ := by simpa using h
        exact .quiet (.observeUnderflow observer head)
      · rename_i result hResult
        obtain ⟨rfl, rfl, rfl⟩ := by simpa using h
        exact .quiet (.observeReturn observer head result hResult)

/-- A call starts from an idle thread and only moves its program counter. -/
theorem call_cases {operation : Call T} {pc pc' : Pc w T U O} {es : List (Event w T V)}
    (h : call operation pc = some (pc', es)) :
    pc = .idle ∧ pc' = start operation ∧ es = [.call operation] := by
  cases pc with
  | idle =>
      simp only [call, Option.some.injEq, Prod.mk.injEq] at h
      exact ⟨rfl, h.1.symm, h.2.symm⟩
  | _ => simp [call] at h

end Queue

/-- The call is at its slot, or has ended: it accesses no counter any more. -/
def Pc.Landed : Pc w T U O → Prop
  | .idle | .panicked | .pushSlot _ _ _ _ | .popSlot _ _ _ _ => True
  | _ => False

namespace Queue

variable {q : Queue w} {code : SlotCode T V C U O}

/-- A claim from `head` leads to the slot or to a panic. -/
theorem enterPush_landed (blocking : Bool) (position : Usize w) (element : T) :
    (enterPush (V := V) q code blocking position element).1.Landed := by
  unfold enterPush
  split <;> exact trivial

theorem enterPop_landed (blocking : Bool) (position : Usize w) :
    (enterPop q code blocking position).1.Landed := by
  unfold enterPop
  split <;> exact trivial

/-- A step that is not a mere load or a failed claim leaves the counters. -/
theorem Step.quiet_or_landed {pc pc' : Pc w T U O} {σ σ' : Memory w C} {es : List (Event w T V)}
    (h : Step q code pc σ pc' σ' es) : Quiet q σ pc pc' es ∨ pc'.Landed := by
  cases h with
  | quiet h => exact Or.inl h
  | claimHead => exact Or.inr (enterPush_landed _ _ _)
  | claimTail => exact Or.inr (enterPop_landed _ _)
  | pushSlot =>
      right
      unfold afterPush
      split <;> exact trivial
  | popSlot =>
      right
      unfold afterPop
      split <;> exact trivial

end Queue

end AtomicQueueRs
