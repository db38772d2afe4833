import AtomicQueueRs.Ring.Wrap
import AtomicQueueRs.Transparency
import Mathlib.Data.Nat.Prime.Basic

/-! `AtomicQueue2` with a capacity that is not rounded up. Only a capacity that
divides `2 ^ w` keeps its laps aligned when the counters wrap; with any other,
two elements on either side of the wrap can meet in one slot. -/
namespace AtomicQueueRs

set_option autoImplicit false

open Refinement (runAll runAll_append runAll_cons_eq_some runAll_mono runAll_preserves)

variable {w : Nat} {T : Type}

/-- `try_push` or `try_pop`. -/
def Call.Tries : Call T → Prop
  | .tryPush _ | .tryPop => True
  | _ => False

/-- The positions of `held` elements, when `popped` came before them, have
different slots: the counter does not wrap among them, or there are no more of
them than the last lap before the wrap has slots. -/
def Clear (w capacity popped held : Nat) : Prop :=
  popped % 2 ^ w + held ≤ 2 ^ w ∨ held ≤ 2 ^ w % capacity

/-- The list queue never holds more than its capacity. -/
theorem length_le_of_runAll {V : Type} {capacity : Nat} {embed : T → V}
    {operations : List (Call T)} {items items' : List T} {results : List (Return w V)}
    (hStart : items.length ≤ capacity)
    (hRun : runAll (listQueue w capacity embed) operations items = some (results, items')) :
    items'.length ≤ capacity := by
  apply runAll_preserves (fun items => items.length ≤ capacity) ?_ hStart hRun
  intro operation items result items' hLe hStep
  cases operation with
  | tryPush element =>
      simp only [listQueue] at hStep
      split_ifs at hStep with hLt
      · obtain ⟨rfl, rfl⟩ := Prod.mk.inj (Option.some.inj hStep)
        rw [List.length_append]
        exact hLt
      · obtain ⟨rfl, rfl⟩ := Prod.mk.inj (Option.some.inj hStep)
        exact hLe
  | push element =>
      simp only [listQueue] at hStep
      split_ifs at hStep with hLt
      obtain ⟨rfl, rfl⟩ := Prod.mk.inj (Option.some.inj hStep)
      rw [List.length_append]
      exact hLt
  | tryPop | pop =>
      cases items with
      | nil => simp_all [listQueue]
      | cons item items =>
          obtain ⟨rfl, rfl⟩ := Prod.mk.inj (Option.some.inj hStep)
          exact Nat.le_of_succ_le hLe
  | observe observer =>
      cases observer <;> obtain ⟨rfl, rfl⟩ := Prod.mk.inj (Option.some.inj hStep) <;> exact hLe

namespace AtomicQueue2

section Window

variable {q : Queue w} {maximizeThroughput spsc : Bool} {start : Nat} {items : List T}
  {σ : Memory w (Slot T)}

/-- The slots of the list's positions, and of as many as it will have. -/
def Apart (q : Queue w) (start length : Nat) : Prop :=
  Set.InjOn q.slotAt (Set.Ico start (start + length))

/-- A push whose position falls on the slot of another element waits for ever. -/
theorem perform_tryPush_eq_none
    (hIndexed : q.Indexed) (hRelease : q.build = .release)
    (h : RepresentsFrom q content some start items σ) (hLt : items.length < q.capacity.toNat)
    (hApart : Apart q start items.length) (hMeets : ¬ Apart q start (items.length + 1))
    (fuel : Nat) (element : T) :
    q.perform (slotCode T maximizeThroughput spsc) fuel (.tryPush element) σ = none := by
  obtain ⟨i, hi, hSame⟩ := Ring.exists_slot_eq hApart hMeets
  have hFull : (σ.slots (q.slotAt (start + items.length))).state = .full := by
    have hItem := h.2.2.item i (by simpa using hi)
    rw [← hSame]
    rw [List.getElem?_eq_getElem (by simpa using hi)] at hItem
    exact (content_eq_some_iff.mp hItem).1
  rw [Option.eq_none_iff_forall_ne_some]
  intro out hOut
  have hMore := Queue.perform_mono 3 hOut
  rw [h.perform_tryPush _ hRelease, if_pos hLt, Queue.pushAt, h.2.1, hIndexed.getSlot_ofNat,
    Option.bind_some, runPush_eq_none hFull, Option.map_none] at hMore
  contradiction

/-- Popping drops the first position of the window, which leaves the slots of
the others apart. -/
theorem Apart.pop (h : Apart q start (items.length + 1)) : Apart q (start + 1) items.length := by
  apply h.mono
  intro p hp
  rw [Set.mem_Ico] at hp ⊢
  omega

variable (maximizeThroughput spsc) in
/-- One call: it returns what the list queue returns if the positions in use
afterwards have different slots, and never returns otherwise. -/
theorem perform_tries (hIndexed : q.Indexed) (hRelease : q.build = .release)
    (h : RepresentsFrom q content some start items σ) (hApart : Apart q start items.length)
    {operation : Call T} (hTries : operation.Tries) :
    ∃ result items', listQueue w q.capacity.toNat some operation items = some (result, items') ∧
      (Apart q (start + result.popped.toList.length) items'.length →
        ∃ σ', q.perform (slotCode T maximizeThroughput spsc) 6 operation σ = some (result, σ') ∧
          RepresentsFrom q content some (start + result.popped.toList.length) items' σ') ∧
      (¬ Apart q (start + result.popped.toList.length) items'.length →
        ∀ fuel, q.perform (slotCode T maximizeThroughput spsc) fuel operation σ = none) := by
  have hSpec := slotSpec (T := T) maximizeThroughput spsc
  cases operation with
  | tryPush element =>
      by_cases hLt : items.length < q.capacity.toNat
      · refine ⟨.tryPush true, items ++ [element], if_pos hLt, fun hAfter => ?_, fun hMeets => ?_⟩
        · rw [List.length_append] at hAfter
          obtain ⟨σ', hPush, hNext⟩ := h.push hIndexed hSpec hLt hAfter trivial 0 false
          refine ⟨σ', ?_, hNext⟩
          rw [h.perform_tryPush _ hRelease, if_pos hLt]
          exact hPush
        · rw [List.length_append] at hMeets
          exact fun fuel => perform_tryPush_eq_none hIndexed hRelease h hLt hApart hMeets fuel element
      · refine ⟨.tryPush false, items, if_neg hLt, fun _ => ?_, fun hMeets => (hMeets hApart).elim⟩
        refine ⟨σ, ?_, h⟩
        rw [h.perform_tryPush _ hRelease, if_neg hLt]
  | tryPop =>
      cases items with
      | nil =>
          refine ⟨.tryPop none, [], rfl, fun _ => ?_, fun hMeets => (hMeets hApart).elim⟩
          refine ⟨σ, ?_, h⟩
          rw [h.perform_tryPop _ hRelease, if_pos rfl]
      | cons item items =>
          refine ⟨.tryPop (some (some item)), items, rfl, fun _ => ?_,
            fun hMeets => (hMeets (Apart.pop hApart)).elim⟩
          obtain ⟨σ', hPop, hNext⟩ := h.pop hIndexed hSpec hApart 0 false
          refine ⟨σ', ?_, hNext⟩
          rw [h.perform_tryPop _ hRelease, if_neg (List.cons_ne_nil item items)]
          exact hPop
  | push | pop | observe => exact hTries.elim

/-- Every call returns, and returns what a list of at most `capacity` elements
does. -/
def ActsAsList (q : Queue w) (maximizeThroughput spsc : Bool) (capacity : Nat)
    (operations : List (Call T)) (items : List T) (σ : Memory w (Slot T)) : Prop :=
  ∃ fuel results items' σ',
    runAll (listQueue w capacity some) operations items = some (results, items') ∧
    runAll (q.perform (slotCode T maximizeThroughput spsc) fuel) operations σ = some (results, σ')

/-- What the list has popped and still holds is `ok` after each call. -/
def AlongList (w capacity : Nat) (operations : List (Call T)) (items : List T)
    (ok : Nat → Nat → Prop) : Prop :=
  ∀ before, before <+: operations → ∀ (results : List (Return w (Option T))) items',
    runAll (listQueue w capacity some) before items = some (results, items') →
    ok (poppedIn results).length items'.length

/-- What holds along the list is what holds now and along the rest, with one
more position popped where the first call popped. -/
theorem alongList_cons {capacity : Nat} {operation : Call T} {rest : List (Call T)}
    {items items' : List T} {ok : Nat → Nat → Prop} {result : Return w (Option T)}
    (hStep : listQueue w capacity some operation items = some (result, items')) :
    AlongList w capacity (operation :: rest) items ok ↔ ok 0 items.length ∧
      AlongList w capacity rest items' fun popped held =>
        ok (result.popped.toList.length + popped) held := by
  constructor
  · intro h
    refine ⟨h [] (List.nil_prefix) [] items rfl, fun before hBefore results items'' hRun => ?_⟩
    have hLonger := h (operation :: before) (List.cons_prefix_cons.mpr ⟨rfl, hBefore⟩)
      (result :: results) items'' (runAll_cons_eq_some.mpr ⟨_, _, _, hStep, hRun, rfl⟩)
    rw [poppedIn_cons, List.length_append] at hLonger
    exact hLonger
  · rintro ⟨hNow, hRest⟩ before hBefore results items'' hRun
    cases before with
    | nil =>
        obtain ⟨rfl, rfl⟩ := Prod.mk.inj (Option.some.inj hRun)
        exact hNow
    | cons first before =>
        obtain ⟨rfl, hPrefix⟩ := List.cons_prefix_cons.mp hBefore
        obtain ⟨result', middle, results', hFirst, hRun, rfl⟩ := runAll_cons_eq_some.mp hRun
        obtain ⟨rfl, rfl⟩ := Prod.mk.inj (Option.some.inj (hStep.symm.trans hFirst))
        rw [poppedIn_cons, List.length_append]
        exact hRest before hPrefix results' items'' hRun

/-- By induction on the calls. Where the slots of the list's positions are apart
the queue moves as the list does, and the first call that finds them not apart
is a `try_push` to a full slot, which never returns. -/
theorem actsAsList_iff (hIndexed : q.Indexed) (hRelease : q.build = .release)
    {operations : List (Call T)} (hTries : ∀ operation ∈ operations, operation.Tries)
    (h : RepresentsFrom q content some start items σ) (hApart : Apart q start items.length) :
    ActsAsList q maximizeThroughput spsc q.capacity.toNat operations items σ ↔
      AlongList w q.capacity.toNat operations items fun popped held =>
        Apart q (start + popped) held := by
  induction operations generalizing start items σ with
  | nil =>
      constructor
      · rintro - before hBefore results items' hRun
        obtain rfl := List.prefix_nil.mp hBefore
        obtain ⟨rfl, rfl⟩ := Prod.mk.inj (Option.some.inj hRun)
        exact hApart
      · intro _
        exact ⟨0, [], items, σ, rfl, rfl⟩
  | cons operation rest ih =>
      rw [List.forall_mem_cons] at hTries
      obtain ⟨result, items', hList, hReturns, hWaits⟩ :=
        perform_tries maximizeThroughput spsc hIndexed hRelease h hApart hTries.1
      rw [alongList_cons hList]
      by_cases hAfter : Apart q (start + result.popped.toList.length) items'.length
      · obtain ⟨σ', hPerform, hNext⟩ := hReturns hAfter
        have hRest := ih hTries.2 hNext hAfter
        simp only [Nat.add_assoc] at hRest
        rw [← hRest]
        constructor
        · rintro ⟨fuel, results, items'', σ'', hListRun, hRun⟩
          obtain ⟨_, _, results', hFirst, hListRest, rfl⟩ := runAll_cons_eq_some.mp hListRun
          obtain ⟨rfl, rfl⟩ := Prod.mk.inj (Option.some.inj (hList.symm.trans hFirst))
          obtain ⟨_, middle, _, hStep, hRunRest, hSame⟩ := runAll_cons_eq_some.mp hRun
          obtain ⟨rfl, rfl⟩ := List.cons.inj hSame
          obtain ⟨_, rfl⟩ := Prod.mk.inj (Queue.perform_unique hPerform hStep)
          exact ⟨hApart, fuel, results', items'', σ'', hListRest, hRunRest⟩
        · rintro ⟨_, fuel, results, items'', σ'', hListRun, hRun⟩
          refine ⟨6 + fuel, result :: results, items'', σ'', ?_, ?_⟩
          · exact runAll_cons_eq_some.mpr ⟨_, _, _, hList, hListRun, rfl⟩
          · have hMore := runAll_mono (fun _ _ _ => Queue.perform_mono 6) hRun
            rw [Nat.add_comm] at hMore
            exact runAll_cons_eq_some.mpr ⟨_, _, _, Queue.perform_mono fuel hPerform, hMore, rfl⟩
      · constructor
        · rintro ⟨fuel, results, items'', σ'', _, hRun⟩
          obtain ⟨result', middle, _, hFirst, _⟩ := runAll_cons_eq_some.mp hRun
          rw [hWaits hAfter] at hFirst
          contradiction
        · rintro ⟨_, hRest⟩
          exact (hAfter (hRest [] List.nil_prefix [] items' rfl)).elim

end Window

/-- The condition needs to be compared only at lengths that the list can
have. -/
theorem alongList_congr {capacity : Nat} {operations : List (Call T)} {ok ok' : Nat → Nat → Prop}
    (h : ∀ popped held, held ≤ capacity → (ok popped held ↔ ok' popped held)) :
    AlongList w capacity operations [] ok ↔ AlongList w capacity operations [] ok' := by
  apply forall₂_congr
  intro before hBefore
  apply forall₃_congr
  intro results items hRun
  exact h _ _ (length_le_of_runAll (Nat.zero_le _) hRun)

section Unrounded

variable {target : Target w} {size : Usize w} {totalOrder : Bool} {q : Queue w}
  (hNew : new target size false totalOrder = some q)

include hNew

theorem capacity_eq_size : q.capacity = size :=
  (Option.some.inj (new_eq_some hNew).1).symm

/-- Nothing is remapped, and the remainder is that of the wrapped counter. -/
theorem slotAt_eq_wrappedSlot (hPos : 0 < size.toNat) :
    q.slotAt = Ring.wrappedSlot (2 ^ w) size.toNat := by
  funext p
  obtain rfl := capacity_eq_size hNew
  obtain ⟨_, _, _, hGetSlot, _⟩ := new_eq_some hNew
  have hBits : getIndexShuffleBits false q.capacity
      (target.cacheLineSize / target.sizeOfPaddedState) = 0 := rfl
  rw [Queue.slotAt, hGetSlot, hBits, getSlot_eq_some hPos (Or.inl rfl), Option.getD_some, remapIndex,
    if_pos rfl, BitVec.toNat_umod, BitVec.toNat_ofNat, Ring.wrappedSlot]

/-- Positions of one lap have different slots. For a size that is no power of
two the lap at the wrap is cut short, and there the list may hold no more
elements than the cut lap has slots. -/
theorem apart_iff_clear (hPos : 0 < size.toNat) (hPower : ∀ k, size.toNat ≠ 2 ^ k)
    {popped held : Nat} (hHeld : held ≤ size.toNat) :
    Apart q popped held ↔ Clear w size.toNat popped held := by
  have hBroken : 0 < 2 ^ w % size.toNat := by
    apply Nat.pos_of_ne_zero
    intro hZero
    obtain ⟨k, _, hk⟩ := (Nat.dvd_prime_pow Nat.prime_two).mp (Nat.dvd_of_mod_eq_zero hZero)
    exact hPower k hk
  rw [Apart, slotAt_eq_wrappedSlot hNew hPos]
  exact Ring.injOn_wrappedSlot_iff (Nat.le_of_lt size.isLt) hPos hBroken hHeld

/-- With a capacity that is no power of two, the calls are those of a bounded
list exactly as long as the elements held have different slots. -/
theorem actsAsList_iff_clear (hRelease : target.build = .release) (hPos : 0 < size.toNat)
    (hPower : ∀ k, size.toNat ≠ 2 ^ k) (maximizeThroughput spsc : Bool)
    {operations : List (Call T)} (hTries : ∀ operation ∈ operations, operation.Tries) :
    ActsAsList q maximizeThroughput spsc size.toNat operations [] (Memory.new w (Slot.new T)) ↔
      AlongList w size.toNat operations [] (Clear w size.toNat) := by
  obtain rfl := capacity_eq_size hNew
  have hStart : RepresentsFrom q content some 0 ([] : List T) (Memory.new w (Slot.new T)) :=
    ⟨rfl, rfl, Ring.holds_nil fun _ _ => content_new⟩
  have hApart : Apart q 0 ([] : List T).length := by simp [Apart]
  rw [actsAsList_iff (new_indexed hNew hPos) ((new_eq_some hNew).2.1.trans hRelease) hTries hStart
    hApart]
  simp only [Nat.zero_add]
  apply alongList_congr
  intro popped held hHeld
  exact apart_iff_clear hNew hPos hPower hHeld

end Unrounded

/-- `AtomicQueue2<_, 3, false>`. -/
def threeSlots : Queue 64 where
  build := .release
  capacity := 3#64
  getSlot := getSlot 3#64 0
  totalOrder := false

theorem new_threeSlots : new Target.x86_64 3#64 false false = some threeSlots := rfl

theorem actsAsList_threeSlots :
    ActsAsList threeSlots false true 3 [.tryPush 7, .tryPush 8, .tryPop, .tryPush 9] []
        (Memory.new 64 (Slot.new Nat)) ∧
      AlongList 64 3 [.tryPush 7, .tryPush 8, .tryPop, .tryPush 9] ([] : List Nat) (Clear 64 3) := by
  have hActs : ActsAsList threeSlots false true 3 [.tryPush 7, .tryPush 8, .tryPop, .tryPush 9] []
      (Memory.new 64 (Slot.new Nat)) := ⟨6, _, _, _, rfl, rfl⟩
  have hPower : ∀ k, (3#64).toNat ≠ 2 ^ k := by
    intro k
    rcases k with _ | k
    · decide
    · rw [Nat.pow_succ]
      simp
      omega
  exact ⟨hActs, (actsAsList_iff_clear new_threeSlots rfl (by decide) hPower false true
    (by simp [Call.Tries])).mp hActs⟩

/-- Pushing and popping one element, `n` times. -/
def laps : Nat → List (Call Nat)
  | 0 => []
  | n + 1 => .tryPush 0 :: .tryPop :: laps n

/-- The list queue accepts and returns every element of these calls, however
many there are. -/
theorem runAll_laps {capacity : Nat} (hPos : 0 < capacity) (n : Nat) :
    ∃ results : List (Return w (Option Nat)),
      runAll (listQueue w capacity some) (laps n) [] = some (results, []) ∧
        (poppedIn results).length = n := by
  induction n with
  | zero => exact ⟨[], rfl, rfl⟩
  | succ n ih =>
      obtain ⟨results, hRun, hLength⟩ := ih
      refine ⟨.tryPush true :: .tryPop (some (some 0)) :: results, ?_, ?_⟩
      · have hPush : listQueue w capacity some (.tryPush 0) [] =
            some (.tryPush true, [0]) := if_pos hPos
        exact runAll_cons_eq_some.mpr ⟨_, _, _, hPush,
          runAll_cons_eq_some.mpr ⟨_, _, _, rfl, hRun, rfl⟩, rfl⟩
      · simp [poppedIn_cons, Return.popped, hLength]

theorem tries_laps (n : Nat) : ∀ operation ∈ laps n, operation.Tries := by
  induction n with
  | zero => simp [laps]
  | succ n ih => simpa [laps, Call.Tries] using ih

/-- Once `2 ^ 64 - 1` elements have passed through three slots, the next two go
to one slot, and the second push never returns. -/
theorem not_actsAsList_threeSlots :
    new Target.x86_64 3#64 false false = some threeSlots ∧
      (∀ operation ∈ laps (2 ^ 64 - 1) ++ [.tryPush 7, .tryPush 8], operation.Tries) ∧
      ¬ ActsAsList threeSlots false false 3 (laps (2 ^ 64 - 1) ++ [.tryPush 7, .tryPush 8]) []
        (Memory.new 64 (Slot.new Nat)) := by
  generalize hn : 2 ^ 64 - 1 = n
  have hTries : ∀ operation ∈ laps n ++ [.tryPush 7, .tryPush 8], operation.Tries := by
    intro operation hMem
    rcases List.mem_append.mp hMem with hLap | hLast
    · exact tries_laps n operation hLap
    · simp only [List.mem_cons, List.not_mem_nil, or_false] at hLast
      rcases hLast with rfl | rfl <;> exact trivial
  refine ⟨new_threeSlots, hTries, fun hActs => ?_⟩
  have hStart : RepresentsFrom threeSlots content some 0 ([] : List Nat)
      (Memory.new 64 (Slot.new Nat)) := ⟨rfl, rfl, Ring.holds_nil fun _ _ => content_new⟩
  have hAlong := (actsAsList_iff (new_indexed new_threeSlots (by decide)) rfl hTries hStart
    (by simp [Apart])).mp hActs
  obtain ⟨results, hLaps, hPopped⟩ := runAll_laps (w := 64) (show 0 < 3 by decide) n
  have hLast : runAll (listQueue 64 3 some) [.tryPush 7, .tryPush 8] [] =
      some ([.tryPush true, .tryPush true], [7, 8]) := rfl
  have hApart := hAlong _ (List.prefix_refl _) _ _ (runAll_append hLaps hLast)
  have hNone : poppedIn [(.tryPush true : Return 64 (Option Nat)), .tryPush true] = [] := rfl
  rw [poppedIn_append, hNone, List.append_nil, hPopped, Nat.zero_add] at hApart
  have hSame : threeSlots.slotAt n = threeSlots.slotAt (n + 1) := by
    rw [← hn]
    rfl
  have hEqual := hApart (by simp) (by simp) hSame
  omega

end AtomicQueue2

end AtomicQueueRs
