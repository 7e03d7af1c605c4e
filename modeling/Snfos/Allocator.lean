import Snfos.HeapSafety
import Mathlib.Data.List.Pairwise

set_option autoImplicit false

/- What the kernel relies on from its heap, whatever the layout of the blocks, and
the heap of `dynamic_allocation.c` as one that keeps it. -/
namespace Snfos

open ByteMemory BlockChain

/-- A heap with its contract. `Holds h sizes` says which pointers are live and
with what size. A call is `none` where the heap has no addresses left for it. -/
structure Allocator (L : Layout) where
  Heap : Type
  boot : Heap
  /-- Where the mapped heap ends, zero before the first page. -/
  heapEnd : Heap → Nat
  malloc : Nat → Heap → Option (Nat × Heap)
  mallocPages : Nat → Heap → Option (Nat × Heap)
  free : Nat → Heap → Heap
  Holds : Heap → (Nat → Option Nat) → Prop
  boot_holds : Holds boot fun _ => none
  boot_end : heapEnd boot = 0
  end_aligned : ∀ {h s}, Holds h s → heapEnd h % 4096 = 0
  end_lower : ∀ {h s}, Holds h s → heapEnd h = 0 ∨ L.heapStart ≤ heapEnd h
  inside : ∀ {h s p n}, Holds h s → s p = some n → L.heapStart ≤ p ∧ p + n ≤ heapEnd h
  apart : ∀ {h s p q n m}, Holds h s → s p = some n → s q = some m → p ≠ q →
    p + n ≤ q ∨ q + m ≤ p
  malloc_holds : ∀ {h s n p h'}, Holds h s → 0 < n → malloc n h = some (p, h') →
    s p = none ∧ heapEnd h ≤ heapEnd h' ∧ Holds h' (Function.update s p (some n))
  mallocPages_zero : ∀ h, mallocPages 0 h = some (0, h)
  mallocPages_holds : ∀ {h s n p h'}, Holds h s → 0 < n → mallocPages n h = some (p, h') →
    p % 4096 = 0 ∧ heapEnd h ≤ p ∧ s p = none ∧ heapEnd h ≤ heapEnd h' ∧
      Holds h' (Function.update s p (some (4096 * n)))
  free_holds : ∀ {h s p n}, Holds h s → s p = some n →
    heapEnd (free p h) = heapEnd h ∧ Holds (free p h) (Function.update s p none)

/-- Where `alloc_page` goes on mapping. -/
def Allocator.mappedEnd {L : Layout} (A : Allocator L) (h : A.Heap) : Nat :=
  if A.heapEnd h = 0 then L.heapStart else A.heapEnd h

namespace DynamicAllocation

/-- The live sizes are those of a client's list in some run. -/
def Holds (L : Layout) (h : Heap) (sizes : Nat → Option Nat) : Prop :=
  ∃ live, Client.Sound L ⟨h, live⟩ ∧ ∀ p n, sizes p = some n ↔ (p, n) ∈ live

/-- `malloc` where the addresses last. -/
def mallocBounded (L : Layout) (size : Nat) (h : Heap) : Option (Nat × Heap) :=
  if mallocEnd L.heapStart size h < 2 ^ 32 then malloc L.heapStart size h else none

/-- `malloc_pages` where the addresses last and the gap is one it handles. -/
def mallocPagesBounded (L : Layout) (pages : Nat) (h : Heap) : Option (Nat × Heap) :=
  let finish := if h.start = 0 then L.heapStart + 4096 + (pages + 1) * 4096
    else pagesEnd h.heapEnd (nextBlock h.mem h.endPtr) pages
  let gap := sub32 h.heapEnd (nextBlock h.mem h.endPtr)
  if pages = 0 then some (0, h)
  else if finish < 2 ^ 32 ∧ (h.start ≠ 0 → gap < 5 ∨ 18 ≤ gap) then
    some (mallocPages L.heapStart pages h)
  else none

section Contract

variable {L : Layout} {h h' : Heap} {sizes : Nat → Option Nat} {p n : Nat}

theorem Holds.bounds (holds : Holds L h sizes) (held : sizes p = some n) :
    L.heapStart ≤ p ∧ p + n ≤ h.heapEnd ∧ 0 < p := by
  obtain ⟨live, sound, same⟩ := holds
  have member := (same p n).mp held
  obtain ⟨bs, holds⟩ := sound.holds member
  have inside := holds.inside member
  simp only at inside
  omega

theorem Holds.apart (holds : Holds L h sizes) {q m : Nat} (held : sizes p = some n)
    (held' : sizes q = some m) (different : p ≠ q) : p + n ≤ q ∨ q + m ≤ p := by
  obtain ⟨live, sound, same⟩ := holds
  have member := (same p n).mp held
  have member' := (same q m).mp held'
  obtain ⟨bs, holds⟩ := sound.holds member
  have symm : Std.Symm Client.Apart := ⟨fun _ _ apart => apart.symm⟩
  exact holds.apart.forall member member' fun pairs => different (congrArg Prod.fst pairs)

/-- A pointer a call returned is new to the list, so the list still is a function. -/
theorem Holds.received {live : List (Nat × Nat)} (same : ∀ p n, sizes p = some n ↔ (p, n) ∈ live)
    (positive : 0 < n) (nonnull : p ≠ 0)
    (sound : Client.Sound L (Client.received ⟨h, live⟩ p n h')) :
    sizes p = none ∧ Holds L h' (Function.update sizes p (some n)) := by
  have list : (Client.received ⟨h, live⟩ p n h').live = (p, n) :: live := by
    simp [Client.received, nonnull]
  have fresh : ∀ m, (p, m) ∉ live := by
    intro m member
    have first : (p, n) ∈ (p, n) :: live := List.mem_cons_self ..
    have second : (p, m) ∈ (p, n) :: live := List.mem_cons_of_mem _ member
    rw [← list] at first second
    obtain rfl := sound.held_once first second
    have apart := sound.apart
    rw [list, List.pairwise_cons] at apart
    have disjoint := apart.1 _ member
    unfold Client.Apart at disjoint
    simp only at disjoint
    omega
  refine ⟨?_, (p, n) :: live, ?_, ?_⟩
  · cases size : sizes p with
    | none => rfl
    | some m => exact absurd ((same p m).mp size) (fresh m)
  · have shape : Client.received ⟨h, live⟩ p n h' = ⟨h', (p, n) :: live⟩ := by
      simp [Client.received, nonnull]
    rwa [shape] at sound
  · intro q m
    by_cases here : q = p
    · subst here
      rw [Function.update_self, List.mem_cons, Option.some.injEq, Prod.mk.injEq]
      constructor
      · rintro rfl
        exact Or.inl ⟨rfl, rfl⟩
      · rintro (⟨_, rfl⟩ | member)
        · rfl
        · exact absurd member (fresh m)
    · rw [Function.update_of_ne here, same, List.mem_cons, Prod.mk.injEq]
      constructor
      · exact Or.inr
      · rintro (⟨rfl, _⟩ | member)
        · exact absurd rfl here
        · exact member

theorem heapEnd_le_malloc {live : List (Nat × Nat)} (sound : Client.Sound L ⟨h, live⟩)
    (positive : n ≠ 0) (room : mallocEnd L.heapStart n h < 2 ^ 32)
    (result : malloc L.heapStart n h = some (p, h')) : p ≠ 0 ∧ h.heapEnd ≤ h'.heapEnd := by
  cases sound with
  | empty heap _ =>
      simp only at heap
      unfold mallocEnd at room
      rw [if_pos heap.start] at room
      obtain ⟨pointer, _, _⟩ := firstBlock_represents n heap room
      simp only [malloc, positive, heap.start, true_or, ↓reduceIte, Option.some.injEq] at result
      rw [result] at pointer
      simp only at pointer
      have zero := heap.heapEnd
      omega
  | blocks bs holds =>
      obtain ⟨x, h'', bs', result', grows, _, _⟩ := malloc_represents holds.represents positive room
      simp only at result'
      rw [result] at result'
      obtain ⟨rfl, rfl⟩ := Prod.mk.inj (Option.some.inj result')
      exact ⟨by omega, grows⟩

theorem Holds.mallocBounded (holds : Holds L h sizes) (positive : 0 < n)
    (result : mallocBounded L n h = some (p, h')) :
    sizes p = none ∧ h.heapEnd ≤ h'.heapEnd ∧ Holds L h' (Function.update sizes p (some n)) := by
  obtain ⟨live, sound, same⟩ := holds
  unfold DynamicAllocation.mallocBounded at result
  split at result
  · next room =>
      obtain ⟨nonnull, grows⟩ := heapEnd_le_malloc sound (by omega) room result
      obtain ⟨c', stepped, sound', _⟩ := Client.malloc_sound n sound fun _ => room
      simp only [Client.step, result] at stepped
      obtain rfl := Option.some.inj stepped
      obtain ⟨fresh, holds'⟩ := Holds.received same positive nonnull sound'
      exact ⟨fresh, grows, holds'⟩
  · exact (Option.some_ne_none _ result.symm).elim

theorem heapEnd_le_mallocPages {live : List (Nat × Nat)} (sound : Client.Sound L ⟨h, live⟩)
    (positive : n ≠ 0) (room : Client.NoOverflow L ⟨h, live⟩ (.mallocPages n))
    (gap : Client.GapFits ⟨h, live⟩ (.mallocPages n)) :
    h.heapEnd ≤ (mallocPages L.heapStart n h).1 ∧
      h.heapEnd ≤ (mallocPages L.heapStart n h).2.heapEnd := by
  have bounded := room positive
  cases sound with
  | empty heap _ =>
      have zero := heap.heapEnd
      simp only at zero
      omega
  | blocks bs holds =>
      have rep := holds.represents
      simp only at rep bounded
      have low := L.heapStart_facts
      have used : h.start ≠ 0 := by
        rw [rep.start]
        omega
      have fits := gap used
      simp only at fits
      rw [rep.lastBlock, sub32_of_le rep.inside rep.bound] at fits
      rw [if_neg used, rep.lastBlock] at bounded
      obtain ⟨_, lower, grown, _⟩ := mallocPages_represents rep rfl positive fits bounded
      refine ⟨lower, ?_⟩
      rw [grown]
      unfold pagesEnd
      split <;> omega

theorem Holds.mallocPagesBounded (holds : Holds L h sizes) (positive : 0 < n)
    (result : mallocPagesBounded L n h = some (p, h')) :
    p % 4096 = 0 ∧ h.heapEnd ≤ p ∧ sizes p = none ∧ h.heapEnd ≤ h'.heapEnd ∧
      Holds L h' (Function.update sizes p (some (4096 * n))) := by
  obtain ⟨live, sound, same⟩ := holds
  unfold DynamicAllocation.mallocPagesBounded at result
  extract_lets finish left at result
  rw [if_neg (by omega)] at result
  by_cases allowed : finish < 2 ^ 32 ∧ (h.start ≠ 0 → left < 5 ∨ 18 ≤ left)
  · rw [if_pos allowed, Option.some.injEq] at result
    have room : Client.NoOverflow L ⟨h, live⟩ (.mallocPages n) := fun _ => allowed.1
    have gap : Client.GapFits ⟨h, live⟩ (.mallocPages n) := allowed.2
    obtain ⟨lower, grows⟩ := heapEnd_le_mallocPages sound (by omega) room gap
    obtain ⟨y, bs', pointer, aligned, holds', _⟩ :=
      Client.mallocPages_placed n (by omega) sound room gap
    simp only [result] at lower grows pointer aligned holds'
    subst pointer
    obtain ⟨fresh, kept⟩ := Holds.received same (by omega : 0 < 4096 * n) (by omega)
      (.blocks bs' holds')
    exact ⟨aligned, lower, fresh, grows, kept⟩
  · rw [if_neg allowed] at result
    cases result

theorem free_heapEnd (ptr : Nat) (h : Heap) : (free ptr h).heapEnd = h.heapEnd := by
  have next : ∀ block h, (mergeNext block h).heapEnd = h.heapEnd := by
    intro block h
    unfold mergeNext
    dsimp only
    split <;> rfl
  have previous : ∀ block h, (mergePrev block h).heapEnd = h.heapEnd := by
    intro block h
    unfold mergePrev
    dsimp only
    split <;> rfl
  unfold free
  dsimp only
  split
  · rw [previous, next]
  · rfl

theorem Holds.free (holds : Holds L h sizes) (held : sizes p = some n) :
    (free p h).heapEnd = h.heapEnd ∧
      Holds L (DynamicAllocation.free p h) (Function.update sizes p none) := by
  obtain ⟨live, sound, same⟩ := holds
  refine ⟨free_heapEnd p h, ?_⟩
  obtain ⟨c', stepped, sound', _⟩ :=
    Client.free_sound p sound (Or.inr ⟨n, (same p n).mp held⟩)
  simp only [Client.step, Option.some.injEq] at stepped
  subst stepped
  refine ⟨_, sound', fun q m => ?_⟩
  by_cases here : q = p
  · subst here
    simp
  · rw [Function.update_of_ne here, same]
    simp [here]

theorem boot_holds (L : Layout) : Holds L ⟨fun _ => 0, 0, 0, 0, 0⟩ fun _ => none :=
  ⟨[], Client.boot_sound L _, fun p n => by simp⟩

theorem Holds.heapEnd (holds : Holds L h sizes) :
    h.heapEnd % 4096 = 0 ∧ (h.heapEnd = 0 ∨ L.heapStart ≤ h.heapEnd) := by
  obtain ⟨live, sound, _⟩ := holds
  cases sound with
  | empty heap _ =>
      have zero := heap.heapEnd
      simp only at zero
      omega
  | blocks bs holds =>
      have aligned := holds.represents.aligned
      have inside := holds.represents.inside
      simp only at aligned inside
      omega

end Contract

/-- The kernel heap as the rest of the kernel uses it. -/
def allocator (L : Layout) : Allocator L where
  Heap := Heap
  boot := ⟨fun _ => 0, 0, 0, 0, 0⟩
  heapEnd := Heap.heapEnd
  malloc := mallocBounded L
  mallocPages := mallocPagesBounded L
  free := free
  Holds := Holds L
  boot_holds := boot_holds L
  boot_end := rfl
  end_aligned := fun holds => holds.heapEnd.1
  end_lower := fun holds => holds.heapEnd.2
  inside := fun holds held => ⟨(holds.bounds held).1, (holds.bounds held).2.1⟩
  apart := fun holds held held' different => holds.apart held held' different
  malloc_holds := fun holds positive result => holds.mallocBounded positive result
  mallocPages_zero := fun _ => rfl
  mallocPages_holds := fun holds positive result => holds.mallocPagesBounded positive result
  free_holds := fun holds held => holds.free held

end DynamicAllocation

end Snfos
