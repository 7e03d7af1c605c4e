import Mathlib.Algebra.BigOperators.Intervals
import Mathlib.Algebra.Order.BigOperators.Group.Finset
import Snfos.Returns
import Snfos.SettledHeap

set_option autoImplicit false

/- Room on the heap in pages, and how much of it the kernel's functions take at most. -/
namespace Snfos

open DynamicAllocation (Structure)

namespace Estate

/-- The pages that a copy of table `t` takes from its page `j` on. -/
@[irreducible] def pagesFrom (t : ProcessPageTable) (j : Nat) : Nat :=
  ∑ j' ∈ Finset.Ico j Kernel.maxPageTableEntries, if t.pages j' = 0 then 0 else 1

/-- The pages that a copy of slot `i` takes. -/
@[irreducible] def slotPages (P : Estate) (m : ProcessMemory) (i : Nat) : Nat :=
  if m.pageTables i = 0 then 0
  else 3 + match P.block (.table i) with
    | some (_, .table t) => pagesFrom t 0
    | _ => 0

/-- The pages that a copy of `P` takes from slot `i` on. -/
@[irreducible] def slotsFrom (P : Estate) (m : ProcessMemory) (i : Nat) : Nat :=
  ∑ i' ∈ Finset.Ico i Kernel.maxPageDirectoryEntries, P.slotPages m i'

section Counting

variable {P : Estate} {t : ProcessPageTable} {m : ProcessMemory} {i j : Nat}

theorem pagesFrom_step (inside : j < Kernel.maxPageTableEntries) :
    pagesFrom t j = (if t.pages j = 0 then 0 else 1) + pagesFrom t (j + 1) := by
  unfold pagesFrom
  rw [Finset.sum_eq_sum_Ico_succ_bot inside]

theorem pagesFrom_end : pagesFrom t Kernel.maxPageTableEntries = 0 := by
  simp [pagesFrom]

theorem slotsFrom_step (inside : i < Kernel.maxPageDirectoryEntries) :
    P.slotsFrom m i = P.slotPages m i + P.slotsFrom m (i + 1) := by
  unfold slotsFrom
  rw [Finset.sum_eq_sum_Ico_succ_bot inside]

theorem slotsFrom_end : P.slotsFrom m Kernel.maxPageDirectoryEntries = 0 := by
  simp [slotsFrom]

end Counting

section Bounds

variable {P : Estate} {t : ProcessPageTable} {m : ProcessMemory} {i : Nat} {slots pages : Finset Nat}

theorem pagesFrom_le (listed : ∀ j, t.pages j ≠ 0 → j ∈ pages) : pagesFrom t 0 ≤ pages.card := by
  have one : ∀ j, (if t.pages j = 0 then 0 else 1) ≤ if j ∈ pages then 1 else 0 := by
    intro j
    by_cases empty : t.pages j = 0
    · rw [if_pos empty]
      exact Nat.zero_le _
    · rw [if_pos (listed j empty), if_neg empty]
  unfold pagesFrom
  calc ∑ j ∈ Finset.Ico 0 Kernel.maxPageTableEntries, (if t.pages j = 0 then 0 else 1)
      ≤ ∑ j ∈ Finset.Ico 0 Kernel.maxPageTableEntries, (if j ∈ pages then 1 else 0) :=
        Finset.sum_le_sum fun j _ => one j
    _ = (Finset.filter (· ∈ pages) (Finset.Ico 0 Kernel.maxPageTableEntries)).card :=
        (Finset.card_filter _ _).symm
    _ ≤ pages.card := Finset.card_le_card fun j member => (Finset.mem_filter.mp member).2

theorem slotPages_le (has : ∀ j, P.Has i j → j ∈ pages) : P.slotPages m i ≤ 3 + pages.card := by
  unfold slotPages
  split
  · exact Nat.zero_le _
  · split
    · next t held =>
      exact Nat.add_le_add_left (pagesFrom_le fun j listed => has j ⟨_, t, held, listed⟩) 3
    · omega

/-- A copy takes few pages where few are listed. -/
theorem slotsFrom_le (listed : ∀ i, m.pageTables i ≠ 0 → i ∈ slots)
    (has : ∀ i j, P.Has i j → j ∈ pages) : P.slotsFrom m 0 ≤ slots.card * (3 + pages.card) := by
  have one : ∀ i, P.slotPages m i ≤ if i ∈ slots then 3 + pages.card else 0 := by
    intro i
    by_cases member : i ∈ slots
    · rw [if_pos member]
      exact slotPages_le (has i)
    · have empty : m.pageTables i = 0 := not_not.mp fun full => member (listed i full)
      unfold slotPages
      rw [if_pos empty]
      exact Nat.zero_le _
  unfold slotsFrom
  calc ∑ i ∈ Finset.Ico 0 Kernel.maxPageDirectoryEntries, P.slotPages m i
      ≤ ∑ i ∈ Finset.Ico 0 Kernel.maxPageDirectoryEntries, (if i ∈ slots then 3 + pages.card else 0) :=
        Finset.sum_le_sum fun i _ => one i
    _ = (Finset.filter (· ∈ slots) (Finset.Ico 0 Kernel.maxPageDirectoryEntries)).card *
          (3 + pages.card) := by
        rw [← Finset.sum_filter]
        exact Finset.sum_const_nat fun _ _ => rfl
    _ ≤ slots.card * (3 + pages.card) := Nat.mul_le_mul_right _
        (Finset.card_le_card fun i member => (Finset.mem_filter.mp member).2)

end Bounds

end Estate

namespace Machine

/-- The heap can grow by `pages`, with two frames for each, and take `structures` before the next
pages. -/
def Room (M : Machine) (Ready : Nat → M.allocator.Heap → Prop) (structures pages : Nat) :
    M.Budget := fun h frames =>
  Ready structures h ∧ M.allocator.mappedEnd h + 4096 * pages ≤ M.limit ∧ 2 * pages ≤ frames

variable {M : Machine} {Ready : Nat → M.allocator.Heap → Prop} {c n : Nat}

theorem room_fewer {n' : Nat} (fewer : n' ≤ n) : M.Room Ready c n ≤ M.Room Ready c n' :=
  fun _ _ room => ⟨room.1, Nat.le_trans (by omega) room.2.1, Nat.le_trans (by omega) room.2.2⟩

theorem heapEnd_of_room {h : M.allocator.Heap} {frames : Nat} (room : M.Room Ready c n h frames) :
    M.allocator.heapEnd h ≤ M.limit := by
  have inside := room.2.1
  unfold Allocator.mappedEnd at inside
  split at inside <;> omega

/-- A request that takes so many pages at most leaves the others. -/
theorem asks_of_room {r : Request} {rest : Nat → M.Budget} {h : M.allocator.Heap}
    {c' pages frames : Nat} (room : M.Room Ready c (n + pages) h frames)
    (served : M.allocator.mappedEnd h + 4096 * pages < 2 ^ 32 → ∃ p h',
      M.allocator.serve r h = some (p, h') ∧ Ready c' h' ∧
        M.allocator.mappedEnd h' ≤ M.allocator.mappedEnd h + 4096 * pages)
    (left : ∀ p h' frames', M.allocator.serve r h = some (p, h') → M.Room Ready c' n h' frames' →
      rest p h' frames') : M.asks r rest h frames := by
  obtain ⟨_, inside, few⟩ := room
  have limit := M.limit_le
  obtain ⟨p, h', call, ready, far⟩ := served (by omega)
  have top : M.allocator.heapEnd h' ≤ M.allocator.mappedEnd h' := by
    unfold Allocator.mappedEnd
    split <;> omega
  have cost : M.allocator.frames h h' ≤ 2 * pages := by
    unfold Allocator.frames
    omega
  exact ⟨p, h', call, by omega, by omega, left p h' _ call ⟨ready, by omega, by omega⟩⟩

end Machine

namespace Allocator.Ample

variable {M : Machine} {Ready : Nat → M.allocator.Heap → Prop} {rest : M.Budget} {c n : Nat}

section Requests

variable (ample : M.allocator.Ample Ready)

include ample

theorem bytes {rest : Nat → M.Budget} {size : Nat} (known : Structure size)
    (left : ∀ p, M.Room Ready c n ≤ rest p) :
    M.Room Ready (c + 1) (n + 3) ≤ M.asks (.bytes size) rest := fun _ _ room =>
  Machine.asks_of_room room (ample.malloc room.1 known) fun p _ _ _ => left p _ _

theorem pages {rest : Nat → M.Budget} {count : Nat} (positive : count ≠ 0)
    (left : ∀ p, M.Room Ready 52 n ≤ rest p) :
    M.Room Ready c (n + (count + 2)) ≤ M.asks (.pages count) rest := fun _ _ room =>
  Machine.asks_of_room room (ample.mallocPages room.1 positive) fun p _ _ _ => left p _ _

theorem page (left : M.Room Ready 52 n ≤ rest) : M.Room Ready c (n + 3) ≤ M.pageAsks rest :=
  ample.pages (by decide) fun _ => left

theorem table (left : M.Room Ready 52 n ≤ rest) : M.Room Ready (c + 1) (n + 6) ≤ M.tableAsks rest :=
  ample.bytes (Or.inr rfl) fun _ => ample.page left

theorem space (left : M.Room Ready 52 n ≤ rest) : M.Room Ready (c + 1) (n + 24) ≤ M.spaceAsks rest :=
  ample.table (ample.table (ample.table (ample.table left)))

/-- The pages a module was read through are free again. -/
theorem code (module : Module) (left : M.Room Ready 52 n ≤ rest) :
    M.Room Ready 52 (n + 2 * (module.numCodePages + 2)) ≤ M.codeAsks rest module := by
  intro h frames room
  by_cases empty : module.numCodePages = 0
  · have room := Machine.room_fewer (Nat.le_add_right _ _) _ _ room
    exact (M.codeAsks_empty rest empty).mpr ⟨Machine.heapEnd_of_room room, left _ _ room⟩
  have limit := M.limit_le
  rw [Nat.two_mul, ← Nat.add_assoc] at room
  refine Machine.asks_of_room room (ample.mallocPages room.1 empty) fun p h₁ frames₁ call₁ room₁ => ?_
  refine Machine.asks_of_room room₁ (ample.mallocPages room₁.1 empty) fun q h₂ frames₂ call₂ room₂ => ?_
  obtain ⟨ready, inside, few⟩ := room₂
  obtain ⟨nonzero, ready', same⟩ := ample.free room.1 empty (by have := room.2.1; omega)
    (by have := room₁.2.1; omega) call₁ call₂
  rw [M.frees_of_ne nonzero]
  exact left _ _ ⟨ready', same ▸ inside, few⟩

theorem load (module : Module) (left : M.Room Ready 52 n ≤ rest) :
    M.Room Ready (c + 1) (n + (34 + 2 * module.numCodePages)) ≤ M.loadAsks rest module := by
  have all := ample.space (c := c) (ample.page (c := 52) (ample.page (c := 52) (ample.code module left)))
  rwa [show n + 2 * (module.numCodePages + 2) + 3 + 3 + 24 = n + (34 + 2 * module.numCodePages) by omega]
    at all

theorem link (left : M.Room Ready c n ≤ rest) : M.Room Ready (c + 1) (n + 3) ≤ M.linkAsks rest :=
  ample.bytes (Or.inl rfl) fun _ => left

theorem add (left : M.Room Ready 52 n ≤ rest) : M.Room Ready (c + 2) (n + 12) ≤ M.addAsks rest :=
  ample.link (ample.table (ample.page left))

section Copies

open Kernel (maxPageTableEntries maxPageDirectoryEntries)

variable {P : Estate} {t : ProcessPageTable} {m : ProcessMemory} {i j : Nat}

theorem copyPages (left : M.Room Ready 52 n ≤ rest) (d : Nat) (count : j + d = maxPageTableEntries) :
    M.Room Ready 52 (n + 3 * Estate.pagesFrom t j) ≤ M.pagesAsks rest t j := by
  induction d generalizing j with
  | zero =>
    rw [Nat.add_zero] at count
    rw [count, Estate.pagesFrom_end, M.pagesAsks_end]
    exact left
  | succ d ih =>
    have inside : j < maxPageTableEntries := by omega
    have later := ih (j := j + 1) (by omega)
    rw [Estate.pagesFrom_step inside, M.pagesAsks_step rest inside]
    by_cases empty : t.pages j = 0
    · rw [if_pos empty, if_pos empty, Nat.zero_add]
      exact later
    · rw [if_neg empty, if_neg empty, Nat.mul_add, Nat.add_comm (3 * 1), ← Nat.add_assoc]
      exact ample.page later

theorem copySlot (left : M.Room Ready 52 n ≤ rest) :
    M.Room Ready 52 (n + 3 * P.slotPages m i) ≤ M.slotAsks rest P m i := by
  unfold Estate.slotPages Machine.slotAsks
  by_cases empty : m.pageTables i = 0
  · rw [if_pos empty, if_pos empty]
    exact left
  rw [if_neg empty, if_neg empty]
  have table {pages : Nat} {rest' : M.Budget} (copied : M.Room Ready 52 (n + 3 * pages) ≤ rest') :
      M.Room Ready 52 (n + 3 * (3 + pages)) ≤ M.tableAsks rest' :=
    le_trans (Machine.room_fewer (by omega)) (ample.table (c := 51) copied)
  apply table
  cases P.block (.table i) with
  | none => exact left
  | some held =>
    obtain ⟨q, body⟩ := held
    cases body with
    | table t => exact ample.copyPages left _ (Nat.zero_add _)
    | _ => exact left

theorem copySlots (left : M.Room Ready 52 n ≤ rest) (d : Nat) (count : i + d = maxPageDirectoryEntries) :
    M.Room Ready 52 (n + 3 * P.slotsFrom m i) ≤ M.slotsAsks rest P m i := by
  induction d generalizing i with
  | zero =>
    rw [Nat.add_zero] at count
    rw [count, Estate.slotsFrom_end, M.slotsAsks_end]
    exact left
  | succ d ih =>
    have inside : i < maxPageDirectoryEntries := by omega
    have later := ih (i := i + 1) (by omega)
    rw [Estate.slotsFrom_step inside, M.slotsAsks_step rest inside, Nat.mul_add, Nat.add_comm (3 * _),
      ← Nat.add_assoc]
    exact ample.copySlot later

theorem fork (left : M.Room Ready 51 n ≤ rest) :
    M.Room Ready (c + 1) (n + (9 + 3 * P.slotsFrom m 0)) ≤ M.forkAsks rest P m := by
  have all := ample.table (c := c) (ample.copySlots (P := P) (m := m) (ample.link left)
    maxPageDirectoryEntries (Nat.zero_add _))
  rwa [show n + 3 + 3 * P.slotsFrom m 0 + 6 = n + (9 + 3 * P.slotsFrom m 0) by omega] at all

end Copies

end Requests

end Allocator.Ample

section Boot

variable {M : Machine} {Ready : Nat → M.allocator.Heap → Prop} {n : Nat}

/-- Where only some of the first `marked` frames are in use at boot, there is room up to the limit. -/
theorem boot_funded_below {marked : Nat} (ample : M.allocator.Ample Ready)
    (used : ∀ frame, frame < 2 ^ 20 → (Frames.boot M.bitmap).used frame = true → frame < marked)
    (few : 2 * n + marked ≤ 2 ^ 20) (room : M.layout.heapStart + 4096 * n ≤ M.limit) :
    Kernel.Funded (M.Room Ready 52 n) (System.boot M).kernel where
  covers := fun v page => by
    have empty : (Kernel.boot M).mappedEnd = M.layout.heapStart := Kernel.boot_mappedEnd
    have lower : M.layout.heapStart ≤ 4096 * v := page.1
    have upper : 4096 * v < (Kernel.boot M).mappedEnd := page.2
    omega
  supply := by
    refine ⟨2 * n, ?_, ample.boot, ?_, Nat.le_refl _⟩
    · show 2 * n ≤ (Frames.boot M.bitmap).unused
      have inside : Finset.Ico marked (2 ^ 20) ⊆ (Frames.boot M.bitmap).unusedBelow (2 ^ 20) := by
        intro frame member
        have bounds := Finset.mem_Ico.mp member
        refine Frames.mem_unusedBelow.mpr ⟨bounds.2, Bool.not_eq_true _ ▸ fun marked => ?_⟩
        have low := used frame bounds.2 marked
        omega
      have count := Finset.card_le_card inside
      rw [Nat.card_Ico] at count
      unfold Frames.unused
      omega
    · have empty : M.allocator.mappedEnd (Kernel.boot M).heap = M.layout.heapStart :=
        if_pos M.allocator.boot_end
      exact empty ▸ room

end Boot

end Snfos
