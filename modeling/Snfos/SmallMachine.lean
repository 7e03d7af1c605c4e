import Snfos.HeapRoom

set_option autoImplicit false

/- A small machine on which runs are known to return: 32 frames are in use at boot, and two
modules of two pages wait there. -/
namespace Snfos

open ByteMemory

namespace SmallMachine

def layout : Layout := lowLayout

abbrev Ready : Nat → DynamicAllocation.Heap → Prop := DynamicAllocation.Ready layout

def firstModule : Module := ⟨0x4000, 0x6000, by decide, by decide, by decide⟩

def secondModule : Module := ⟨0x6000, 0x8000, by decide, by decide, by decide⟩

/-- The directory of `boot.S` in frame 2. -/
def ram : Nat → Memory :=
  Function.update (fun _ _ => 0) 2
    (store32 (store32 (fun _ => 0) (4 * 768) (4096 * 1 + 3)) (4 * 1023) (4096 * 2 + 3))

def bitmap (block : Nat) : BitVec 32 := if block = 0 then 0xFFFFFFFF else 0

/-- All frames of a word of the bitmap are marked. -/
theorem full_word : ∀ i, i < 32 → (0xFFFFFFFF : BitVec 32).getLsbD i = true := by decide

theorem used_iff (frame : Nat) : (Frames.boot bitmap).used frame = true ↔ frame < 32 := by
  show (bitmap (frame / 32)).getLsbD (frame % 32) = true ↔ _
  unfold bitmap
  by_cases low : frame < 32
  · rw [if_pos (by omega), Nat.mod_eq_of_lt low]
    simp only [full_word frame low, low]
  · rw [if_neg (by omega), BitVec.ofNat_eq_ofNat, BitVec.getLsbD_zero]
    simp only [low, Bool.false_eq_true]

theorem covers_first (frame : Nat) : firstModule.Covers frame ↔ frame = 4 ∨ frame = 5 := by
  have pages : firstModule.numCodePages = 2 := by decide
  have start : firstModule.modStart = 0x4000 := rfl
  unfold Module.Covers
  rw [pages, start]
  omega

theorem covers_second (frame : Nat) : secondModule.Covers frame ↔ frame = 6 ∨ frame = 7 := by
  have pages : secondModule.numCodePages = 2 := by decide
  have start : secondModule.modStart = 0x6000 := rfl
  unfold Module.Covers
  rw [pages, start]
  omega

theorem directory_entries (i : Nat) (inside : i < 1024) : load32 (ram 2) (4 * i) =
    if i = 768 then 4096 * 1 + 3 else if i = 1023 then 4096 * 2 + 3 else 0 := by
  unfold ram
  rw [Function.update_self]
  by_cases self : i = 1023
  · subst self
    rw [load32_store32_of_lt _ _ _ (by decide)]
    rfl
  · rw [load32_store32_ne _ _ _ _ (by omega)]
    by_cases shared : i = 768
    · subst shared
      rw [load32_store32_of_lt _ _ _ (by decide)]
      rfl
    · rw [load32_store32_ne _ _ _ _ (by omega), if_neg shared, if_neg self]
      rfl

end SmallMachine

/-- The machine, whose heap may grow up to `limit`. -/
def smallMachine (limit : Nat) (limit_le : limit ≤ 0xFF800000) : Machine where
  layout := SmallMachine.layout
  allocator := DynamicAllocation.allocator SmallMachine.layout
  limit := limit
  limit_le := limit_le
  kernelPageTable := 1
  bootPageDirectory := 2
  modules := [SmallMachine.firstModule, SmallMachine.secondModule]
  ram := SmallMachine.ram
  bitmap := SmallMachine.bitmap
  low_used := (SmallMachine.used_iff 0).mpr (by decide)
  kernelPageTable_used := ⟨by decide, (SmallMachine.used_iff 1).mpr (by decide)⟩
  bootPageDirectory_used := ⟨by decide, (SmallMachine.used_iff 2).mpr (by decide)⟩
  modules_used := by
    intro m member frame covers
    rw [SmallMachine.used_iff]
    simp only [List.mem_cons, List.not_mem_nil, or_false] at member
    rcases member with rfl | rfl
    · rw [SmallMachine.covers_first] at covers
      omega
    · rw [SmallMachine.covers_second] at covers
      omega
  tables_apart := by decide
  modules_outside := by
    intro m member
    simp only [List.mem_cons, List.not_mem_nil, or_false] at member
    rcases member with rfl | rfl
    · simp only [SmallMachine.covers_first]
      decide
    · simp only [SmallMachine.covers_second]
      decide
  modules_apart := by
    simp only [List.pairwise_cons, List.mem_cons, List.not_mem_nil, or_false, forall_eq,
      SmallMachine.covers_first, SmallMachine.covers_second, false_implies, implies_true,
      List.Pairwise.nil, and_true]
    omega
  boot_entries := SmallMachine.directory_entries
  heap_unmapped := fun j _ _ => rfl

namespace SmallMachine

open Kernel

variable {limit : Nat} {limit_le : limit ≤ 0xFF800000}

theorem short : (smallMachine limit limit_le).Short := by
  intro m member
  have which : m ∈ [firstModule, secondModule] := member
  simp only [List.mem_cons, List.not_mem_nil, or_false] at which
  rcases which with rfl | rfl <;> decide

theorem ample : (smallMachine limit limit_le).allocator.Ample Ready := DynamicAllocation.ample layout

/-- At boot there is room up to the limit. -/
theorem boot_funded (pages : Nat) (room : 0xC0102000 + 4096 * pages ≤ limit) (few : pages ≤ 0x40000) :
    Funded ((smallMachine limit limit_le).Room Ready 52 pages)
      (System.boot (smallMachine limit limit_le)).kernel := by
  have start : layout.heapStart = 0xC0102000 := by decide
  refine boot_funded_below ample (fun frame _ => (used_iff frame).mp)
    (by omega) ?_
  show layout.heapStart + 4096 * pages ≤ limit
  rw [start]
  exact room

end SmallMachine

end Snfos
