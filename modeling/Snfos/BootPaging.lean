import Snfos.Kernel
import Snfos.Library.Assembly

set_option autoImplicit false

/- The loop of `boot.S` that fills the kernel's page table before paging is on. -/
namespace Snfos.BootPaging

open Assembly

inductive Label
  | start
  | addMapping
  | enablePaging

/-- The image as the boot loader leaves it in memory: `kernel_page_table` and
`boot_page_directory` lie at the start of a frame each, with the data of `boot.S`, and the
image ends at `kernel_physical_end`. -/
structure BootImage where
  kernelPageTable : Nat
  bootPageDirectory : Nat
  kernelPhysicalEnd : Nat
  memory : Memory
  table_lt : kernelPageTable < 2 ^ 20
  directory_lt : bootPageDirectory < 2 ^ 20
  apart : kernelPageTable ≠ bootPageDirectory
  lower : 0x100000 < kernelPhysicalEnd
  upper : kernelPhysicalEnd ≤ 0x400000
  table : ∀ i, i < 1024 → load memory (BitVec.ofNat 32 (4096 * kernelPageTable + 4 * i)) = 0
  directory : ∀ i, i < 1024 → load memory (BitVec.ofNat 32 (4096 * bootPageDirectory + 4 * i)) =
    BitVec.ofNat 32 (if i = 0 then 0x83 else if i = 768 then 4096 * kernelPageTable + 3
      else if i = 1023 then 4096 * bootPageDirectory + 3 else 0)

namespace BootImage

variable (B : BootImage)

def addMappingText : List (Instruction Label) :=
  [.cmpWord (BitVec.ofNat 32 B.kernelPhysicalEnd) .edx, .jge .enablePaging, .movTo .edx .ecx,
    .addWord 0x1000 .edx, .addWord 0x4 .ecx, .jmp .addMapping]

def startText : List (Instruction Label) :=
  [.movWord (BitVec.ofNat 32 (4096 * B.kernelPageTable)) .ecx, .movWord 0x03 .edx] ++ B.addMappingText

def program : Program Label where
  text
    | .start => some B.startText
    | .addMapping => some B.addMappingText
    | .enablePaging => none
  returnAddress := fun _ => 0

/-- The memory after `n` entries were written. -/
def filled : Nat → Memory
  | 0 => B.memory
  | n + 1 => store (filled n) (BitVec.ofNat 32 (4096 * B.kernelPageTable + 4 * n))
      (BitVec.ofNat 32 (4096 * n + 3))

/-- Entry `k` of the page table is present, writable and points to frame `k`. -/
def PointsTo (m : Memory) (k : Nat) : Prop :=
  let pte := (load m (BitVec.ofNat 32 (4096 * B.kernelPageTable + 4 * k))).toNat
  pte % 2 = 1 ∧ pte / 2 % 2 = 1 ∧ pte / 4096 = k

/-- Physical memory, frame by frame. -/
def frames (m : Memory) (f offset : Nat) : UInt8 := UInt8.ofBitVec (m (BitVec.ofNat 32 (4096 * f + offset)))

/-- What the loop owes: it ends after at most 1024 entries, those of the frames that hold a
byte of the image are right and no others, and the image is mapped from 0xC0000000 on. -/
def Covers : Prop :=
  ∀ s : Processor Label, s.control = .run B.startText → s.memory = B.memory →
    ∃ n t, n ≤ 1024 ∧ Processor.Reaches B.program s t ∧ t.control = .function .enablePaging ∧
      t.memory = B.filled n ∧
      (∀ k, k < 1024 → (B.PointsTo t.memory k ↔ ∃ p, p < B.kernelPhysicalEnd ∧ p / 4096 = k)) ∧
      ∀ p, p < B.kernelPhysicalEnd →
        translate (frames t.memory) B.bootPageDirectory (0xC0000000 + p) = some (p / 4096, p % 4096)

/-- The entries that the loop writes: those that are less than the end of the image. -/
def count : Nat := (B.kernelPhysicalEnd + 4092) / 4096

section Loop

variable {B} {s : Processor Label} {n k : Nat}

/-- At the label, with `k` entries written. -/
structure At (B : BootImage) (k : Nat) (s : Processor Label) : Prop where
  control : s.control = .run B.addMappingText
  ecx : s.register .ecx = BitVec.ofNat 32 (4096 * B.kernelPageTable + 4 * k)
  edx : s.register .edx = BitVec.ofNat 32 (4096 * k + 3)
  memory : s.memory = B.filled k

theorem lt_count_iff : k < B.count ↔ 4096 * k + 3 < B.kernelPhysicalEnd := by
  unfold count
  omega

theorem count_le : B.count ≤ 1024 := by
  have upper := B.upper
  unfold count
  omega

/-- The comparison is one of signed words, and both are small. -/
theorem notLess_iff (small : k ≤ 1024) :
    (BitVec.ofNat 32 B.kernelPhysicalEnd).toInt ≤ (BitVec.ofNat 32 (4096 * k + 3)).toInt ↔
      B.kernelPhysicalEnd ≤ 4096 * k + 3 := by
  have upper := B.upper
  rw [BitVec.toInt_eq_toNat_of_lt (by rw [BitVec.toNat_ofNat]; omega),
    BitVec.toInt_eq_toNat_of_lt (by rw [BitVec.toNat_ofNat]; omega), BitVec.toNat_ofNat,
    BitVec.toNat_ofNat]
  omega

/-- The comparison leaves its flag. -/
theorem At.compared (here : At B k s) (small : k ≤ 1024) {notLess : Bool}
    (flag : notLess = decide (B.kernelPhysicalEnd ≤ 4096 * k + 3)) :
    Processor.Reaches B.program s ({ s with notLess := notLess }.goto (.run B.addMappingText.tail)) := by
  apply Processor.execute_reaches here.control
  show some ({ s with notLess := _ }.goto _) = _
  rw [flag, ← decide_eq_decide.mpr (notLess_iff small), here.edx]
  rfl

/-- One pass. -/
theorem At.next (here : At B k s) (more : k < B.count) :
    ∃ t, Processor.Reaches B.program s t ∧ At B (k + 1) t := by
  have small := @count_le B
  have entry := lt_count_iff.mp more
  have flag : false = decide (B.kernelPhysicalEnd ≤ 4096 * k + 3) :=
    (decide_eq_false (by omega)).symm
  refine ⟨_, .trans (here.compared (by omega) flag) (.trans (Processor.execute_reaches rfl rfl)
    (.trans (Processor.execute_reaches rfl rfl) (.trans (Processor.execute_reaches rfl rfl)
      (.trans (Processor.execute_reaches rfl rfl) (Processor.execute_reaches rfl rfl))))), rfl, ?_, ?_, ?_⟩
  · show s.register .ecx + 4 = _
    rw [here.ecx]
    bv_omega
  · show s.register .edx + 0x1000 = _
    rw [here.edx]
    bv_omega
  · show store s.memory (s.register .ecx) (s.register .edx) = _
    rw [here.memory, here.ecx, here.edx]
    rfl

theorem At.stop (here : At B B.count s) :
    ∃ t, Processor.Reaches B.program s t ∧ t.control = .function .enablePaging ∧
      t.memory = B.filled B.count := by
  have small := @count_le B
  have entry := (lt_count_iff (B := B) (k := B.count)).not.mp (Nat.lt_irrefl _)
  have flag : true = decide (B.kernelPhysicalEnd ≤ 4096 * B.count + 3) :=
    (decide_eq_true (by omega)).symm
  exact ⟨_, .trans (here.compared small flag) (Processor.execute_reaches rfl rfl), rfl, here.memory⟩

/-- The loop runs to its end from any pass. -/
theorem At.runs (here : At B k s) (inside : k ≤ B.count) :
    ∃ t, Processor.Reaches B.program s t ∧ t.control = .function .enablePaging ∧
      t.memory = B.filled B.count := by
  induction left : B.count - k generalizing s k with
  | zero =>
    obtain rfl : k = B.count := by omega
    exact here.stop
  | succ left ih =>
    obtain ⟨t, passed, later⟩ := here.next (by omega)
    obtain ⟨u, reaches, ends⟩ := ih later (by omega) (by omega)
    exact ⟨u, .trans passed reaches, ends⟩

theorem start_runs (here : s.control = .run B.startText) (memory : s.memory = B.memory) :
    ∃ t, Processor.Reaches B.program s t ∧ t.control = .function .enablePaging ∧
      t.memory = B.filled B.count := by
  have first := Processor.execute_reaches (P := B.program) here rfl
  have second := Processor.execute_reaches (P := B.program)
    (s := (s.set .ecx (BitVec.ofNat 32 (4096 * B.kernelPageTable))).goto
      (.run (.movWord 0x03 .edx :: B.addMappingText))) rfl rfl
  have begun : At B 0 (((s.set .ecx (BitVec.ofNat 32 (4096 * B.kernelPageTable))).set .edx 0x03).goto
      (.run B.addMappingText)) := ⟨rfl, rfl, rfl, memory⟩
  obtain ⟨t, reaches, ends⟩ := begun.runs (Nat.zero_le _)
  exact ⟨t, .trans first (.trans second reaches), ends⟩

end Loop

section Entries

variable {B} {n k : Nat}

/-- The page table after `n` passes. -/
theorem load_filled (some : n ≤ 1024) (inside : k < 1024) :
    load (B.filled n) (BitVec.ofNat 32 (4096 * B.kernelPageTable + 4 * k)) =
      BitVec.ofNat 32 (if k < n then 4096 * k + 3 else 0) := by
  induction n with
  | zero => exact B.table k inside
  | succ n ih =>
    unfold filled
    by_cases here : k = n
    · rw [here, load_store, if_pos (Nat.lt_succ_self n)]
    · rw [load_store_apart _ _ (by bv_omega) (by bv_omega), ih (by omega)]
      congr 1
      exact if_congr (by omega) rfl rfl

theorem load_directory (some : n ≤ 1024) (inside : k < 1024) :
    load (B.filled n) (BitVec.ofNat 32 (4096 * B.bootPageDirectory + 4 * k)) =
      load B.memory (BitVec.ofNat 32 (4096 * B.bootPageDirectory + 4 * k)) := by
  have bound := B.table_lt
  have bound' := B.directory_lt
  have apart := B.apart
  induction n with
  | zero => rfl
  | succ n ih =>
    unfold filled
    rw [load_store_apart _ _ (by bv_omega) (by bv_omega), ih (by omega)]

theorem entry_frames (m : Memory) (f k : Nat) :
    entry (frames m) f k = (load m (BitVec.ofNat 32 (4096 * f + 4 * k))).toNat := by
  have byte : ∀ i, i < 4 → (frames m f (4 * k + i)).toNat =
      (m (BitVec.ofNat 32 (4096 * f + 4 * k) + BitVec.ofNat 32 i)).toNat := by
    intro i few
    have address : BitVec.ofNat 32 (4096 * f + (4 * k + i)) =
        BitVec.ofNat 32 (4096 * f + 4 * k) + BitVec.ofNat 32 i := by bv_omega
    unfold frames
    rw [address]
    rfl
  have zero : (frames m f (4 * k)).toNat = (m (BitVec.ofNat 32 (4096 * f + 4 * k))).toNat := by
    have first := byte 0 (by decide)
    rw [BitVec.add_zero] at first
    exact first
  unfold entry ByteMemory.load32
  rw [zero, byte 1 (by decide), byte 2 (by decide), byte 3 (by decide), load_toNat]
  rfl

theorem pointsTo_filled (inside : k < 1024) :
    B.PointsTo (B.filled B.count) k ↔ 4096 * k + 3 < B.kernelPhysicalEnd := by
  unfold PointsTo
  rw [load_filled count_le inside, ← lt_count_iff]
  dsimp only
  by_cases written : k < B.count
  · have value : (BitVec.ofNat 32 (4096 * k + 3)).toNat = 4096 * k + 3 := by
      rw [BitVec.toNat_ofNat]
      omega
    rw [if_pos written, value]
    exact ⟨fun _ => written, fun _ => by omega⟩
  · rw [if_neg written]
    exact ⟨fun points => absurd points.1 (by decide), fun less => absurd less written⟩

theorem holds_byte_iff : (∃ p, p < B.kernelPhysicalEnd ∧ p / 4096 = k) ↔
    4096 * k < B.kernelPhysicalEnd := by
  constructor
  · rintro ⟨p, inside, frame⟩
    omega
  · intro inside
    exact ⟨4096 * k, inside, Nat.mul_div_cancel_left k (by decide)⟩

/-- The image through the directory's entry for the kernel. -/
theorem translate_image {p : Nat} (inside : p < B.kernelPhysicalEnd)
    (points : B.PointsTo (B.filled B.count) (p / 4096)) :
    translate (frames (B.filled B.count)) B.bootPageDirectory (0xC0000000 + p) =
      some (p / 4096, p % 4096) := by
  have upper := B.upper
  have bound := B.table_lt
  have pde : (0xC0000000 + p) / 2 ^ 22 = 768 := by omega
  have index : (0xC0000000 + p) / 4096 % 1024 = p / 4096 := by omega
  have offset : (0xC0000000 + p) % 4096 = p % 4096 := by omega
  have table : entry (frames (B.filled B.count)) B.bootPageDirectory 768 = 4096 * B.kernelPageTable + 3 := by
    rw [entry_frames, load_directory count_le (by decide),
      B.directory 768 (by decide), if_neg (by decide), if_pos rfl, BitVec.toNat_ofNat,
      Nat.mod_eq_of_lt (by omega)]
  have frame : (4096 * B.kernelPageTable + 3) / 4096 = B.kernelPageTable := by omega
  obtain ⟨present, _, leads⟩ := points
  rw [← entry_frames] at present leads
  unfold translate
  dsimp only
  rw [pde, index, offset, table, if_neg (by omega), frame, if_neg (by omega), leads]

end Entries

/-- Frame `kernel_physical_end / 4096` holds the last bytes of the image. -/
theorem whole_of_covers (B : BootImage) (covers : B.Covers) :
    B.kernelPhysicalEnd % 4096 = 0 ∨ 4 ≤ B.kernelPhysicalEnd % 4096 := by
  have upper := B.upper
  by_contra short
  obtain ⟨s, here, memory⟩ : ∃ s : Processor Label, s.control = .run B.startText ∧ s.memory = B.memory :=
    ⟨⟨fun _ => 0, 0, B.memory, false, .run B.startText⟩, rfl, rfl⟩
  obtain ⟨n, t, _, reaches, control, _, entries, _⟩ := covers s here memory
  obtain ⟨t', reaches', control', filled⟩ := start_runs here memory
  have stops : ∀ u : Processor Label, u.control = .function .enablePaging → u.step B.program = none := by
    intro u ended
    unfold Processor.step
    rw [ended]
  obtain rfl := reaches.stops reaches' (stops t control) (stops t' control')
  have last := entries (B.kernelPhysicalEnd / 4096) (by omega)
  rw [filled, pointsTo_filled (by omega), holds_byte_iff] at last
  omega

/-- The loop covers the image if and only if the image does not end within the first three
bytes of a page. -/
theorem covers_iff (B : BootImage) :
    B.Covers ↔ B.kernelPhysicalEnd % 4096 = 0 ∨ 4 ≤ B.kernelPhysicalEnd % 4096 := by
  have upper := B.upper
  constructor
  · exact B.whole_of_covers
  · intro whole s here memory
    obtain ⟨t, reaches, control, filled⟩ := start_runs here memory
    have points : ∀ k, k < 1024 →
        (B.PointsTo (B.filled B.count) k ↔ 4096 * k < B.kernelPhysicalEnd) := by
      intro k inside
      rw [pointsTo_filled inside]
      omega
    refine ⟨B.count, t, count_le, reaches, control, filled, fun k inside => ?_, fun p inside => ?_⟩
    · rw [filled, points k inside, holds_byte_iff]
    · rw [filled]
      exact translate_image inside ((points (p / 4096) (by omega)).mpr (by omega))

theorem load_zero (a : Word) : load (fun _ => 0) a = 0 := by
  show ((0#8 ++ 0#8 ++ 0#8 ++ 0#8 : Word)) = 0
  decide

/-- An image of the given end, with its directory and table in frames 0x101 and 0x102. -/
def ending (kernelPhysicalEnd : Nat) (lower : 0x100000 < kernelPhysicalEnd)
    (upper : kernelPhysicalEnd ≤ 0x400000) : BootImage where
  kernelPageTable := 0x102
  bootPageDirectory := 0x101
  kernelPhysicalEnd := kernelPhysicalEnd
  memory := store (store (store (fun _ => 0) 0x101000 0x83) 0x101C00 0x102003) 0x101FFC 0x101003
  table_lt := by decide
  directory_lt := by decide
  apart := by decide
  lower := lower
  upper := upper
  table := by
    intro i inside
    rw [load_store_apart _ _ (by bv_omega) (by bv_omega),
      load_store_apart _ _ (by bv_omega) (by bv_omega), load_store_apart _ _ (by bv_omega) (by bv_omega)]
    exact load_zero _
  directory := by
    intro i inside
    by_cases last : i = 1023
    · rw [last]
      exact load_store ..
    · rw [load_store_apart _ _ (by bv_omega) (by bv_omega)]
      by_cases kernel : i = 768
      · rw [kernel]
        exact load_store ..
      · rw [load_store_apart _ _ (by bv_omega) (by bv_omega), if_neg kernel, if_neg last]
        by_cases first : i = 0
        · rw [first]
          exact load_store ..
        · rw [load_store_apart _ _ (by bv_omega) (by bv_omega), if_neg first]
          exact load_zero _

/-- An image whose last byte is the first one of a page. -/
theorem ending_uncovered : ¬ (ending 0x140001 (by decide) (by decide)).Covers := by
  intro covers
  exact absurd (whole_of_covers _ covers) (by decide)

end BootImage

end Snfos.BootPaging
