import Snfos.BootPaging
import Snfos.BootMemory
import Snfos.BootMap

set_option autoImplicit false

/- From `boot.S` to the first call of the heap: `kernel_main` finds the boot loader's
information through the pages that `add_mapping` mapped, and marks what it reserves. -/
namespace Snfos

open ByteMemory Kernel

/-- `to_virtual`. -/
def toVirtual (address : Nat) : Nat := u32 (address + 0xC0000000)

section Window

/-- Physical memory as one range of bytes. -/
def flat (ram : Nat → Memory) : Memory := fun p => ram (p / 4096) (p % 4096)

/-- Memory through the page tables. Nothing is read where nothing is mapped. -/
def seen (ram : Nat → Memory) (directory : Nat) : Memory := fun a =>
  match translate ram directory a with
  | some (frame, offset) => ram frame offset
  | none => 0

/-- A byte that is not mapped cannot be written. -/
def writeByte (directory a : Nat) (byte : UInt8) (ram : Nat → Memory) : Option (Nat → Memory) :=
  (translate ram directory a).map fun place =>
    Function.update ram place.1 (store8 (ram place.1) place.2 byte)

def writeField (directory a value : Nat) (ram : Nat → Memory) : Option (Nat → Memory) := do
  let ram ← writeByte directory a (UInt8.ofNat value) ram
  let ram ← writeByte directory (a + 1) (UInt8.ofNat (value / 2 ^ 8)) ram
  let ram ← writeByte directory (a + 2) (UInt8.ofNat (value / 2 ^ 16)) ram
  writeByte directory (a + 3) (UInt8.ofNat (value / 2 ^ 24)) ram

/-- `virtualize_multiboot_info`, with the memory it leaves: `mods_addr` is at 24 and `mmap_addr`
at 48. -/
def virtualizeMultibootInfo (directory ebx : Nat) (ram : Nat → Memory) :
    Option (Nat × (Nat → Memory)) := do
  let mbinfo := toVirtual ebx
  let modsAddr := load32 (seen ram directory) (mbinfo + 24)
  let ram ← writeField directory (mbinfo + 24) (toVirtual modsAddr) ram
  let mmapAddr := load32 (seen ram directory) (mbinfo + 48)
  let ram ← writeField directory (mbinfo + 48) (toVirtual mmapAddr) ram
  pure (mbinfo, ram)

/-- The first `n` pages from 0xC0000000 on are the first `n` frames. -/
structure Window (ram : Nat → Memory) (d t n : Nat) : Prop where
  few : n ≤ 1024
  shared : entry ram d 768 = 4096 * t + 3
  pages : ∀ k, k < n → entry ram t k = 4096 * k + 3

variable {ram : Nat → Memory} {d t n p : Nat}

theorem Window.translate (window : Window ram d t n) (inside : p < 4096 * n) :
    translate ram d (0xC0000000 + p) = some (p / 4096, p % 4096) := by
  have few := window.few
  have pde : (0xC0000000 + p) / 2 ^ 22 = 768 := by omega
  have index : (0xC0000000 + p) / 4096 % 1024 = p / 4096 := by omega
  have offset : (0xC0000000 + p) % 4096 = p % 4096 := by omega
  have table : (4096 * t + 3) / 4096 = t := by omega
  have leads := window.pages (p / 4096) (by omega)
  unfold Snfos.translate
  dsimp only
  rw [pde, window.shared, if_neg (by omega), table, index, leads, if_neg (by omega), offset,
    show (4096 * (p / 4096) + 3) / 4096 = p / 4096 by omega]

theorem Window.update (window : Window ram d t n) {f : Nat} (bytes : Memory) (directory : f ≠ d)
    (table : f ≠ t) : Window (Function.update ram f bytes) d t n where
  few := window.few
  shared := (entry_update_ne bytes 768 directory.symm).trans window.shared
  pages := fun k inside => (entry_update_ne bytes k table.symm).trans (window.pages k inside)

theorem Window.seen (window : Window ram d t n) (inside : p < 4096 * n) :
    seen ram d (0xC0000000 + p) = flat ram p := by
  unfold Snfos.seen
  rw [window.translate inside]
  rfl

theorem Window.load32_seen (window : Window ram d t n) (inside : p + 4 ≤ 4096 * n) :
    load32 (Snfos.seen ram d) (0xC0000000 + p) = load32 (flat ram) p := by
  have byte : ∀ i, i < 4 → Snfos.seen ram d (0xC0000000 + p + i) = flat ram (p + i) := by
    intro i few
    rw [Nat.add_assoc, window.seen (by omega)]
  unfold load32
  rw [window.seen (by omega), byte 1 (by decide), byte 2 (by decide), byte 3 (by decide)]

/-- A frame that is neither the directory nor the table. -/
def Other (d t p : Nat) : Prop := p / 4096 ≠ d ∧ p / 4096 ≠ t

theorem Window.writeByte (window : Window ram d t n) (inside : p < 4096 * n) (other : Other d t p)
    (byte : UInt8) : ∃ ram', writeByte d (0xC0000000 + p) byte ram = some ram' ∧
      Window ram' d t n ∧ flat ram' = store8 (flat ram) p byte := by
  unfold Snfos.writeByte
  rw [window.translate inside]
  refine ⟨_, rfl, window.update _ other.1 other.2, ?_⟩
  funext q
  unfold flat store8
  dsimp only
  by_cases frame : q / 4096 = p / 4096
  · rw [frame, Function.update_self]
    exact if_congr (by omega) rfl rfl
  · rw [Function.update_of_ne frame, if_neg fun same => frame (by rw [same])]

theorem Window.writeField (window : Window ram d t n) (inside : p + 4 ≤ 4096 * n)
    (other : ∀ i, i < 4 → Other d t (p + i)) (value : Nat) :
    ∃ ram', writeField d (0xC0000000 + p) value ram = some ram' ∧ Window ram' d t n ∧
      flat ram' = store32 (flat ram) p value := by
  obtain ⟨ram₁, write₁, window₁, flat₁⟩ := window.writeByte (by omega) (other 0 (by decide))
    (UInt8.ofNat value)
  obtain ⟨ram₂, write₂, window₂, flat₂⟩ := window₁.writeByte (by omega) (other 1 (by decide))
    (UInt8.ofNat (value / 2 ^ 8))
  obtain ⟨ram₃, write₃, window₃, flat₃⟩ := window₂.writeByte (by omega) (other 2 (by decide))
    (UInt8.ofNat (value / 2 ^ 16))
  obtain ⟨ram₄, write₄, window₄, flat₄⟩ := window₃.writeByte (by omega) (other 3 (by decide))
    (UInt8.ofNat (value / 2 ^ 24))
  refine ⟨ram₄, ?_, window₄, ?_⟩
  · unfold Snfos.writeField
    rw [Nat.add_zero] at write₁
    rw [write₁, Option.bind_eq_bind, Option.bind_some, Nat.add_assoc, write₂, Option.bind_some,
      Nat.add_assoc, write₃, Option.bind_some, Nat.add_assoc, write₄]
  · rw [flat₄, flat₃, flat₂, flat₁]
    funext q
    unfold store32 store8
    simp only [Nat.add_zero]
    split_ifs <;> first | rfl | omega

end Window

namespace BootPaging.BootImage

variable (B : BootImage)

/-- Memory once `higher_half` has taken the mapping of the first 4 MiB away. -/
def higherHalf : Assembly.Memory :=
  Assembly.store (B.filled B.count) (BitVec.ofNat 32 (4096 * B.bootPageDirectory)) 0

variable {B}

theorem directory_higherHalf {i : Nat} (inside : i < 1024) :
    entry (frames B.higherHalf) B.bootPageDirectory i =
      if i = 768 then 4096 * B.kernelPageTable + 3
      else if i = 1023 then 4096 * B.bootPageDirectory + 3 else 0 := by
  have table := B.table_lt
  have directory := B.directory_lt
  rw [entry_frames]
  unfold higherHalf
  by_cases first : i = 0
  · rw [first, Nat.mul_zero, Nat.add_zero, Assembly.load_store]
    rfl
  · rw [Assembly.load_store_apart _ _ (by bv_omega) (by bv_omega), load_directory count_le inside,
      B.directory i inside, if_neg first, BitVec.toNat_ofNat]
    split
    · omega
    split
    · omega
    · rfl

theorem table_higherHalf {k : Nat} (inside : k < 1024) :
    entry (frames B.higherHalf) B.kernelPageTable k = if k < B.count then 4096 * k + 3 else 0 := by
  have table := B.table_lt
  have directory := B.directory_lt
  have apart := B.apart
  rw [entry_frames]
  unfold higherHalf
  rw [Assembly.load_store_apart _ _ (by bv_omega) (by bv_omega), load_filled count_le inside,
    BitVec.toNat_ofNat]
  split
  · omega
  · rfl

theorem window_higherHalf :
    Window (frames B.higherHalf) B.bootPageDirectory B.kernelPageTable B.count where
  few := count_le
  shared := directory_higherHalf (by decide)
  pages := fun k inside => by
    have few := @count_le B
    rw [table_higherHalf (by omega), if_pos inside]

variable (B) in
/-- Physical memory as the boot loader leaves it. -/
def bytes : Memory := fun p => UInt8.ofBitVec (B.memory (BitVec.ofNat 32 p))

variable (B) in
/-- What the boot loader says of it, at physical addresses. -/
def loaded (ebx : Nat) : Boot := ⟨B.bytes, ebx, B.kernelPhysicalEnd⟩

variable (B) in
def layout : Layout where
  virtKernelEnd := 0xC0000000 + B.kernelPhysicalEnd
  lower := by
    have lower := B.lower
    omega
  upper := by
    have upper := B.upper
    omega

/-- The boot code writes to its two tables only. -/
theorem filled_other {n p : Nat} (some : n ≤ 1024) (bound : p < 2 ^ 32)
    (other : Other B.bootPageDirectory B.kernelPageTable p) :
    B.filled n (BitVec.ofNat 32 p) = B.memory (BitVec.ofNat 32 p) := by
  have table := B.table_lt
  obtain ⟨_, outside⟩ := other
  induction n with
  | zero => rfl
  | succ n ih =>
    unfold filled
    rw [Assembly.store_apart _ _ (by bv_omega), ih (by omega)]

theorem flat_higherHalf {p : Nat} (bound : p < 2 ^ 32)
    (other : Other B.bootPageDirectory B.kernelPageTable p) :
    flat (frames B.higherHalf) p = B.bytes p := by
  have directory := B.directory_lt
  unfold flat frames higherHalf bytes
  rw [show 4096 * (p / 4096) + p % 4096 = p by omega, ← filled_other count_le bound other]
  obtain ⟨outside, _⟩ := other
  rw [Assembly.store_apart _ _ (by bv_omega)]

end BootPaging.BootImage

/-- Byte `p` is one of the information's own fields. -/
def Boot.InInfo (b : Boot) (p : Nat) : Prop := b.info ≤ p ∧ p < b.info + infoSize

/-- Byte `p` is one of the list of modules or of the memory map. -/
def Boot.InLists (b : Boot) (p : Nat) : Prop :=
  b.modsAddr ≤ p ∧ p < b.modsAddr + 16 * b.modsCount ∨
    b.flags &&& (1 <<< 6) ≠ 0 ∧ b.mmapAddr ≤ p ∧ p < b.mmapAddr + b.mmapLength

/-- The machine when the boot loader enters `_start`. What the kernel reads of the loader's
information lies in the pages that `add_mapping` maps, and not in the two tables. The modules lie
behind the image, on page boundaries, as the multiboot header asks. -/
structure StartUp where
  image : BootPaging.BootImage
  /-- The physical address of the information. -/
  ebx : Nat
  entries : List MapEntry
  allocator : Allocator image.layout
  limit : Nat
  limit_le : limit ≤ 0xFF800000
  tables : ∀ f, f = image.kernelPageTable ∨ f = image.bootPageDirectory →
    0x100 ≤ f ∧ 4096 * f + 4096 ≤ image.kernelPhysicalEnd
  reached : ∀ p, (image.loaded ebx).InInfo p ∨ (image.loaded ebx).InLists p →
    p < 4096 * image.count ∧ Other image.bootPageDirectory image.kernelPageTable p
  lists : ∀ p, (image.loaded ebx).InLists p → ¬ (image.loaded ebx).InInfo p
  map : if (image.loaded ebx).flags &&& (1 <<< 6) ≠ 0 then
      (image.loaded ebx).Lists (image.loaded ebx).mmapAddr entries
        ((image.loaded ebx).mmapAddr + (image.loaded ebx).mmapLength) ∧
      (image.loaded ebx).mmapAddr + (image.loaded ebx).mmapLength ≤ 4096 * image.count
    else entries = []
  plain : (image.loaded ebx).Plain entries
  behind : ∀ i, i < (image.loaded ebx).modsCount → (image.loaded ebx).modStart i % 4096 = 0 ∧
    image.kernelPhysicalEnd ≤ (image.loaded ebx).modStart i
  apart : ∀ i j, i < j → j < (image.loaded ebx).modsCount →
    (image.loaded ebx).modEnd i ≤ (image.loaded ebx).modStart j ∨
      (image.loaded ebx).modEnd j ≤ (image.loaded ebx).modStart i

namespace StartUp

variable (S : StartUp)

/-- The boot loader's information at its physical addresses. -/
def loaded : Boot := S.image.loaded S.ebx

/-- Memory when `init_bitmap` is called. -/
def ram : Nat → Memory :=
  ((virtualizeMultibootInfo S.image.bootPageDirectory S.ebx
    (BootPaging.BootImage.frames S.image.higherHalf)).map Prod.snd).getD fun _ _ => 0

/-- What `init_bitmap` is given. -/
def boot : Boot where
  memory := seen S.ram S.image.bootPageDirectory
  info := toVirtual S.ebx
  kernelEnd := S.image.kernelPhysicalEnd

section Information

variable {S}

theorem window_le : 4096 * S.image.count ≤ 0x400000 := by
  have few := @BootPaging.BootImage.count_le S.image
  omega

theorem info_reached {i : Nat} (inside : i < infoSize) : S.ebx + i < 4096 * S.image.count ∧
    Other S.image.bootPageDirectory S.image.kernelPageTable (S.ebx + i) :=
  S.reached _ (Or.inl ⟨Nat.le_add_right .., Nat.add_lt_add_left inside _⟩)

theorem toVirtual_of_le {p : Nat} (low : p ≤ 0x400000) : toVirtual p = 0xC0000000 + p := by
  unfold toVirtual
  rw [u32_of_lt (by omega), Nat.add_comm]

theorem loaded_word {p : Nat} (low : p < 0x400000) : S.loaded.word p = load32 S.loaded.memory p := by
  unfold Boot.word
  rw [u32_of_lt (by omega)]

/-- `virtualize_multiboot_info` finds the information, and writes nowhere else. -/
theorem virtualizes : virtualizeMultibootInfo S.image.bootPageDirectory S.ebx
      (BootPaging.BootImage.frames S.image.higherHalf) = some (toVirtual S.ebx, S.ram) ∧
    Window S.ram S.image.bootPageDirectory S.image.kernelPageTable S.image.count ∧
    flat S.ram = store32 (store32 (flat (BootPaging.BootImage.frames S.image.higherHalf)) (S.ebx + 24)
      (toVirtual S.loaded.modsAddr)) (S.ebx + 48) (toVirtual S.loaded.mmapAddr) := by
  have low := @window_le S
  obtain ⟨last, _⟩ := info_reached (S := S) (i := 119) (by decide)
  have window := @BootPaging.BootImage.window_higherHalf S.image
  have field : ∀ i, i + 4 ≤ infoSize → load32 (flat (BootPaging.BootImage.frames S.image.higherHalf))
      (S.ebx + i) = S.loaded.word (S.ebx + i) := by
    intro i inside
    unfold infoSize at inside
    rw [loaded_word (by omega)]
    refine load32_congr fun b lower upper => ?_
    obtain ⟨j, rfl⟩ : ∃ j, b = S.ebx + j := ⟨b - S.ebx, by omega⟩
    exact BootPaging.BootImage.flat_higherHalf (by omega) (info_reached (by unfold infoSize; omega)).2
  have modsAddr : load32 (seen (BootPaging.BootImage.frames S.image.higherHalf) S.image.bootPageDirectory)
      (toVirtual S.ebx + 24) = S.loaded.modsAddr := by
    rw [toVirtual_of_le (by omega), Nat.add_assoc, window.load32_seen (by omega), field 24 (by decide)]
    rfl
  obtain ⟨ram₁, write₁, window₁, flat₁⟩ := window.writeField (p := S.ebx + 24) (by omega)
    (fun i few => by
      rw [Nat.add_assoc]
      exact (info_reached (by unfold infoSize; omega)).2) (toVirtual S.loaded.modsAddr)
  have mmapAddr : load32 (seen ram₁ S.image.bootPageDirectory) (toVirtual S.ebx + 48) =
      S.loaded.mmapAddr := by
    rw [toVirtual_of_le (by omega), Nat.add_assoc, window₁.load32_seen (by omega), flat₁,
      load32_store32_ne _ _ _ _ (by omega), field 48 (by decide)]
    rfl
  obtain ⟨ram₂, write₂, window₂, flat₂⟩ := window₁.writeField (p := S.ebx + 48) (by omega)
    (fun i few => by
      rw [Nat.add_assoc]
      exact (info_reached (by unfold infoSize; omega)).2) (toVirtual S.loaded.mmapAddr)
  have result : virtualizeMultibootInfo S.image.bootPageDirectory S.ebx
      (BootPaging.BootImage.frames S.image.higherHalf) = some (toVirtual S.ebx, ram₂) := by
    unfold virtualizeMultibootInfo
    dsimp only
    rw [modsAddr]
    rw [← Nat.add_assoc, ← toVirtual_of_le (by omega)] at write₁ write₂
    rw [write₁, Option.bind_eq_bind, Option.bind_some, mmapAddr, write₂]
    rfl
  have same : S.ram = ram₂ := by
    unfold ram
    rw [result]
    rfl
  rw [same]
  exact ⟨result, window₂, by rw [flat₂, flat₁]⟩

theorem window : Window S.ram S.image.bootPageDirectory S.image.kernelPageTable S.image.count :=
  (virtualizes (S := S)).2.1

theorem memory_seen {p : Nat} (inside : p + 4 ≤ 4096 * S.image.count) :
    load32 S.boot.memory (0xC0000000 + p) = load32 (flat S.ram) p := by
  dsimp only [boot]
  exact window.load32_seen inside

/-- What lies outside the tables and the information is as the boot loader left it. -/
theorem flat_ram {p : Nat} (bound : p < 2 ^ 32) (outside : ¬ S.loaded.InInfo p)
    (other : Other S.image.bootPageDirectory S.image.kernelPageTable p) :
    flat S.ram p = S.loaded.memory p := by
  have outside : p < S.ebx ∨ S.ebx + 120 ≤ p := by
    by_contra inside
    exact outside ⟨show S.ebx ≤ p by omega, show p < S.ebx + 120 by omega⟩
  rw [virtualizes.2.2, store32_ne _ _ _ _ (by omega), store32_ne _ _ _ _ (by omega)]
  exact BootPaging.BootImage.flat_higherHalf bound other

theorem flat_lists {p : Nat} (inside : S.loaded.InLists p) : flat S.ram p = S.loaded.memory p := by
  have low := @window_le S
  obtain ⟨bound, other⟩ := S.reached p (Or.inr inside)
  exact flat_ram (by omega) (S.lists p inside) other

/-- A word that `kernel_main` reads at a virtual address. -/
theorem boot_word {p : Nat} (inside : p + 4 ≤ 4096 * S.image.count) :
    S.boot.word (0xC0000000 + p) = load32 (flat S.ram) p := by
  have low := @window_le S
  unfold Boot.word
  rw [u32_of_lt (by omega)]
  exact memory_seen inside

theorem boot_list {p : Nat} (inside : ∀ i, i < 4 → S.loaded.InLists (p + i)) :
    S.boot.word (0xC0000000 + p) = S.loaded.word p := by
  have low := @window_le S
  have last := (S.reached _ (Or.inr (inside 3 (by decide)))).1
  rw [boot_word (by omega), loaded_word (by omega)]
  refine load32_congr fun b lower upper => ?_
  obtain ⟨i, rfl⟩ : ∃ i, b = p + i := ⟨b - p, by omega⟩
  exact flat_lists (inside i (by omega))

theorem boot_info : S.boot.info = 0xC0000000 + S.ebx := by
  have low := @window_le S
  have first := (info_reached (S := S) (i := 0) (by decide)).1
  exact toVirtual_of_le (by omega)

/-- The information's fields, but for the two addresses. -/
theorem boot_field {i : Nat} (inside : i + 4 ≤ infoSize)
    (other : i + 4 ≤ 24 ∨ 28 ≤ i ∧ i + 4 ≤ 48 ∨ 52 ≤ i) :
    S.boot.word (S.boot.info + i) = S.loaded.word (S.ebx + i) := by
  have low := @window_le S
  unfold infoSize at inside
  have last := (info_reached (S := S) (i := 119) (by decide)).1
  rw [boot_info, Nat.add_assoc, boot_word (by omega), loaded_word (by omega), virtualizes.2.2,
    load32_store32_ne _ _ _ _ (by omega), load32_store32_ne _ _ _ _ (by omega)]
  refine load32_congr fun b lower upper => ?_
  obtain ⟨j, rfl⟩ : ∃ j, b = S.ebx + j := ⟨b - S.ebx, by omega⟩
  exact BootPaging.BootImage.flat_higherHalf (by omega) (info_reached (by unfold infoSize; omega)).2

theorem boot_flags : S.boot.flags = S.loaded.flags := by
  have field := boot_field (S := S) (i := 0) (by decide) (by decide)
  rwa [Nat.add_zero, Nat.add_zero] at field

theorem boot_modsCount : S.boot.modsCount = S.loaded.modsCount :=
  boot_field (i := 20) (by decide) (by decide)

theorem boot_mmapLength : S.boot.mmapLength = S.loaded.mmapLength :=
  boot_field (i := 44) (by decide) (by decide)

theorem toVirtual_lt (p : Nat) : toVirtual p < 2 ^ 32 := u32_lt _

theorem boot_modsAddr : S.boot.modsAddr = toVirtual S.loaded.modsAddr := by
  have last := (info_reached (S := S) (i := 119) (by decide)).1
  unfold Boot.modsAddr
  rw [boot_info, Nat.add_assoc, boot_word (by omega), virtualizes.2.2,
    load32_store32_ne _ _ _ _ (by omega), load32_store32_of_lt _ _ _ (toVirtual_lt _)]
  rfl

theorem boot_mmapAddr : S.boot.mmapAddr = toVirtual S.loaded.mmapAddr := by
  have last := (info_reached (S := S) (i := 119) (by decide)).1
  unfold Boot.mmapAddr
  rw [boot_info, Nat.add_assoc, boot_word (by omega), virtualizes.2.2,
    load32_store32_of_lt _ _ _ (toVirtual_lt _)]
  rfl

/-- The words of record `i` of the list of modules. -/
theorem boot_module {i k : Nat} (inside : i < S.loaded.modsCount) (few : k + 4 ≤ 16) :
    S.boot.word (S.boot.modsAddr + 16 * i + k) = S.loaded.word (S.loaded.modsAddr + 16 * i + k) := by
  have low := @window_le S
  have listed : ∀ j, j < 4 → S.loaded.InLists (S.loaded.modsAddr + 16 * i + k + j) :=
    fun j small => Or.inl (by omega)
  have reached := (S.reached _ (Or.inr (listed 0 (by decide)))).1
  rw [boot_modsAddr, toVirtual_of_le (by omega), Nat.add_assoc, Nat.add_assoc, ← Nat.add_assoc _ _ k,
    boot_list listed]

theorem boot_modStart {i : Nat} (inside : i < S.loaded.modsCount) :
    S.boot.modStart i = S.loaded.modStart i := by
  have read := boot_module inside (by decide : 0 + 4 ≤ 16)
  rwa [Nat.add_zero, Nat.add_zero] at read

theorem boot_modEnd {i : Nat} (inside : i < S.loaded.modsCount) :
    S.boot.modEnd i = S.loaded.modEnd i := boot_module (k := 4) inside (by decide)

end Information

section Reservation

theorem lists_le {b : Boot} {entries : List MapEntry} {address finish : Nat}
    (lists : b.Lists address entries finish) : address ≤ finish := by
  induction lists with
  | nil address => exact Nat.le_refl address
  | cons _ _ _ _ _ _ ih => omega

variable {S}

/-- The memory map is the one that the boot loader left. -/
theorem boot_lists {entries : List MapEntry} {address finish : Nat}
    (lists : S.loaded.Lists address entries finish)
    (inside : ∀ p, address ≤ p → p < finish → S.loaded.InLists p) :
    S.boot.Lists (0xC0000000 + address) entries (0xC0000000 + finish) := by
  induction lists with
  | nil address => exact .nil _
  | @cons address finish entry rest size enough base length type later ih =>
    have order := lists_le later
    have word : ∀ k, k + 4 ≤ 24 → load32 S.boot.memory (0xC0000000 + address + k) =
        load32 S.loaded.memory (address + k) := by
      intro k few
      have last := (S.reached _ (Or.inr (inside (address + k + 3) (by omega) (by omega)))).1
      rw [Nat.add_assoc]
      refine (memory_seen (by omega)).trans (load32_congr fun p lower upper => ?_)
      exact flat_lists (inside p (by omega) (by omega))
    have first := word 0 (by decide)
    rw [Nat.add_zero, Nat.add_zero] at first
    refine .cons (first.trans size) enough ?_ ?_ ?_ ?_
    · rw [word 4 (by decide), word 8 (by decide), base]
    · rw [word 12 (by decide), word 16 (by decide), length]
    · rw [word 20 (by decide), type]
    · rw [Nat.add_assoc, Nat.add_assoc, ← Nat.add_assoc address]
      exact ih fun p lower upper => inside p (by omega) upper

theorem conforming : S.boot.Conforming S.entries := by
  have low := @window_le S
  have last := (info_reached (S := S) (i := 119) (by decide)).1
  have image := S.image.lower
  have upper := S.image.upper
  refine ⟨?_, ?_, ?_, ?_, ?_⟩
  · show physKernelStart ≤ S.image.kernelPhysicalEnd
    unfold physKernelStart
    omega
  · show S.image.kernelPhysicalEnd < 2 ^ 32
    omega
  · rw [boot_info]
    omega
  · rw [boot_info]
    unfold infoSize
    omega
  · have map := S.map
    change if S.loaded.flags &&& (1 <<< 6) ≠ 0 then S.loaded.Lists S.loaded.mmapAddr S.entries
      (S.loaded.mmapAddr + S.loaded.mmapLength) ∧
        S.loaded.mmapAddr + S.loaded.mmapLength ≤ 4096 * S.image.count else S.entries = [] at map
    rw [boot_flags, boot_mmapAddr, boot_mmapLength]
    split
    · next announced =>
      rw [if_pos announced] at map
      rw [toVirtual_of_le (by omega), Nat.add_assoc]
      exact ⟨boot_lists map.1 fun p lower upper => Or.inr ⟨announced, lower, upper⟩, by omega⟩
    · next silent => rwa [if_neg silent] at map

theorem boot_plain : S.boot.Plain S.entries := by
  obtain ⟨size, base, modules⟩ := S.plain
  refine ⟨size, base, fun i inside => ?_⟩
  rw [boot_modsCount] at inside
  rw [boot_modStart inside, boot_modEnd inside]
  exact modules i inside

theorem boot_exact : S.boot.Exact S.entries :=
  (Boot.exact_iff_readRight conforming).mpr ((boot_plain (S := S)).readRight (conforming (S := S)))

theorem listed (i : Fin S.boot.modsCount) : i.val < S.loaded.modsCount :=
  Nat.lt_of_lt_of_eq i.isLt boot_modsCount

end Reservation

/-- The modules, as `kernel_main` finds them. -/
def module (i : Fin S.boot.modsCount) : Module where
  modStart := S.boot.modStart i
  modEnd := S.boot.modEnd i
  aligned := by
    rw [boot_modStart (listed i)]
    exact (S.behind i (listed i)).1
  order := ((boot_plain (S := S)).modules i i.isLt).1
  bound := S.boot.word_lt _

@[irreducible] def modules : List Module := (List.finRange S.boot.modsCount).map S.module

/-- The frames as `init_bitmap` leaves them. -/
@[irreducible] def frames : Frames := S.boot.initBitmap (Frames.boot fun _ => 0)

def bitmapOf (frames : Frames) : Nat → BitVec 32 := frames.bitmap

/-- Frame `f` is no memory to hand out: the first MiB, the image, the information, and what the
map does not list as memory. -/
def Reserved (f : Nat) : Prop :=
  f < 256 ∨ Touches f physKernelStart S.image.kernelPhysicalEnd ∨
    Touches f S.ebx (S.ebx + infoSize) ∨
    ∃ entry ∈ S.entries, entry.type ≠ 1 ∧ Touches f entry.base (entry.base + entry.length)

/-- A module has a byte in frame `f`. -/
def InModule (f : Nat) : Prop :=
  ∃ i, i < S.loaded.modsCount ∧ Touches f (S.loaded.modStart i) (S.loaded.modEnd i)

section Machine

variable {S} {f : Nat}

theorem reserved_iff : S.boot.Reserved S.entries f ↔ S.Reserved f ∨ S.InModule f := by
  have modules : (∃ i, i < S.boot.modsCount ∧ Touches f (S.boot.modStart i) (S.boot.modEnd i)) ↔
      S.InModule f := by
    unfold InModule
    rw [boot_modsCount]
    exact exists_congr fun i => and_congr_right fun inside => by
      rw [boot_modStart inside, boot_modEnd inside]
  unfold Boot.Reserved Boot.Fixed Reserved
  rw [modules, boot_info, Nat.add_sub_cancel_left, or_assoc, or_assoc, or_assoc, or_assoc, or_assoc]
  show _ ∨ _ ∨ _ ∨ _ ∨ _ ↔ _
  rw [or_comm (a := S.InModule f)]
  rfl

theorem used_bitmapOf (g : Frames) : (Frames.boot (bitmapOf g)).used f = g.used f := rfl

theorem exact_marks {b : Boot} {entries : List MapEntry} (exact : b.Exact entries) (bound : f < 2 ^ 20) :
    (b.initBitmap (Frames.boot fun _ => 0)).used f = true ↔ b.Reserved entries f := exact.2 f bound

/-- The frames that are marked at boot. -/
theorem used_frames (bound : f < 2 ^ 20) :
    (Frames.boot (bitmapOf S.frames)).used f = true ↔ S.Reserved f ∨ S.InModule f := by
  rw [used_bitmapOf]
  unfold frames
  rw [exact_marks boot_exact bound, reserved_iff]

theorem module_covers_iff (i : Fin S.boot.modsCount) : (S.module i).Covers f ↔
    Touches f (S.loaded.modStart i) (S.loaded.modEnd i) := by
  rw [← boot_modStart (listed i), ← boot_modEnd (listed i)]
  exact marks_numPages (S.module i).order (S.module i).bound fun _ => (S.module i).aligned

/-- The frames of what begins on a page boundary behind the image. -/
theorem touched_behind {lo hi finish : Nat} (touches : Touches f lo hi) (aligned : lo % 4096 = 0)
    (behind : finish ≤ lo) (bound : hi < 2 ^ 32) : finish ≤ 4096 * f ∧ f < 2 ^ 20 := by
  obtain ⟨address, lower, upper, here⟩ := touches
  omega

theorem mem_modules {m : Module} (member : m ∈ S.modules) : ∃ i, m = S.module i := by
  unfold modules at member
  obtain ⟨i, _, rfl⟩ := List.mem_map.mp member
  exact ⟨i, rfl⟩

theorem module_covers {m : Module} (member : m ∈ S.modules) (covers : m.Covers f) :
    f < 2 ^ 20 ∧ S.InModule f ∧ S.image.kernelPhysicalEnd ≤ 4096 * f := by
  obtain ⟨i, rfl⟩ := mem_modules member
  have touches := (module_covers_iff i).mp covers
  obtain ⟨lower, upper⟩ := touched_behind touches (S.behind i (listed i)).1
    (S.behind i (listed i)).2 (S.loaded.word_lt _)
  exact ⟨upper, ⟨i, listed i, touches⟩, lower⟩

/-- The image's own tables are marked with it. -/
theorem table_reserved (table : f = S.image.kernelPageTable ∨ f = S.image.bootPageDirectory) :
    S.Reserved f := by
  obtain ⟨lower, upper⟩ := S.tables f table
  exact Or.inr (Or.inl ⟨4096 * f, by unfold physKernelStart; omega, by omega,
    Nat.mul_div_cancel_left f (by decide)⟩)

theorem table_used (bound : f < 2 ^ 20)
    (table : f = S.image.kernelPageTable ∨ f = S.image.bootPageDirectory) :
    (Frames.boot (bitmapOf S.frames)).used f = true :=
  (used_frames bound).mpr (Or.inl (table_reserved table))

/-- Nor does `virtualize_multiboot_info` write to them. -/
theorem ram_table (table : f = S.image.kernelPageTable ∨ f = S.image.bootPageDirectory)
    {offset : Nat} (small : offset < 4096) :
    S.ram f offset = BootPaging.BootImage.frames S.image.higherHalf f offset := by
  have place : ∀ ram : Nat → Memory, flat ram (4096 * f + offset) = ram f offset := by
    intro ram
    unfold flat
    rw [show (4096 * f + offset) / 4096 = f by omega, show (4096 * f + offset) % 4096 = offset by omega]
  have outside : 4096 * f + offset < S.ebx ∨ S.ebx + 120 ≤ 4096 * f + offset := by
    by_contra inside
    have other := (info_reached (S := S) (i := 4096 * f + offset - S.ebx) (by unfold infoSize; omega)).2
    rw [show S.ebx + (4096 * f + offset - S.ebx) = 4096 * f + offset by omega] at other
    unfold Other at other
    rcases table with rfl | rfl <;> omega
  rw [← place S.ram, ← place (BootPaging.BootImage.frames _), virtualizes.2.2,
    store32_ne _ _ _ _ (by omega), store32_ne _ _ _ _ (by omega)]

theorem entry_table (table : f = S.image.kernelPageTable ∨ f = S.image.bootPageDirectory) {i : Nat}
    (inside : i < 1024) :
    entry S.ram f i = entry (BootPaging.BootImage.frames S.image.higherHalf) f i :=
  entry_congr fun _ _ upper => ram_table table (by omega)

theorem modules_apart : S.modules.Pairwise fun m m' => ∀ frame, m.Covers frame → ¬ m'.Covers frame := by
  unfold modules
  refine List.pairwise_map.mpr ((List.pairwise_lt_finRange _).imp ?_)
  intro i j order frame first second
  obtain ⟨a, lower, upper, here⟩ := (module_covers_iff i).mp first
  obtain ⟨b, lower', upper', here'⟩ := (module_covers_iff j).mp second
  have aligned := (S.behind i (listed i)).1
  have aligned' := (S.behind j (listed j)).1
  change S.loaded.modStart i % 4096 = 0 at aligned
  change S.loaded.modStart j % 4096 = 0 at aligned'
  rcases S.apart i j order (listed j) with before | after
  · change S.loaded.modEnd i ≤ S.loaded.modStart j at before
    omega
  · change S.loaded.modEnd j ≤ S.loaded.modStart i at after
    omega

/-- Behind the image the table is clear. -/
theorem heap_unmapped {j : Nat} (inside : j < 1024)
    (past : S.image.layout.heapStart ≤ 4096 * (768 * 1024 + j)) :
    entry S.ram S.image.kernelPageTable j = 0 := by
  rw [entry_table (Or.inl rfl) inside, BootPaging.BootImage.table_higherHalf inside, if_neg]
  rw [S.image.layout.heapStart_eq] at past
  have finish : S.image.layout.virtKernelEnd = 0xC0000000 + S.image.kernelPhysicalEnd := rfl
  unfold BootPaging.BootImage.count
  omega

end Machine

/-- The machine that the boot code and `init_bitmap` leave. -/
def machine : Machine where
  layout := S.image.layout
  allocator := S.allocator
  limit := S.limit
  limit_le := S.limit_le
  kernelPageTable := S.image.kernelPageTable
  bootPageDirectory := S.image.bootPageDirectory
  modules := S.modules
  ram := S.ram
  bitmap := bitmapOf S.frames
  low_used := (used_frames (by decide)).mpr (Or.inl (Or.inl (by decide)))
  kernelPageTable_used := ⟨S.image.table_lt, table_used S.image.table_lt (Or.inl rfl)⟩
  bootPageDirectory_used := ⟨S.image.directory_lt, table_used S.image.directory_lt (Or.inr rfl)⟩
  modules_used := fun m member frame covers => by
    obtain ⟨bound, inModule, _⟩ := module_covers member covers
    exact (used_frames bound).mpr (Or.inr inModule)
  tables_apart := by
    have table := (S.tables _ (Or.inl rfl)).1
    have directory := (S.tables _ (Or.inr rfl)).1
    exact ⟨S.image.apart, by omega, by omega⟩
  modules_outside := fun m member => by
    have table := (S.tables _ (Or.inl rfl)).2
    have directory := (S.tables _ (Or.inr rfl)).2
    have lower := S.image.lower
    refine ⟨fun covers => ?_, fun covers => ?_, fun covers => ?_⟩ <;>
      have behind := (module_covers member covers).2.2 <;> omega
  modules_apart := modules_apart
  boot_entries := fun i inside =>
    (entry_table (Or.inr rfl) inside).trans (BootPaging.BootImage.directory_higherHalf inside)
  heap_unmapped := fun j inside past => heap_unmapped inside past

section Runs

open Snfos.System Command

variable {S} {f i : Nat}

theorem machine_modules : S.machine.modules = S.modules := rfl

theorem machine_bitmap : S.machine.bitmap = bitmapOf S.frames := rfl

theorem modules_get (inside : i < S.boot.modsCount) : S.modules[i]? = some (S.module ⟨i, inside⟩) := by
  unfold modules
  rw [List.getElem?_map, List.getElem?_eq_getElem (by rwa [List.length_finRange]),
    List.getElem_finRange]
  rfl

theorem of_modules_get {m : Module} (found : S.modules[i]? = some m) :
    ∃ inside : i < S.boot.modsCount, m = S.module ⟨i, inside⟩ := by
  have inside : i < S.boot.modsCount := by
    have length := (List.getElem?_eq_some_iff.mp found).1
    unfold modules at length
    rwa [List.length_map, List.length_finRange] at length
  rw [modules_get inside, Option.some.injEq] at found
  exact ⟨inside, found.symm⟩

theorem moduleOf_iff : S.machine.moduleOf f = some i ↔
    i < S.loaded.modsCount ∧ Touches f (S.loaded.modStart i) (S.loaded.modEnd i) := by
  constructor
  · intro found
    obtain ⟨m, known, covers⟩ := module_of_moduleOf found
    rw [machine_modules] at known
    obtain ⟨inside, rfl⟩ := of_modules_get known
    exact ⟨listed ⟨i, inside⟩, (module_covers_iff ⟨i, inside⟩).mp covers⟩
  · rintro ⟨inside, touches⟩
    have inside : i < S.boot.modsCount := Nat.lt_of_lt_of_eq inside boot_modsCount.symm
    have known := modules_get inside
    rw [← machine_modules] at known
    exact Machine.moduleOf_eq known ((module_covers_iff ⟨i, inside⟩).mpr touches)

theorem reserved_lt (reserved : S.Reserved f) : f < 2 ^ 20 := by
  have upper := S.image.upper
  have low := @window_le S
  have last := (info_reached (S := S) (i := 119) (by decide)).1
  rcases reserved with first | ⟨a, _, inside, here⟩ | ⟨a, _, inside, here⟩ |
    ⟨entry, member, type, a, _, inside, here⟩
  · omega
  · omega
  · unfold infoSize at inside
    omega
  · have bound := (S.plain.base entry member type).2.1
    omega

theorem fixed_iff (bound : f < 2 ^ 20) : S.machine.Fixed f ↔ S.Reserved f ∧ ¬ S.InModule f := by
  have none : S.machine.moduleOf f = none ↔ ¬ S.InModule f := by
    unfold InModule
    rw [Option.eq_none_iff_forall_ne_some, not_exists]
    exact forall_congr' fun i => not_congr moduleOf_iff
  unfold Machine.Fixed
  rw [none, machine_bitmap, used_frames bound]
  exact ⟨fun ⟨marked, outside⟩ => ⟨marked.resolve_right outside, outside⟩,
    fun ⟨reserved, outside⟩ => ⟨Or.inl reserved, outside⟩⟩

/-- Behind the image, memory that is no module's is as the boot loader left it. -/
theorem ram_behind (bound : f < 2 ^ 20) (behind : S.image.kernelPhysicalEnd ≤ 4096 * f) {offset : Nat}
    (small : offset < 4096) : S.ram f offset = S.image.bytes (4096 * f + offset) := by
  have low := @window_le S
  have last := (info_reached (S := S) (i := 119) (by decide)).1
  have table := (S.tables _ (Or.inl rfl)).2
  have directory := (S.tables _ (Or.inr rfl)).2
  have outside : ¬ S.loaded.InInfo (4096 * f + offset) := by
    rintro ⟨_, upper⟩
    have upper : 4096 * f + offset < S.ebx + 120 := upper
    unfold BootPaging.BootImage.count at last
    omega
  have here := flat_ram (S := S) (p := 4096 * f + offset) (by omega) outside ⟨by omega, by omega⟩
  unfold flat at here
  rw [show (4096 * f + offset) / 4096 = f by omega, show (4096 * f + offset) % 4096 = offset by omega] at here
  exact here

/-- From the boot loader's information to any run: a frame is marked exactly if that reserves it,
if a module that is still to be loaded is in it, or if it holds a page of the heap or a page table;
what is reserved, no process reaches, and behind the image it is never written. -/
theorem play_reserves (S : StartUp) (events : List Event) :
    Ensures (Stops S.machine) (System.boot S.machine) (play events) fun _ s =>
      (∀ f, f < 2 ^ 20 → (s.kernel.frames.used f = true ↔ S.Reserved f ∧ ¬ S.InModule f ∨
        (∃ i, i ∉ s.loaded ∧ i < S.loaded.modsCount ∧
          Touches f (S.loaded.modStart i) (S.loaded.modEnd i)) ∨
        (∃ v, HeapPage S.machine s.kernel.mappedEnd v ∧ s.kernel.home v = f) ∨
        isTable (s.kernel.uses f) = true)) ∧
      ∀ f, S.Reserved f → ¬ S.InModule f →
        (∀ v, HeapPage S.machine s.kernel.mappedEnd v → s.kernel.home v ≠ f) ∧
        isTable (s.kernel.uses f) = false ∧
        (∀ p d i j, s.kernel.spaceOf p = some d → ¬ UserPage s.kernel.ram d i j f) ∧
        (S.image.kernelPhysicalEnd ≤ 4096 * f → ∀ offset, offset < 4096 →
          s.kernel.ram f offset = S.image.bytes (4096 * f + offset)) := by
  apply (play_intact events).mono
  rintro _ s ⟨⟨w, order, sound⟩, counts, intact⟩
  constructor
  · intro f bound
    rw [sound.used_iff counts, fixed_iff bound]
    refine or_congr Iff.rfl (or_congr (exists_congr fun i => and_congr_right fun _ => ?_) Iff.rfl)
    exact moduleOf_iff
  · intro f reserved outside
    have bound := reserved_lt reserved
    have fixed := (fixed_iff bound).mpr ⟨reserved, outside⟩
    obtain ⟨_, pages, table, unreached⟩ := sound.fixed_kept counts fixed
    refine ⟨pages, table, unreached, fun behind offset small => ?_⟩
    have kernel : f ≠ S.image.kernelPageTable := by
      rintro rfl
      have inside := (S.tables _ (Or.inl rfl)).2
      omega
    have directory : f ≠ S.image.bootPageDirectory := by
      rintro rfl
      have inside := (S.tables _ (Or.inr rfl)).2
      omega
    rw [(intact f fixed kernel directory).2]
    exact ram_behind bound behind small

end Runs

end StartUp

end Snfos
