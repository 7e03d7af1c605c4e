import Snfos.PageFrames
import Snfos.Library.ByteMemory

set_option autoImplicit false

/- `init_bitmap`: what it marks used, read from the multiboot information. -/
namespace Snfos

open ByteMemory

/-- What `init_bitmap` reads: memory, the pointer `info` it is given, and the
linker's `PHYS_KERNEL_END`. -/
structure Boot where
  memory : Memory
  info : Nat
  kernelEnd : Nat

/-- `PHYS_KERNEL_START`, from the linker script. -/
def physKernelStart : Nat := 0x100000

/-- `sizeof(multiboot_info_t)`. -/
def infoSize : Nat := 120

namespace Boot

def word (b : Boot) (address : Nat) : Nat := load32 b.memory (u32 address)

def flags (b : Boot) : Nat := b.word b.info

def modsCount (b : Boot) : Nat := b.word (b.info + 20)

def modsAddr (b : Boot) : Nat := b.word (b.info + 24)

def mmapLength (b : Boot) : Nat := b.word (b.info + 44)

def mmapAddr (b : Boot) : Nat := b.word (b.info + 48)

def modStart (b : Boot) (i : Nat) : Nat := b.word (b.modsAddr + 16 * i)

def modEnd (b : Boot) (i : Nat) : Nat := b.word (b.modsAddr + 16 * i + 4)

/-- The fields of the record at `mmap`, as the walk reads them. -/
def recordStart (b : Boot) (mmap : Nat) : Nat := b.word (mmap + 4)

def recordEnd (b : Boot) (mmap : Nat) : Nat :=
  let finish := u32 (b.recordStart mmap + b.word (mmap + 12))
  if finish = 0 then 0xFFFFFFFF else finish

def recordType (b : Boot) (mmap : Nat) : Nat := b.word (mmap + 20)

def markModules (b : Boot) (f : Frames) : Frames :=
  (List.range b.modsCount).foldl
    (fun f i => f.markUsed (b.modStart i) (numPages (b.modStart i) (b.modEnd i))) f

def markRecord (b : Boot) (mmap : Nat) (f : Frames) : Frames :=
  if b.recordType mmap ≠ 1 then
    f.markUsed (b.recordStart mmap) (numPages (b.recordStart mmap) (b.recordEnd mmap))
  else f

/-- The `while` loop up to `stop`. A pass advances 24 bytes, so a fuel of the
map's length lasts unless the map runs into the end of the address space. -/
def walkMap (b : Boot) (stop : Nat) : Nat → Nat → Frames → Frames
  | 0, _, f => f
  | fuel + 1, mmap, f =>
      if mmap < stop then b.walkMap stop fuel (u32 (mmap + 24)) (b.markRecord mmap f) else f

def markMap (b : Boot) (f : Frames) : Frames :=
  if b.flags &&& (1 <<< 6) ≠ 0 then
    b.walkMap (u32 (b.mmapAddr + b.mmapLength)) b.mmapLength b.mmapAddr f
  else f

def initBitmap (b : Boot) (f : Frames) : Frames :=
  let f := f.markUsed 0 (physKernelStart / 4096)
  let f := f.markUsed physKernelStart (numPages physKernelStart b.kernelEnd)
  let f := f.markUsed (sub32 b.info 0xC0000000) (numPages b.info (u32 (b.info + infoSize)))
  b.markMap (b.markModules f)

end Boot

/-- An entry of the memory map as the multiboot header lays it out. -/
structure MapEntry where
  size : Nat
  base : Nat
  length : Nat
  type : Nat

/-- `[lo, hi)` has an address in frame `n`. -/
def Touches (n lo hi : Nat) : Prop := ∃ address, lo ≤ address ∧ address < hi ∧ address / 4096 = n

/-- Frame `n` lies in `num` frames from `start`. -/
def Marks (start num n : Nat) : Prop := start / 4096 ≤ n ∧ n < start / 4096 + num

instance (start num n : Nat) : Decidable (Marks start num n) := inferInstanceAs (Decidable (_ ∧ _))

theorem touches_iff {n lo hi : Nat} : Touches n lo hi ↔
    lo < hi ∧ lo / 4096 ≤ n ∧ n < (hi + 4095) / 4096 := by
  constructor
  · rintro ⟨address, lower, upper, same⟩
    omega
  · rintro ⟨order, lower, upper⟩
    by_cases first : lo / 4096 = n
    · exact ⟨lo, Nat.le_refl _, order, first⟩
    · exact ⟨4096 * n, by omega, by omega, by omega⟩

/-- A range that is not empty inside one page is marked as it should be. -/
theorem marks_numPages {start finish n : Nat} (order : start ≤ finish) (bound : finish < 2 ^ 32)
    (whole : start = finish → start % 4096 = 0) :
    Marks start (numPages start finish) n ↔ Touches n start finish := by
  rw [touches_iff]
  unfold Marks
  rw [numPages_eq order bound]
  omega

namespace Boot

/-- The entries of the map from `address` on, each found by the size of the one
before it. -/
inductive Lists (b : Boot) : Nat → List MapEntry → Nat → Prop
  | nil (address : Nat) : Lists b address [] address
  | cons {address finish : Nat} {entry : MapEntry} {rest : List MapEntry}
      (size : load32 b.memory address = entry.size) (enough : 20 ≤ entry.size)
      (base : load32 b.memory (address + 4) + 2 ^ 32 * load32 b.memory (address + 8) = entry.base)
      (length : load32 b.memory (address + 12) + 2 ^ 32 * load32 b.memory (address + 16) = entry.length)
      (type : load32 b.memory (address + 20) = entry.type)
      (later : Lists b (address + 4 + entry.size) rest finish) :
      Lists b address (entry :: rest) finish

/-- The kernel and the information lie where the boot code puts them, and the
map, if the flags announce one, is a list of entries below the page tables. -/
structure Conforming (b : Boot) (entries : List MapEntry) : Prop where
  kernel : physKernelStart ≤ b.kernelEnd
  kernelBound : b.kernelEnd < 2 ^ 32
  virtual : 0xC0000000 ≤ b.info
  infoBound : b.info + infoSize ≤ 0xFFC00000
  map : if b.flags &&& (1 <<< 6) ≠ 0 then b.Lists b.mmapAddr entries (b.mmapAddr + b.mmapLength) ∧
    b.mmapAddr + b.mmapLength ≤ 0xFFC00000 else entries = []

/-- Frame `n` holds the first MiB, the kernel image or the multiboot information. -/
def Fixed (b : Boot) (n : Nat) : Prop :=
  n < 256 ∨ Touches n physKernelStart b.kernelEnd ∨
    Touches n (b.info - 0xC0000000) (b.info - 0xC0000000 + infoSize)

/-- What may not be handed out as memory. -/
def Reserved (b : Boot) (entries : List MapEntry) (n : Nat) : Prop :=
  b.Fixed n ∨ (∃ i, i < b.modsCount ∧ Touches n (b.modStart i) (b.modEnd i)) ∨
    ∃ entry ∈ entries, entry.type ≠ 1 ∧ Touches n entry.base (entry.base + entry.length)

/-- `init_bitmap` on a clear bitmap writes inside it and marks what is reserved. -/
def Exact (b : Boot) (entries : List MapEntry) : Prop :=
  let f := b.initBitmap (Frames.boot fun _ => 0)
  (∀ offset, 32768 ≤ offset → f.bitmap offset = 0#32) ∧
    ∀ n, n < 2 ^ 20 → (f.used n = true ↔ b.Reserved entries n)

/-- Record `k` of the map at the walk's stride is read as reserved. -/
def Walks (b : Boot) (k : Nat) : Prop :=
  b.flags &&& (1 <<< 6) ≠ 0 ∧ 24 * k < b.mmapLength ∧ b.recordType (b.mmapAddr + 24 * k) ≠ 1

/-- The frames from `start`, `num` of them, are among those counted for a module
or a record. -/
inductive Range (b : Boot) : Nat → Nat → Prop
  | module (i : Nat) (inside : i < b.modsCount) :
      Range b (b.modStart i) (numPages (b.modStart i) (b.modEnd i))
  | record (k : Nat) (walks : b.Walks k) :
      Range b (b.recordStart (b.mmapAddr + 24 * k))
        (numPages (b.recordStart (b.mmapAddr + 24 * k)) (b.recordEnd (b.mmapAddr + 24 * k)))

def Marked (b : Boot) (n : Nat) : Prop := b.Fixed n ∨ ∃ start num, b.Range start num ∧ Marks start num n

/-- What is read of the modules and of the map at a stride of 24 bytes, in 32
bits, does no harm: no count of pages wraps, no frame is counted that nothing
reserved touches, and no reserved entry is missed. -/
structure ReadRight (b : Boot) (entries : List MapEntry) : Prop where
  inside : ∀ start num, b.Range start num → start / 4096 + num ≤ 2 ^ 20
  spurious : ∀ start num n, b.Range start num → Marks start num n → b.Reserved entries n
  missed : ∀ entry ∈ entries, entry.type ≠ 1 → ∀ n, n < 2 ^ 20 →
    Touches n entry.base (entry.base + entry.length) → b.Marked n

section Marking

variable {b : Boot} {entries : List MapEntry} {f : Frames} {n : Nat}

theorem word_lt (b : Boot) (address : Nat) : b.word address < 2 ^ 32 := load32_lt _ _

theorem used_mark {start : Nat} (bound : start < 2 ^ 32) (num : Nat) :
    (f.markUsed start num).used n = true ↔ f.used n = true ∨ Marks start num n := by
  rw [Frames.used_markUsed bound, Bool.or_eq_true, decide_eq_true_iff]
  rfl

theorem used_markModules : (b.markModules f).used n = true ↔ f.used n = true ∨
    ∃ i, i < b.modsCount ∧ Marks (b.modStart i) (numPages (b.modStart i) (b.modEnd i)) n := by
  unfold markModules
  generalize b.modsCount = count
  induction count with
  | zero => simp
  | succ count ih =>
    rw [List.range_succ, List.foldl_append, List.foldl_cons, List.foldl_nil,
      used_mark (show b.modStart count < 2 ^ 32 from b.word_lt _), ih, or_assoc]
    apply or_congr Iff.rfl
    constructor
    · rintro (⟨i, inside, marks⟩ | marks)
      · exact ⟨i, by omega, marks⟩
      · exact ⟨count, by omega, marks⟩
    · rintro ⟨i, inside, marks⟩
      by_cases last : i = count
      · exact Or.inr (last ▸ marks)
      · exact Or.inl ⟨i, by omega, marks⟩

theorem used_markRecord (mmap : Nat) : (b.markRecord mmap f).used n = true ↔ f.used n = true ∨
    b.recordType mmap ≠ 1 ∧
      Marks (b.recordStart mmap) (numPages (b.recordStart mmap) (b.recordEnd mmap)) n := by
  unfold markRecord
  split
  · next reserved =>
    rw [used_mark (show b.recordStart mmap < 2 ^ 32 from b.word_lt _)]
    exact or_congr Iff.rfl ⟨fun marks => ⟨reserved, marks⟩, And.right⟩
  · next usable => exact ⟨Or.inl, fun either => either.resolve_right fun both => usable both.1⟩

theorem used_walkMap (stop fuel mmap : Nat) (bound : stop + 24 ≤ 2 ^ 32) (lasts : stop ≤ mmap + fuel) :
    (b.walkMap stop fuel mmap f).used n = true ↔ f.used n = true ∨
      ∃ k, mmap + 24 * k < stop ∧ b.recordType (mmap + 24 * k) ≠ 1 ∧
        Marks (b.recordStart (mmap + 24 * k))
          (numPages (b.recordStart (mmap + 24 * k)) (b.recordEnd (mmap + 24 * k))) n := by
  induction fuel generalizing mmap f with
  | zero =>
    constructor
    · exact Or.inl
    · rintro (set | ⟨k, inside, _⟩)
      · exact set
      · omega
  | succ fuel ih =>
    rw [walkMap]
    split
    · next inside =>
      rw [u32_of_lt (by omega : mmap + 24 < 2 ^ 32), ih (mmap + 24) (by omega), used_markRecord,
        or_assoc]
      apply or_congr Iff.rfl
      constructor
      · rintro (first | ⟨k, before, reserved⟩)
        · exact ⟨0, by omega, first⟩
        · refine ⟨k + 1, by omega, ?_⟩
          rw [show mmap + 24 * (k + 1) = mmap + 24 + 24 * k by omega]
          exact reserved
      · rintro ⟨k, before, reserved⟩
        cases k with
        | zero => exact Or.inl reserved
        | succ k =>
          rw [show mmap + 24 * (k + 1) = mmap + 24 + 24 * k by omega] at before reserved
          exact Or.inr ⟨k, before, reserved⟩
    · next done =>
      constructor
      · exact Or.inl
      · rintro (set | ⟨k, inside, _⟩)
        · exact set
        · omega

theorem used_boot (offset : Nat) : (Frames.boot fun _ => 0).used offset = false := by
  show (0 : BitVec 32).getLsbD _ = false
  exact BitVec.getLsbD_zero

theorem used_fixed (conforming : b.Conforming entries) :
    ((((Frames.boot fun _ => 0).markUsed 0 (physKernelStart / 4096)).markUsed physKernelStart
        (numPages physKernelStart b.kernelEnd)).markUsed (sub32 b.info 0xC0000000)
        (numPages b.info (u32 (b.info + infoSize)))).used n = true ↔ b.Fixed n := by
  have virtual := conforming.virtual
  have bound := conforming.infoBound
  have moved : sub32 b.info 0xC0000000 = b.info - 0xC0000000 := by
    apply sub32_of_le virtual
    unfold infoSize at bound
    omega
  have count : numPages b.info (u32 (b.info + infoSize)) =
      numPages (b.info - 0xC0000000) (b.info - 0xC0000000 + infoSize) := by
    unfold infoSize at *
    rw [u32_of_lt (by omega), numPages_eq (by omega) (by omega), numPages_eq (by omega) (by omega)]
    omega
  rw [moved, count, used_mark (by omega), used_mark (by decide), used_mark (by decide), used_boot,
    marks_numPages conforming.kernel conforming.kernelBound (fun _ => by decide),
    marks_numPages (by omega) (by unfold infoSize at *; omega) (by unfold infoSize; omega), or_assoc,
    or_assoc]
  unfold Fixed
  constructor
  · rintro (clear | low | rest)
    · cases clear
    · exact Or.inl low.2
    · exact Or.inr rest
  · rintro (low | rest)
    · exact Or.inr (Or.inl ⟨Nat.zero_le _, low⟩)
    · exact Or.inr (Or.inr rest)

/-- The frames that `init_bitmap` marks, below `2 ^ 20` or not. -/
theorem used_initBitmap (conforming : b.Conforming entries) :
    (b.initBitmap (Frames.boot fun _ => 0)).used n = true ↔ b.Marked n := by
  have map := conforming.map
  have ranges : (∃ start num, b.Range start num ∧ Marks start num n) ↔
      (∃ i, i < b.modsCount ∧ Marks (b.modStart i) (numPages (b.modStart i) (b.modEnd i)) n) ∨
      ∃ k, b.Walks k ∧ Marks (b.recordStart (b.mmapAddr + 24 * k))
        (numPages (b.recordStart (b.mmapAddr + 24 * k)) (b.recordEnd (b.mmapAddr + 24 * k))) n := by
    constructor
    · rintro ⟨_, _, range, marks⟩
      cases range with
      | module i inside => exact Or.inl ⟨i, inside, marks⟩
      | record k walks => exact Or.inr ⟨k, walks, marks⟩
    · rintro (⟨i, inside, marks⟩ | ⟨k, walks, marks⟩)
      · exact ⟨_, _, .module i inside, marks⟩
      · exact ⟨_, _, .record k walks, marks⟩
  unfold Marked
  rw [ranges, ← or_assoc]
  unfold initBitmap markMap
  dsimp only
  split
  · next announced =>
    rw [if_pos announced] at map
    rw [u32_of_lt (by omega), used_walkMap _ _ _ (by omega) (Nat.le_refl _), used_markModules,
      used_fixed conforming]
    apply or_congr Iff.rfl
    apply exists_congr
    intro k
    unfold Walks
    rw [Nat.add_lt_add_iff_left]
    simp only [announced, and_assoc, ne_eq, not_false_eq_true, true_and]
  · next silent =>
    rw [used_markModules, used_fixed conforming]
    constructor
    · exact Or.inl
    · intro either
      exact either.resolve_right fun ⟨k, walks, _⟩ => silent walks.1

/-- A word past the bitmap is clear when its frames are. -/
theorem clear_past_iff (f : Frames) : (∀ offset, 32768 ≤ offset → f.bitmap offset = 0#32) ↔
    ∀ n, 2 ^ 20 ≤ n → f.used n = false := by
  constructor
  · intro clear n past
    unfold Frames.used
    rw [clear _ (by omega)]
    exact BitVec.getLsbD_zero
  · intro unset offset past
    apply BitVec.eq_of_getLsbD_eq
    intro bit small
    have clear := unset (offset * 32 + bit) (by omega)
    unfold Frames.used at clear
    rw [show (offset * 32 + bit) / 32 = offset by omega,
      show (offset * 32 + bit) % 32 = bit by omega] at clear
    rw [clear, BitVec.getLsbD_zero]

theorem fixed_lt (conforming : b.Conforming entries) (fixed : b.Fixed n) : n < 2 ^ 20 := by
  have kernel := conforming.kernelBound
  have info := conforming.infoBound
  unfold infoSize at info
  rcases fixed with low | image | held
  · omega
  · obtain ⟨address, _, upper, same⟩ := image
    omega
  · obtain ⟨address, _, upper, same⟩ := held
    unfold infoSize at upper
    omega

end Marking

theorem exact_iff_readRight {b : Boot} {entries : List MapEntry} (conforming : b.Conforming entries) :
    b.Exact entries ↔ b.ReadRight entries := by
  unfold Exact
  dsimp only
  rw [clear_past_iff]
  constructor
  · rintro ⟨clear, exact⟩
    have inside : ∀ start num n, b.Range start num → Marks start num n → n < 2 ^ 20 := by
      intro start num n range marks
      by_contra past
      have unset := clear n (by omega)
      rw [(used_initBitmap conforming).mpr (Or.inr ⟨start, num, range, marks⟩)] at unset
      cases unset
    refine ⟨?_, ?_, ?_⟩
    · intro start num range
      have bound : start < 2 ^ 32 := by cases range <;> exact b.word_lt _
      by_contra past
      have last := inside start num (start / 4096 + num - 1) range (by unfold Marks; omega)
      omega
    · intro start num n range marks
      exact (exact n (inside start num n range marks)).mp
        ((used_initBitmap conforming).mpr (Or.inr ⟨start, num, range, marks⟩))
    · intro entry member reserved n below touches
      exact (used_initBitmap conforming).mp
        ((exact n below).mpr (Or.inr (Or.inr ⟨entry, member, reserved, touches⟩)))
  · intro right
    constructor
    · intro n past
      rw [Bool.eq_false_iff]
      intro set
      rcases (used_initBitmap conforming).mp set with fixed | ⟨start, num, range, marks⟩
      · have below := fixed_lt conforming fixed
        omega
      · have fits := right.inside start num range
        have upper := marks.2
        omega
    · intro n below
      rw [used_initBitmap conforming]
      constructor
      · rintro (fixed | ⟨start, num, range, marks⟩)
        · exact Or.inl fixed
        · exact right.spurious start num n range marks
      · rintro (fixed | ⟨i, inside, touches⟩ | ⟨entry, member, reserved, touches⟩)
        · exact Or.inl fixed
        · refine Or.inr ⟨_, _, .module i inside, ?_⟩
          have order := (touches_iff.mp touches).1
          exact (marks_numPages (Nat.le_of_lt order) (b.word_lt _) (fun same => by omega)).mpr touches
        · exact right.missed entry member reserved n below touches

/-- The ordinary case: entries of 20 bytes that lie below 4 GiB, and nothing empty
but at a page boundary other than 0. -/
structure Plain (b : Boot) (entries : List MapEntry) : Prop where
  size : ∀ entry ∈ entries, entry.size = 20
  base : ∀ entry ∈ entries, entry.type ≠ 1 → entry.base < 2 ^ 32 ∧
    entry.base + entry.length ≤ 2 ^ 32 ∧
    (entry.length = 0 → entry.base ≠ 0 ∧ entry.base % 4096 = 0)
  modules : ∀ i, i < b.modsCount → b.modStart i ≤ b.modEnd i ∧
    (b.modStart i = b.modEnd i → b.modStart i % 4096 = 0)

section Reading

variable {b : Boot} {entries : List MapEntry} {address finish : Nat}

/-- The record at `mmap` is the entry `entry`. -/
structure Reads (b : Boot) (mmap : Nat) (entry : MapEntry) : Prop where
  base : load32 b.memory (mmap + 4) + 2 ^ 32 * load32 b.memory (mmap + 8) = entry.base
  length : load32 b.memory (mmap + 12) + 2 ^ 32 * load32 b.memory (mmap + 16) = entry.length
  type : load32 b.memory (mmap + 20) = entry.type

theorem Lists.reads (lists : b.Lists address entries finish)
    (size : ∀ entry ∈ entries, entry.size = 20) :
    finish = address + 24 * entries.length ∧
      ∀ k (inside : k < entries.length), b.Reads (address + 24 * k) entries[k] := by
  induction lists with
  | nil address => exact ⟨rfl, fun k inside => absurd inside (Nat.not_lt_zero k)⟩
  | @cons address finish entry rest _ _ base length type later ih =>
    have short := size entry (List.mem_cons_self ..)
    obtain ⟨stop, reads⟩ := ih fun other member => size other (List.mem_cons_of_mem _ member)
    rw [short] at stop reads
    constructor
    · rw [stop, List.length_cons]
      omega
    · intro k inside
      cases k with
      | zero => exact ⟨base, length, type⟩
      | succ k =>
        rw [show address + 24 * (k + 1) = address + 4 + 20 + 24 * k by omega]
        exact reads k (by simpa using inside)

/-- The walk takes an entry that lies below 4 GiB for what it is. -/
theorem Reads.marks {mmap : Nat} {entry : MapEntry} (reads : b.Reads mmap entry)
    (bound : mmap + 24 ≤ 2 ^ 32) (base : entry.base < 2 ^ 32)
    (finish : entry.base + entry.length ≤ 2 ^ 32)
    (whole : entry.length = 0 → entry.base ≠ 0 ∧ entry.base % 4096 = 0) :
    b.recordType mmap = entry.type ∧
      b.recordStart mmap / 4096 + numPages (b.recordStart mmap) (b.recordEnd mmap) ≤ 2 ^ 20 ∧
      ∀ n, Marks (b.recordStart mmap) (numPages (b.recordStart mmap) (b.recordEnd mmap)) n ↔
        Touches n entry.base (entry.base + entry.length) := by
  have readBase := reads.base
  have readLength := reads.length
  have start : b.recordStart mmap = entry.base := by
    unfold recordStart word
    rw [u32_of_lt (by omega)]
    omega
  have past : b.recordEnd mmap =
      if entry.base + entry.length = 2 ^ 32 then 2 ^ 32 - 1 else entry.base + entry.length := by
    unfold recordEnd word
    rw [start, u32_of_lt (show mmap + 12 < 2 ^ 32 by omega)]
    unfold u32
    dsimp only
    split
    · split <;> omega
    · split <;> omega
  have order : entry.base ≤ b.recordEnd mmap ∧ b.recordEnd mmap < 2 ^ 32 := by
    rw [past]
    split <;> omega
  refine ⟨?_, ?_, ?_⟩
  · unfold recordType word
    rw [u32_of_lt (by omega)]
    exact reads.type
  · rw [start, numPages_eq order.1 order.2]
    omega
  · intro n
    rw [touches_iff, start]
    unfold Marks
    rw [numPages_eq order.1 order.2, past]
    split <;> omega

/-- In the ordinary case the records of the walk are the entries of the map. -/
theorem Plain.walks (conforming : b.Conforming entries) (plain : b.Plain entries) :
    (∀ k, b.Walks k → ∃ entry ∈ entries, entry.type ≠ 1 ∧ b.Reads (b.mmapAddr + 24 * k) entry ∧
        b.mmapAddr + 24 * k + 24 ≤ 2 ^ 32) ∧
      ∀ entry ∈ entries, entry.type ≠ 1 → ∃ k, b.Walks k ∧ b.Reads (b.mmapAddr + 24 * k) entry ∧
        b.mmapAddr + 24 * k + 24 ≤ 2 ^ 32 := by
  have map := conforming.map
  split at map
  · next announced =>
    obtain ⟨lists, bound⟩ := map
    obtain ⟨stop, reads⟩ := lists.reads plain.size
    have typed : ∀ k (inside : k < entries.length),
        b.recordType (b.mmapAddr + 24 * k) = entries[k].type := by
      intro k inside
      unfold recordType word
      rw [u32_of_lt (by omega)]
      exact (reads k inside).type
    constructor
    · intro k walks
      have inside : k < entries.length := by
        have before := walks.2.1
        omega
      refine ⟨entries[k], List.getElem_mem inside, ?_, reads k inside, by omega⟩
      rw [← typed k inside]
      exact walks.2.2
    · intro entry member reserved
      obtain ⟨k, inside, rfl⟩ := List.getElem_of_mem member
      refine ⟨k, ⟨announced, by omega, ?_⟩, reads k inside, by omega⟩
      rw [typed k inside]
      exact reserved
  · next silent =>
    constructor
    · intro k walks
      exact absurd walks.1 silent
    · intro entry member
      rw [map] at member
      cases member

theorem Plain.readRight (conforming : b.Conforming entries) (plain : b.Plain entries) :
    b.ReadRight entries := by
  obtain ⟨sound, complete⟩ := plain.walks conforming
  refine ⟨?_, ?_, ?_⟩
  · intro start num range
    cases range with
    | module i inside =>
      have bound := b.word_lt (b.modsAddr + 16 * i + 4)
      rw [numPages_eq (plain.modules i inside).1 bound]
      have order := (plain.modules i inside).1
      unfold modEnd at *
      omega
    | record k walks =>
      obtain ⟨entry, member, reserved, reads, bound⟩ := sound k walks
      obtain ⟨base, finish, whole⟩ := plain.base entry member reserved
      exact (reads.marks bound base finish whole).2.1
  · intro start num n range marks
    cases range with
    | module i inside =>
      obtain ⟨order, whole⟩ := plain.modules i inside
      exact Or.inr (Or.inl ⟨i, inside, (marks_numPages order (b.word_lt _) whole).mp marks⟩)
    | record k walks =>
      obtain ⟨entry, member, reserved, reads, bound⟩ := sound k walks
      obtain ⟨base, finish, whole⟩ := plain.base entry member reserved
      have touches := ((reads.marks bound base finish whole).2.2 n).mp marks
      exact Or.inr (Or.inr ⟨entry, member, reserved, touches⟩)
  · intro entry member reserved n _ touches
    obtain ⟨k, walks, reads, bound⟩ := complete entry member reserved
    obtain ⟨base, finish, whole⟩ := plain.base entry member reserved
    exact Or.inr ⟨_, _, .record k walks, ((reads.marks bound base finish whole).2.2 n).mpr touches⟩

end Reading

/-- `init_bitmap` is exact in the ordinary case, and otherwise if and only if what it reads of the
modules and the map does no harm. -/
theorem initBitmap_exact_iff {b : Boot} {entries : List MapEntry}
    (conforming : b.Conforming entries) :
    (b.Plain entries → b.Exact entries) ∧ (b.Exact entries ↔ b.ReadRight entries) :=
  ⟨fun plain => (exact_iff_readRight conforming).mpr (plain.readRight conforming),
    exact_iff_readRight conforming⟩

/-- Memory that is zero but at some addresses. -/
def sparse (bytes : List (Nat × UInt8)) : Memory := fun address => (bytes.lookup address).getD 0

/-- A machine with 3 MiB, the last of which is reserved, and a module of two pages. -/
def threeMiB : Boot where
  memory := sparse [(0xC0010000, 72), (0xC0010014, 1), (0xC0010019, 0x20), (0xC001001A, 0x01),
    (0xC001001B, 0xC0), (0xC001002C, 48), (0xC0010031, 0x10), (0xC0010032, 0x01), (0xC0010033, 0xC0),
    (0xC0011000, 20), (0xC001100E, 0x20), (0xC0011014, 1), (0xC0011018, 20), (0xC001101E, 0x20),
    (0xC0011026, 0x10), (0xC001102C, 2), (0xC0012002, 0x18), (0xC0012005, 0x18), (0xC0012006, 0x18)]
  info := 0xC0010000
  kernelEnd := 0x140000

def threeMiBEntries : List MapEntry := [⟨20, 0, 0x200000, 1⟩, ⟨20, 0x200000, 0x100000, 2⟩]

theorem threeMiB_conforming : threeMiB.Conforming threeMiBEntries := by
  refine ⟨by decide, by decide, by decide, by decide, ?_⟩
  rw [if_pos (by decide)]
  exact ⟨.cons (by decide) (by decide) (by decide) (by decide) (by decide)
    (.cons (by decide) (by decide) (by decide) (by decide) (by decide) (.nil _)), by decide⟩

theorem threeMiB_plain : threeMiB.Plain threeMiBEntries := by
  refine ⟨by decide, by decide, fun i inside => ?_⟩
  have one : threeMiB.modsCount = 1 := by decide
  rw [one, Nat.lt_one_iff] at inside
  rw [inside]
  decide

/-- The frames of the module and of the reserved MiB are marked, and the one before the module not. -/
theorem initBitmap_exact_threeMiB : threeMiB.Exact threeMiBEntries ∧
    threeMiB.Reserved threeMiBEntries 0x181 ∧ threeMiB.Reserved threeMiBEntries 0x2FF ∧
    ¬ threeMiB.Reserved threeMiBEntries 0x17F := by
  refine ⟨(initBitmap_exact_iff threeMiB_conforming).1 threeMiB_plain, ?_, ?_, ?_⟩
  · exact Or.inr (Or.inl ⟨0, by decide, touches_iff.mpr (by decide)⟩)
  · exact Or.inr (Or.inr ⟨_, List.mem_cons_of_mem _ (List.mem_singleton_self _), by decide,
      touches_iff.mpr (by decide)⟩)
  · rintro ((low | image | held) | ⟨i, inside, touches⟩ | ⟨entry, member, reserved, touches⟩)
    · exact absurd low (by decide)
    · exact absurd (touches_iff.mp image) (by decide)
    · exact absurd (touches_iff.mp held) (by decide)
    · have one : threeMiB.modsCount = 1 := by decide
      rw [one, Nat.lt_one_iff] at inside
      rw [inside] at touches
      exact absurd (touches_iff.mp touches) (by decide)
    · simp only [threeMiBEntries, List.mem_cons, List.not_mem_nil, or_false] at member
      rcases member with rfl | rfl
      · exact absurd rfl reserved
      · exact absurd (touches_iff.mp touches) (by decide)

/-- A map whose one entry reserves 12 GiB from 0xFD00000000 on, as machines with
an I/O remapping unit report it. -/
def highReserved : Boot where
  memory := sparse [(0xC0010000, 64), (0xC001002C, 24), (0xC0010031, 0x10), (0xC0010032, 0x01),
    (0xC0010033, 0xC0), (0xC0011000, 20), (0xC0011008, 0xFD), (0xC0011010, 3), (0xC0011014, 2)]
  info := 0xC0010000
  kernelEnd := 0x140000

def highEntries : List MapEntry := [⟨20, 0xFD00000000, 0x300000000, 2⟩]

theorem highReserved_conforming : highReserved.Conforming highEntries := by
  refine ⟨by decide, by decide, by decide, by decide, ?_⟩
  rw [if_pos (by decide)]
  exact ⟨.cons (by decide) (by decide) (by decide) (by decide) (by decide) (.nil _), by decide⟩

/-- The walk takes the entry for all of memory. -/
theorem highReserved_not_exact : highReserved.Conforming highEntries ∧ ¬ highReserved.Exact highEntries := by
  refine ⟨highReserved_conforming, fun exact => ?_⟩
  have walks : highReserved.Walks 0 := ⟨by decide, by decide, by decide⟩
  have marked : highReserved.Marked 1000 := Or.inr ⟨_, _, .record 0 walks, by decide⟩
  rcases (exact.2 1000 (by decide)).mp ((used_initBitmap highReserved_conforming).mpr marked) with
    (low | image | held) | ⟨i, inside, _⟩ | ⟨entry, member, _, touches⟩
  · exact absurd low (by decide)
  · exact absurd (touches_iff.mp image) (by decide)
  · exact absurd (touches_iff.mp held) (by decide)
  · exact absurd inside (Nat.not_lt_of_le (Nat.le_trans (show highReserved.modsCount ≤ 0 by decide)
      (Nat.zero_le i)))
  · rw [List.mem_singleton.mp member] at touches
    exact absurd (touches_iff.mp touches) (by decide)

/-- The page frame `n` lies in a region of type 1. -/
def InMemory (entries : List MapEntry) (n : Nat) : Prop :=
  ∃ entry ∈ entries, entry.type = 1 ∧ entry.base ≤ 4096 * n ∧
    4096 * (n + 1) ≤ entry.base + entry.length

end Boot

/-- A call of the frame allocator; `release i` frees the frame that the `i`-th
last call of `allocate_next_page` returned, if it returned one. -/
inductive FrameCall
  | allocate
  | release (i : Nat)

namespace FrameCall

/-- A call on the bitmap and the frames returned so far, the last one first. -/
def run (s : Frames × List Nat) : FrameCall → Frames × List Nat
  | allocate => (s.1.allocateNextPage.2, s.1.allocateNextPage.1 :: s.2)
  | release i =>
      let page := s.2[i]?.getD 0
      if page = 0 then s else (s.1.freePhysicalPage page, s.2)

def runAll (s : Frames × List Nat) (calls : List FrameCall) : Frames × List Nat := calls.foldl run s

section Runs

variable {f : Frames} {s : Frames × List Nat}

/-- Frames are only taken from those that were clear in `f`. -/
structure TakenFrom (f : Frames) (s : Frames × List Nat) : Prop where
  hinted : s.1.Hinted
  keeps : ∀ n, f.used n = true → s.1.used n = true
  handed : ∀ page ∈ s.2, page ≠ 0 → ∃ n, page = 4096 * n ∧ n < 2 ^ 20 ∧ f.used n = false

theorem TakenFrom.start (hinted : f.Hinted) : TakenFrom f (f, []) :=
  ⟨hinted, fun _ used => used, fun _ member => by cases member⟩

theorem TakenFrom.run (taken : TakenFrom f s) (call : FrameCall) : TakenFrom f (FrameCall.run s call) := by
  cases call with
  | allocate =>
    show TakenFrom f (s.1.allocateNextPage.2, s.1.allocateNextPage.1 :: s.2)
    rcases taken.hinted.allocateNextPage with ⟨n, bound, unset, below, result⟩ | ⟨_, result⟩
    · rw [result]
      refine ⟨Frames.hinted_take bound below, ?_, ?_⟩
      · intro k used
        exact s.1.take_keeps n (taken.keeps k used)
      · intro page member nonzero
        cases List.mem_cons.mp member with
        | inl same =>
          refine ⟨n, same, bound, ?_⟩
          rw [Bool.eq_false_iff]
          intro used
          rw [taken.keeps n used] at unset
          cases unset
        | inr earlier => exact taken.handed page earlier nonzero
    · rw [result]
      refine ⟨taken.hinted, taken.keeps, ?_⟩
      intro page member nonzero
      cases List.mem_cons.mp member with
      | inl same => exact absurd same nonzero
      | inr earlier => exact taken.handed page earlier nonzero
  | release i =>
    show TakenFrom f (if s.2[i]?.getD 0 = 0 then s else _)
    split
    · exact taken
    · next nonzero =>
      have member : s.2[i]?.getD 0 ∈ s.2 := by
        cases found : s.2[i]? with
        | none => exact absurd (by rw [found]; rfl) nonzero
        | some page => exact List.mem_of_getElem? found
      obtain ⟨n, same, bound, unset⟩ := taken.handed _ member nonzero
      refine ⟨Frames.hinted_freePhysicalPage _, ?_, taken.handed⟩
      intro k used
      rw [Frames.used_freePhysicalPage (by omega), taken.keeps k used, Bool.true_and,
        decide_eq_true_iff]
      intro freed
      rw [show k = n by omega, unset] at used
      cases used

theorem TakenFrom.runAll (taken : TakenFrom f s) (calls : List FrameCall) :
    TakenFrom f (runAll s calls) := by
  induction calls generalizing s with
  | nil => exact taken
  | cons call rest ih => exact ih (taken.run call)

/-- Enough allocations reach every clear frame: each takes one of those up to it. -/
theorem reaches (hinted : s.1.Hinted) {n : Nat} (bound : n < 2 ^ 20) (unset : s.1.used n = false) :
    ∃ calls, 4096 * n ∈ (runAll s calls).2 := by
  induction size : (s.1.unusedBelow (n + 1)).card using Nat.strong_induction_on generalizing s with
  | _ left ih =>
    rcases hinted.allocateNextPage with ⟨k, inside, clear, below, result⟩ | ⟨full, _⟩
    · have first : FrameCall.run s .allocate = (s.1.take k, 4096 * k :: s.2) := by
        show (s.1.allocateNextPage.2, s.1.allocateNextPage.1 :: s.2) = _
        rw [result]
      by_cases here : k = n
      · refine ⟨[.allocate], ?_⟩
        show 4096 * n ∈ (FrameCall.run s .allocate).2
        rw [first, here]
        exact List.mem_cons_self ..
      · have before : k < n := by
          by_contra later
          rw [below n (by omega)] at unset
          cases unset
        have still : (s.1.take k).used n = false := by
          rw [Frames.used_take, unset, Bool.false_or, decide_eq_false_iff_not]
          exact fun same => here same.symm
        have fewer : ((s.1.take k).unusedBelow (n + 1)).card < left := by
          rw [Frames.unusedBelow_take, ← size]
          exact Finset.card_erase_lt_of_mem (Frames.mem_unusedBelow.mpr ⟨by omega, clear⟩)
        obtain ⟨calls, member⟩ := ih _ fewer (s := (s.1.take k, 4096 * k :: s.2))
          (Frames.hinted_take inside below) still rfl
        refine ⟨.allocate :: calls, ?_⟩
        show 4096 * n ∈ (runAll (FrameCall.run s .allocate) calls).2
        rw [first]
        exact member
    · rw [full n bound] at unset
      cases unset

end Runs

end FrameCall

namespace Boot

/-- Every frame that the allocator ever returns after `init_bitmap` is memory. -/
def OnlyMemory (b : Boot) (entries : List MapEntry) : Prop :=
  ∀ calls page, page ∈ (FrameCall.runAll (b.initBitmap (Frames.boot fun _ => 0), []) calls).2 →
    page ≠ 0 → ∃ n, page = 4096 * n ∧ InMemory entries n

section Hints

variable {b : Boot} {f : Frames}

theorem markUsed_last (start num : Nat) : (f.markUsed start num).lastAllocated = f.lastAllocated :=
  (Frames.markWords_hints _ _ _ _ _).2

theorem markModules_last : (b.markModules f).lastAllocated = f.lastAllocated := by
  unfold markModules
  generalize b.modsCount = count
  induction count with
  | zero => rfl
  | succ count ih =>
    rw [List.range_succ, List.foldl_append, List.foldl_cons, List.foldl_nil, markUsed_last]
    exact ih

theorem walkMap_last (stop fuel mmap : Nat) :
    (b.walkMap stop fuel mmap f).lastAllocated = f.lastAllocated := by
  induction fuel generalizing mmap f with
  | zero => rfl
  | succ fuel ih =>
    rw [walkMap]
    split
    · rw [ih]
      unfold markRecord
      split
      · exact markUsed_last _ _
      · rfl
    · rfl

theorem hinted_initBitmap (b : Boot) (bitmap : Nat → BitVec 32) :
    (b.initBitmap (Frames.boot bitmap)).Hinted := by
  have none : (b.initBitmap (Frames.boot bitmap)).lastAllocated = none := by
    unfold initBitmap markMap
    dsimp only
    split
    · rw [walkMap_last, markModules_last, markUsed_last, markUsed_last, markUsed_last]
      rfl
    · rw [markModules_last, markUsed_last, markUsed_last, markUsed_last]
      rfl
  intro _ block last
  rw [none] at last
  cases last

end Hints

/-- A frame that is not marked is handed out in some run. -/
theorem OnlyMemory.covered {b : Boot} {entries : List MapEntry} (conforming : b.Conforming entries)
    (only : b.OnlyMemory entries) {n : Nat} (positive : 0 < n) (bound : n < 2 ^ 20) :
    InMemory entries n ∨ b.Marked n := by
  by_cases set : (b.initBitmap (Frames.boot fun _ => 0)).used n = true
  · exact Or.inr ((used_initBitmap conforming).mp set)
  · obtain ⟨calls, member⟩ := FrameCall.reaches (s := (b.initBitmap (Frames.boot fun _ => 0), []))
      (hinted_initBitmap b fun _ => 0) bound (Bool.eq_false_iff.mpr set)
    obtain ⟨k, same, memory⟩ := only calls _ member (by omega)
    rw [show n = k by omega]
    exact Or.inl memory

/-- Only memory is handed out if and only if every frame outside the regions of
type 1 is marked: there is no hole between the entries and nothing above the last. -/
theorem only_memory_iff {b : Boot} {entries : List MapEntry} (conforming : b.Conforming entries) :
    b.OnlyMemory entries ↔ ∀ n, 0 < n → n < 2 ^ 20 → InMemory entries n ∨ b.Marked n := by
  constructor
  · intro only n positive bound
    exact only.covered conforming positive bound
  · intro covered calls page member nonzero
    have taken := (FrameCall.TakenFrom.start (hinted_initBitmap b fun _ => 0)).runAll calls
    obtain ⟨n, same, bound, unset⟩ := taken.handed page member nonzero
    refine ⟨n, same, (covered n (by omega) bound).resolve_right fun marked => ?_⟩
    rw [(used_initBitmap conforming).mpr marked] at unset
    cases unset

/-- A machine whose map is one region of 4 GiB less the last page, and which
reserves that page. -/
def fullMap : Boot where
  memory := sparse [(0xC0010000, 64), (0xC001002C, 48), (0xC0010031, 0x10), (0xC0010032, 0x01),
    (0xC0010033, 0xC0), (0xC0011000, 20), (0xC001100D, 0xF0), (0xC001100E, 0xFF), (0xC001100F, 0xFF),
    (0xC0011014, 1), (0xC0011018, 20), (0xC001101D, 0xF0), (0xC001101E, 0xFF), (0xC001101F, 0xFF),
    (0xC0011025, 0x10), (0xC001102C, 2)]
  info := 0xC0010000
  kernelEnd := 0x200000

def fullEntries : List MapEntry := [⟨20, 0, 0xFFFFF000, 1⟩, ⟨20, 0xFFFFF000, 0x1000, 2⟩]

theorem fullMap_conforming : fullMap.Conforming fullEntries := by
  refine ⟨by decide, by decide, by decide, by decide, ?_⟩
  rw [if_pos (by decide)]
  exact ⟨.cons (by decide) (by decide) (by decide) (by decide) (by decide)
    (.cons (by decide) (by decide) (by decide) (by decide) (by decide) (.nil _)), by decide⟩

theorem only_memory_fullMap : fullMap.OnlyMemory fullEntries := by
  refine (only_memory_iff fullMap_conforming).mpr fun n _ bound => ?_
  by_cases last : n < 0xFFFFF
  · exact Or.inl ⟨⟨20, 0, 0xFFFFF000, 1⟩, List.mem_cons_self .., rfl, Nat.zero_le _,
      show 4096 * (n + 1) ≤ 0 + 0xFFFFF000 by omega⟩
  · have walks : fullMap.Walks 1 := ⟨by decide, by decide, by decide +kernel⟩
    rw [show n = 0xFFFFF by omega]
    exact Or.inr (Or.inr ⟨_, _, .record 1 walks, by decide +kernel⟩)

/-- A machine with 2 MiB of memory, which the kernel fills. -/
def twoMiB : Boot where
  memory := sparse [(0xC0010000, 64), (0xC001002C, 24), (0xC0010031, 0x10), (0xC0010032, 0x01),
    (0xC0010033, 0xC0), (0xC0011000, 20), (0xC001100E, 0x20), (0xC0011014, 1)]
  info := 0xC0010000
  kernelEnd := 0x200000

def twoMiBEntries : List MapEntry := [⟨20, 0, 0x200000, 1⟩]

theorem twoMiB_conforming : twoMiB.Conforming twoMiBEntries := by
  refine ⟨by decide, by decide, by decide, by decide, ?_⟩
  rw [if_pos (by decide)]
  exact ⟨.cons (by decide) (by decide) (by decide) (by decide) (by decide) (.nil _), by decide⟩

theorem twoMiB_no_modules (i : Nat) : ¬ i < twoMiB.modsCount := by
  rw [show twoMiB.modsCount = 0 by decide]
  exact Nat.not_lt_zero i

/-- With 2 MiB of memory in use, frame 512 is handed out though no entry mentions it. -/
theorem twoMiB_not_only_memory :
    twoMiB.Conforming twoMiBEntries ∧ ¬ twoMiB.OnlyMemory twoMiBEntries := by
  refine ⟨twoMiB_conforming, fun only => ?_⟩
  rcases only.covered twoMiB_conforming (show 0 < 512 by decide) (by decide) with
    ⟨entry, member, _, _, upper⟩ | (low | image | held) | ⟨_, _, range, _⟩
  · rw [List.mem_singleton.mp member] at upper
    exact absurd upper (by decide)
  · exact absurd low (by decide)
  · exact absurd (touches_iff.mp image) (by decide)
  · exact absurd (touches_iff.mp held) (by decide)
  · cases range with
    | module i inside => exact twoMiB_no_modules i inside
    | record k walks =>
      have inside : 24 * k < 24 := walks.2.1
      have usable := walks.2.2
      rw [show k = 0 by omega] at usable
      exact usable (by decide)

end Boot
end Snfos
