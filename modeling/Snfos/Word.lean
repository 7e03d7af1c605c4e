import Mathlib.Data.Nat.Bitwise

set_option autoImplicit false

/- Unsigned 32-bit arithmetic on natural numbers, and the page macros of
`kernel/page.h`. A page has 4096 bytes and a table 1024 entries throughout. -/
namespace Snfos

def u32 (n : Nat) : Nat := n % 2 ^ 32

/-- Subtraction of 32-bit values, which wraps below zero. -/
def sub32 (a b : Nat) : Nat := (a + 2 ^ 32 - b) % 2 ^ 32

theorem u32_lt (n : Nat) : u32 n < 2 ^ 32 := Nat.mod_lt _ (by decide)

theorem u32_of_lt {n : Nat} (bound : n < 2 ^ 32) : u32 n = n := Nat.mod_eq_of_lt bound

theorem sub32_of_le {a b : Nat} (order : b ≤ a) (bound : a < 2 ^ 32) : sub32 a b = a - b := by
  unfold sub32
  omega

def pageBoundaryStart (address : Nat) : Nat := address &&& 0xFFFFF000

def pageBoundaryEnd (address : Nat) : Nat := u32 (pageBoundaryStart address + 4096)

/-- `NUM_PAGES(start, end)`. -/
def numPages (start finish : Nat) : Nat :=
  u32 (sub32 (finish / 4096) (start / 4096) + if finish % 4096 ≠ 0 then 1 else 0)

theorem and_high_mask {address : Nat} (bound : address < 2 ^ 32) :
    address &&& 0xFFFFF000 = address / 4096 * 4096 := by
  have mask : (0xFFFFF000 : Nat) = (2 ^ 20 - 1) * 2 ^ 12 := by decide
  apply Nat.eq_of_testBit_eq
  intro bit
  rw [mask, show address / 4096 * 4096 = address / 2 ^ 12 * 2 ^ 12 from rfl,
    Nat.testBit_and, Nat.testBit_mul_two_pow, Nat.testBit_mul_two_pow,
    Nat.testBit_two_pow_sub_one, Nat.testBit_div_two_pow]
  by_cases high : 12 ≤ bit
  · have back : bit - 12 + 12 = bit := by omega
    simp only [high, decide_true, Bool.true_and, back]
    by_cases inside : bit - 12 < 20
    · simp only [inside, decide_true, Bool.and_true]
    · have zero : address.testBit bit = false :=
        Nat.testBit_lt_two_pow (Nat.lt_of_lt_of_le bound (Nat.pow_le_pow_right (by decide) (by omega)))
      simp only [zero, Bool.false_and]
  · simp only [high, decide_false, Bool.false_and, Bool.and_false]

theorem pageBoundaryStart_eq {address : Nat} (bound : address < 2 ^ 32) :
    pageBoundaryStart address = address / 4096 * 4096 := and_high_mask bound

theorem numPages_eq {start finish : Nat} (order : start ≤ finish) (bound : finish < 2 ^ 32) :
    numPages start finish = (finish + 4095) / 4096 - start / 4096 := by
  have whole : sub32 (finish / 4096) (start / 4096) = finish / 4096 - start / 4096 :=
    sub32_of_le (Nat.div_le_div_right order) (by omega)
  have fewer : finish / 4096 - start / 4096 + 1 < 2 ^ 32 := by omega
  unfold numPages
  rw [whole]
  split
  · rw [u32_of_lt fewer]
    omega
  · rw [u32_of_lt (by omega)]
    omega

/-- Where the linker put the end of the kernel image. The boot code maps the
image through one page table, so it ends within the first 4 MiB. -/
structure Layout where
  virtKernelEnd : Nat
  lower : 0xC0100000 ≤ virtKernelEnd
  upper : virtKernelEnd ≤ 0xC0400000

/-- A kernel that ends at the first page boundary it may end at. -/
def lowLayout : Layout := ⟨0xC0100000, by decide, by decide⟩

def Layout.heapStart (L : Layout) : Nat := u32 (pageBoundaryEnd L.virtKernelEnd + 4096)

theorem Layout.heapStart_eq (L : Layout) :
    L.heapStart = L.virtKernelEnd / 4096 * 4096 + 8192 := by
  have upper := L.upper
  have small : L.virtKernelEnd < 2 ^ 32 := by omega
  unfold Layout.heapStart pageBoundaryEnd
  rw [pageBoundaryStart_eq small]
  unfold u32
  omega

theorem Layout.heapStart_facts (L : Layout) :
    0xC0102000 ≤ L.heapStart ∧ L.heapStart ≤ 0xC0402000 ∧ L.heapStart % 4096 = 0 := by
  have lower := L.lower
  have upper := L.upper
  rw [L.heapStart_eq]
  omega

end Snfos
