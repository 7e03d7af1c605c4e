import Snfos.Word
import Mathlib.Data.Finset.Card
import Mathlib.Data.Finset.Range
import Mathlib.Data.Set.Insert

set_option autoImplicit false

/- The physical frame allocator of `page.c`: a bitmap of 32768 words, one bit a
frame, and the two hints that shorten its search. -/
namespace Snfos

/-- `bitmap` by offset from `BITMAP_START`, and `last_allocated` as such an
offset, `none` for `NULL`. -/
structure Frames where
  bitmap : Nat → BitVec 32
  lastAllocated : Option Nat
  freed : Bool

namespace Frames

/-- The inner `while (1)`. After 32 steps the mask is zero, which ends the loop. -/
def clearBit (word : BitVec 32) : Nat → BitVec 32 → Nat → BitVec 32 × Nat
  | 0, mask, bit => (mask, bit)
  | fuel + 1, mask, bit =>
      if word &&& mask = 0#32 then (mask, bit) else clearBit word fuel (mask <<< 1) (bit + 1)

/-- The `for` loop over the words that are left up to `BITMAP_END`. -/
def allocateFrom (f : Frames) : Nat → Nat → Nat × Frames
  | 0, _ => (0, f)
  | left + 1, block =>
      if ~~~(f.bitmap block) ≠ 0#32 then
        let (mask, bit) := clearBit (f.bitmap block) 32 1#32 0
        (u32 ((block * 32 + bit) * 4096),
          ⟨Function.update f.bitmap block (f.bitmap block ||| mask), some block, false⟩)
      else allocateFrom f left (block + 1)

/-- `allocate_next_page`, which returns 0 when it finds no frame. -/
def allocateNextPage (f : Frames) : Nat × Frames :=
  let block := if f.freed = false then f.lastAllocated.getD 0 else 0
  allocateFrom f (32768 - block) block

def freePhysicalPage (page : Nat) (f : Frames) : Frames :=
  let addr := page &&& 0xFFFFF000
  let offset := addr / 4096 / 32
  let bitNum := addr / 4096 % 32
  let update := ~~~(1#32 <<< bitNum)
  { f with bitmap := Function.update f.bitmap offset (f.bitmap offset &&& update), freed := true }

def checkUsed (physAddr : Nat) (f : Frames) : Bool :=
  let addr := physAddr &&& 0xFFFFF000
  let offset := addr / 4096 / 32
  let bitNum := addr / 4096 % 32
  f.bitmap offset &&& (1#32 <<< bitNum) != 0#32

/-- The inner loop of `mark_used`: what it leaves in `update` and in `num`. -/
def markBits : Nat → Nat → BitVec 32 → BitVec 32 × Nat
  | 0, _, update => (update, 0)
  | num + 1, bitNum, update =>
      if bitNum < 32 then markBits num (bitNum + 1) (update ||| (1#32 <<< bitNum))
      else (update, num + 1)

/-- The outer loop of `mark_used`. Each pass takes at least one frame off `num`,
so a fuel of `num` lasts. -/
def markWords : Nat → Nat → Nat → Nat → Frames → Frames
  | 0, _, _, _, f => f
  | fuel + 1, offset, bitNum, num, f =>
      if 0 < num then
        let (update, num) := markBits num bitNum 0#32
        markWords fuel (offset + 1) 0 num
          { f with bitmap := Function.update f.bitmap offset (f.bitmap offset ||| update) }
      else f

def markUsed (start num : Nat) (f : Frames) : Frames :=
  let addr := start &&& 0xFFFFF000
  markWords num (addr / 4096 / 32) (addr / 4096 % 32) num f

/-- The bit of frame `n`. -/
def used (f : Frames) (n : Nat) : Bool := (f.bitmap (n / 32)).getLsbD (n % 32)

theorem and_bit (word : BitVec 32) {bit : Nat} (small : bit < 32) :
    word &&& (1#32 <<< bit) = 0#32 ↔ word.getLsbD bit = false := by
  rw [← BitVec.twoPow_eq, BitVec.and_twoPow]
  cases set : word.getLsbD bit with
  | false => simp
  | true =>
      simp only [↓reduceIte, Bool.true_eq_false, iff_false]
      intro zero
      have bits := congrArg (BitVec.getLsbD · bit) zero
      simp [small] at bits

theorem not_ne_zero_iff (word : BitVec 32) :
    ~~~word ≠ 0#32 ↔ ∃ bit, bit < 32 ∧ word.getLsbD bit = false := by
  constructor
  · intro clear
    by_contra none
    push Not at none
    apply clear
    apply BitVec.eq_of_getLsbD_eq
    intro bit small
    have set := none bit small
    simp only [Bool.not_eq_false] at set
    simp [small, set]
  · rintro ⟨bit, small, clear⟩ zero
    have bits := congrArg (BitVec.getLsbD · bit) zero
    simp only [BitVec.getLsbD_not, small, clear, decide_true, Bool.not_false, Bool.and_self,
      BitVec.getLsbD_zero, Bool.true_eq_false] at bits

/-- The word at `offset` replaced. -/
def setWord (f : Frames) (offset : Nat) (word : BitVec 32) : Frames :=
  { f with bitmap := Function.update f.bitmap offset word }

theorem used_setWord (f : Frames) (offset : Nat) (word : BitVec 32) (n : Nat) :
    (f.setWord offset word).used n = if n / 32 = offset then word.getLsbD (n % 32) else f.used n := by
  unfold used setWord
  by_cases same : n / 32 = offset
  · simp [same]
  · simp [same]

/-- The state after frame `n` was handed out. -/
def take (f : Frames) (n : Nat) : Frames :=
  ⟨Function.update f.bitmap (n / 32) (f.bitmap (n / 32) ||| (1#32 <<< (n % 32))),
    some (n / 32), false⟩

theorem used_take (f : Frames) (n k : Nat) :
    (f.take n).used k = (f.used k || decide (k = n)) := by
  have same : (f.take n).used k =
      (f.setWord (n / 32) (f.bitmap (n / 32) ||| (1#32 <<< (n % 32)))).used k := rfl
  rw [same, used_setWord]
  split
  · next word =>
      rw [BitVec.getLsbD_or, ← BitVec.twoPow_eq, BitVec.getLsbD_twoPow]
      unfold used
      rw [word]
      by_cases here : k = n
      · simp [here, Nat.mod_lt]
      · have apart : ¬ n % 32 = k % 32 := by omega
        simp [here, apart]
  · next word =>
      have apart : k ≠ n := by
        rintro rfl
        exact word rfl
      simp [apart]

theorem take_keeps (f : Frames) (n : Nat) {k : Nat} (use : f.used k = true) :
    (f.take n).used k = true := by
  rw [used_take, use, Bool.true_or]

section Scan

variable {f : Frames}

theorem clearBit_least (word : BitVec 32) (fuel bit : Nat) (all : fuel + bit = 32)
    (clear : ∃ i, bit ≤ i ∧ i < 32 ∧ word.getLsbD i = false) :
    ∃ i, clearBit word fuel (1#32 <<< bit) bit = (1#32 <<< i, i) ∧ i < 32 ∧
      word.getLsbD i = false ∧ ∀ j, bit ≤ j → j < i → word.getLsbD j = true := by
  induction fuel generalizing bit with
  | zero =>
      obtain ⟨i, lower, upper, _⟩ := clear
      omega
  | succ fuel ih =>
      rw [clearBit]
      by_cases here : word.getLsbD bit = false
      · rw [if_pos ((and_bit word (by omega)).mpr here)]
        exact ⟨bit, rfl, by omega, here, fun j lower upper => by omega⟩
      · rw [if_neg (fun zero => here ((and_bit word (by omega)).mp zero))]
        have shifted : (1#32 <<< bit) <<< 1 = 1#32 <<< (bit + 1) :=
          (BitVec.shiftLeft_add 1#32 bit 1).symm
        rw [shifted]
        obtain ⟨i, lower, upper, zero⟩ := clear
        have further : bit ≠ i := by
          rintro rfl
          exact here zero
        obtain ⟨least, result, small, unset, below⟩ :=
          ih (bit + 1) (by omega) ⟨i, by omega, upper, zero⟩
        refine ⟨least, result, small, unset, fun j lower upper => ?_⟩
        by_cases start : j = bit
        · rw [start]
          simpa using here
        · exact below j (by omega) upper

/-- The scan from `block` hands out the first clear frame from there on. -/
theorem allocateFrom_first (f : Frames) (left block : Nat) (all : left + block = 32768) :
    (∃ n, n < 2 ^ 20 ∧ block * 32 ≤ n ∧ f.used n = false ∧
        (∀ k, block * 32 ≤ k → k < n → f.used k = true) ∧
        allocateFrom f left block = (4096 * n, f.take n)) ∨
      (∀ k, block * 32 ≤ k → k < 2 ^ 20 → f.used k = true) ∧
        allocateFrom f left block = (0, f) := by
  induction left generalizing block with
  | zero => exact Or.inr ⟨fun k lower upper => by omega, rfl⟩
  | succ left ih =>
      rw [allocateFrom]
      by_cases room : ∃ bit, bit < 32 ∧ (f.bitmap block).getLsbD bit = false
      · rw [if_pos ((not_ne_zero_iff _).mpr room)]
        obtain ⟨bit, small, clear⟩ := room
        obtain ⟨i, result, below32, unset, below⟩ :=
          clearBit_least (f.bitmap block) 32 0 rfl ⟨bit, by omega, small, clear⟩
        rw [show (1#32 <<< 0) = 1#32 from rfl] at result
        have word : (block * 32 + i) / 32 = block := by omega
        have place : (block * 32 + i) % 32 = i := by omega
        refine Or.inl ⟨block * 32 + i, by omega, by omega, ?_, fun k lower upper => ?_, ?_⟩
        · unfold used
          rw [word, place, unset]
        · have same : k / 32 = block := by omega
          unfold used
          rw [same]
          exact below _ (by omega) (by omega)
        · simp only [result]
          unfold take
          rw [word, place, u32_of_lt (by omega), Nat.mul_comm]
      · rw [if_neg (fun clear => room ((not_ne_zero_iff _).mp clear))]
        have full : ∀ k, k / 32 = block → f.used k = true := by
          intro k same
          by_contra clear
          refine room ⟨k % 32, Nat.mod_lt _ (by decide), ?_⟩
          unfold used at clear
          rw [same] at clear
          simpa using clear
        rcases ih (block + 1) (by omega) with ⟨n, bound, lower, unset, below, result⟩ | ⟨rest, result⟩
        · refine Or.inl ⟨n, bound, by omega, unset, fun k low high => ?_, result⟩
          by_cases here : k / 32 = block
          · exact full k here
          · exact below k (by omega) high
        · refine Or.inr ⟨fun k low high => ?_, result⟩
          by_cases here : k / 32 = block
          · exact full k here
          · exact rest k (by omega) high

/-- What makes the hint sound: no frame before `last_allocated` is free unless
something was freed since. -/
def Hinted (f : Frames) : Prop :=
  f.freed = false → ∀ block, f.lastAllocated = some block →
    block ≤ 32768 ∧ ∀ n, n < block * 32 → f.used n = true

theorem allocateFrom_skip (f : Frames) (block left : Nat)
    (full : ∀ n, n < block * 32 → f.used n = true) :
    allocateFrom f (left + block) 0 = allocateFrom f left block := by
  induction block generalizing left with
  | zero => rfl
  | succ block ih =>
      have before := ih (left + 1) (fun n bound => full n (by omega))
      rw [show left + (block + 1) = left + 1 + block by omega, before, allocateFrom, if_neg]
      rw [not_ne_zero_iff]
      rintro ⟨bit, small, clear⟩
      have set := full (block * 32 + bit) (by omega)
      unfold used at set
      rw [show (block * 32 + bit) / 32 = block by omega,
        show (block * 32 + bit) % 32 = bit by omega, clear] at set
      cases set

/-- The search from the hint agrees with a scan of the whole bitmap. -/
theorem Hinted.full_scan (hinted : Hinted f) : allocateNextPage f = allocateFrom f 32768 0 := by
  unfold allocateNextPage
  split
  · next fresh =>
      cases last : f.lastAllocated with
      | none => rfl
      | some block =>
          obtain ⟨inside, full⟩ := hinted fresh block last
          have skip := allocateFrom_skip f block (32768 - block) full
          rw [show 32768 - block + block = 32768 by omega] at skip
          exact skip.symm
  · rfl

theorem Hinted.allocateNextPage (hinted : Hinted f) :
    (∃ n, n < 2 ^ 20 ∧ f.used n = false ∧ (∀ k, k < n → f.used k = true) ∧
        f.allocateNextPage = (4096 * n, f.take n)) ∨
      (∀ k, k < 2 ^ 20 → f.used k = true) ∧ f.allocateNextPage = (0, f) := by
  rw [hinted.full_scan]
  rcases allocateFrom_first f 32768 0 rfl with ⟨n, bound, _, unset, below, result⟩ | ⟨full, result⟩
  · exact Or.inl ⟨n, bound, unset, fun k lower => below k (by omega) lower, result⟩
  · exact Or.inr ⟨fun k => full k (by omega), result⟩

theorem hinted_take {n : Nat} (bound : n < 2 ^ 20) (below : ∀ k, k < n → f.used k = true) :
    Hinted (f.take n) := by
  intro _ block last
  have here : n / 32 = block := by simpa [take] using last
  refine ⟨by omega, fun k lower => ?_⟩
  rw [used_take, below k (by omega)]
  rfl

end Scan

section Marks

variable {f : Frames}

theorem used_freePhysicalPage {page : Nat} (bound : page < 2 ^ 32) (n : Nat) :
    (freePhysicalPage page f).used n = (f.used n && decide (n ≠ page / 4096)) := by
  have addr : (page &&& 0xFFFFF000) / 4096 = page / 4096 := by
    rw [and_high_mask bound]
    omega
  have same : (freePhysicalPage page f).used n =
      (f.setWord (page / 4096 / 32)
        (f.bitmap (page / 4096 / 32) &&& ~~~(1#32 <<< (page / 4096 % 32)))).used n := by
    unfold freePhysicalPage
    simp only [addr]
    rfl
  rw [same, used_setWord]
  split
  · next word =>
      have bit : page / 4096 % 32 = n % 32 ↔ n = page / 4096 := by omega
      rw [BitVec.getLsbD_and, BitVec.getLsbD_not, ← BitVec.twoPow_eq, BitVec.getLsbD_twoPow]
      unfold used
      rw [word]
      simp [bit, Nat.mod_lt]
  · next word =>
      have apart : n ≠ page / 4096 := by
        rintro rfl
        exact word rfl
      simp [apart]

theorem checkUsed_eq {addr : Nat} (bound : addr < 2 ^ 32) :
    checkUsed addr f = f.used (addr / 4096) := by
  have frame : (addr &&& 0xFFFFF000) / 4096 = addr / 4096 := by
    rw [and_high_mask bound]
    omega
  unfold checkUsed used
  simp only [frame]
  have bit := and_bit (f.bitmap (addr / 4096 / 32)) (Nat.mod_lt (addr / 4096) (by decide : 0 < 32))
  cases set : (f.bitmap (addr / 4096 / 32)).getLsbD (addr / 4096 % 32) with
  | false => simpa using bit.mpr set
  | true =>
      rw [bne_iff_ne]
      intro zero
      rw [bit.mp zero] at set
      cases set

theorem markBits_eq (num bitNum : Nat) (update : BitVec 32) (small : bitNum ≤ 32) :
    (markBits num bitNum update).2 = num - (32 - bitNum) ∧
      ∀ i, i < 32 → (markBits num bitNum update).1.getLsbD i =
        (update.getLsbD i || decide (bitNum ≤ i ∧ i < bitNum + num)) := by
  induction num generalizing bitNum update with
  | zero =>
      refine ⟨by simp [markBits], fun i _ => ?_⟩
      simp [markBits]
  | succ num ih =>
      rw [markBits]
      split
      · next more =>
          obtain ⟨left, bits⟩ := ih (bitNum + 1) (update ||| (1#32 <<< bitNum)) more
          refine ⟨by omega, fun i inside => ?_⟩
          rw [bits i inside, BitVec.getLsbD_or, ← BitVec.twoPow_eq, BitVec.getLsbD_twoPow,
            Bool.or_assoc]
          congr 1
          by_cases here : bitNum = i
          · simp [here, inside]
          · have step : (bitNum ≤ i ∧ i < bitNum + (num + 1)) ↔
                (bitNum + 1 ≤ i ∧ i < bitNum + 1 + num) := by omega
            simp [here, step]
      · next last =>
          refine ⟨by omega, fun i inside => ?_⟩
          have none : ¬ (bitNum ≤ i ∧ i < bitNum + (num + 1)) := by omega
          simp [none]

theorem used_markWords (fuel offset bitNum num : Nat) (f : Frames) (enough : num ≤ fuel)
    (small : bitNum < 32) (n : Nat) :
    (markWords fuel offset bitNum num f).used n =
      (f.used n || decide (offset * 32 + bitNum ≤ n ∧ n < offset * 32 + bitNum + num)) := by
  induction fuel generalizing offset bitNum num f with
  | zero =>
      have none : ¬ (offset * 32 + bitNum ≤ n ∧ n < offset * 32 + bitNum + num) := by omega
      simp [markWords, none]
  | succ fuel ih =>
      rw [markWords]
      split
      · next more =>
          obtain ⟨left, bits⟩ := markBits_eq num bitNum 0#32 (by omega)
          obtain ⟨⟨update, num'⟩, result⟩ : ∃ r, markBits num bitNum 0#32 = r := ⟨_, rfl⟩
          rw [result] at left bits ⊢
          simp only at left bits ⊢
          rw [ih (offset + 1) 0 num' _ (by omega) (by decide)]
          have word := used_setWord f offset (f.bitmap offset ||| update) n
          unfold setWord at word
          rw [word]
          split
          · next here =>
              rw [BitVec.getLsbD_or, bits _ (Nat.mod_lt _ (by decide))]
              unfold used
              rw [here]
              have step : (offset * 32 + bitNum ≤ n ∧ n < offset * 32 + bitNum + num) ↔
                  (bitNum ≤ n % 32 ∧ n % 32 < bitNum + num) := by omega
              have later : ¬ ((offset + 1) * 32 ≤ n ∧ n < (offset + 1) * 32 + num') := by omega
              simp only [Nat.add_zero, later, decide_false, Bool.or_false, step,
                BitVec.getLsbD_zero, Bool.false_or]
          · next there =>
              have step : (offset * 32 + bitNum ≤ n ∧ n < offset * 32 + bitNum + num) ↔
                  ((offset + 1) * 32 + 0 ≤ n ∧ n < (offset + 1) * 32 + 0 + num') := by omega
              simp only [step]
      · next done =>
          have none : ¬ (offset * 32 + bitNum ≤ n ∧ n < offset * 32 + bitNum + num) := by omega
          simp [none]

theorem used_markUsed {start : Nat} (bound : start < 2 ^ 32) (num n : Nat) :
    (markUsed start num f).used n =
      (f.used n || decide (start / 4096 ≤ n ∧ n < start / 4096 + num)) := by
  have frame : (start &&& 0xFFFFF000) / 4096 = start / 4096 := by
    rw [and_high_mask bound]
    omega
  unfold markUsed
  simp only [frame]
  rw [used_markWords _ _ _ _ _ (Nat.le_refl _) (Nat.mod_lt _ (by decide))]
  have whole : start / 4096 / 32 * 32 + start / 4096 % 32 = start / 4096 := by omega
  rw [whole]

theorem markWords_hints (fuel offset bitNum num : Nat) (f : Frames) :
    (markWords fuel offset bitNum num f).freed = f.freed ∧
      (markWords fuel offset bitNum num f).lastAllocated = f.lastAllocated := by
  induction fuel generalizing offset bitNum num f with
  | zero => exact ⟨rfl, rfl⟩
  | succ fuel ih =>
      rw [markWords]
      split
      · exact ih ..
      · exact ⟨rfl, rfl⟩

theorem Hinted.markUsed (hinted : Hinted f) {start : Nat} (bound : start < 2 ^ 32) (num : Nat) :
    Hinted (f.markUsed start num) := by
  obtain ⟨freed, last⟩ := markWords_hints num ((start &&& 0xFFFFF000) / 4096 / 32)
    ((start &&& 0xFFFFF000) / 4096 % 32) num f
  intro fresh block same
  obtain ⟨inside, full⟩ := hinted (freed.symm.trans fresh) block (last.symm.trans same)
  refine ⟨inside, fun n lower => ?_⟩
  rw [used_markUsed bound, full n lower]
  rfl

theorem hinted_freePhysicalPage (page : Nat) : Hinted (f.freePhysicalPage page) :=
  fun fresh => absurd fresh (by simp [freePhysicalPage])

/-- The free frames below `count`. -/
def unusedBelow (f : Frames) (count : Nat) : Finset Nat :=
  (Finset.range count).filter fun n => f.used n = false

theorem mem_unusedBelow {count n : Nat} : n ∈ f.unusedBelow count ↔ n < count ∧ f.used n = false := by
  unfold unusedBelow
  rw [Finset.mem_filter, Finset.mem_range]

theorem unusedBelow_take {count n : Nat} :
    (f.take n).unusedBelow count = (f.unusedBelow count).erase n := by
  ext k
  simp only [mem_unusedBelow, Finset.mem_erase, used_take, Bool.or_eq_false_iff,
    decide_eq_false_iff_not]
  tauto

/-- How many frames are free. -/
def unused (f : Frames) : Nat := (f.unusedBelow (2 ^ 20)).card

theorem two_le_unused {m n : Nat} (different : m ≠ n) (first : m < 2 ^ 20 ∧ f.used m = false)
    (second : n < 2 ^ 20 ∧ f.used n = false) : 2 ≤ f.unused := by
  have pair : ({m, n} : Finset Nat) ⊆ f.unusedBelow (2 ^ 20) := by
    intro k member
    rw [Finset.mem_insert, Finset.mem_singleton] at member
    rw [mem_unusedBelow]
    rcases member with rfl | rfl
    · exact first
    · exact second
  have size := Finset.card_le_card pair
  rw [Finset.card_pair different] at size
  exact size

theorem unused_take {n : Nat} (bound : n < 2 ^ 20) (unset : f.used n = false) :
    (f.take n).unused + 1 = f.unused := by
  unfold unused
  rw [unusedBelow_take]
  exact Finset.card_erase_add_one (mem_unusedBelow.mpr ⟨bound, unset⟩)

theorem unused_freePhysicalPage {page : Nat} (bound : page < 2 ^ 32) :
    f.unused ≤ (f.freePhysicalPage page).unused := by
  refine Finset.card_le_card fun n member => ?_
  rw [mem_unusedBelow] at member ⊢
  rw [used_freePhysicalPage bound, member.2]
  exact ⟨member.1, rfl⟩

theorem unused_eq_zero (full : ∀ n, n < 2 ^ 20 → f.used n = true) : f.unused = 0 := by
  refine Finset.card_eq_zero.mpr (Finset.eq_empty_of_forall_notMem fun n member => ?_)
  rw [mem_unusedBelow] at member
  rw [full n member.1] at member
  exact absurd member.2 (by decide)

end Marks

/- The purpose of the bitmap: a set of used frame numbers. -/

inductive Request where
  | markUsed (start num : Nat)
  | freePhysicalPage (page : Nat)
  | checkUsed (physAddr : Nat)
  | allocateNextPage

/-- Addresses have 32 bits, and marks stay inside the bitmap. -/
def Request.Fits : Request → Prop
  | .markUsed start num => start < 2 ^ 32 ∧ start / 4096 + num ≤ 2 ^ 20
  | .freePhysicalPage page => page < 2 ^ 32
  | .checkUsed physAddr => physAddr < 2 ^ 32
  | .allocateNextPage => True

instance : DecidablePred Request.Fits := fun request => by
  cases request <;> unfold Request.Fits <;> infer_instance

/-- What a call returns, 0 where it returns nothing, and the state it leaves. -/
def serve (f : Frames) : Request → Nat × Frames
  | .markUsed start num => (0, f.markUsed start num)
  | .freePhysicalPage page => (0, f.freePhysicalPage page)
  | .checkUsed physAddr => (if f.checkUsed physAddr then 1 else 0, f)
  | .allocateNextPage => f.allocateNextPage

def run (f : Frames) : List Request → List Nat × Frames
  | [] => ([], f)
  | request :: rest =>
      let (reply, f) := f.serve request
      let (replies, f) := run f rest
      (reply :: replies, f)

/-- The frame numbers of the bitmap whose bit is set. -/
def usedSet (f : Frames) : Set Nat := {n | n < 2 ^ 20 ∧ f.used n = true}

/-- What a call does to a plain set `U` of used frames. -/
inductive SetServes (U : Set Nat) : Request → Nat → Set Nat → Prop
  | markUsed (start num : Nat) : SetServes U (.markUsed start num) 0
      (U ∪ {n | start / 4096 ≤ n ∧ n < start / 4096 + num})
  | freePhysicalPage (page : Nat) :
      SetServes U (.freePhysicalPage page) 0 (U \ {page / 4096})
  | member (physAddr : Nat) (used : physAddr / 4096 ∈ U) : SetServes U (.checkUsed physAddr) 1 U
  | absent (physAddr : Nat) (unused : physAddr / 4096 ∉ U) : SetServes U (.checkUsed physAddr) 0 U
  | handOut (n : Nat) (inside : n < 2 ^ 20) (unused : n ∉ U) (least : ∀ k, k < n → k ∈ U) :
      SetServes U .allocateNextPage (4096 * n) (insert n U)
  | full (all : ∀ n, n < 2 ^ 20 → n ∈ U) : SetServes U .allocateNextPage 0 U

inductive SetRuns : Set Nat → List Request → List Nat → Set Nat → Prop
  | nil (U : Set Nat) : SetRuns U [] [] U
  | cons {U V W : Set Nat} {request : Request} {rest : List Request} {reply : Nat}
      {replies : List Nat} (served : SetServes U request reply V) (runs : SetRuns V rest replies W) :
      SetRuns U (request :: rest) (reply :: replies) W

section Refinement

variable {f : Frames}

theorem mem_usedSet (n : Nat) : n ∈ f.usedSet ↔ n < 2 ^ 20 ∧ f.used n = true := Iff.rfl

theorem Hinted.serve (hinted : Hinted f) (request : Request) (fits : request.Fits) :
    Hinted (f.serve request).2 := by
  cases request with
  | markUsed start num => exact hinted.markUsed fits.1 num
  | freePhysicalPage page => exact hinted_freePhysicalPage page
  | checkUsed physAddr => exact hinted
  | allocateNextPage =>
      rcases hinted.allocateNextPage with ⟨n, bound, _, below, result⟩ | ⟨_, result⟩
      · simp only [Frames.serve, result]
        exact hinted_take bound below
      · simp only [Frames.serve, result]
        exact hinted

/-- One call does to the bitmap what it does to the set. -/
theorem serve_refines (hinted : Hinted f) (request : Request) (fits : request.Fits) :
    SetServes f.usedSet request (f.serve request).1 (f.serve request).2.usedSet := by
  cases request with
  | markUsed start num =>
      have marked : (f.serve (.markUsed start num)).2.usedSet =
          f.usedSet ∪ {n | start / 4096 ≤ n ∧ n < start / 4096 + num} := by
        ext n
        have inside := fits.2
        simp only [mem_usedSet, Frames.serve, used_markUsed fits.1, Bool.or_eq_true,
          decide_eq_true_eq, Set.mem_union, Set.mem_ofPred_eq]
        constructor
        · rintro ⟨bound, set | mark⟩
          · exact Or.inl ⟨bound, set⟩
          · exact Or.inr mark
        · rintro (⟨bound, set⟩ | mark)
          · exact ⟨bound, Or.inl set⟩
          · exact ⟨by omega, Or.inr mark⟩
      rw [marked]
      exact .markUsed start num
  | freePhysicalPage page =>
      have freed : (f.serve (.freePhysicalPage page)).2.usedSet =
          f.usedSet \ {page / 4096} := by
        ext n
        simp only [mem_usedSet, Frames.serve, used_freePhysicalPage fits, Bool.and_eq_true,
          decide_eq_true_eq, Set.mem_sdiff, Set.mem_singleton_iff, and_assoc]
      rw [freed]
      exact .freePhysicalPage page
  | checkUsed physAddr =>
      have bound : physAddr < 2 ^ 32 := fits
      have inside : physAddr / 4096 < 2 ^ 20 := by omega
      simp only [Frames.serve, checkUsed_eq bound]
      split
      · next set => exact .member physAddr ⟨inside, set⟩
      · next unset => exact .absent physAddr fun used => unset used.2
  | allocateNextPage =>
      rcases hinted.allocateNextPage with ⟨n, bound, unset, below, result⟩ | ⟨full, result⟩
      · have taken : (f.take n).usedSet = insert n f.usedSet := by
          ext k
          simp only [mem_usedSet, used_take, Bool.or_eq_true, decide_eq_true_eq,
            Set.mem_insert_iff]
          constructor
          · rintro ⟨inside, set | rfl⟩
            · exact Or.inr ⟨inside, set⟩
            · exact Or.inl rfl
          · rintro (rfl | ⟨inside, set⟩)
            · exact ⟨bound, Or.inr rfl⟩
            · exact ⟨inside, Or.inl set⟩
        simp only [Frames.serve, result, taken]
        refine .handOut n bound (fun used => ?_) fun k lower => ⟨by omega, below k lower⟩
        rw [used.2] at unset
        cases unset
      · simp only [Frames.serve, result]
        exact .full fun n inside => ⟨inside, full n inside⟩

theorem run_hinted (hinted : Hinted f) (requests : List Request)
    (fits : ∀ request ∈ requests, request.Fits) : Hinted (f.run requests).2 := by
  induction requests generalizing f with
  | nil => exact hinted
  | cons request rest ih =>
      exact ih (hinted.serve request (fits request (List.mem_cons_self ..)))
        fun other member => fits other (List.mem_cons_of_mem _ member)

theorem run_refines (hinted : Hinted f) (requests : List Request)
    (fits : ∀ request ∈ requests, request.Fits) :
    SetRuns f.usedSet requests (f.run requests).1 (f.run requests).2.usedSet := by
  induction requests generalizing f with
  | nil => exact .nil _
  | cons request rest ih =>
      have first := fits request (List.mem_cons_self ..)
      exact .cons (serve_refines hinted request first)
        (ih (hinted.serve request first)
          fun other member => fits other (List.mem_cons_of_mem _ member))

/-- A used frame stays used until a call frees it. -/
theorem SetRuns.stays {U V : Set Nat} {requests : List Request} {replies : List Nat} {n : Nat}
    (runs : SetRuns U requests replies V) (used : n ∈ U)
    (kept : ∀ page, .freePhysicalPage page ∈ requests → page / 4096 ≠ n) : n ∈ V := by
  induction runs with
  | nil U => exact used
  | cons served rest ih =>
      refine ih ?_ fun page member => kept page (List.mem_cons_of_mem _ member)
      cases served with
      | markUsed start num => exact Or.inl used
      | freePhysicalPage page =>
          exact ⟨used, fun same => kept page (List.mem_cons_self ..) same.symm⟩
      | member physAddr _ => exact used
      | absent physAddr _ => exact used
      | handOut k inside unused least => exact Or.inr used
      | full all => exact used

end Refinement

/-- The bitmap as the kernel image holds it before the first call. -/
def boot (bitmap : Nat → BitVec 32) : Frames := ⟨bitmap, none, false⟩

theorem boot_hinted (bitmap : Nat → BitVec 32) : Hinted (boot bitmap) := by
  intro _ block last
  cases last

/-- Over every sequence of calls the bitmap and its hints behave as a plain set
of used frames, the hinted search agrees with a full scan, and a frame that is
in use is handed out again only after it was freed. -/
theorem bitmap_behaves_as_set (bitmap : Nat → BitVec 32) (requests : List Request)
    (fits : ∀ request ∈ requests, request.Fits) :
    let start := boot bitmap
    let f := (start.run requests).2
    SetRuns start.usedSet requests (start.run requests).1 f.usedSet ∧
      f.allocateNextPage = allocateFrom f 32768 0 ∧
      ∀ n later, n ∈ f.usedSet → (∀ request ∈ later, request.Fits) →
        (∀ page, .freePhysicalPage page ∈ later → page / 4096 ≠ n) →
        (f.run later).2.allocateNextPage.1 = 4096 * n →
        n = 0 ∧ ∀ k, k < 2 ^ 20 → k ∈ (f.run later).2.usedSet := by
  have hinted := run_hinted (boot_hinted bitmap) requests fits
  refine ⟨run_refines (boot_hinted bitmap) requests fits, hinted.full_scan, ?_⟩
  intro n later used fits' kept reply
  have stays := (run_refines hinted later fits').stays used kept
  rcases (run_hinted hinted later fits').allocateNextPage with
    ⟨k, inside, unset, _, result⟩ | ⟨full, result⟩
  · rw [result] at reply
    obtain rfl : k = n := by
      simp only at reply
      omega
    rw [stays.2] at unset
    cases unset
  · rw [result] at reply
    simp only at reply
    exact ⟨by omega, fun k inside => ⟨inside, full k inside⟩⟩

theorem bitmap_behaves_as_set_boot :
    SetRuns (boot fun _ => 0).usedSet [.markUsed 0 256, .allocateNextPage, .freePhysicalPage 0x5000,
        .checkUsed 0x5000, .allocateNextPage] [0, 0x100000, 0, 0, 0x5000]
      ((boot fun _ => 0).run [.markUsed 0 256, .allocateNextPage, .freePhysicalPage 0x5000,
        .checkUsed 0x5000, .allocateNextPage]).2.usedSet := by
  have replies : ((boot fun _ => 0).run [.markUsed 0 256, .allocateNextPage,
      .freePhysicalPage 0x5000, .checkUsed 0x5000, .allocateNextPage]).1 =
      [0, 0x100000, 0, 0, 0x5000] := by decide +kernel
  rw [← replies]
  exact (bitmap_behaves_as_set (fun _ => 0) _ (by decide)).1

end Frames
end Snfos
