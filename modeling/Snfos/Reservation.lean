import Snfos.BootMap

set_option autoImplicit false

/- `mark_used` on a range of bytes, as `init_bitmap` calls it. -/
namespace Snfos.Frames

/-- The variables of the outer loop of `mark_used`. -/
structure Marking where
  offset : Nat
  bitNum : Nat
  num : Nat
  frames : Frames

namespace Marking

/-- One pass of the outer loop. -/
def pass (s : Marking) : Marking :=
  let (update, num) := markBits s.num s.bitNum 0#32
  ⟨s.offset + 1, 0, num,
    { s.frames with
      bitmap := Function.update s.frames.bitmap s.offset (s.frames.bitmap s.offset ||| update) }⟩

def first (start num : Nat) (f : Frames) : Marking :=
  ⟨(start &&& 0xFFFFF000) / 4096 / 32, (start &&& 0xFFFFF000) / 4096 % 32, num, f⟩

/-- The loop ends with the frames `f`, after passes over the given words. -/
inductive Ends : Marking → List Nat → Frames → Prop
  | done {s : Marking} (none : s.num = 0) : Ends s [] s.frames
  | pass {s : Marking} {words : List Nat} {f : Frames} (more : 0 < s.num)
      (rest : Ends s.pass words f) : Ends s (s.offset :: words) f

/-- Each pass has a frame to mark in its word. -/
theorem ends_markWords (fuel offset bitNum num : Nat) (f : Frames) (enough : num ≤ fuel)
    (small : bitNum < 32) :
    ∃ words, Ends ⟨offset, bitNum, num, f⟩ words (markWords fuel offset bitNum num f) ∧
      ∀ word ∈ words, word * 32 < offset * 32 + bitNum + num := by
  induction fuel generalizing offset bitNum num f with
  | zero => exact ⟨[], .done (Nat.le_zero.mp enough), fun _ member => by cases member⟩
  | succ fuel ih =>
    rw [markWords]
    split
    · next more =>
      have left := (markBits_eq num bitNum 0#32 (by omega)).1
      obtain ⟨words, rest, inside⟩ := ih (offset + 1) 0 (markBits num bitNum 0#32).2
        { f with bitmap := Function.update f.bitmap offset
                  (f.bitmap offset ||| (markBits num bitNum 0#32).1) } (by omega) (by decide)
      refine ⟨offset :: words, .pass more rest, fun word member => ?_⟩
      cases List.mem_cons.mp member with
      | inl here => omega
      | inr later =>
        have below := inside word later
        omega
    · next done => exact ⟨[], .done (Nat.eq_zero_of_not_pos done), fun _ member => by cases member⟩

end Marking

/-- `mark_used(start, NUM_PAGES(start, end))` ends, writes inside the bitmap, and marks the
frames that `[start, end)` has a byte in and no other. -/
theorem markUsed_reserves (f : Frames) (start finish : Nat) (order : start < finish)
    (bound : finish < 2 ^ 32) :
    (∃ words, Marking.Ends (.first start (numPages start finish) f) words
        (f.markUsed start (numPages start finish)) ∧ ∀ word ∈ words, word < 32768) ∧
      ∀ n, (f.markUsed start (numPages start finish)).used n = true ↔
        f.used n = true ∨ Touches n start finish := by
  have small : start < 2 ^ 32 := by omega
  constructor
  · obtain ⟨words, ends, inside⟩ := Marking.ends_markWords _ ((start &&& 0xFFFFF000) / 4096 / 32)
      ((start &&& 0xFFFFF000) / 4096 % 32) (numPages start finish) f (Nat.le_refl _)
      (Nat.mod_lt _ (by decide))
    refine ⟨words, ends, fun word member => ?_⟩
    have below := inside word member
    rw [and_high_mask small, numPages_eq (by omega) bound] at below
    omega
  · intro n
    rw [Boot.used_mark small, marks_numPages (by omega) bound (fun same => by omega)]

/-- Two bytes, one on each side of a word boundary of the bitmap. -/
theorem markUsed_reserves_two :
    ((boot fun _ => 0).markUsed 0x1FFFF (numPages 0x1FFFF 0x20001)).used 32 = true :=
  ((markUsed_reserves (boot fun _ => 0) 0x1FFFF 0x20001 (by decide) (by decide)).2 32).mpr
    (Or.inr ⟨0x20000, by decide, by decide, by decide⟩)

end Snfos.Frames
