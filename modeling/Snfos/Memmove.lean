import Snfos.Word
import Snfos.Library.ByteMemory

set_option autoImplicit false

/- `memmove` of the C library. -/
namespace Snfos

open ByteMemory

/-- The loop for `dst < src`, from the first byte to the last. -/
def moveUp (dst src : Nat) : Nat → Memory → Memory
  | 0, m => m
  | n + 1, m =>
      let m := moveUp dst src n m
      store8 m (u32 (dst + n)) (m (u32 (src + n)))

/-- The other loop, from the last byte to the first. -/
def moveDown (dst src : Nat) : Nat → Memory → Memory
  | 0, m => m
  | n + 1, m => moveDown dst src n (store8 m (u32 (dst + n)) (m (u32 (src + n))))

/-- The pointer is returned. -/
def memmove (dst src size : Nat) (m : Memory) : Nat × Memory :=
  (dst, if dst < src then moveUp dst src size m else moveDown dst src size m)

section Overlap

variable {dst src n : Nat}

/-- A byte of the source is read before the loop gets to write there. -/
theorem moveUp_eq (m : Memory) (below : dst ≤ src) (dstBound : dst + n ≤ 2 ^ 32)
    (srcBound : src + n ≤ 2 ^ 32) : moveUp dst src n m = copy m dst m src n := by
  induction n with
  | zero =>
    funext a
    unfold copy
    rw [if_neg (by omega)]
    rfl
  | succ n ih =>
    have unread : copy m dst m src n (src + n) = m (src + n) := by
      unfold copy
      rw [if_neg (by omega)]
    unfold moveUp
    dsimp only
    rw [u32_of_lt (by omega), u32_of_lt (by omega), ih (by omega) (by omega), unread]
    funext a
    by_cases last : a = dst + n
    · rw [last, store8_at]
      unfold copy
      rw [if_pos (by omega), show src + (dst + n - dst) = src + n by omega]
    · rw [store8_ne _ _ _ _ last]
      unfold copy
      exact if_congr (by omega) rfl rfl

/-- The bytes still to be read lie below what the loop has written. -/
theorem moveDown_eq (m : Memory) (above : src ≤ dst) (dstBound : dst + n ≤ 2 ^ 32)
    (srcBound : src + n ≤ 2 ^ 32) : moveDown dst src n m = copy m dst m src n := by
  induction n generalizing m with
  | zero =>
    funext a
    unfold copy
    rw [if_neg (by omega)]
    rfl
  | succ n ih =>
    unfold moveDown
    rw [u32_of_lt (by omega), u32_of_lt (by omega), ih _ (by omega) (by omega)]
    funext a
    unfold copy
    by_cases last : a = dst + n
    · rw [if_neg (by omega), if_pos (by omega), last, store8_at,
        show src + (dst + n - dst) = src + n by omega]
    · by_cases inside : dst ≤ a ∧ a < dst + n
      · rw [if_pos inside, if_pos (by omega), store8_ne _ _ _ _ (by omega)]
      · rw [if_neg inside, if_neg (by omega), store8_ne _ _ _ _ last]

/-- `memmove` copies as if all of the source were read first. -/
theorem memmove_eq (m : Memory) (dstBound : dst + n ≤ 2 ^ 32) (srcBound : src + n ≤ 2 ^ 32) :
    memmove dst src n m = (dst, copy m dst m src n) := by
  unfold memmove
  split
  · next below => rw [moveUp_eq m (by omega) dstBound srcBound]
  · next above => rw [moveDown_eq m (by omega) dstBound srcBound]

end Overlap

theorem memmove_moves (m : Memory) (dst src size : Nat) (dstBound : dst + size ≤ 2 ^ 32)
    (srcBound : src + size ≤ 2 ^ 32) :
    (memmove dst src size m).1 = dst ∧
      (∀ i, i < size → (memmove dst src size m).2 (dst + i) = m (src + i)) ∧
      ∀ a, a < dst ∨ dst + size ≤ a → (memmove dst src size m).2 a = m a := by
  rw [memmove_eq m dstBound srcBound]
  refine ⟨rfl, fun i inside => ?_, fun a outside => ?_⟩
  · show copy m dst m src size (dst + i) = _
    unfold copy
    rw [if_pos (by omega), show src + (dst + i - dst) = src + i by omega]
  · show copy m dst m src size a = _
    unfold copy
    rw [if_neg (by omega)]

/-- Four bytes moved up by two, over their own end. -/
theorem memmove_moves_up : (memmove 0x1002 0x1000 4 fun a => UInt8.ofNat a).2 0x1005 = 3 :=
  (memmove_moves (fun a => UInt8.ofNat a) 0x1002 0x1000 4 (by decide) (by decide)).2.1 3 (by decide)

end Snfos
