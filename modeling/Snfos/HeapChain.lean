import Snfos.DynamicAllocation
import Snfos.Library.BlockChain

set_option autoImplicit false

/- The heap as a chain of blocks. `Represents` ties the statics and the bytes to
a list of blocks laid end to end from `start`; each allocator step is described
once, as an edit of that list. -/
namespace Snfos.DynamicAllocation

open ByteMemory BlockChain

/-- The header and the trailing size word of the block at `x`. -/
structure Tagged (m : Memory) (x : Nat) (b : Block) : Prop where
  used : blockUsed m x = b.owner.isSome
  size : load32 m (x + 1) = b.size
  trailing : load32 m (x + 5 + b.size) = b.size

structure Represents (L : Layout) (h : Heap) (bs : List Block) : Prop where
  start : h.start = L.heapStart
  last : Ends 9 L.heapStart bs h.endPtr
  chain : Chain 9 (Tagged h.mem) L.heapStart bs
  inside : L.heapStart + span 9 bs ≤ h.heapEnd
  bound : h.heapEnd < 2 ^ 32
  aligned : h.heapEnd % 4096 = 0
  agree : h.allocEnd = h.heapEnd

theorem Tagged.frame {m m' : Memory} {x lo hi : Nat} {b : Block}
    (same : SameOutside m m' lo hi) (outside : x + (9 + b.size) ≤ lo ∨ hi ≤ x)
    (tagged : Tagged m x b) : Tagged m' x b := by
  refine ⟨?_, ?_, ?_⟩
  · rw [← tagged.used]
    unfold blockUsed
    rw [same x (by omega)]
  · rw [same.load32 _ (by omega), tagged.size]
  · rw [same.load32 _ (by omega), tagged.trailing]

theorem tagged_frames {m m' : Memory} {lo hi : Nat} (same : SameOutside m m' lo hi) :
    Frames 9 (Tagged m) (Tagged m') lo hi :=
  fun _ _ outside tagged => tagged.frame same outside

section Fields

variable {m : Memory} {x : Nat} {b : Block}

theorem Tagged.blockSize (tagged : Tagged m x b) (bound : x + (9 + b.size) < 2 ^ 32) :
    DynamicAllocation.blockSize m x = b.size := by
  unfold DynamicAllocation.blockSize
  rw [u32_of_lt (by omega), tagged.size]

theorem Tagged.nextBlock (tagged : Tagged m x b) (bound : x + (9 + b.size) < 2 ^ 32) :
    DynamicAllocation.nextBlock m x = x + (9 + b.size) := by
  unfold DynamicAllocation.nextBlock
  rw [tagged.blockSize bound, u32_of_lt (by omega)]
  omega

theorem Tagged.endingSizeField (tagged : Tagged m x b) (bound : x + (9 + b.size) < 2 ^ 32) :
    DynamicAllocation.endingSizeField m x = x + 5 + b.size := by
  unfold DynamicAllocation.endingSizeField
  rw [tagged.blockSize bound, u32_of_lt (by omega)]

/-- The trailing word of a block is what `PREV_BLOCK` of its successor reads. -/
theorem Tagged.prevBlock (tagged : Tagged m x b) (bound : x + (9 + b.size) < 2 ^ 32) :
    DynamicAllocation.prevBlock m (x + (9 + b.size)) = x := by
  have word : sub32 (x + (9 + b.size)) 4 = x + 5 + b.size := by
    rw [sub32_of_le (by omega) bound]
    omega
  have previous : sizePrevBlock m (x + (9 + b.size)) = b.size := by
    unfold sizePrevBlock
    rw [word, tagged.trailing]
  have header : sub32 (x + 5 + b.size) b.size = x + 5 := by
    rw [sub32_of_le (by omega) (by omega)]
    omega
  unfold DynamicAllocation.prevBlock
  rw [previous, word, header, sub32_of_le (by omega) (by omega)]
  omega

end Fields

theorem blockUsed_setUsed (m : Memory) (x : Nat) (used : Bool) :
    blockUsed (setUsed m x used) x = used := by
  cases used <;> simp [blockUsed, setUsed]

theorem sameOutside_setUsed (m : Memory) (x : Nat) (used : Bool) (hi : Nat) (upper : x < hi) :
    SameOutside m (setUsed m x used) x hi :=
  sameOutside_store8 m x _ x hi (Nat.le_refl x) upper

theorem blockSize_setSize (m : Memory) (x size : Nat) (bound : size < 2 ^ 32) :
    blockSize (setSize m x size) x = size := load32_store32_of_lt _ _ _ bound

/-- Writing both sizes makes a block of any bytes with the right `used`, and
nothing outside the block is touched. -/
theorem tagged_resize {m : Memory} {x : Nat} (b : Block)
    (used : blockUsed m x = b.owner.isSome) (bound : x + (9 + b.size) < 2 ^ 32) :
    Tagged (setEndingSize (setSize m x b.size) x b.size) x b ∧
      SameOutside m (setEndingSize (setSize m x b.size) x b.size) x (x + (9 + b.size)) := by
  have field : u32 (x + 1) = x + 1 := u32_of_lt (by omega)
  have small : b.size < 2 ^ 32 := by omega
  have sized : blockSize (setSize m x b.size) x = b.size := blockSize_setSize m x _ small
  have ending : endingSizeField (setSize m x b.size) x = x + 5 + b.size := by
    unfold endingSizeField
    rw [sized, u32_of_lt (by omega)]
  unfold setEndingSize
  rw [ending]
  refine ⟨⟨?_, ?_, load32_store32_of_lt _ _ _ small⟩, ?_⟩
  · rw [← used]
    unfold blockUsed setSize
    rw [field, store32_ne _ _ _ _ (by omega), store32_ne _ _ _ _ (by omega)]
  · rw [load32_store32_ne _ _ _ _ (by omega)]
    unfold setSize
    rw [field, load32_store32_of_lt _ _ _ small]
  · have header : SameOutside m (setSize m x b.size) x (x + (9 + b.size)) := by
      unfold setSize
      rw [field]
      exact sameOutside_store32 _ _ _ _ _ (by omega) (by omega)
    exact header.trans (sameOutside_store32 _ _ _ _ _ (by omega) (by omega))

theorem tagged_write (m : Memory) (x : Nat) (b : Block) (bound : x + (9 + b.size) < 2 ^ 32) :
    Tagged (setEndingSize (setSize (setUsed m x b.owner.isSome) x b.size) x b.size) x b ∧
      SameOutside m (setEndingSize (setSize (setUsed m x b.owner.isSome) x b.size) x b.size)
        x (x + (9 + b.size)) := by
  have resized := tagged_resize b (blockUsed_setUsed m x b.owner.isSome) bound
  exact ⟨resized.1, (sameOutside_setUsed m x _ _ (by omega)).trans resized.2⟩

/-- The bytes between the header and the trailing word keep what they hold. -/
theorem write_payload (m : Memory) (x : Nat) (used : Bool) {size a : Nat}
    (bound : x + (9 + size) < 2 ^ 32) (lower : x + 5 ≤ a) (upper : a < x + 5 + size) :
    setEndingSize (setSize (setUsed m x used) x size) x size a = m a := by
  have field : u32 (x + 1) = x + 1 := u32_of_lt (by omega)
  have ending : endingSizeField (setSize (setUsed m x used) x size) x = x + 5 + size := by
    unfold endingSizeField
    rw [blockSize_setSize _ _ _ (by omega), u32_of_lt (by omega)]
  unfold setEndingSize
  rw [ending, store32_ne _ _ _ _ (by omega)]
  unfold setSize setUsed
  rw [field, store32_ne _ _ _ _ (by omega), store8_ne _ _ _ _ (by omega)]

/-- Turning `used` on or off keeps the sizes. -/
theorem Tagged.setUsed {m : Memory} {x : Nat} {b : Block} (tagged : Tagged m x b) (c : Block)
    (same : c.size = b.size) : Tagged (setUsed m x c.owner.isSome) x c := by
  refine ⟨blockUsed_setUsed m x _, ?_, ?_⟩
  · unfold DynamicAllocation.setUsed
    rw [load32_store8_ne _ _ _ _ (by omega), tagged.size, same]
  · unfold DynamicAllocation.setUsed
    rw [load32_store8_ne _ _ _ _ (by omega), same, tagged.trailing]

theorem setUsed_setSize (m : Memory) (x size : Nat) (used : Bool) (bound : x + 5 < 2 ^ 32) :
    setUsed (setSize m x size) x used = setSize (setUsed m x used) x size := by
  have field : u32 (x + 1) = x + 1 := u32_of_lt (by omega)
  funext a
  unfold setUsed setSize
  rw [field]
  by_cases here : a = x
  · subst here
    rw [store8_at, store32_ne _ _ _ _ (by omega), store8_at]
  · rw [store8_ne _ _ _ _ here]
    unfold store32
    rw [store8_ne _ _ _ _ here]

/-- An edit of the chain and what it owes to be a heap again. -/
theorem Represents.replace {L : Layout} {h : Heap} {front old back : List Block}
    {lo hi : Nat} (h' : Heap) (new : List Block) (rep : Represents L h (front ++ old ++ back))
    (same : SameOutside h.mem h'.mem lo hi) (lower : lo = L.heapStart + span 9 front)
    (upper : back = [] ∨ (hi = lo + span 9 old ∧ span 9 new = span 9 old))
    (fresh : Chain 9 (Tagged h'.mem) lo new) (start : h'.start = h.start)
    (last : Ends 9 L.heapStart (front ++ new ++ back) h'.endPtr)
    (inside : L.heapStart + span 9 (front ++ new ++ back) ≤ h'.heapEnd)
    (bound : h'.heapEnd < 2 ^ 32) (aligned : h'.heapEnd % 4096 = 0)
    (agree : h'.allocEnd = h'.heapEnd) : Represents L h' (front ++ new ++ back) :=
  ⟨start.trans rep.start, last, rep.chain.replace (tagged_frames same) lower upper fresh,
    inside, bound, aligned, agree⟩

end Snfos.DynamicAllocation
