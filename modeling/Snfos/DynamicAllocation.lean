import Snfos.Word
import Snfos.Library.ByteMemory

set_option autoImplicit false

/- The kernel heap of `libc/stdlib/dynamic_allocation.c` on byte-addressed memory.
A block is a packed `metadata_t` (`used`, one byte, then `size`, four bytes),
the payload, and a trailing copy of the size. What `alloc_page` does to the page
tables is left to the paging model; here it hands out the next addresses. -/
namespace Snfos.DynamicAllocation

open ByteMemory

/-- The statics `start`, `end` and `heap_end`, the `heap_end` of `heap.c`, and
the memory the heap lives in. -/
structure Heap where
  mem : Memory
  start : Nat
  endPtr : Nat
  heapEnd : Nat
  allocEnd : Nat

def blockUsed (m : Memory) (block : Nat) : Bool := m block != 0

def blockSize (m : Memory) (block : Nat) : Nat := load32 m (u32 (block + 1))

def setUsed (m : Memory) (block : Nat) (used : Bool) : Memory :=
  store8 m block (if used then 1 else 0)

def setSize (m : Memory) (block size : Nat) : Memory := store32 m (u32 (block + 1)) size

def nextBlock (m : Memory) (block : Nat) : Nat := u32 (block + 5 + blockSize m block + 4)

def sizePrevBlock (m : Memory) (block : Nat) : Nat := load32 m (sub32 block 4)

def prevBlock (m : Memory) (block : Nat) : Nat :=
  sub32 (sub32 (sub32 block 4) (sizePrevBlock m block)) 5

def endingSizeField (m : Memory) (block : Nat) : Nat := u32 (block + 5 + blockSize m block)

def endBlock (start size : Nat) : Nat := u32 (start + 5 + size + 4)

def setEndingSize (m : Memory) (block size : Nat) : Memory :=
  store32 m (endingSizeField m block) size

/-- `alloc_page`: the pages that follow the previous heap end. -/
def allocPage (heapStart pages : Nat) (h : Heap) : Nat × Heap :=
  let start := if h.allocEnd = 0 then heapStart else h.allocEnd
  (start, { h with allocEnd := u32 (start + 4096 * pages) })

/-- `malloc` on an empty heap. -/
def firstBlock (heapStart size : Nat) (h : Heap) : Nat × Heap :=
  let (block, h) := allocPage heapStart (numPages h.start (endBlock h.start size)) h
  let heapEnd := u32 (block + u32 (4096 * numPages block (endBlock block size)))
  let m := setUsed h.mem block true
  let m := setSize m block size
  let m := setEndingSize m block size
  (u32 (block + 5), { h with mem := m, start := block, endPtr := block, heapEnd := heapEnd })

/-- The `while (block <= end)` loop: the first free block that is large enough,
or `some none` past the end. The loop reads memory only, and `block` has `2 ^ 32`
values, so a search that outlasts them never ends; that is the outer `none`. -/
def search (m : Memory) (finish size : Nat) : Nat → Nat → Option (Option Nat)
  | 0, _ => none
  | fuel + 1, block =>
      if block ≤ finish then
        if blockUsed m block = false ∧ size ≤ blockSize m block then some (some block)
        else search m finish size fuel (nextBlock m block)
      else some none

/-- `malloc` on a free block: split it when 13 bytes or more are left over. The
static `end` stays where it is even when the block split is the last one. -/
def reuse (block size : Nat) (h : Heap) : Nat × Heap :=
  let m := setUsed h.mem block true
  if 13 ≤ sub32 (blockSize m block) size then
    let oldSize := blockSize m block
    let m := setSize m block size
    let m := setEndingSize m block size
    let next := nextBlock m block
    let m := setUsed m next false
    let m := setSize m next (sub32 (sub32 (sub32 oldSize size) 5) 4)
    let m := setEndingSize m next (blockSize m next)
    (u32 (block + 5), { h with mem := m })
  else (u32 (block + 5), { h with mem := m })

/-- `malloc` past the last block. The page count is taken from the new block's
start, not from `heap_end`, so it may ask for more pages than are missing. -/
def extend (heapStart size : Nat) (h : Heap) : Nat × Heap :=
  let block := nextBlock h.mem h.endPtr
  let h := { h with endPtr := block }
  let h :=
    if h.heapEnd < endBlock block size then
      let pages := numPages block (endBlock block size)
      let h := (allocPage heapStart pages h).2
      { h with heapEnd := u32 (h.heapEnd + u32 (pages * 4096)) }
    else h
  let m := setUsed h.mem block true
  let m := setSize m block size
  let m := setEndingSize m block size
  (u32 (block + 5), { h with mem := m })

def malloc (heapStart size : Nat) (h : Heap) : Option (Nat × Heap) :=
  if size = 0 then some (0, h)
  else if h.start = 0 ∨ h.heapEnd ≤ h.start then some (firstBlock heapStart size h)
  else
    match search h.mem h.endPtr size (2 ^ 32) h.start with
    | none => none
    | some (some block) => some (reuse block size h)
    | some none => some (extend heapStart size h)

/-- The merge with the following block in `free`. -/
def mergeNext (block : Nat) (h : Heap) : Heap :=
  let m := h.mem
  if block ≠ h.endPtr ∧ blockUsed m (nextBlock m block) = false then
    let endPtr := if nextBlock m block = h.endPtr then block else h.endPtr
    let m := setSize m block
      (u32 (blockSize m block + (4 + 5 + blockSize m (nextBlock m block))))
    let m := setEndingSize m block (blockSize m block)
    { h with mem := m, endPtr := endPtr }
  else h

/-- The merge with the preceding block in `free`. `PREV_BLOCK(block)` is read
again for each use; the trailing size it goes through is not yet overwritten. -/
def mergePrev (block : Nat) (h : Heap) : Heap :=
  let m := h.mem
  if block ≠ h.start ∧ blockUsed m (prevBlock m block) = false then
    let endPtr := if block = h.endPtr then prevBlock m block else h.endPtr
    let m := setSize m (prevBlock m block)
      (u32 (blockSize m (prevBlock m block) + (4 + 5 + blockSize m block)))
    let m := setEndingSize m block (blockSize m (prevBlock m block))
    { h with mem := m, endPtr := endPtr }
  else h

def free (ptr : Nat) (h : Heap) : Heap :=
  let block := sub32 ptr 5
  if ptr ≠ 0 ∧ blockUsed h.mem block = true then
    mergePrev block (mergeNext block { h with mem := setUsed h.mem block false })
  else h

/-- The block `malloc_pages` places its new header by: the first one of an empty
heap, or what follows the last one. -/
def pagesBlock (heapStart : Nat) (h : Heap) : Nat × Heap :=
  if h.start = 0 then
    let (block, h) := allocPage heapStart 1 h
    (block, { h with start := block, endPtr := block, heapEnd := u32 (block + 4096) })
  else (nextBlock h.mem h.endPtr, h)

/-- One more page when what is left cannot hold a header. -/
def pagesRoom (heapStart block : Nat) (h : Heap) : Heap :=
  if sub32 h.heapEnd block < 5 then
    let h := (allocPage heapStart 1 h).2
    { h with heapEnd := u32 (h.heapEnd + 4096) }
  else h

/-- The space up to five bytes before `heap_end` becomes a free block when it
takes 18 bytes or more. Below that the code means to extend the previous block,
as its comment says, but adds to the size field of `block`, which is past it. -/
def pagesFill (block : Nat) (h : Heap) : Heap :=
  if 18 ≤ sub32 h.heapEnd block then
    let m := setSize h.mem block (sub32 (sub32 (sub32 h.heapEnd block) 10) 4)
    let m := setUsed m block false
    let m := setEndingSize m block (blockSize m block)
    { h with mem := m, endPtr := nextBlock m block }
  else if 5 ≤ sub32 h.heapEnd block then
    let m := setSize h.mem block
      (u32 (blockSize h.mem block + sub32 (sub32 h.heapEnd block) 5))
    let m := setEndingSize m block (blockSize m block)
    { h with mem := m, endPtr := nextBlock m block }
  else h

/-- The page-aligned block itself, at `end`. -/
def pagesLast (heapStart pages : Nat) (h : Heap) : Nat × Heap :=
  let h := (allocPage heapStart (u32 (pages + 1)) h).2
  let h := { h with heapEnd := u32 (h.heapEnd + u32 ((pages + 1) * 4096)) }
  let m := setSize h.mem h.endPtr (u32 (4096 * pages))
  let m := setEndingSize m h.endPtr (blockSize m h.endPtr)
  let m := setUsed m h.endPtr true
  (u32 (h.endPtr + 5), { h with mem := m })

def mallocPages (heapStart pages : Nat) (h : Heap) : Nat × Heap :=
  if pages = 0 then (0, h)
  else
    let (block, h) := pagesBlock heapStart h
    pagesLast heapStart pages (pagesFill block (pagesRoom heapStart block h))

end Snfos.DynamicAllocation
