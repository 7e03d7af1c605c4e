import Snfos.Allocator
import Snfos.PageFrames
import Snfos.Library.Command

set_option autoImplicit false

/- The kernel's state and what its functions do to memory: the page tables as the
processor reads them, `page.c`, `heap.c`, and the heap blocks with their C types.
Masks that cut an address at a page or a table are quotients and remainders. -/
namespace Snfos

open ByteMemory

structure CpuState where
  ebp : Nat
  edi : Nat
  esi : Nat
  edx : Nat
  ecx : Nat
  ebx : Nat
  eax : Nat

structure StackState where
  eip : Nat
  cs : Nat
  eflags : Nat
  esp : Nat
  ss : Nat

structure ProcessState where
  cpu : CpuState
  stack : StackState

/-- `process_t`, of 68 bytes. -/
structure Process where
  processState : ProcessState
  processMemory : Nat
  ring0 : Bool
  pid : Nat
  next : Nat
  prev : Nat

/-- `process_page_table_t`, of 4100 bytes: 1024 entries in `pages`. -/
structure ProcessPageTable where
  pageTable : Nat
  pages : Nat → Nat

/-- `process_memory_t`, of 4100 bytes: 1024 entries in `page_tables`. -/
structure ProcessMemory where
  pageDirectory : Nat
  pageTables : Nat → Nat

/-- What a heap block holds: a structure, `count` whole pages, or bytes nobody types. -/
inductive Body where
  | process (p : Process)
  | memory (m : ProcessMemory)
  | table (t : ProcessPageTable)
  | pages (count : Nat)
  | raw (size : Nat)

def Body.size : Body → Nat
  | .process _ => 68
  | .memory _ => 4100
  | .table _ => 4100
  | .pages count => 4096 * count
  | .raw size => size

/-- What a block was allocated for. No code reads it. -/
inductive Role where
  | process
  | memory
  | directory
  | table (i : Nat)
  | pageTable (i : Nat)
  | page (i j : Nat)
  | temp
  | raw
deriving DecidableEq

/-- A live heap block, with the process it was allocated on behalf of: a number
that `load_module` and `fork` draw anew, or 0. No code reads role and owner. -/
structure Block where
  body : Body
  role : Role
  owner : Nat

/-- What a physical frame in use serves for. No code reads it. -/
inductive Use where
  | low
  | kernelPageTable
  | bootPageDirectory
  | module (i : Nat)
  | heap (page : Nat)
  | pageTable (directory i : Nat)
deriving DecidableEq

inductive Fault where
  /-- No frame, or no heap address, is left. -/
  | exhausted
  /-- The kernel touched an address that the current directory does not map. -/
  | pageFault
  /-- The processor loops or resets, as after the exit of the last process. -/
  | halted
  /-- The call cannot be made in this state. -/
  | refused
  /-- An index past the end of an array. -/
  | overrun
  /-- A null or dangling pointer is followed, or a block is freed that is not live. -/
  | undefined
deriving DecidableEq

/-- A boot module, loaded by the boot loader on page boundaries. -/
structure Module where
  modStart : Nat
  modEnd : Nat
  aligned : modStart % 4096 = 0
  order : modStart ≤ modEnd
  bound : modEnd < 2 ^ 32

/-- `num_code_pages` of `load_module`. -/
def Module.numCodePages (m : Module) : Nat := numPages m.modStart m.modEnd

def Module.Covers (m : Module) (frame : Nat) : Prop :=
  m.modStart / 4096 ≤ frame ∧ frame < m.modStart / 4096 + m.numCodePages

instance (m : Module) (frame : Nat) : Decidable (m.Covers frame) := by
  unfold Module.Covers
  infer_instance

/-- The machine as `boot.S`, the boot loader and `init_bitmap` leave it, with the
kernel's heap. Page tables are named by frame numbers. A run that would take the
heap past `limit` stops, at the latest below the page tables' own window. -/
structure Machine where
  layout : Layout
  allocator : Allocator layout
  limit : Nat
  limit_le : limit ≤ 0xFF800000
  kernelPageTable : Nat
  bootPageDirectory : Nat
  modules : List Module
  ram : Nat → Memory
  bitmap : Nat → BitVec 32
  /-- Every frame of the first megabyte, of the image and of the modules is marked. -/
  low_used : (Frames.boot bitmap).used 0 = true
  kernelPageTable_used : kernelPageTable < 2 ^ 20 ∧ (Frames.boot bitmap).used kernelPageTable = true
  bootPageDirectory_used :
    bootPageDirectory < 2 ^ 20 ∧ (Frames.boot bitmap).used bootPageDirectory = true
  modules_used : ∀ m ∈ modules, ∀ frame, m.Covers frame →
    (Frames.boot bitmap).used frame = true
  tables_apart : kernelPageTable ≠ bootPageDirectory ∧ kernelPageTable ≠ 0 ∧ bootPageDirectory ≠ 0
  modules_outside : ∀ m ∈ modules, ¬ m.Covers 0 ∧ ¬ m.Covers kernelPageTable ∧
    ¬ m.Covers bootPageDirectory
  modules_apart : modules.Pairwise fun m m' => ∀ frame, m.Covers frame → ¬ m'.Covers frame
  boot_entries : ∀ i, i < 1024 → load32 (ram bootPageDirectory) (4 * i) =
    if i = 768 then 4096 * kernelPageTable + 3
    else if i = 1023 then 4096 * bootPageDirectory + 3 else 0
  /-- The table maps the image and nothing past it. -/
  heap_unmapped : ∀ j, j < 1024 → layout.heapStart ≤ 4096 * (768 * 1024 + j) →
    load32 (ram kernelPageTable) (4 * j) = 0

/-- The statics of the kernel, its registers and memory. `ram` gives the bytes of
each frame. `home` and `mapper` record for a heap page the frame it lies in and the
directory it was mapped under, `uses` what frames serve for; no code reads them. -/
structure Kernel (M : Machine) where
  ram : Nat → Memory
  cr3 : Nat
  frames : Frames
  heap : M.allocator.Heap
  blocks : Nat → Option Block
  first : Nat
  last : Nat
  current : Nat
  pidInc : Nat
  home : Nat → Nat
  mapper : Nat → Nat
  uses : Nat → Option Use
  owners : Nat

abbrev Action (M : Machine) (α : Type) := Command (Kernel M) Fault α

/-- Entry `i` of the page table or directory in `frame`. -/
def entry (ram : Nat → Memory) (frame i : Nat) : Nat := load32 (ram frame) (4 * i)

/-- The frame and the offset the processor finds for an address. Bit 0 of an entry
says that it is present. -/
def translate (ram : Nat → Memory) (directory address : Nat) : Option (Nat × Nat) :=
  let pde := entry ram directory (address / 2 ^ 22)
  if pde % 2 = 0 then none
  else
    let pte := entry ram (pde / 4096) (address / 4096 % 1024)
    if pte % 2 = 0 then none else some (pte / 4096, address % 4096)

namespace Kernel

variable {M : Machine}

def resolve (address : Nat) : Action M (Nat × Nat) := do
  let k ← get
  match translate k.ram (k.cr3 / 4096) address with
  | none => throw .pageFault
  | some place => pure place

def readWord (address : Nat) : Action M Nat := do
  let (frame, offset) ← resolve address
  let k ← get
  pure (load32 (k.ram frame) offset)

/-- Replaces the bytes of the frame an address lies in. -/
def editFrame (address : Nat) (edit : Memory → Nat → Memory) : Action M Unit := do
  let (frame, offset) ← resolve address
  modify fun k => { k with ram := Function.update k.ram frame (edit (k.ram frame) offset) }

def writeWord (address value : Nat) : Action M Unit :=
  editFrame address fun bytes offset => store32 bytes offset value

/-- `memset(page, 0, PAGE_SIZE)`. -/
def clearPage (address : Nat) : Action M Unit :=
  editFrame address fun bytes _ => fill bytes 0 4096 0

/-- Address 0 is what the code takes for a frame when none is left. -/
def allocateNextPage : Action M Nat := do
  let k ← get
  let (page, frames) := k.frames.allocateNextPage
  if page = 0 then throw .exhausted
  else do
    set { k with frames := frames }
    pure page

def freePhysicalPage (page : Nat) : Action M Unit :=
  modify fun k => { k with
    frames := k.frames.freePhysicalPage page
    uses := Function.update k.uses (page / 4096) none }

/-- `PAGE_DIRECTORY->entries[i]`, through the directory's entry for itself. -/
def directoryEntry (i : Nat) : Nat := 0xFFFFF000 + 4 * i

/-- `PAGE_TABLE(i)->entries[j]`. -/
def tableEntry (i j : Nat) : Nat := 0xFFC00000 + 4096 * i + 4 * j

/-- The part of `map_page` that installs a missing page table. -/
def installTable (i : Nat) : Action M Unit := do
  let pde ← readWord (directoryEntry i)
  if pde % 2 = 0 then do
    let page ← allocateNextPage
    writeWord (directoryEntry i) (page ||| 0x03)
    modify fun k => { k with
      uses := Function.update k.uses (page / 4096) (some (.pageTable (k.cr3 / 4096) i)) }
    clearPage (tableEntry i 0)
  else pure ()

def mapPage (virtualAddress physicalAddress flags : Nat) : Action M Unit := do
  let page := virtualAddress / 4096
  let frame := physicalAddress / 4096
  installTable (page / 1024)
  writeWord (tableEntry (page / 1024) (page % 1024)) (4096 * frame ||| flags % 4096 ||| 1)
  modify fun k => { k with
    home := Function.update k.home page frame
    mapper := Function.update k.mapper page (k.cr3 / 4096)
    uses := Function.update k.uses frame (some (.heap page)) }

def mapVirtualAddress (virtualAddress flags : Nat) : Action M Unit := do
  let page ← allocateNextPage
  mapPage virtualAddress page flags

/-- Zero for a page whose table is there but which is not mapped. -/
def getPhysicalAddress (virtualAddress : Nat) : Action M Nat := do
  let page := virtualAddress / 4096
  let pte ← readWord (tableEntry (page / 1024) (page % 1024))
  pure (pte / 4096 * 4096 + virtualAddress % 4096)

/-- No page directory lies in frame 0, and the processor does not survive such a load. -/
def loadCr3 (cr3 : Nat) : Action M Unit :=
  if cr3 / 4096 = 0 then throw .halted else modify fun k => { k with cr3 := cr3 }

/-- Where the next call of `alloc_page` maps its first page. -/
def mappedEnd (k : Kernel M) : Nat :=
  if M.allocator.heapEnd k.heap = 0 then M.layout.heapStart else M.allocator.heapEnd k.heap

/-- `alloc_page`. -/
def allocPage (start pages : Nat) : Action M Unit := do
  for i in List.range pages do
    mapVirtualAddress (start + 4096 * i) 0x03

/-- A call of the heap that hands out a block, with the pages it maps for itself. -/
def allocate (call : M.allocator.Heap → Option (Nat × M.allocator.Heap)) (block : Block) :
    Action M Nat := do
  let k ← get
  match call k.heap with
  | none => throw .exhausted
  | some (pointer, heap) =>
      if M.limit < M.allocator.heapEnd heap then throw .exhausted
      else do
        allocPage k.mappedEnd ((M.allocator.heapEnd heap - k.mappedEnd) / 4096)
        modify fun k => { k with
          heap := heap
          blocks := if pointer = 0 then k.blocks else Function.update k.blocks pointer (some block) }
        pure pointer

/-- `malloc(sizeof)` of a block that holds `body` then: zeroes for `calloc`, else
whatever was there. -/
def malloc (body : Body) (role : Role) (owner : Nat) : Action M Nat :=
  allocate (M.allocator.malloc body.size) ⟨body, role, owner⟩

def mallocPages (pages : Nat) (role : Role) (owner : Nat) : Action M Nat :=
  allocate (M.allocator.mallocPages pages) ⟨.pages pages, role, owner⟩

def free (pointer : Nat) : Action M Unit := do
  let k ← get
  if pointer = 0 then pure ()
  else
    match k.blocks pointer with
    | none => throw .undefined
    | some _ => set { k with
        heap := M.allocator.free pointer k.heap
        blocks := Function.update k.blocks pointer none }

/-- The block a structure pointer points to, whose field at `offset` is reached
through the current directory. -/
def visit (pointer offset : Nat) : Action M Block := do
  let k ← get
  match k.blocks pointer with
  | none => throw .undefined
  | some block => do
      let _ ← resolve (pointer + offset)
      pure block

def processAt (pointer offset : Nat) : Action M Process := do
  match (← visit pointer offset).body with
  | .process p => pure p
  | _ => throw .undefined

def memoryAt (pointer offset : Nat) : Action M ProcessMemory := do
  match (← visit pointer offset).body with
  | .memory m => pure m
  | _ => throw .undefined

def tableAt (pointer offset : Nat) : Action M ProcessPageTable := do
  match (← visit pointer offset).body with
  | .table t => pure t
  | _ => throw .undefined

/-- Replaces what the block at `pointer` holds. -/
def putBody (pointer : Nat) (body : Body) : Action M Unit :=
  modify fun k => { k with
    blocks := Function.update k.blocks pointer ((k.blocks pointer).map ({ · with body := body })) }

def setProcess (pointer offset : Nat) (change : Process → Process) : Action M Unit := do
  let p ← processAt pointer offset
  putBody pointer (.process (change p))

/-- `memory->page_directory`. -/
def pageDirectoryOf (memory : Nat) : Action M Nat := do
  pure (← memoryAt memory 0).pageDirectory

def setPageDirectory (memory directory : Nat) : Action M Unit := do
  let m ← memoryAt memory 0
  putBody memory (.memory { m with pageDirectory := directory })

/-- `memory->page_tables[i]`. -/
def tableOf (memory i : Nat) : Action M Nat :=
  if i < 1024 then do pure ((← memoryAt memory (4 + 4 * i)).pageTables i) else throw .overrun

def setTable (memory i table : Nat) : Action M Unit :=
  if i < 1024 then do
    let m ← memoryAt memory (4 + 4 * i)
    putBody memory (.memory { m with pageTables := Function.update m.pageTables i table })
  else throw .overrun

/-- `table->page_table`. -/
def pageTableOf (table : Nat) : Action M Nat := do
  pure (← tableAt table 0).pageTable

def setPageTable (table pageTable : Nat) : Action M Unit := do
  let t ← tableAt table 0
  putBody table (.table { t with pageTable := pageTable })

/-- `table->pages[j]`. -/
def pageOf (table j : Nat) : Action M Nat :=
  if j < 1024 then do pure ((← tableAt table (4 + 4 * j)).pages j) else throw .overrun

def setPage (table j page : Nat) : Action M Unit :=
  if j < 1024 then do
    let t ← tableAt table (4 + 4 * j)
    putBody table (.table { t with pages := Function.update t.pages j page })
  else throw .overrun

/-- A pointer to whole pages, which is what a page table or directory lies in. -/
def requirePages (pointer : Nat) : Action M Unit := do
  let k ← get
  match (k.blocks pointer).map Block.body with
  | some (.pages _) => pure ()
  | _ => throw .undefined

/-- `pointer->entries[i]`. -/
def loadEntry (pointer i : Nat) : Action M Nat := do
  requirePages pointer
  if i < 1024 then readWord (pointer + 4 * i) else throw .overrun

def storeEntry (pointer i value : Nat) : Action M Unit := do
  requirePages pointer
  if i < 1024 then writeWord (pointer + 4 * i) value else throw .overrun

def zeroPage (pointer : Nat) : Action M Unit := do
  requirePages pointer
  clearPage pointer

/-- `memcpy` of `count` bytes between two page starts. -/
def copyPage (target source count : Nat) : Action M Unit := do
  let (frame, _) ← resolve source
  let k ← get
  let bytes := k.ram frame
  editFrame target fun before _ => copy before 0 bytes 0 count

/-- `memcpy` between page-aligned buffers, page by page. -/
def copyBytes (target source count : Nat) : Action M Unit := do
  for i in List.range ((count + 4095) / 4096) do
    copyPage (target + 4096 * i) (source + 4096 * i) (min 4096 (count - 4096 * i))

/-- Draws the number under which a new process's blocks are recorded. -/
def newOwner : Action M Nat := do
  let k ← get
  set { k with owners := k.owners + 1 }
  pure k.owners

end Kernel

end Snfos
