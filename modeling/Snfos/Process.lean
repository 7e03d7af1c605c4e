import Snfos.Kernel

set_option autoImplicit false

/- `module.c` and `process.c` over the kernel's memory, and the system calls that
return to user mode. A function that ends in `sys_return` gives the state it
returns with. -/
namespace Snfos.Kernel

open ByteMemory

variable {M : Machine}

/-- `MAX_PAGE_TABLE_ENTRIES`. -/
def maxPageTableEntries : Nat := 1024

/-- `MAX_PAGE_DIRECTORY_ENTRIES`. -/
def maxPageDirectoryEntries : Nat := 1024

def emptyTable : ProcessPageTable := ⟨0, fun _ => 0⟩

def emptyMemory : ProcessMemory := ⟨0, fun _ => 0⟩

/-- `page_tables[i] = calloc(..)` with `page_tables[i]->page_table = malloc_pages(1)`. -/
def newTable (memory i owner : Nat) : Action M (Nat × Nat) := do
  let table ← malloc (.table emptyTable) (.table i) owner
  setTable memory i table
  let pageTable ← mallocPages 1 (.pageTable i) owner
  setPageTable table pageTable
  pure (table, pageTable)

/-- A new table with its page table cleared. -/
def clearedTable (memory i owner : Nat) : Action M (Nat × Nat) := do
  let (table, pageTable) ← newTable memory i owner
  zeroPage pageTable
  pure (table, pageTable)

/-- `entries[i] = get_physical_address(target) | flags`. -/
def enterPage (entries i target flags : Nat) : Action M Unit := do
  let physical ← getPhysicalAddress target
  storeEntry entries i (physical ||| flags)

/-- `pages[j] = malloc_pages(1)` with its page table entry. -/
def newPage (table pageTable i j flags owner : Nat) : Action M Nat := do
  let page ← mallocPages 1 (.page i j) owner
  setPage table j page
  enterPage pageTable j page flags
  pure page

/-- A page is put on another frame, and its own given back. -/
def movePage (virtualAddress physicalAddress : Nat) : Action M Unit := do
  let physical ← getPhysicalAddress virtualAddress
  freePhysicalPage physical
  mapPage virtualAddress physicalAddress 0x03

/-- The pages of `temp_pages` put on the module's own frames. -/
def mapModule (module : Module) (tempPages : Nat) : Action M Unit := do
  for i in List.range module.numCodePages do
    movePage (tempPages + 4096 * i) (module.modStart + 4096 * i)

/-- The pages of `program_code` entered one by one. -/
def enterCode (module : Module) (table pageTable programCode : Nat) : Action M Unit := do
  for i in List.range module.numCodePages do
    setPage table i (programCode + 4096 * i)
    enterPage pageTable i (programCode + 4096 * i) 0x07

/-- The directory and the three tables of a new process, still without pages. -/
def newSpace (owner : Nat) : Action M (Nat × (Nat × Nat) × (Nat × Nat) × (Nat × Nat)) := do
  let process ← malloc (.memory emptyMemory) .memory owner
  let directory ← mallocPages 1 .directory owner
  setPageDirectory process directory
  let code ← newTable process 0 owner
  let stack ← newTable process 767 owner
  let kernelStack ← newTable process 1022 owner
  zeroPage directory
  zeroPage code.2
  zeroPage stack.2
  zeroPage kernelStack.2
  enterPage directory 1023 directory 0x03
  storeEntry directory 768 (4096 * M.kernelPageTable ||| 0x03)
  enterPage directory 0 code.2 0x07
  enterPage directory 767 stack.2 0x07
  enterPage directory 1022 kernelStack.2 0x03
  pure (process, code, stack, kernelStack)

/-- The module's bytes are read through `temp_pages`, which lie on its own frames. -/
def loadCode (module : Module) (table pageTable owner : Nat) : Action M Unit := do
  let tempPages ← mallocPages module.numCodePages .temp owner
  mapModule module tempPages
  let programCode ← mallocPages module.numCodePages (.page 0 0) owner
  enterCode module table pageTable programCode
  copyBytes programCode tempPages (module.modEnd - module.modStart)
  free tempPages

def loadModule (module : Module) : Action M Nat := do
  let owner ← newOwner
  let (process, code, stack, kernelStack) ← newSpace owner
  let _ ← newPage stack.1 stack.2 767 1023 0x07 owner
  let _ ← newPage kernelStack.1 kernelStack.2 1022 1023 0x03 owner
  loadCode module code.1 code.2 owner
  pure process

def userStack : StackState := ⟨0, 0x18 ||| 0x03, 0x10 ||| 0x200, 0xC0000000 - 4, 0x20 ||| 0x03⟩

/-- `first = last = new_process; first->prev = NULL`, when the list is empty. -/
def beginRing (process : Nat) : Action M Unit := do
  let k ← get
  if k.first = 0 then do
    set { k with first := process, last := process }
    setProcess process 64 ({ · with prev := 0 })
  else pure ()

/-- The fields a new process is given, its links apart. -/
def fillProcess (process processMemory : Nat) : Action M Unit := do
  let k ← get
  setProcess process 48 ({ · with processMemory := processMemory, ring0 := false, pid := k.pidInc })
  modify fun k => { k with pidInc := u32 (k.pidInc + 1) }
  setProcess process 28 fun p => { p with processState := { p.processState with stack := userStack } }

/-- A new process between the last one and the first. -/
def joinRing (process : Nat) : Action M Unit := do
  let k ← get
  setProcess process 64 ({ · with prev := k.last })
  setProcess process 60 ({ · with next := k.first })
  setProcess k.first 64 ({ · with prev := process })
  setProcess k.last 60 ({ · with next := process })
  modify fun k => { k with last := process }

/-- What `add_process` and `add_forked_process` share: a process at the end of the
ring. `before` is what `malloc` finds in its block. -/
def linkProcess (processMemory owner : Nat) (before : Process) : Action M Nat := do
  let process ← malloc (.process before) .process owner
  beginRing process
  fillProcess process processMemory
  joinRing process
  pure process

/-- The arguments of `add_process`: the first one's text fits the arguments' page. -/
structure Arguments where
  argc : Nat
  argv0 : List UInt8
  envc : Nat
  envp : Nat
  short : argv0.length ≤ 4092

/-- The owner a block was recorded under. -/
def ownerOf (pointer : Nat) : Action M Nat := do
  let k ← get
  match k.blocks pointer with
  | none => throw .undefined
  | some block => pure block.owner

/-- `page_tables[1]` with its one page, which holds the first argument's address and text. -/
def addArguments (processMemory owner : Nat) (arguments : Arguments) : Action M Unit := do
  let (table, pageTable) ← clearedTable processMemory 1 owner
  let directory ← pageDirectoryOf processMemory
  enterPage directory 1 pageTable 0x07
  let page ← newPage table pageTable 1 0 0x07 owner
  editFrame page fun bytes _ => store32 (storeBytes bytes 4 arguments.argv0) 0 0x400004

def addProcess (processMemory : Nat) (arguments : Arguments) (before : Process) :
    Action M Nat := do
  let owner ← ownerOf processMemory
  let process ← linkProcess processMemory owner before
  addArguments processMemory owner arguments
  setProcess process 0 fun p => { p with
    processState := { p.processState with
      cpu := { p.processState.cpu with
        edx := arguments.envp, ecx := arguments.envc, ebx := 0x400000, eax := arguments.argc } } }
  pure process

/-- `process->next`. -/
def nextField (process : Nat) : Action M Nat := do
  pure (← processAt process 60).next

/-- `process->prev`. -/
def prevField (process : Nat) : Action M Nat := do
  pure (← processAt process 64).prev

/-- `load_cr3(get_physical_address(process->process_memory->page_directory))`. -/
def loadSpace (process : Nat) : Action M Unit := do
  let p ← processAt process 48
  let directory ← pageDirectoryOf p.processMemory
  let physical ← getPhysicalAddress directory
  loadCr3 physical

/-- The state user mode resumes with. The process is read again after the load of `cr3`. -/
def runProcess (process : Nat) : Action M ProcessState := do
  modify fun k => { k with current := process }
  loadSpace process
  pure (← processAt process 0).processState

def yield (processState : ProcessState) : Action M ProcessState := do
  let k ← get
  setProcess k.current 0 ({ · with processState := processState })
  runProcess (← nextField k.current)

/-- The pages of table `i` that `handle_exit` frees. -/
def freePages (table i : Nat) : Action M Unit := do
  for j in List.range maxPageTableEntries do
    free (← pageOf table j)
    -- code pages are contiguous, the others are not
    if i = 0 then break

def freeTable (memory i : Nat) : Action M Unit := do
  let table ← tableOf memory i
  if table ≠ 0 then do
    free (← pageTableOf table)
    freePages table i
    free table
  else pure ()

def freeTables (memory : Nat) : Action M Unit := do
  for i in List.range maxPageDirectoryEntries do
    freeTable memory i

def freeMemory (memory : Nat) : Action M Unit := do
  free (← pageDirectoryOf memory)
  freeTables memory
  free memory

def moveFirst : Action M Unit := do
  let k ← get
  if k.current = k.first then do
    let next ← nextField k.current
    set { k with first := next }
  else pure ()

def moveLast : Action M Unit := do
  let k ← get
  if k.current = k.last then do
    let prev ← prevField k.current
    set { k with last := prev }
  else pure ()

/-- The neighbours of the current process are linked with each other. -/
def bridgeCurrent : Action M Unit := do
  let k ← get
  let next ← nextField k.current
  setProcess (← prevField k.current) 60 ({ · with next := next })
  let prev ← prevField k.current
  setProcess (← nextField k.current) 64 ({ · with prev := prev })

/-- The last process to exit leaves the processor looping with interrupts on. -/
def handleExit (_processState : ProcessState) : Action M ProcessState := do
  let k ← get
  if k.current = k.first ∧ k.current = k.last then throw .halted
  else do
    moveFirst
    moveLast
    bridgeCurrent
    let next ← nextField k.current
    loadSpace next
    let p ← processAt k.current 48
    freeMemory p.processMemory
    free k.current
    runProcess next

/-- One page of `fork`, when the parent has it. -/
def forkPage (table newTable newPageTable i j owner : Nat) : Action M Unit := do
  let page ← pageOf table j
  if page ≠ 0 then do
    let newPage ← mallocPages 1 (.page i j) owner
    setPage newTable j newPage
    copyPage newPage page 4096
    let physical ← getPhysicalAddress newPage
    let old ← loadEntry (← pageTableOf table) j
    storeEntry newPageTable j (physical ||| old &&& 0xFF)
  else pure ()

def forkPages (table newTable newPageTable i owner : Nat) : Action M Unit := do
  for j in List.range maxPageTableEntries do
    forkPage table newTable newPageTable i j owner

/-- One table of `fork`, when the parent has it. -/
def forkTable (memory newMemory newDirectory i owner : Nat) : Action M Unit := do
  let table ← tableOf memory i
  if table ≠ 0 then do
    let (newTable, newPageTable) ← clearedTable newMemory i owner
    forkPages table newTable newPageTable i owner
    let physical ← getPhysicalAddress newPageTable
    let old ← loadEntry (← pageDirectoryOf memory) i
    storeEntry newDirectory i (physical ||| old &&& 0xFF)
  else pure ()

def forkTables (memory newMemory newDirectory owner : Nat) : Action M Unit := do
  for i in List.range maxPageDirectoryEntries do
    forkTable memory newMemory newDirectory i owner

/-- The address space of `fork`'s child. -/
def forkMemory (owner : Nat) : Action M Nat := do
  let newMemory ← malloc (.memory emptyMemory) .memory owner
  let newDirectory ← mallocPages 1 .directory owner
  setPageDirectory newMemory newDirectory
  zeroPage newDirectory
  let k ← get
  let memory := (← processAt k.current 48).processMemory
  forkTables memory newMemory newDirectory owner
  enterPage newDirectory 1023 newDirectory 0x03
  storeEntry newDirectory 768 (4096 * M.kernelPageTable ||| 0x03)
  pure newMemory

def withEax (s : ProcessState) (eax : Nat) : ProcessState := { s with cpu := { s.cpu with eax := eax } }

def fork (processState : ProcessState) (before : Process) : Action M ProcessState := do
  let owner ← newOwner
  let newMemory ← forkMemory owner
  let newProcess ← linkProcess newMemory owner before
  setProcess newProcess 0 ({ · with processState := processState })
  setProcess newProcess 24 fun p => { p with processState := withEax p.processState 0 }
  let p ← processAt newProcess 56
  pure (withEax processState p.pid)

def getPid (processState : ProcessState) : Action M ProcessState := do
  let k ← get
  let p ← processAt k.current 56
  pure (withEax processState p.pid)

/-- The text is at the caller's addresses; one that is not mapped stops the machine.
What the terminal shows is not part of the state. -/
def sysPrint (processState : ProcessState) : Action M ProcessState := do
  let k ← get
  if (List.range processState.cpu.ecx).all fun i =>
      (translate k.ram (k.cr3 / 4096) (u32 (processState.cpu.ebx + i))).isSome then
    pure (withEax processState 1)
  else throw .halted

end Snfos.Kernel
