import Snfos.Bookkeeping
import Snfos.System

set_option autoImplicit false

/- What the kernel's calls keep, whatever it is, once the allocations and the writes to memory keep
it. Only `load_module` does more than that: it puts pages on other frames. -/
namespace Snfos

open ByteMemory Command

namespace Kernel

variable {M : Machine}

/-- Something that bookkeeping, a change of a frame's bytes and an allocation keep. -/
structure Ledger (I : Kernel M → Prop) : Prop extends Books I where
  edited : ∀ address edit, Keeps I (editFrame address edit)
  malloc : ∀ body role owner, 0 < body.size → Keeps I (malloc body role owner)
  mallocPages : ∀ pages role owner, Keeps I (mallocPages pages role owner)

/-- The heap's lists and the blocks. -/
def Lists (heap : M.allocator.Heap) (blocks : Nat → Option Block) (k : Kernel M) : Prop :=
  k.heap = heap ∧ k.blocks = blocks

section Lists

variable {heap : M.allocator.Heap} {blocks : Nat → Option Block}

theorem keeps_editFrame_lists (address : Nat) (edit : Memory → Nat → Memory) :
    Keeps (Lists heap blocks) (editFrame address edit) := by
  unfold editFrame
  exact keeps_bind keeps_resolve fun place => keeps_modify fun _ same => same

theorem keeps_allocateNextPage_lists : Keeps (Lists heap blocks) allocateNextPage := by
  unfold allocateNextPage
  apply keeps_get_bind
  intro k same
  exact keeps_ite (keeps_throw _) (keeps_bind (keeps_set same) fun _ => keeps_pure _)

theorem keeps_mapPage_lists (address physical flags : Nat) :
    Keeps (Lists heap blocks) (mapPage address physical flags) := by
  have install : ∀ i, Keeps (Lists heap blocks) (installTable i) := by
    intro i
    unfold installTable
    apply keeps_bind keeps_readWord
    intro pde
    refine keeps_ite ?_ (keeps_pure _)
    apply keeps_bind keeps_allocateNextPage_lists
    intro page
    apply keeps_bind (keeps_editFrame_lists _ _)
    intro _
    exact keeps_bind (keeps_modify fun _ same => same) fun _ => keeps_editFrame_lists _ _
  unfold mapPage
  apply keeps_bind (install _)
  intro _
  exact keeps_bind (keeps_editFrame_lists _ _) fun _ => keeps_modify fun _ same => same

theorem keeps_allocPage_lists (start pages : Nat) : Keeps (Lists heap blocks) (allocPage start pages) := by
  unfold allocPage mapVirtualAddress
  refine keeps_bind (keeps_for fun i => ?_) fun _ => keeps_pure _
  refine keeps_bind ?_ fun _ => keeps_pure _
  exact keeps_bind keeps_allocateNextPage_lists fun page => keeps_mapPage_lists _ _ _

theorem keeps_mapModule_lists (module : Module) (temp : Nat) :
    Keeps (Lists heap blocks) (mapModule module temp) := by
  unfold mapModule movePage
  refine keeps_bind (keeps_for fun i => ?_) fun _ => keeps_pure _
  refine keeps_bind ?_ fun _ => keeps_pure _
  apply keeps_bind keeps_getPhysicalAddress
  intro physical
  exact keeps_bind (keeps_modify fun _ same => same) fun _ => keeps_mapPage_lists _ _ _

end Lists
section Calls

variable {I : Kernel M → Prop} {p q i j table pageTable owner : Nat} (ledger : Ledger I)

include ledger

theorem Ledger.keeps_storeEntry (value : Nat) : Keeps I (storeEntry p i value) := by
  unfold storeEntry
  apply keeps_bind keeps_requirePages
  intro _
  exact keeps_ite (ledger.edited _ _) (keeps_throw _)

theorem Ledger.keeps_zeroPage : Keeps I (zeroPage p) := by
  unfold zeroPage
  exact keeps_bind keeps_requirePages fun _ => ledger.edited _ _

theorem Ledger.keeps_copyPage (count : Nat) : Keeps I (copyPage p q count) := by
  unfold copyPage
  apply keeps_bind keeps_resolve
  intro place
  apply keeps_get_bind
  intro k _
  exact ledger.edited _ _

theorem Ledger.keeps_copyBytes (count : Nat) : Keeps I (copyBytes p q count) := by
  unfold copyBytes
  refine keeps_bind (keeps_for fun i => ?_) fun _ => keeps_pure _
  exact keeps_bind (ledger.keeps_copyPage _) fun _ => keeps_pure _

theorem Ledger.keeps_enterPage (flags : Nat) : Keeps I (enterPage p i q flags) := by
  unfold enterPage
  exact keeps_bind keeps_getPhysicalAddress fun _ => ledger.keeps_storeEntry _

theorem Ledger.keeps_newTable : Keeps I (newTable p i owner) := by
  unfold newTable
  apply keeps_bind (ledger.malloc _ _ _ (by decide))
  intro table
  apply keeps_bind ledger.keeps_setTable
  intro _
  apply keeps_bind (ledger.mallocPages _ _ _)
  intro pageTable
  exact keeps_bind ledger.keeps_setPageTable fun _ => keeps_pure _

theorem Ledger.keeps_clearedTable : Keeps I (clearedTable p i owner) := by
  unfold clearedTable
  apply keeps_bind ledger.keeps_newTable
  rintro ⟨table, pageTable⟩
  exact keeps_bind ledger.keeps_zeroPage fun _ => keeps_pure _

theorem Ledger.keeps_newPage (flags : Nat) :
    Keeps I (newPage table pageTable i j flags owner) := by
  unfold newPage
  apply keeps_bind (ledger.mallocPages _ _ _)
  intro page
  apply keeps_bind ledger.keeps_setPage
  intro _
  exact keeps_bind (ledger.keeps_enterPage _) fun _ => keeps_pure _

theorem Ledger.keeps_newSpace : Keeps I (newSpace owner) := by
  unfold newSpace
  apply keeps_bind (ledger.malloc _ _ _ (by decide))
  intro process
  apply keeps_bind (ledger.mallocPages _ _ _)
  intro directory
  apply keeps_bind ledger.keeps_setPageDirectory
  intro _
  apply keeps_bind ledger.keeps_newTable
  intro code
  apply keeps_bind ledger.keeps_newTable
  intro stack
  apply keeps_bind ledger.keeps_newTable
  intro kernelStack
  apply keeps_bind ledger.keeps_zeroPage
  intro _
  apply keeps_bind ledger.keeps_zeroPage
  intro _
  apply keeps_bind ledger.keeps_zeroPage
  intro _
  apply keeps_bind ledger.keeps_zeroPage
  intro _
  apply keeps_bind (ledger.keeps_enterPage _)
  intro _
  apply keeps_bind (ledger.keeps_storeEntry _)
  intro _
  apply keeps_bind (ledger.keeps_enterPage _)
  intro _
  apply keeps_bind (ledger.keeps_enterPage _)
  intro _
  exact keeps_bind (ledger.keeps_enterPage _) fun _ => keeps_pure _

theorem Ledger.keeps_enterCode (module : Module) :
    Keeps I (enterCode module table pageTable p) := by
  unfold enterCode
  refine keeps_bind (keeps_for fun i => ?_) fun _ => keeps_pure _
  apply keeps_bind ledger.keeps_setPage
  intro _
  exact keeps_bind (ledger.keeps_enterPage _) fun _ => keeps_pure _

theorem Ledger.keeps_linkProcess (before : Process) :
    Keeps I (linkProcess p owner before) := by
  unfold linkProcess
  apply keeps_bind (ledger.malloc (.process before) _ _ (Nat.succ_pos 67))
  intro process
  apply keeps_bind ledger.keeps_beginRing
  intro _
  apply keeps_bind ledger.keeps_fillProcess
  intro _
  exact keeps_bind ledger.keeps_joinRing fun _ => keeps_pure _

theorem Ledger.keeps_addProcess (arguments : Arguments) (before : Process) :
    Keeps I (addProcess p arguments before) := by
  unfold addProcess addArguments
  apply keeps_bind keeps_ownerOf
  intro owner
  apply keeps_bind (ledger.keeps_linkProcess _)
  intro process
  apply keeps_bind ?_
  · intro _
    exact keeps_bind (ledger.keeps_setProcess _) fun _ => keeps_pure _
  apply keeps_bind ledger.keeps_clearedTable
  rintro ⟨table, pageTable⟩
  apply keeps_bind keeps_pageDirectoryOf
  intro directory
  apply keeps_bind (ledger.keeps_enterPage _)
  intro _
  exact keeps_bind (ledger.keeps_newPage _) fun _ => ledger.edited _ _

theorem Ledger.keeps_forkPage : Keeps I (forkPage table p pageTable i j owner) := by
  unfold forkPage
  apply keeps_bind keeps_pageOf
  intro page
  refine keeps_ite ?_ (keeps_pure _)
  apply keeps_bind (ledger.mallocPages _ _ _)
  intro newPage
  apply keeps_bind ledger.keeps_setPage
  intro _
  apply keeps_bind (ledger.keeps_copyPage _)
  intro _
  apply keeps_bind keeps_getPhysicalAddress
  intro physical
  apply keeps_bind keeps_pageTableOf
  intro old
  exact keeps_bind keeps_loadEntry fun _ => ledger.keeps_storeEntry _

theorem Ledger.keeps_forkPages : Keeps I (forkPages table p pageTable i owner) := by
  unfold forkPages
  generalize maxPageTableEntries = n
  refine keeps_bind (keeps_for fun j => ?_) fun _ => keeps_pure _
  exact keeps_bind ledger.keeps_forkPage fun _ => keeps_pure _

attribute [local irreducible] forkPages in
theorem Ledger.keeps_forkTable (newDirectory : Nat) :
    Keeps I (forkTable p q newDirectory i owner) := by
  unfold forkTable
  apply keeps_bind keeps_tableOf
  intro table
  refine keeps_ite ?_ (keeps_pure _)
  apply keeps_bind ledger.keeps_clearedTable
  rintro ⟨newTable, newPageTable⟩
  apply keeps_bind ledger.keeps_forkPages
  intro _
  apply keeps_bind keeps_getPhysicalAddress
  intro physical
  apply keeps_bind keeps_pageDirectoryOf
  intro directory
  exact keeps_bind keeps_loadEntry fun _ => ledger.keeps_storeEntry _

theorem Ledger.keeps_forkTables (newDirectory : Nat) :
    Keeps I (forkTables p q newDirectory owner) := by
  unfold forkTables
  generalize maxPageDirectoryEntries = n
  refine keeps_bind (keeps_for fun i => ?_) fun _ => keeps_pure _
  exact keeps_bind (ledger.keeps_forkTable _) fun _ => keeps_pure _

attribute [local irreducible] forkTables in
theorem Ledger.keeps_forkMemory : Keeps I (forkMemory owner) := by
  unfold forkMemory
  apply keeps_bind (ledger.malloc _ _ _ (by decide))
  intro newMemory
  apply keeps_bind (ledger.mallocPages _ _ _)
  intro newDirectory
  apply keeps_bind ledger.keeps_setPageDirectory
  intro _
  apply keeps_bind ledger.keeps_zeroPage
  intro _
  apply keeps_get_bind
  intro k _
  apply keeps_bind keeps_processAt
  intro pr
  apply keeps_bind (ledger.keeps_forkTables _)
  intro _
  apply keeps_bind (ledger.keeps_enterPage _)
  intro _
  exact keeps_bind (ledger.keeps_storeEntry _) fun _ => keeps_pure _

attribute [local irreducible] forkMemory in
theorem Ledger.keeps_fork (s : ProcessState) (before : Process) :
    Keeps I (fork s before) := by
  unfold fork
  apply keeps_bind ledger.keeps_newOwner
  intro owner
  apply keeps_bind ledger.keeps_forkMemory
  intro newMemory
  apply keeps_bind (ledger.keeps_linkProcess _)
  intro newProcess
  apply keeps_bind (ledger.keeps_setProcess _)
  intro _
  apply keeps_bind (ledger.keeps_setProcess _)
  intro _
  exact keeps_bind keeps_processAt fun _ => keeps_pure _

theorem Ledger.keeps_loadModule (moves : ∀ module temp, Keeps I (mapModule module temp))
    (module : Module) : Keeps I (loadModule module) := by
  unfold loadModule loadCode
  apply keeps_bind ledger.keeps_newOwner
  intro owner
  apply keeps_bind ledger.keeps_newSpace
  rintro ⟨process, code, stack, kernelStack⟩
  apply keeps_bind (ledger.keeps_newPage _)
  intro _
  apply keeps_bind (ledger.keeps_newPage _)
  intro _
  refine keeps_bind ?_ fun _ => keeps_pure _
  apply keeps_bind (ledger.mallocPages _ _ _)
  intro tempPages
  apply keeps_bind (moves _ _)
  intro _
  apply keeps_bind (ledger.mallocPages _ _ _)
  intro programCode
  apply keeps_bind (ledger.keeps_enterCode _)
  intro _
  exact keeps_bind (ledger.keeps_copyBytes _) fun _ => ledger.keeps_free

end Calls

end Kernel

namespace System

open Kernel

variable {M : Machine} {s : System M} {I : List Nat → Kernel M → Prop}

/-- What holds of the kernel, given the modules that are loaded. -/
def Kept (I : List Nat → Kernel M → Prop) (s : System M) : Prop := I s.loaded s.kernel

section Steps

/-- What a call of the kernel ensures. -/
theorem ensures_lifted {α : Type} {action : Action M α} {P : α → Kernel M → Prop}
    (ensures : Ensures (fun _ => True) s.kernel action P) :
    Ensures (fun _ => True) s (onKernel action) fun a s' =>
      s'.loaded = s.loaded ∧ P a s'.kernel := by
  unfold Ensures onKernel at *
  cases result : action s.kernel with
  | ok pair =>
    rw [result] at ensures
    exact ⟨rfl, ensures⟩
  | error fault => trivial

theorem keeps_onKernel {α : Type} {action : Action M α} (keeps : ∀ loaded, Keeps (I loaded) action) :
    Keeps (Kept I) (onKernel action) := by
  intro s holds
  apply (ensures_lifted (keeps _ s.kernel holds)).mono
  rintro _ s' ⟨same, holds'⟩
  unfold Kept
  rw [same]
  exact holds'

theorem keeps_systemCall {action : Action M ProcessState}
    (keeps : ∀ loaded, Keeps (I loaded) action) :
    Keeps (Kept I) (systemCall action) := by
  unfold systemCall returning
  apply keeps_get_bind
  intro s _
  refine keeps_ite (keeps_throw _) ?_
  apply keeps_bind (keeps_onKernel keeps)
  intro state
  apply keeps_get_bind
  intro s' _
  exact keeps_pure _

/-- A call that is not a load. -/
theorem keeps_step {call : Call} (ledger : ∀ loaded, Ledger (I loaded))
    (other : ∀ i, call ≠ .loadModule i) :
    Keeps (Kept I) (step call) := by
  cases call with
  | loadModule i => exact absurd rfl (other i)
  | addProcess memory arguments before =>
    show Keeps (Kept I) (addProcess memory arguments before)
    unfold addProcess
    apply keeps_get_bind
    intro s _
    refine keeps_ite ?_ (keeps_throw _)
    apply keeps_bind (keeps_onKernel fun _ => (ledger _).keeps_addProcess _ _)
    intro process
    exact keeps_bind (keeps_modify fun _ holds => holds) fun _ => keeps_pure _
  | runProcess p =>
    show Keeps (Kept I) (runProcess p)
    unfold runProcess returning
    apply keeps_get_bind
    intro s _
    refine keeps_ite ?_ (keeps_throw _)
    apply keeps_bind (keeps_onKernel fun _ => (ledger _).keeps_runProcess)
    intro state
    apply keeps_get_bind
    intro s' _
    exact keeps_pure _
  | print state => exact keeps_systemCall fun _ => keeps_sysPrint _
  | yield state => exact keeps_systemCall fun _ => (ledger _).keeps_yield _
  | handleExit state => exact keeps_systemCall fun _ => (ledger _).keeps_handleExit _
  | getPid state => exact keeps_systemCall fun _ => keeps_getPid _
  | fork state before => exact keeps_systemCall fun _ => (ledger _).keeps_fork _ _
  | malloc size =>
    show Keeps (Kept I) (malloc size)
    unfold malloc
    intro s holds
    refine ensures_ite (fun _ => ensures_pure _ holds) fun positive => ?_
    exact keeps_bind (keeps_onKernel fun _ => (ledger _).malloc (.raw size) .raw 0
      (Nat.pos_of_ne_zero positive)) (fun _ => keeps_pure _) s holds
  | mallocPages pages =>
    show Keeps (Kept I) (mallocPages pages)
    unfold mallocPages
    exact keeps_bind (keeps_onKernel fun _ => (ledger _).mallocPages _ _ _) fun _ => keeps_pure _
  | free pointer =>
    show Keeps (Kept I) (free pointer)
    unfold free
    apply keeps_get_bind
    intro s _
    refine keeps_ite ?_ (keeps_throw _)
    exact keeps_bind (keeps_onKernel fun _ => (ledger _).keeps_free) fun _ => keeps_pure _

end Steps

end System

end Snfos
