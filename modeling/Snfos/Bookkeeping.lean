import Snfos.Process
import Snfos.Estates

set_option autoImplicit false

/- The parts of the kernel that keep books only: they change structures, links and the heap's
lists, but no byte of memory, no bit of the bitmap and no frame's use. -/
namespace Snfos.Kernel

open ByteMemory Command

variable {M : Machine}

/-- Something that bookkeeping does not touch: it depends on memory, on the frames and on the
heap's lists alone, and the free of a live block keeps it. -/
structure Books (I : Kernel M → Prop) : Prop where
  same : ∀ k k', k'.ram = k.ram → k'.frames = k.frames → k'.uses = k.uses → k'.home = k.home →
    k'.heap = k.heap → k'.sizes = k.sizes → I k → I k'
  freed : ∀ k p, (k.sizes p).isSome = true → I k →
    I { k with heap := M.allocator.free p k.heap, blocks := Function.update k.blocks p none }

variable {I : Kernel M → Prop} {p q i j value offset owner : Nat} (books : Books I)

section Access

theorem keeps_resolve : Keeps I (resolve p) := by
  unfold resolve
  apply keeps_get_bind
  intro k _
  cases translate k.ram (k.cr3 / 4096) p with
  | none => exact keeps_throw _
  | some place => exact keeps_pure _

theorem keeps_readWord : Keeps I (readWord p) := by
  unfold readWord
  apply keeps_bind keeps_resolve
  intro place
  apply keeps_get_bind
  intro k _
  exact keeps_pure _

theorem keeps_getPhysicalAddress : Keeps I (getPhysicalAddress p) := by
  unfold getPhysicalAddress
  exact keeps_bind keeps_readWord fun _ => keeps_pure _

theorem keeps_visit : Keeps I (visit p offset) := by
  unfold visit
  apply keeps_get_bind
  intro k _
  cases k.blocks p with
  | none => exact keeps_throw _
  | some block => exact keeps_bind keeps_resolve fun _ => keeps_pure _

theorem keeps_processAt : Keeps I (processAt p offset) := by
  unfold processAt
  apply keeps_bind keeps_visit
  rintro ⟨body, role, owner⟩
  cases body with
  | process pr => exact keeps_pure _
  | _ => exact keeps_throw _

theorem keeps_memoryAt : Keeps I (memoryAt p offset) := by
  unfold memoryAt
  apply keeps_bind keeps_visit
  rintro ⟨body, role, owner⟩
  cases body with
  | memory m => exact keeps_pure _
  | _ => exact keeps_throw _

theorem keeps_tableAt : Keeps I (tableAt p offset) := by
  unfold tableAt
  apply keeps_bind keeps_visit
  rintro ⟨body, role, owner⟩
  cases body with
  | table t => exact keeps_pure _
  | _ => exact keeps_throw _

theorem keeps_pageDirectoryOf : Keeps I (pageDirectoryOf p) := by
  unfold pageDirectoryOf
  exact keeps_bind keeps_memoryAt fun _ => keeps_pure _

theorem keeps_tableOf : Keeps I (tableOf p i) := by
  unfold tableOf
  exact keeps_ite (keeps_bind keeps_memoryAt fun _ => keeps_pure _) (keeps_throw _)

theorem keeps_pageTableOf : Keeps I (pageTableOf p) := by
  unfold pageTableOf
  exact keeps_bind keeps_tableAt fun _ => keeps_pure _

theorem keeps_pageOf : Keeps I (pageOf p j) := by
  unfold pageOf
  exact keeps_ite (keeps_bind keeps_tableAt fun _ => keeps_pure _) (keeps_throw _)

theorem keeps_requirePages : Keeps I (requirePages p) := by
  unfold requirePages
  apply keeps_get_bind
  intro k _
  split
  · exact keeps_pure _
  · exact keeps_throw _

theorem keeps_loadEntry : Keeps I (loadEntry p i) := by
  unfold loadEntry
  exact keeps_bind keeps_requirePages fun _ => keeps_ite keeps_readWord (keeps_throw _)

theorem keeps_ownerOf : Keeps I (ownerOf p) := by
  unfold ownerOf
  apply keeps_get_bind
  intro k _
  cases k.blocks p with
  | none => exact keeps_throw _
  | some block => exact keeps_pure _

theorem keeps_nextField : Keeps I (nextField p) := by
  unfold nextField
  exact keeps_bind keeps_processAt fun _ => keeps_pure _

theorem keeps_prevField : Keeps I (prevField p) := by
  unfold prevField
  exact keeps_bind keeps_processAt fun _ => keeps_pure _

theorem keeps_getPid (s : ProcessState) : Keeps I (getPid s) := by
  unfold getPid
  apply keeps_get_bind
  intro k _
  exact keeps_bind keeps_processAt fun _ => keeps_pure _

theorem keeps_sysPrint (s : ProcessState) : Keeps I (sysPrint s) := by
  unfold sysPrint
  apply keeps_get_bind
  intro k _
  exact keeps_ite (keeps_pure _) (keeps_throw _)

end Access

section Edits

variable {k : Kernel M}

theorem ensures_visit_block : Ensures (fun _ => True) k (visit p offset) fun b k' =>
    k' = k ∧ k.blocks p = some b := by
  unfold visit
  apply ensures_get_bind
  cases live : k.blocks p with
  | none => exact ensures_throw _ trivial
  | some block =>
    exact ensures_bind (ensures_resolve (Q := fun _ k' => k' = k) (fun _ _ => rfl) fun _ => trivial)
      fun _ _ same => ensures_pure _ ⟨same, rfl⟩

theorem ensures_processAt_block : Ensures (fun _ => True) k (processAt p offset) fun pr k' =>
    k' = k ∧ ∃ role owner, k.blocks p = some ⟨.process pr, role, owner⟩ := by
  unfold processAt
  apply ensures_bind ensures_visit_block
  rintro ⟨body, role, owner⟩ _ ⟨rfl, live⟩
  cases body with
  | process pr => exact ensures_pure _ ⟨rfl, role, owner, live⟩
  | _ => exact ensures_throw _ trivial

theorem ensures_memoryAt_block : Ensures (fun _ => True) k (memoryAt p offset) fun m k' =>
    k' = k ∧ ∃ role owner, k.blocks p = some ⟨.memory m, role, owner⟩ := by
  unfold memoryAt
  apply ensures_bind ensures_visit_block
  rintro ⟨body, role, owner⟩ _ ⟨rfl, live⟩
  cases body with
  | memory m => exact ensures_pure _ ⟨rfl, role, owner, live⟩
  | _ => exact ensures_throw _ trivial

theorem ensures_tableAt_block : Ensures (fun _ => True) k (tableAt p offset) fun t k' =>
    k' = k ∧ ∃ role owner, k.blocks p = some ⟨.table t, role, owner⟩ := by
  unfold tableAt
  apply ensures_bind ensures_visit_block
  rintro ⟨body, role, owner⟩ _ ⟨rfl, live⟩
  cases body with
  | table t => exact ensures_pure _ ⟨rfl, role, owner, live⟩
  | _ => exact ensures_throw _ trivial

include books

theorem Books.registers {k' : Kernel M} (shape : k' = { k with
      cr3 := k'.cr3, first := k'.first, last := k'.last, current := k'.current
      pidInc := k'.pidInc, owners := k'.owners }) (holds : I k) : I k' := by
  rw [shape]
  exact books.same k _ rfl rfl rfl rfl rfl rfl holds

/-- A structure takes the place of one of its own kind. -/
theorem Books.ensures_putBody {body : Body} {block : Block} (holds : I k)
    (live : k.blocks p = some block) (size : body.size = block.body.size) :
    Ensures (fun _ => True) k (putBody p body) fun _ k' => I k' := by
  unfold putBody
  refine ensures_modify _ (books.same k _ rfl rfl rfl rfl rfl ?_ holds)
  funext q
  unfold sizes
  dsimp only
  by_cases here : q = p
  · rw [here, Function.update_self, live]
    exact congrArg some size
  · rw [Function.update_of_ne here]

theorem Books.keeps_setProcess (change : Process → Process) : Keeps I (setProcess p offset change) := by
  intro k holds
  unfold setProcess
  apply ensures_bind ensures_processAt_block
  rintro pr _ ⟨rfl, role, owner, live⟩
  exact books.ensures_putBody holds live rfl

theorem Books.keeps_setPageDirectory : Keeps I (setPageDirectory p q) := by
  intro k holds
  unfold setPageDirectory
  apply ensures_bind ensures_memoryAt_block
  rintro m _ ⟨rfl, role, owner, live⟩
  exact books.ensures_putBody holds live rfl

theorem Books.keeps_setTable : Keeps I (setTable p i q) := by
  unfold setTable
  refine keeps_ite (fun k holds => ?_) (keeps_throw _)
  apply ensures_bind ensures_memoryAt_block
  rintro m _ ⟨rfl, role, owner, live⟩
  exact books.ensures_putBody holds live rfl

theorem Books.keeps_setPageTable : Keeps I (setPageTable p q) := by
  intro k holds
  unfold setPageTable
  apply ensures_bind ensures_tableAt_block
  rintro t _ ⟨rfl, role, owner, live⟩
  exact books.ensures_putBody holds live rfl

theorem Books.keeps_setPage : Keeps I (setPage p j q) := by
  unfold setPage
  refine keeps_ite (fun k holds => ?_) (keeps_throw _)
  apply ensures_bind ensures_tableAt_block
  rintro t _ ⟨rfl, role, owner, live⟩
  exact books.ensures_putBody holds live rfl

theorem Books.keeps_free : Keeps I (free p) := by
  unfold free
  apply keeps_get_bind
  intro k holds
  apply keeps_ite (keeps_pure _)
  cases live : k.blocks p with
  | none => exact keeps_throw _
  | some block =>
    refine keeps_set (books.freed k p ?_ holds)
    unfold sizes
    rw [live]
    rfl

theorem Books.keeps_loadCr3 : Keeps I (loadCr3 p) := by
  unfold loadCr3
  exact keeps_ite (keeps_throw _) (keeps_modify fun _ holds => books.registers rfl holds)

theorem Books.keeps_newOwner : Keeps I newOwner := by
  unfold newOwner
  apply keeps_get_bind
  intro k holds
  exact keeps_bind (keeps_set (books.registers rfl holds)) fun _ => keeps_pure _

end Edits

section Ring

include books

theorem Books.keeps_beginRing : Keeps I (beginRing p) := by
  unfold beginRing
  apply keeps_get_bind
  intro k holds
  exact keeps_ite (keeps_bind (keeps_set (books.registers rfl holds)) fun _ => books.keeps_setProcess _) (keeps_pure _)

theorem Books.keeps_fillProcess : Keeps I (fillProcess p q) := by
  unfold fillProcess
  apply keeps_get_bind
  intro k _
  apply keeps_bind (books.keeps_setProcess _)
  intro _
  exact keeps_bind (keeps_modify fun _ holds => books.registers rfl holds) fun _ => books.keeps_setProcess _

theorem Books.keeps_joinRing : Keeps I (joinRing p) := by
  unfold joinRing
  apply keeps_get_bind
  intro k _
  apply keeps_bind (books.keeps_setProcess _)
  intro _
  apply keeps_bind (books.keeps_setProcess _)
  intro _
  apply keeps_bind (books.keeps_setProcess _)
  intro _
  exact keeps_bind (books.keeps_setProcess _) fun _ => keeps_modify fun _ holds => books.registers rfl holds

theorem Books.keeps_moveFirst : Keeps I moveFirst := by
  unfold moveFirst
  apply keeps_get_bind
  intro k holds
  exact keeps_ite (keeps_bind keeps_nextField fun _ => keeps_set (books.registers rfl holds)) (keeps_pure _)

theorem Books.keeps_moveLast : Keeps I moveLast := by
  unfold moveLast
  apply keeps_get_bind
  intro k holds
  exact keeps_ite (keeps_bind keeps_prevField fun _ => keeps_set (books.registers rfl holds)) (keeps_pure _)

theorem Books.keeps_bridgeCurrent : Keeps I bridgeCurrent := by
  unfold bridgeCurrent
  apply keeps_get_bind
  intro k _
  apply keeps_bind keeps_nextField
  intro next
  apply keeps_bind keeps_prevField
  intro prev
  apply keeps_bind (books.keeps_setProcess _)
  intro _
  apply keeps_bind keeps_prevField
  intro prev'
  exact keeps_bind keeps_nextField fun _ => books.keeps_setProcess _

end Ring

section Switching

include books

theorem Books.keeps_loadSpace : Keeps I (loadSpace p) := by
  unfold loadSpace
  apply keeps_bind keeps_processAt
  intro pr
  apply keeps_bind keeps_pageDirectoryOf
  intro directory
  exact keeps_bind keeps_getPhysicalAddress fun _ => books.keeps_loadCr3

theorem Books.keeps_runProcess : Keeps I (runProcess p) := by
  unfold runProcess
  refine keeps_bind (keeps_modify fun _ holds => books.registers rfl holds) ?_
  intro _
  apply keeps_bind books.keeps_loadSpace
  intro _
  exact keeps_bind keeps_processAt fun _ => keeps_pure _

theorem Books.keeps_yield (s : ProcessState) : Keeps I (yield s) := by
  unfold yield
  apply keeps_get_bind
  intro k _
  apply keeps_bind (books.keeps_setProcess _)
  intro _
  exact keeps_bind keeps_nextField fun _ => books.keeps_runProcess

theorem Books.keeps_freePages : Keeps I (freePages p i) := by
  unfold freePages
  generalize maxPageTableEntries = n
  refine keeps_bind (keeps_for fun j => ?_) fun _ => keeps_pure _
  refine keeps_bind keeps_pageOf fun page => ?_
  exact keeps_bind books.keeps_free fun _ => keeps_ite (keeps_pure _) (keeps_pure _)

attribute [local irreducible] freePages in
theorem Books.keeps_freeTable : Keeps I (freeTable p i) := by
  unfold freeTable
  apply keeps_bind keeps_tableOf
  intro table
  refine keeps_ite ?_ (keeps_pure _)
  apply keeps_bind keeps_pageTableOf
  intro pageTable
  apply keeps_bind books.keeps_free
  intro _
  exact keeps_bind books.keeps_freePages fun _ => books.keeps_free

theorem Books.keeps_freeTables : Keeps I (freeTables p) := by
  unfold freeTables
  generalize maxPageDirectoryEntries = n
  refine keeps_bind (keeps_for fun i => ?_) fun _ => keeps_pure _
  exact keeps_bind books.keeps_freeTable fun _ => keeps_pure _

attribute [local irreducible] freeTables in
theorem Books.keeps_freeMemory : Keeps I (freeMemory p) := by
  unfold freeMemory
  apply keeps_bind keeps_pageDirectoryOf
  intro directory
  apply keeps_bind books.keeps_free
  intro _
  exact keeps_bind books.keeps_freeTables fun _ => books.keeps_free

attribute [local irreducible] freeMemory in
theorem Books.keeps_handleExit (s : ProcessState) : Keeps I (handleExit s) := by
  unfold handleExit
  apply keeps_get_bind
  intro k _
  refine keeps_ite (keeps_throw _) ?_
  apply keeps_bind books.keeps_moveFirst
  intro _
  apply keeps_bind books.keeps_moveLast
  intro _
  apply keeps_bind books.keeps_bridgeCurrent
  intro _
  apply keeps_bind keeps_nextField
  intro next
  apply keeps_bind books.keeps_loadSpace
  intro _
  apply keeps_bind keeps_processAt
  intro pr
  apply keeps_bind books.keeps_freeMemory
  intro _
  exact keeps_bind books.keeps_free fun _ => books.keeps_runProcess

end Switching

end Snfos.Kernel
