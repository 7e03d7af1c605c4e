import Snfos.ModuleLoading

set_option autoImplicit false

/- What `load_module` can stop with. Where the module's pages fit the table, no index runs
off an array, whatever other modules there are. -/
namespace Snfos.Kernel

open Command

variable {M : Machine}

/-- No index has left its array, and the processor runs. -/
def Plain (fault : Fault) : Prop := fault ≠ .overrun ∧ fault ≠ .halted

section Memory

variable {address : Nat}

theorem raises_resolve : Raises Plain (resolve address : Action M (Nat × Nat)) := by
  unfold resolve
  refine raises_bind raises_get fun k => ?_
  cases translate k.ram (k.cr3 / 4096) address with
  | none => exact raises_throw ⟨nofun, nofun⟩
  | some place => exact raises_pure place

theorem raises_readWord : Raises Plain (readWord address : Action M Nat) :=
  raises_bind raises_resolve fun _ => raises_bind raises_get fun _ => raises_pure _

theorem raises_editFrame {edit : ByteMemory.Memory → Nat → ByteMemory.Memory} :
    Raises Plain (editFrame address edit : Action M Unit) :=
  raises_bind raises_resolve fun _ => raises_modify _

theorem raises_allocateNextPage : Raises Plain (allocateNextPage : Action M Nat) := by
  unfold allocateNextPage
  refine raises_bind raises_get fun k => raises_ite (fun _ => raises_throw ⟨nofun, nofun⟩)
    fun _ => raises_bind (raises_set _) fun _ => raises_pure _

theorem raises_mapPage {physical flags : Nat} :
    Raises Plain (mapPage address physical flags : Action M Unit) := by
  have install : ∀ i, Raises Plain (installTable i : Action M Unit) := by
    intro i
    refine raises_bind raises_readWord fun pde => raises_ite (fun _ => ?_) fun _ => raises_pure _
    exact raises_bind raises_allocateNextPage fun _ => raises_bind raises_editFrame fun _ =>
      raises_bind (raises_modify _) fun _ => raises_editFrame
  exact raises_bind (install _) fun _ => raises_bind raises_editFrame fun _ => raises_modify _

theorem raises_getPhysicalAddress : Raises Plain (getPhysicalAddress address : Action M Nat) :=
  raises_bind raises_readWord fun _ => raises_pure _

end Memory

section Blocks

variable {p q i owner : Nat} {role : Role}

theorem raises_allocate {call : M.allocator.Heap → Option (Nat × M.allocator.Heap)} {block : Block} :
    Raises Plain (allocate call block : Action M Nat) := by
  have pages : ∀ start n, Raises Plain (allocPage start n : Action M Unit) := fun start n =>
    raises_bind (raises_for fun i _ => raises_bind
      (raises_bind raises_allocateNextPage fun _ => raises_mapPage) fun _ => raises_pure _)
      fun _ => raises_pure _
  unfold allocate
  refine raises_bind raises_get fun k => ?_
  cases call k.heap with
  | none => exact raises_throw ⟨nofun, nofun⟩
  | some served =>
      refine raises_ite (fun _ => raises_throw ⟨nofun, nofun⟩) fun _ => ?_
      exact raises_bind (pages _ _) fun _ => raises_bind (raises_modify _) fun _ => raises_pure _

theorem raises_free : Raises Plain (free p : Action M Unit) := by
  unfold free
  refine raises_bind raises_get fun k => raises_ite (fun _ => raises_pure _) fun _ => ?_
  cases k.blocks p with
  | none => exact raises_throw ⟨nofun, nofun⟩
  | some block => exact raises_set _

theorem raises_visit {offset : Nat} : Raises Plain (visit p offset : Action M Block) := by
  unfold visit
  refine raises_bind raises_get fun k => ?_
  cases k.blocks p with
  | none => exact raises_throw ⟨nofun, nofun⟩
  | some block => exact raises_bind raises_resolve fun _ => raises_pure _

theorem raises_memoryAt {offset : Nat} : Raises Plain (memoryAt p offset : Action M ProcessMemory) := by
  refine raises_bind raises_visit fun block => ?_
  cases block.body with
  | memory m => exact raises_pure m
  | _ => exact raises_throw ⟨nofun, nofun⟩

theorem raises_tableAt {offset : Nat} : Raises Plain (tableAt p offset : Action M ProcessPageTable) := by
  refine raises_bind raises_visit fun block => ?_
  cases block.body with
  | table t => exact raises_pure t
  | _ => exact raises_throw ⟨nofun, nofun⟩

theorem raises_setTable (inside : i < 1024) : Raises Plain (setTable p i q : Action M Unit) :=
  raises_ite (fun _ => raises_bind raises_memoryAt fun _ => raises_modify _)
    fun past => absurd inside past

theorem raises_setPage (inside : i < 1024) : Raises Plain (setPage p i q : Action M Unit) :=
  raises_ite (fun _ => raises_bind raises_tableAt fun _ => raises_modify _)
    fun past => absurd inside past

theorem raises_requirePages : Raises Plain (requirePages p : Action M Unit) := by
  unfold requirePages
  refine raises_bind raises_get fun k => ?_
  split
  · exact raises_pure _
  · exact raises_throw ⟨nofun, nofun⟩

theorem raises_storeEntry {value : Nat} (inside : i < 1024) :
    Raises Plain (storeEntry p i value : Action M Unit) :=
  raises_bind raises_requirePages fun _ =>
    raises_ite (fun _ => raises_editFrame) fun past => absurd inside past

theorem raises_zeroPage : Raises Plain (zeroPage p : Action M Unit) :=
  raises_bind raises_requirePages fun _ => raises_editFrame

theorem raises_enterPage {flags : Nat} (inside : i < 1024) :
    Raises Plain (enterPage p i q flags : Action M Unit) :=
  raises_bind raises_getPhysicalAddress fun _ => raises_storeEntry inside

theorem raises_newTable (inside : i < 1024) :
    Raises Plain (newTable p i owner : Action M (Nat × Nat)) :=
  raises_bind raises_allocate fun _ => raises_bind (raises_setTable inside) fun _ =>
    raises_bind raises_allocate fun _ => raises_bind
      (raises_bind raises_tableAt fun _ => raises_modify _) fun _ => raises_pure _

theorem raises_newPage {j flags : Nat} (inside : j < 1024) :
    Raises Plain (newPage p q i j flags owner : Action M Nat) :=
  raises_bind raises_allocate fun _ => raises_bind (raises_setPage inside) fun _ =>
    raises_bind (raises_enterPage inside) fun _ => raises_pure _

end Blocks

section Loading

variable {module : Module} {table pageTable owner : Nat}

theorem raises_newSpace :
    Raises Plain (newSpace owner : Action M (Nat × (Nat × Nat) × (Nat × Nat) × (Nat × Nat))) := by
  unfold newSpace
  refine raises_bind raises_allocate fun process => raises_bind raises_allocate fun directory => ?_
  refine raises_bind (raises_bind raises_memoryAt fun _ => raises_modify _) fun _ => ?_
  refine raises_bind (raises_newTable (by decide)) fun code => ?_
  refine raises_bind (raises_newTable (by decide)) fun stack => ?_
  refine raises_bind (raises_newTable (by decide)) fun kernelStack => ?_
  refine raises_bind raises_zeroPage fun _ => raises_bind raises_zeroPage fun _ => ?_
  refine raises_bind raises_zeroPage fun _ => raises_bind raises_zeroPage fun _ => ?_
  refine raises_bind (raises_enterPage (by decide)) fun _ => ?_
  refine raises_bind (raises_storeEntry (by decide)) fun _ => ?_
  refine raises_bind (raises_enterPage (by decide)) fun _ => ?_
  refine raises_bind (raises_enterPage (by decide)) fun _ => ?_
  exact raises_bind (raises_enterPage (by decide)) fun _ => raises_pure _

theorem raises_loadCode (few : module.numCodePages ≤ 1024) :
    Raises Plain (loadCode module table pageTable owner : Action M Unit) := by
  have moved : ∀ tempPages, Raises Plain (mapModule module tempPages : Action M Unit) := fun _ =>
    raises_bind (raises_for fun i _ => raises_bind
      (raises_bind raises_getPhysicalAddress fun _ => raises_bind (raises_modify _) fun _ =>
        raises_mapPage) fun _ => raises_pure _) fun _ => raises_pure _
  have entered : ∀ code, Raises Plain (enterCode module table pageTable code : Action M Unit) :=
    fun _ => raises_bind (raises_for fun i inside =>
      raises_bind (raises_setPage (by omega)) fun _ => raises_bind (raises_enterPage (by omega))
        fun _ => raises_pure _) fun _ => raises_pure _
  have copied : ∀ target source count,
      Raises Plain (copyBytes target source count : Action M Unit) := fun _ _ _ =>
    raises_bind (raises_for fun i _ => raises_bind
      (raises_bind raises_resolve fun _ => raises_bind raises_get fun _ => raises_editFrame)
        fun _ => raises_pure _) fun _ => raises_pure _
  exact raises_bind raises_allocate fun _ => raises_bind (moved _) fun _ =>
    raises_bind raises_allocate fun _ => raises_bind (entered _) fun _ =>
      raises_bind (copied _ _ _) fun _ => raises_free

/-- A module that fits its table is loaded without an index past it. -/
theorem raises_loadModule (few : module.numCodePages ≤ 1024) :
    Raises Plain (loadModule module : Action M Nat) := by
  unfold loadModule
  refine raises_bind (raises_bind raises_get fun _ => raises_bind (raises_set _) fun _ =>
    raises_pure _) fun owner => ?_
  refine raises_bind raises_newSpace fun ⟨process, code, stack, kernelStack⟩ => ?_
  refine raises_bind (raises_newPage (by decide)) fun _ => ?_
  refine raises_bind (raises_newPage (by decide)) fun _ => ?_
  exact raises_bind (raises_loadCode few) fun _ => raises_pure _

end Loading

end Snfos.Kernel
