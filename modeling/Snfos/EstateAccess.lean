import Snfos.EstateChanges

set_option autoImplicit false

/- What reading and writing through pointers ensures, in terms of the estates: the
fields of structures, the entries of page tables and whole pages. -/
namespace Snfos.Kernel

open ByteMemory

variable {M : Machine}

theorem translate_page (ram : Nat → Memory) (d a : Nat) :
    translate ram d a = (translate ram d (4096 * (a / 4096))).map fun place =>
      (place.1, a % 4096) := by
  have pde : 4096 * (a / 4096) / 2 ^ 22 = a / 2 ^ 22 := by omega
  have pte : 4096 * (a / 4096) / 4096 % 1024 = a / 4096 % 1024 := by omega
  unfold translate
  simp only [pde, pte]
  by_cases directory : entry ram d (a / 2 ^ 22) % 2 = 0
  · simp only [directory, ↓reduceIte, Option.map_none]
  · by_cases table : entry ram (entry ram d (a / 2 ^ 22) / 4096) (a / 4096 % 1024) % 2 = 0
    · simp only [directory, table, ↓reduceIte, Option.map_none]
    · simp only [directory, table, ↓reduceIte, Option.map_some]

section Structures

variable {covered enough : Prop} {spare : M.Budget} {k : Kernel M} {w : Estates} {o p offset : Nat}
  {role : Role} {body : Body}

theorem Accounts.ensures_visit (accounts : Accounts covered enough spare k w) (owner : o ≠ 0)
    (held : (w o).block role = some (p, body)) (inside : offset < body.size) :
    Command.Ensures (Excused M covered enough) k (visit p offset) fun b k' =>
      k' = k ∧ b = ⟨body, role, o⟩ := by
  have live := accounts.live owner held
  unfold visit
  apply Command.ensures_get_bind
  rw [live]
  refine Command.ensures_bind (ensures_resolve (Q := fun _ k' => k' = k) (fun _ _ => rfl) ?_) ?_
  · intro absent so
    obtain ⟨lower, upper⟩ := accounts.inside live
    have mapped := accounts.paging.covers so ((p + offset) / 4096) (by
      have low := M.layout.heapStart_facts
      simp only at upper
      unfold HeapPage
      omega)
    unfold Mapped at mapped
    rw [translate_page, Option.map_eq_none_iff] at absent
    rw [absent] at mapped
    cases mapped
  · rintro _ _ rfl
    exact Command.ensures_pure _ ⟨rfl, rfl⟩

theorem Accounts.ensures_processAt {pr : Process} (accounts : Accounts covered enough spare k w)
    (owner : o ≠ 0) (held : (w o).block .process = some (p, .process pr)) (inside : offset < 68) :
    Command.Ensures (Excused M covered enough) k (processAt p offset) fun x k' =>
      k' = k ∧ x = pr := by
  unfold processAt
  apply Command.ensures_bind (accounts.ensures_visit owner held inside)
  rintro _ _ ⟨rfl, rfl⟩
  exact Command.ensures_pure _ ⟨rfl, rfl⟩

theorem Accounts.ensures_memoryAt {m : ProcessMemory} (accounts : Accounts covered enough spare k w)
    (owner : o ≠ 0) (held : (w o).block .memory = some (p, .memory m)) (inside : offset < 4100) :
    Command.Ensures (Excused M covered enough) k (memoryAt p offset) fun x k' =>
      k' = k ∧ x = m := by
  unfold memoryAt
  apply Command.ensures_bind (accounts.ensures_visit owner held inside)
  rintro _ _ ⟨rfl, rfl⟩
  exact Command.ensures_pure _ ⟨rfl, rfl⟩

theorem Accounts.ensures_tableAt {i : Nat} {t : ProcessPageTable}
    (accounts : Accounts covered enough spare k w) (owner : o ≠ 0)
    (held : (w o).block (.table i) = some (p, .table t)) (inside : offset < 4100) :
    Command.Ensures (Excused M covered enough) k (tableAt p offset) fun x k' =>
      k' = k ∧ x = t := by
  unfold tableAt
  apply Command.ensures_bind (accounts.ensures_visit owner held inside)
  rintro _ _ ⟨rfl, rfl⟩
  exact Command.ensures_pure _ ⟨rfl, rfl⟩

theorem Accounts.ensures_setProcess {pr : Process}
    (accounts : Accounts covered enough spare k w) (change : Process → Process) (owner : o ≠ 0)
    (held : (w o).block .process = some (p, .process pr)) (inside : offset < 68) :
    Command.Ensures (Excused M covered enough) k (setProcess p offset change) fun _ k' =>
      Accounts covered enough spare k'
          (Function.update w o ((w o).put .process p (.process (change pr)))) ∧ Steady o k k' := by
  unfold setProcess
  apply Command.ensures_bind (accounts.ensures_processAt owner held inside)
  rintro _ _ ⟨rfl, rfl⟩
  exact accounts.ensures_putBody owner held trivial rfl (fun _ => Body.noConfusion)

section Memory

variable {m : ProcessMemory}

theorem Accounts.ensures_pageDirectoryOf (accounts : Accounts covered enough spare k w)
    (owner : o ≠ 0) (held : (w o).block .memory = some (p, .memory m)) :
    Command.Ensures (Excused M covered enough) k (pageDirectoryOf p) fun x k' =>
      k' = k ∧ x = m.pageDirectory := by
  unfold pageDirectoryOf
  apply Command.ensures_bind (accounts.ensures_memoryAt owner held (by decide))
  rintro _ _ ⟨rfl, rfl⟩
  exact Command.ensures_pure _ ⟨rfl, rfl⟩

theorem Accounts.ensures_setPageDirectory {directory : Nat}
    (accounts : Accounts covered enough spare k w) (owner : o ≠ 0)
    (held : (w o).block .memory = some (p, .memory m)) :
    Command.Ensures (Excused M covered enough) k (setPageDirectory p directory) fun _ k' =>
      Accounts covered enough spare k' (Function.update w o
          ((w o).put .memory p (.memory { m with pageDirectory := directory }))) ∧
        Steady o k k' := by
  unfold setPageDirectory
  apply Command.ensures_bind (accounts.ensures_memoryAt owner held (by decide))
  rintro _ _ ⟨rfl, rfl⟩
  exact accounts.ensures_putBody owner held trivial rfl (fun _ => Body.noConfusion)

theorem Accounts.ensures_tableOf {i : Nat} (accounts : Accounts covered enough spare k w)
    (owner : o ≠ 0) (held : (w o).block .memory = some (p, .memory m)) (inside : i < 1024) :
    Command.Ensures (Excused M covered enough) k (tableOf p i) fun x k' =>
      k' = k ∧ x = m.pageTables i := by
  unfold tableOf
  rw [if_pos inside]
  apply Command.ensures_bind (accounts.ensures_memoryAt owner held (by omega))
  rintro _ _ ⟨rfl, rfl⟩
  exact Command.ensures_pure _ ⟨rfl, rfl⟩

theorem Accounts.ensures_setTable {i table : Nat} (accounts : Accounts covered enough spare k w)
    (owner : o ≠ 0) (held : (w o).block .memory = some (p, .memory m)) (inside : i < 1024) :
    Command.Ensures (Excused M covered enough) k (setTable p i table) fun _ k' =>
      Accounts covered enough spare k' (Function.update w o ((w o).put .memory p
          (.memory { m with pageTables := Function.update m.pageTables i table }))) ∧
        Steady o k k' := by
  unfold setTable
  rw [if_pos inside]
  apply Command.ensures_bind (accounts.ensures_memoryAt owner held (by omega))
  rintro _ _ ⟨rfl, rfl⟩
  exact accounts.ensures_putBody owner held trivial rfl (fun _ => Body.noConfusion)

end Memory

section Table

variable {i j : Nat} {t : ProcessPageTable}

theorem Accounts.ensures_pageTableOf (accounts : Accounts covered enough spare k w) (owner : o ≠ 0)
    (held : (w o).block (.table i) = some (p, .table t)) :
    Command.Ensures (Excused M covered enough) k (pageTableOf p) fun x k' =>
      k' = k ∧ x = t.pageTable := by
  unfold pageTableOf
  apply Command.ensures_bind (accounts.ensures_tableAt owner held (by decide))
  rintro _ _ ⟨rfl, rfl⟩
  exact Command.ensures_pure _ ⟨rfl, rfl⟩

theorem Accounts.ensures_setPageTable {pageTable : Nat}
    (accounts : Accounts covered enough spare k w) (owner : o ≠ 0)
    (held : (w o).block (.table i) = some (p, .table t)) :
    Command.Ensures (Excused M covered enough) k (setPageTable p pageTable) fun _ k' =>
      Accounts covered enough spare k' (Function.update w o
          ((w o).put (.table i) p (.table { t with pageTable := pageTable }))) ∧
        Steady o k k' := by
  unfold setPageTable
  apply Command.ensures_bind (accounts.ensures_tableAt owner held (by decide))
  rintro _ _ ⟨rfl, rfl⟩
  exact accounts.ensures_putBody owner held trivial rfl (fun _ => Body.noConfusion)

theorem Accounts.ensures_pageOf (accounts : Accounts covered enough spare k w) (owner : o ≠ 0)
    (held : (w o).block (.table i) = some (p, .table t)) (inside : j < 1024) :
    Command.Ensures (Excused M covered enough) k (pageOf p j) fun x k' =>
      k' = k ∧ x = t.pages j := by
  unfold pageOf
  rw [if_pos inside]
  apply Command.ensures_bind (accounts.ensures_tableAt owner held (by omega))
  rintro _ _ ⟨rfl, rfl⟩
  exact Command.ensures_pure _ ⟨rfl, rfl⟩

theorem Accounts.ensures_setPage {page : Nat} (accounts : Accounts covered enough spare k w)
    (owner : o ≠ 0) (held : (w o).block (.table i) = some (p, .table t)) (inside : j < 1024) :
    Command.Ensures (Excused M covered enough) k (setPage p j page) fun _ k' =>
      Accounts covered enough spare k' (Function.update w o ((w o).put (.table i) p
          (.table { t with pages := Function.update t.pages j page }))) ∧
        Steady o k k' := by
  unfold setPage
  rw [if_pos inside]
  apply Command.ensures_bind (accounts.ensures_tableAt owner held (by omega))
  rintro _ _ ⟨rfl, rfl⟩
  exact accounts.ensures_putBody owner held trivial rfl (fun _ => Body.noConfusion)

end Table

end Structures

section Pages

variable {covered enough : Prop} {spare : M.Budget} {k : Kernel M} {w : Estates} {o p count i : Nat}
  {role : Role}

/-- An address in a page of a block, where the directory in use maps it. -/
theorem Accounts.translate (accounts : Accounts covered enough spare k w) (owner : o ≠ 0)
    (held : (w o).block role = some (p, .pages count)) (inside : i < count) (offset : Nat)
    (small : offset < 4096) :
    Snfos.translate k.ram (k.cr3 / 4096) (p + 4096 * i + offset) = none ∧ ¬ covered ∨
      Snfos.translate k.ram (k.cr3 / 4096) (p + 4096 * i + offset) =
        some ((w o).frame role i, offset) := by
  obtain ⟨aligned, page, home, _⟩ := accounts.page owner held inside
  have here : (p + 4096 * i + offset) / 4096 = p / 4096 + i := by omega
  have rest : (p + 4096 * i + offset) % 4096 = offset := by omega
  have page' : HeapPage M k.mappedEnd ((p + 4096 * i + offset) / 4096) := by
    rw [here]
    exact page
  rcases accounts.paging.current.translate_heap accounts.paging page' with absent | present
  · refine Or.inl ⟨absent, fun so => ?_⟩
    have mapped := accounts.paging.covers so _ page'
    unfold Mapped at mapped
    rw [translate_page, Option.map_eq_none_iff] at absent
    rw [absent] at mapped
    cases mapped
  · rw [here, home, rest] at present
    exact Or.inr present

/-- Where the address of a byte of a block leads, if it is mapped. -/
theorem Accounts.place_of {a offset : Nat} {place : Nat × Nat}
    (accounts : Accounts covered enough spare k w) (owner : o ≠ 0)
    (held : (w o).block role = some (p, .pages count)) (inside : i < count) (small : offset < 4096)
    (address : a = p + 4096 * i + offset)
    (found : Snfos.translate k.ram (k.cr3 / 4096) a = some place) :
    place = ((w o).frame role i, offset) := by
  subst address
  rcases accounts.translate owner held inside offset small with ⟨absent, _⟩ | present
  · rw [absent] at found
    cases found
  · rw [present] at found
    exact (Option.some.inj found).symm

theorem Accounts.page_fault {a offset : Nat} (accounts : Accounts covered enough spare k w)
    (owner : o ≠ 0) (held : (w o).block role = some (p, .pages count)) (inside : i < count)
    (small : offset < 4096) (address : a = p + 4096 * i + offset)
    (absent : Snfos.translate k.ram (k.cr3 / 4096) a = none) :
    Excused M covered enough .pageFault := by
  subst address
  rcases accounts.translate owner held inside offset small with ⟨_, unmapped⟩ | present
  · exact unmapped
  · rw [present] at absent
    cases absent

theorem Accounts.ensures_getPhysicalAddress (accounts : Accounts covered enough spare k w)
    (owner : o ≠ 0) (held : (w o).block role = some (p, .pages count)) (inside : i < count) :
    Command.Ensures (Excused M covered enough) k (getPhysicalAddress (p + 4096 * i)) fun x k' =>
      k' = k ∧ (x = 4096 * (w o).frame role i ∨ x = 0 ∧ ¬ Mapped k (p / 4096 + i)) := by
  obtain ⟨aligned, page, home, _⟩ := accounts.page owner held inside
  have here : (p + 4096 * i) / 4096 = p / 4096 + i := by omega
  have rest : (p + 4096 * i) % 4096 = 0 := by omega
  apply (accounts.paging.ensures_getPhysicalAddress (by rw [here]; exact page)).mono
  rintro x k' ⟨rfl, mapped, unmapped⟩
  rw [here, rest, home] at mapped
  rw [here, rest] at unmapped
  refine ⟨rfl, ?_⟩
  by_cases there : Mapped k' (p / 4096 + i)
  · exact Or.inl (mapped there)
  · exact Or.inr ⟨unmapped there, there⟩

/-- The bytes of a page are replaced. -/
theorem Accounts.ensures_editFrame {change' : Memory → Memory}
    (accounts : Accounts covered enough spare k w) (edit : Memory → Nat → Memory) (offset : Nat)
    (owner : o ≠ 0) (held : (w o).block role = some (p, .pages count)) (inside : i < count)
    (small : offset < 4096) (alike : Alike (edit · offset) change')
    (tables : role = .directory → (w o).draft ∨
      ∀ m x, 3072 ≤ x → x < 4096 → edit m offset x = m x) :
    Command.Ensures (Excused M covered enough) k (editFrame (p + 4096 * i + offset) edit)
      fun _ k' => Accounts covered enough spare k'
          (Function.update w o ((w o).edit role i change')) ∧ Steady o k k' := by
  refine Snfos.Kernel.ensures_editFrame (fun f x found => ?_)
    (accounts.page_fault owner held inside small rfl)
  cases accounts.place_of owner held inside small rfl found
  exact accounts.edited owner held inside alike tables

theorem Accounts.ensures_requirePages (accounts : Accounts covered enough spare k w) (owner : o ≠ 0)
    (held : (w o).block role = some (p, .pages count)) :
    Command.Ensures (Excused M covered enough) k (requirePages p) fun _ k' => k' = k := by
  unfold requirePages
  apply Command.ensures_get_bind
  rw [accounts.live owner held]
  exact Command.ensures_pure _ rfl

theorem Accounts.ensures_loadEntry (accounts : Accounts covered enough spare k w) (role : Role)
    (owner : o ≠ 0) (held : (w o).block role = some (p, .pages 1)) (inside : i < 1024)
    (tables : role = .directory → (w o).draft ∨ i < 769 ∨ 1022 ≤ i) :
    Command.Ensures (Excused M covered enough) k (loadEntry p i) fun x k' =>
      k' = k ∧ x = (w o).word role i := by
  have small : 4 * i < 4096 := by omega
  have address : p + 4 * i = p + 4096 * 0 + 4 * i := rfl
  unfold loadEntry
  apply Command.ensures_bind (accounts.ensures_requirePages owner held)
  rintro _ _ rfl
  rw [if_pos inside]
  refine ensures_readWord (fun f x found => ?_)
    (accounts.page_fault owner held (Nat.succ_pos 0) small address)
  cases accounts.place_of owner held (Nat.succ_pos 0) small address found
  exact ⟨rfl, accounts.entry owner held (by decide) inside tables⟩

theorem Accounts.ensures_storeEntry {value : Nat} (accounts : Accounts covered enough spare k w)
    (role : Role) (owner : o ≠ 0) (held : (w o).block role = some (p, .pages 1))
    (inside : i < 1024) (tables : role = .directory → (w o).draft ∨ i < 768) :
    Command.Ensures (Excused M covered enough) k (storeEntry p i value) fun _ k' =>
      Accounts covered enough spare k' (Function.update w o ((w o).setWord role i value)) ∧
        Steady o k k' := by
  unfold storeEntry
  apply Command.ensures_bind (accounts.ensures_requirePages owner held)
  rintro _ _ rfl
  rw [if_pos inside]
  have write := accounts.ensures_editFrame (fun bytes offset => store32 bytes offset value) (4 * i)
    owner held (Nat.succ_pos 0) (by omega) (alike_store32 _ _) ?_
  · rw [Nat.mul_zero, Nat.add_zero] at write
    exact write
  · intro directory
    refine (tables directory).imp_right fun low m x above below => ?_
    exact store32_ne _ _ _ _ (by omega)

theorem Accounts.ensures_zeroPage (accounts : Accounts covered enough spare k w) (role : Role)
    (owner : o ≠ 0) (held : (w o).block role = some (p, .pages 1))
    (tables : role = .directory → (w o).draft) :
    Command.Ensures (Excused M covered enough) k (zeroPage p) fun _ k' =>
      Accounts covered enough spare k' (Function.update w o ((w o).zero role)) ∧ Steady o k k' := by
  unfold zeroPage
  apply Command.ensures_bind (accounts.ensures_requirePages owner held)
  rintro _ _ rfl
  have write := accounts.ensures_editFrame (fun bytes _ => fill bytes 0 4096 0) 0 owner held
    (Nat.succ_pos 0) (by decide) (alike_fill _ _ _)
    fun directory => Or.inl (tables directory)
  rw [Nat.mul_zero, Nat.add_zero] at write
  exact write

/-- Bytes of one page are written over those of another. -/
theorem Accounts.ensures_copyPage {o' p' count' i' n : Nat} {role' : Role}
    (accounts : Accounts covered enough spare k w) (owner : o ≠ 0)
    (held : (w o).block role = some (p, .pages count)) (inside : i < count)
    (owner' : o' ≠ 0) (held' : (w o').block role' = some (p', .pages count'))
    (inside' : i' < count') (page : role ≠ .directory) (page' : role' ≠ .directory) :
    Command.Ensures (Excused M covered enough) k (copyPage (p + 4096 * i) (p' + 4096 * i') n)
      fun _ k' => Accounts covered enough spare k'
          (Function.update w o ((w o).edit role i (copy · 0 ((w o').bytes role' i') 0 n))) ∧
        Steady o k k' := by
  have zero : 0 < 4096 := by decide
  unfold copyPage
  refine Command.ensures_bind (ensures_resolve (Q := fun source k' =>
    k' = k ∧ source = ((w o').frame role' i', 0))
    (fun source found => ⟨rfl, accounts.place_of owner' held' inside' zero rfl found⟩)
    (accounts.page_fault owner' held' inside' zero rfl)) ?_
  rintro _ k ⟨rfl, rfl⟩
  apply Command.ensures_get_bind
  have write := accounts.ensures_editFrame
    (fun before _ => copy before 0 (k.ram ((w o').frame role' i')) 0 n) 0 owner held inside
    (by decide) (alike_copy n fun offset small => (accounts.pages o' owner' role' p' count' held' i'
      inside').2 offset small fun directory => absurd directory page')
    fun directory => absurd directory page
  rw [Nat.add_zero] at write
  exact write

end Pages

end Snfos.Kernel
