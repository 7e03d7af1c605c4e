import Snfos.AddressSpace

set_option autoImplicit false

/- The pieces address spaces are built from: a new table, a new page, an entry; and
the pages of a module, which `load_module` copies into a block of their own. -/
namespace Snfos.Kernel

open ByteMemory

variable {M : Machine}

section Pieces

variable {covered enough : Prop} {spare : M.Budget} {k : Kernel M} {w : Estates}
  {o p count i j flags : Nat} {role : Role}

theorem Accounts.frame_lt (accounts : Accounts covered enough spare k w) (owner : o ≠ 0)
    (held : (w o).block role = some (p, .pages count)) (inside : i < count) :
    (w o).frame role i < 2 ^ 20 :=
  (accounts.paging.used _ _ (accounts.page owner held inside).2.2.2).1

/-- The pages of a block from `malloc_pages` are mapped, and stay so. -/
def Reaches (k : Kernel M) (p count : Nat) : Prop :=
  p % 4096 = 0 ∧ ∀ i, i < count → HeapPage M k.mappedEnd (p / 4096 + i) ∧ Mapped k (p / 4096 + i)

theorem Reaches.calm {k' : Kernel M} (reaches : Reaches k p count) (calm : Calm k k') :
    Reaches k' p count := by
  refine ⟨reaches.1, fun i inside => ?_⟩
  obtain ⟨page, mapped⟩ := reaches.2 i inside
  exact ⟨⟨page.1, Nat.lt_of_lt_of_le page.2 calm.grows⟩, calm.mapped _ page mapped⟩

/-- A block that was just placed. -/
theorem Accounts.reaches {E : Estate} {frames : Nat → Nat} {bytes : Nat → Memory}
    (accounts : Accounts covered enough spare k (Function.update w o (E.place role p count frames bytes)))
    (owner : o ≠ 0) (aligned : p % 4096 = 0)
    (fresh : ∀ i, i < count → Mapped k (p / 4096 + i) ∧ k.mapper (p / 4096 + i) = k.cr3 / 4096) :
    Reaches k p count := by
  have held : (Function.update w o (E.place role p count frames bytes) o).block role =
      some (p, .pages count) := by
    rw [Function.update_self, Estate.place_block, if_pos rfl]
  exact ⟨aligned, fun i inside => ⟨(accounts.page owner held inside).2.1, (fresh i inside).1⟩⟩

theorem Accounts.ensures_newTable {m : ProcessMemory}
    (accounts : Accounts covered enough (M.tableAsks spare) k w) (owner : o ≠ 0) (drawn : o < k.owners)
    (held : (w o).block .memory = some (p, .memory m)) (vacant : (w o).Vacant i)
    (inside : i < 1024) :
    Command.Ensures (Excused M covered enough) k (newTable p i o) fun tables k' =>
      tables.1 ≠ 0 ∧ (∃ frames bytes, Accounts covered enough spare k'
          (Function.update w o ((w o).addTable p m i tables.1 tables.2 frames bytes))) ∧
        Reaches k' tables.2 1 ∧ Steady o k k' := by
  unfold newTable
  refine Command.ensures_bind (accounts.ensures_malloc drawn (fun zero => absurd zero owner)
    (fun _ => vacant _ rfl) trivial fun _ => Body.noConfusion) ?_
  rintro table k₁ ⟨nonzero, accounts₁, steady₁⟩
  refine Command.ensures_bind (accounts₁.ensures_setTable (m := m) owner ?_ inside) ?_
  · rw [Function.update_self, Estate.put_block, if_neg (by simp)]
    exact held
  rintro _ k₂ ⟨accounts₂, steady₂⟩
  simp only [Function.update_self, Function.update_idem] at accounts₂
  refine Command.ensures_bind (accounts₂.ensures_mallocPages ?_ (fun zero => absurd zero owner)
    (fun _ => ?_) rfl nofun) ?_
  · rw [steady₂.calm.owners, steady₁.calm.owners]
    exact drawn
  · rw [Function.update_self, Estate.put_block, if_neg (by simp), Estate.put_block,
      if_neg (by simp)]
    exact vacant _ rfl
  rintro pageTable k₃ ⟨_, aligned, ⟨frames, bytes, accounts₃⟩, steady₃, fresh⟩
  have reaches := accounts₃.reaches owner aligned fresh
  simp only [Function.update_self, Function.update_idem] at accounts₃
  refine Command.ensures_bind (accounts₃.ensures_setPageTable (i := i) (t := emptyTable) owner ?_) ?_
  · rw [Function.update_self, Estate.place_block, if_neg (by simp), Estate.put_block,
      if_neg (by simp), Estate.put_block, if_pos rfl]
  rintro _ k₄ ⟨accounts₄, steady₄⟩
  simp only [Function.update_self, Function.update_idem] at accounts₄
  exact Command.ensures_pure _ ⟨nonzero, ⟨frames, bytes, accounts₄⟩, reaches.calm steady₄.calm,
    ((steady₁.trans steady₂).trans steady₃).trans steady₄⟩

/-- The frame of a page that is mapped. -/
theorem Accounts.ensures_reached {c : Nat} (accounts : Accounts covered enough spare k w)
    (owner : o ≠ 0) (held : (w o).block role = some (p, .pages count)) (reaches : Reaches k p count)
    (inside : c < count) :
    Command.Ensures (Excused M covered enough) k (getPhysicalAddress (p + 4096 * c)) fun x k' =>
      k' = k ∧ x = 4096 * (w o).frame role c := by
  apply (accounts.ensures_getPhysicalAddress owner held inside).mono
  rintro x _ ⟨rfl, frame | ⟨_, unmapped⟩⟩
  · exact ⟨rfl, frame⟩
  · exact absurd (reaches.2 c inside).2 unmapped

/-- The frame of the first page. -/
theorem Accounts.ensures_reached_first (accounts : Accounts covered enough spare k w) (owner : o ≠ 0)
    (held : (w o).block role = some (p, .pages count)) (reaches : Reaches k p count)
    (positive : 0 < count) :
    Command.Ensures (Excused M covered enough) k (getPhysicalAddress p) fun x k' =>
      k' = k ∧ x = 4096 * (w o).frame role 0 := by
  have address := accounts.ensures_reached owner held reaches positive
  rwa [Nat.mul_zero, Nat.add_zero] at address

/-- An entry for page `c` of a block that is mapped. -/
theorem Accounts.ensures_enterPage {q c : Nat} (accounts : Accounts covered enough spare k w)
    (role role' : Role) (owner : o ≠ 0) (held : (w o).block role = some (p, .pages 1))
    (inside : i < 1024) (tables : role = .directory → (w o).draft ∨ i < 768)
    (held' : (w o).block role' = some (q, .pages count)) (reaches : Reaches k q count)
    (inside' : c < count) (small : flags < 4096) :
    Command.Ensures (Excused M covered enough) k (enterPage p i (q + 4096 * c) flags) fun _ k' =>
      Accounts covered enough spare k' (Function.update w o
          ((w o).setWord role i (4096 * (w o).frame role' c + flags))) ∧
        Steady o k k' := by
  unfold enterPage
  apply Command.ensures_bind (accounts.ensures_reached owner held' reaches inside')
  rintro _ k ⟨rfl, rfl⟩
  rw [or_flags _ small]
  exact accounts.ensures_storeEntry role owner held inside tables

/-- An entry for a block of one page. -/
theorem Accounts.ensures_enterBlock {q : Nat} (accounts : Accounts covered enough spare k w)
    (role role' : Role) (owner : o ≠ 0) (held : (w o).block role = some (p, .pages 1))
    (inside : i < 1024) (tables : role = .directory → (w o).draft ∨ i < 768)
    (held' : (w o).block role' = some (q, .pages 1)) (reaches : Reaches k q 1)
    (small : flags < 4096) :
    Command.Ensures (Excused M covered enough) k (enterPage p i q flags) fun _ k' =>
      Accounts covered enough spare k' (Function.update w o
          ((w o).setWord role i (4096 * (w o).frame role' 0 + flags))) ∧
        Steady o k k' :=
  accounts.ensures_enterPage (c := 0) role role' owner held inside tables held' reaches (by decide)
    small

theorem Accounts.ensures_newPage {table pageTable : Nat} {t : ProcessPageTable}
    (accounts : Accounts covered enough (M.pageAsks spare) k w) (owner : o ≠ 0) (drawn : o < k.owners)
    (held : (w o).block (.table i) = some (table, .table t))
    (held' : (w o).block (.pageTable i) = some (pageTable, .pages 1))
    (vacant : (w o).block (.page i j) = none) (inside : j < 1024) (small : flags < 4096) :
    Command.Ensures (Excused M covered enough) k (newPage table pageTable i j flags o)
      fun page k' => page ≠ 0 ∧ (∃ frames bytes, frames 0 < 2 ^ 20 ∧
          Accounts covered enough spare k' (Function.update w o
            ((w o).addPage i j table t page frames bytes (4096 * frames 0 + flags)))) ∧
        Steady o k k' := by
  unfold newPage
  refine Command.ensures_bind (accounts.ensures_mallocPages drawn (fun zero => absurd zero owner)
    (fun _ => vacant) (Nat.succ_pos 0) nofun) ?_
  rintro page k₁ ⟨nonzero, aligned, ⟨frames, bytes, accounts₁⟩, steady₁, fresh⟩
  have reaches := accounts₁.reaches owner aligned fresh
  have placed : (Function.update w o ((w o).place (.page i j) page 1 frames bytes) o).block
      (.page i j) = some (page, .pages 1) := by
    rw [Function.update_self, Estate.place_block, if_pos rfl]
  have low := accounts₁.frame_lt owner placed (Nat.succ_pos 0)
  rw [Function.update_self, Estate.place_frame, if_pos rfl] at low
  refine Command.ensures_bind (accounts₁.ensures_setPage (i := i) (t := t) owner ?_ inside) ?_
  · rw [Function.update_self, Estate.place_block, if_neg (by simp)]
    exact held
  rintro _ k₂ ⟨accounts₂, steady₂⟩
  simp only [Function.update_self, Function.update_idem] at accounts₂
  refine Command.ensures_bind (accounts₂.ensures_enterBlock (.pageTable i) (.page i j) owner ?_
    inside nofun ?_ (reaches.calm steady₂.calm) small) ?_
  · rw [Function.update_self, Estate.put_block, if_neg (by simp), Estate.place_block,
      if_neg (by simp)]
    exact held'
  · rw [Function.update_self, Estate.put_block, if_neg (by simp), Estate.place_block, if_pos rfl]
  rintro _ k₃ ⟨accounts₃, steady₃⟩
  simp only [Function.update_self, Function.update_idem, Estate.put_frame, Estate.place_frame,
    ↓reduceIte] at accounts₃
  exact Command.ensures_pure _ ⟨nonzero, ⟨frames, bytes, low, accounts₃⟩,
    (steady₁.trans steady₂).trans steady₃⟩

/-- A page without an entry in the shadow is not there. -/
theorem Accounts.absent {t : ProcessPageTable} {j : Nat} (accounts : Accounts covered enough spare k w)
    (owner : o ≠ 0) (ready : (w o).PageReady t i j) (zero : t.pages j = 0) :
    (w o).block (.page i j) = none ∧ (w o).word (.pageTable i) j = 0 := by
  rcases ready with ⟨_, absent, word⟩ | ⟨j', c, p, place, pointer, _⟩
  · exact ⟨absent, word⟩
  · obtain ⟨count, held, _⟩ := place.block
    have nonzero := (accounts.fits owner held).2
    omega

/-- `newPage` in an address space that is in step. -/
theorem Accounts.ensures_growPage {E : Estate} {m : ProcessMemory} {table : Nat}
    {t : ProcessPageTable}
    (accounts : Accounts covered enough (M.pageAsks spare) k (Function.update w o E)) (owner : o ≠ 0)
    (drawn : o < k.owners) (laid : E.Laid none p m) (ready : E.TableReady i table t)
    (linked : m.pageTables i = table) (slot : i < 1024) (inside : j < 1024) (zero : t.pages j = 0)
    (allowed : flags = pageFlags i) :
    Command.Ensures (Excused M covered enough) k (newPage table t.pageTable i j flags o)
      fun page k' => page ≠ 0 ∧ Steady o k k' ∧ ∃ E' : Estate,
        Accounts covered enough spare k' (Function.update w o E') ∧ E'.Laid none p m ∧
        E'.TableReady i table { t with pages := Function.update t.pages j page } ∧
        E'.block (.page i j) = some (page, .pages 1) ∧ E'.draft = E.draft ∧
        (∀ i' q t', i' ≠ i → E.TableReady i' q t' → E'.TableReady i' q t') ∧
        ∀ role, role.slot ≠ some i → E'.block role = E.block role := by
  have own : ∀ G, (Function.update w o G) o = G := fun G => Function.update_self ..
  have absent : E.block (.page i j) = none := by
    have none := accounts.absent owner (by rw [own]; exact ready.pages j inside) zero
    rw [own] at none
    exact none.1
  have nonzero := (accounts.fits owner (by rw [own]; exact ready.table)).2
  have small : flags < 4096 := by
    rw [allowed]
    unfold pageFlags
    split <;> decide
  refine (accounts.ensures_newPage owner drawn (by rw [own]; exact ready.table)
    (by rw [own]; exact ready.pageTable) (by rw [own]; exact absent) inside small).mono ?_
  rintro page k' ⟨pageNonzero, ⟨frames, bytes, low, accounts'⟩, steady⟩
  rw [own, Function.update_idem, allowed] at accounts'
  have bound : 4096 * frames 0 + pageFlags i < 2 ^ 32 := by omega
  refine ⟨pageNonzero, steady, _, accounts', laid.growPage ready linked nonzero slot inside absent
    (leads_pageFlags i _) bound, ready.addPage inside absent (leads_pageFlags i _) bound, ?_, rfl,
    fun i' q t' other ready' => ready'.addPage_ne other bound, fun role away => ?_⟩
  · rw [Estate.addPage_block, if_neg (by simp), if_pos rfl]
  · rw [Estate.addPage_block, if_neg (by rintro rfl; exact away rfl),
      if_neg (by rintro rfl; exact away rfl)]

end Pieces

section Loading

variable {covered enough : Prop} {spare : M.Budget} {k : Kernel M} {w : Estates} {o p : Nat}

/-- The second half of `newSpace`. -/
theorem Accounts.ensures_enterTables {E : Estate} {m : ProcessMemory}
    {code stack kernelStack : Nat × Nat}
    (accounts : Accounts covered enough spare k (Function.update w o E)) (owner : o ≠ 0)
    (fresh : E.Fresh p m code stack kernelStack) (reaches : Reaches k m.pageDirectory 1)
    (reaches₀ : Reaches k code.2 1) (reaches₁ : Reaches k stack.2 1)
    (reaches₂ : Reaches k kernelStack.2 1) :
    Command.Ensures (Excused M covered enough) k (do
      zeroPage m.pageDirectory
      zeroPage code.2
      zeroPage stack.2
      zeroPage kernelStack.2
      enterPage m.pageDirectory 1023 m.pageDirectory 0x03
      storeEntry m.pageDirectory 768 (4096 * M.kernelPageTable ||| 0x03)
      enterPage m.pageDirectory 0 code.2 0x07
      enterPage m.pageDirectory 767 stack.2 0x07
      enterPage m.pageDirectory 1022 kernelStack.2 0x03
      pure (p, code, stack, kernelStack)) fun r k' => r = (p, code, stack, kernelStack) ∧
        Steady o k k' ∧ Accounts covered enough spare k'
          (Function.update w o (E.enterTables M.kernelPageTable)) := by
  have own : ∀ G, (Function.update w o G) o = G := fun G => Function.update_self ..
  refine Command.ensures_bind (accounts.ensures_zeroPage .directory owner
    (by simp only [own, fresh.directory]) fun _ => by simp only [own, fresh.draft]) ?_
  rintro _ k₁ ⟨accounts₁, steady₁⟩
  simp only [own, Function.update_idem] at accounts₁
  refine Command.ensures_bind (accounts₁.ensures_zeroPage (.pageTable 0) owner
    (by simp only [own, Estate.zero_block, fresh.code.2]) nofun) ?_
  rintro _ k₂ ⟨accounts₂, steady₂⟩
  simp only [own, Function.update_idem] at accounts₂
  refine Command.ensures_bind (accounts₂.ensures_zeroPage (.pageTable 767) owner
    (by simp only [own, Estate.zero_block, fresh.stack.2]) nofun) ?_
  rintro _ k₃ ⟨accounts₃, steady₃⟩
  simp only [own, Function.update_idem] at accounts₃
  refine Command.ensures_bind (accounts₃.ensures_zeroPage (.pageTable 1022) owner
    (by simp only [own, Estate.zero_block, fresh.kernelStack.2]) nofun) ?_
  rintro _ k₄ ⟨accounts₄, steady₄⟩
  simp only [own, Function.update_idem] at accounts₄
  have steady := ((steady₁.trans steady₂).trans steady₃).trans steady₄
  refine Command.ensures_bind (accounts₄.ensures_enterBlock .directory .directory owner
    (by simp only [own, Estate.zero_block, fresh.directory]) (by decide)
    (fun _ => Or.inl (by simp only [own, Estate.zero_draft, fresh.draft]))
    (by simp only [own, Estate.zero_block, fresh.directory]) (reaches.calm steady.calm)
    (by decide)) ?_
  rintro _ k₅ ⟨accounts₅, steady₅⟩
  simp only [own, Function.update_idem, Estate.zero_frame] at accounts₅
  replace steady := steady.trans steady₅
  rw [or_flags M.kernelPageTable (by decide)]
  refine Command.ensures_bind (accounts₅.ensures_storeEntry .directory owner
    (by simp only [own, Estate.setWord_block, Estate.zero_block, fresh.directory]) (by decide)
    (fun _ => Or.inl (by simp only [own, Estate.setWord_draft, Estate.zero_draft, fresh.draft]))) ?_
  rintro _ k₆ ⟨accounts₆, steady₆⟩
  simp only [own, Function.update_idem] at accounts₆
  replace steady := steady.trans steady₆
  refine Command.ensures_bind (accounts₆.ensures_enterBlock .directory (.pageTable 0) owner
    (by simp only [own, Estate.setWord_block, Estate.zero_block, fresh.directory]) (by decide)
    (fun _ => Or.inr (by decide))
    (by simp only [own, Estate.setWord_block, Estate.zero_block, fresh.code.2])
    (reaches₀.calm steady.calm) (by decide)) ?_
  rintro _ k₇ ⟨accounts₇, steady₇⟩
  simp only [own, Function.update_idem, Estate.setWord_frame, Estate.zero_frame] at accounts₇
  replace steady := steady.trans steady₇
  refine Command.ensures_bind (accounts₇.ensures_enterBlock .directory (.pageTable 767) owner
    (by simp only [own, Estate.setWord_block, Estate.zero_block, fresh.directory]) (by decide)
    (fun _ => Or.inr (by decide))
    (by simp only [own, Estate.setWord_block, Estate.zero_block, fresh.stack.2])
    (reaches₁.calm steady.calm) (by decide)) ?_
  rintro _ k₈ ⟨accounts₈, steady₈⟩
  simp only [own, Function.update_idem, Estate.setWord_frame, Estate.zero_frame] at accounts₈
  replace steady := steady.trans steady₈
  refine Command.ensures_bind (accounts₈.ensures_enterBlock .directory (.pageTable 1022) owner
    (by simp only [own, Estate.setWord_block, Estate.zero_block, fresh.directory]) (by decide)
    (fun _ => Or.inl (by simp only [own, Estate.setWord_draft, Estate.zero_draft, fresh.draft]))
    (by simp only [own, Estate.setWord_block, Estate.zero_block, fresh.kernelStack.2])
    (reaches₂.calm steady.calm) (by decide)) ?_
  rintro _ k₉ ⟨accounts₉, steady₉⟩
  simp only [own, Function.update_idem, Estate.setWord_frame, Estate.zero_frame] at accounts₉
  exact Command.ensures_pure _ ⟨rfl, steady.trans steady₉, accounts₉⟩

/-- How every address space begins. -/
theorem Accounts.ensures_beginSpace {α : Type} {rest : Nat → Nat → Action M α}
    {Q : α → Kernel M → Prop} (accounts : Accounts covered enough (M.tableAsks spare) k w)
    (owner : o ≠ 0) (drawn : o < k.owners) (new : w o = Estate.new)
    (next : ∀ process directory k' E, Steady o k k' →
      Accounts covered enough spare k' (Function.update w o E) → Reaches k' directory 1 →
      E.Begun process directory →
      Command.Ensures (Excused M covered enough) k' (rest process directory) Q) :
    Command.Ensures (Excused M covered enough) k (do
      let process ← malloc (.memory emptyMemory) .memory o
      let directory ← mallocPages 1 .directory o
      setPageDirectory process directory
      rest process directory) Q := by
  have empty : ∀ role, (w o).block role = none := fun role => by rw [new]; rfl
  have own : ∀ G, (Function.update w o G) o = G := fun G => Function.update_self ..
  refine Command.ensures_bind (accounts.ensures_malloc drawn (fun zero => absurd zero owner)
    (fun _ => empty _) trivial fun _ => Body.noConfusion) ?_
  rintro process k₁ ⟨_, accounts₁, steady₁⟩
  refine Command.ensures_bind (accounts₁.ensures_mallocPages (by rw [steady₁.calm.owners]; exact drawn)
    (fun zero => absurd zero owner) (fun _ => ?_) rfl (fun _ => ?_)) ?_
  · rw [own, Estate.put_block, if_neg (by simp), empty]
  · rw [own, Estate.put_draft, new]
    trivial
  rintro directory k₂ ⟨_, aligned, ⟨frames, bytes, accounts₂⟩, steady₂, fresh⟩
  have reaches := accounts₂.reaches owner aligned fresh
  simp only [own, Function.update_idem] at accounts₂
  refine Command.ensures_bind (accounts₂.ensures_setPageDirectory (m := emptyMemory) owner ?_) ?_
  · rw [own, Estate.place_block, if_neg (by simp), Estate.put_block, if_pos rfl]
  rintro _ k₃ ⟨accounts₃, steady₃⟩
  simp only [own, Function.update_idem] at accounts₃
  refine next process directory k₃ _ ((steady₁.trans steady₂).trans steady₃) accounts₃
    (reaches.calm steady₃.calm) ⟨?_, ?_, fun role notMemory notDirectory => ?_, ?_⟩
  · rw [Estate.put_block, if_pos rfl]
    rfl
  · rw [Estate.put_block, if_neg (by simp), Estate.place_block, if_pos rfl]
  · rw [Estate.put_block, if_neg notMemory, Estate.place_block, if_neg notDirectory,
      Estate.put_block, if_neg notMemory, empty]
  · rw [Estate.put_draft, Estate.place_draft, Estate.put_draft, new]
    trivial

/-- Once the tables are entered the address space is complete. -/
theorem Accounts.finish_space {F : Estate} {m : ProcessMemory} {code stack kernelStack : Nat × Nat}
    (accounts : Accounts covered enough spare k
      (Function.update w o (F.enterTables M.kernelPageTable)))
    (owner : o ≠ 0) (made : F.Fresh p m code stack kernelStack) : ∃ E : Estate,
      Accounts covered enough spare k (Function.update w o E) ∧ E.Laid none p m ∧ ¬ E.draft ∧
        (∀ role, role = .process ∨ role = .temp ∨ role = .raw → E.block role = none) ∧
        E.TableReady 0 code.1 ⟨code.2, fun _ => 0⟩ ∧ E.TableReady 767 stack.1 ⟨stack.2, fun _ => 0⟩ ∧
        E.TableReady 1022 kernelStack.1 ⟨kernelStack.2, fun _ => 0⟩ := by
  have own : ∀ G, (Function.update w o G) o = G := fun G => Function.update_self ..
  have frames : ∀ role ∈ [Role.directory, .pageTable 0, .pageTable 767, .pageTable 1022],
      F.frame role 0 < 2 ^ 20 := by
    intro role which
    have held : ∃ q, (F.enterTables M.kernelPageTable).block role = some (q, .pages 1) := by
      rw [Estate.enterTables_block]
      simp only [List.mem_cons, List.not_mem_nil, or_false] at which
      rcases which with rfl | rfl | rfl | rfl
      · exact ⟨_, made.directory⟩
      · exact ⟨_, made.code.2⟩
      · exact ⟨_, made.stack.2⟩
      · exact ⟨_, made.kernelStack.2⟩
    obtain ⟨q, held⟩ := held
    have bound := accounts.frame_lt owner (by rw [own]; exact held) (Nat.succ_pos 0)
    rwa [own, Estate.enterTables_frame] at bound
  have low := M.kernelPageTable_used.1
  have entry := fun i inside => Estate.enterTables_directory (i := i) frames low inside
  have laid := made.laid frames low
  have code' : (F.enterTables M.kernelPageTable).TableReady 0 code.1 ⟨code.2, fun _ => 0⟩ :=
    made.tableReady (Or.inl rfl) made.code
  have stack' : (F.enterTables M.kernelPageTable).TableReady 767 stack.1 ⟨stack.2, fun _ => 0⟩ :=
    made.tableReady (Or.inr (Or.inl rfl)) made.stack
  have kernelStack' : (F.enterTables M.kernelPageTable).TableReady 1022 kernelStack.1
      ⟨kernelStack.2, fun _ => 0⟩ := made.tableReady (Or.inr (Or.inr rfl)) made.kernelStack
  have block : (F.enterTables M.kernelPageTable).block = F.block := Estate.enterTables_block
  have frame : (F.enterTables M.kernelPageTable).frame = F.frame := Estate.enterTables_frame
  have draft : (F.enterTables M.kernelPageTable).draft := by
    rw [Estate.enterTables_draft]
    exact made.draft
  generalize F.enterTables M.kernelPageTable = G at *
  have held : (Function.update w o G o).block .directory = some (m.pageDirectory, .pages 1) := by
    rw [own, block, made.directory]
  have finished := accounts.finish owner held (by rw [own]; exact draft)
    (by rw [own, entry _ (by decide), frame]; rfl) (by rw [own, entry _ (by decide)]; rfl)
    (fun i lower upper => by
      rw [own, entry _ (by omega), if_neg (by omega), if_neg (by omega), if_neg (by omega),
        if_neg (by omega), if_neg (by omega)])
  rw [own, Function.update_idem] at finished
  refine ⟨G.finish, finished, laid.finish, not_false, fun role which => ?_, code'.finish,
    stack'.finish, kernelStack'.finish⟩
  rw [Estate.finish_block, block]
  refine made.others role ?_ ?_ ?_ <;> rcases which with rfl | rfl | rfl <;> simp

theorem Accounts.ensures_newSpace (accounts : Accounts covered enough (M.spaceAsks spare) k w)
    (owner : o ≠ 0) (drawn : o < k.owners) (new : w o = Estate.new) :
    Command.Ensures (Excused M covered enough) k (newSpace o) fun r k' => ∃ E : Estate, ∃ m,
      Accounts covered enough spare k' (Function.update w o E) ∧ Steady o k k' ∧
        E.Laid none r.1 m ∧ ¬ E.draft ∧
        (∀ role, role = .process ∨ role = .temp ∨ role = .raw → E.block role = none) ∧
        m.pageTables = Function.update (Function.update (Function.update (fun _ => 0)
          0 r.2.1.1) 767 r.2.2.1.1) 1022 r.2.2.2.1 ∧
        E.TableReady 0 r.2.1.1 ⟨r.2.1.2, fun _ => 0⟩ ∧
        E.TableReady 767 r.2.2.1.1 ⟨r.2.2.1.2, fun _ => 0⟩ ∧
        E.TableReady 1022 r.2.2.2.1 ⟨r.2.2.2.2, fun _ => 0⟩ := by
  have own : ∀ G, (Function.update w o G) o = G := fun G => Function.update_self ..
  unfold newSpace
  refine accounts.ensures_beginSpace owner drawn new
    fun process directory k₃ E steady accounts₃ reaches begun => ?_
  -- three tables, each in a slot that is vacant
  refine Command.ensures_bind (accounts₃.ensures_newTable (m := ⟨directory, fun _ => 0⟩) owner
    (by rw [steady.calm.owners]; exact drawn) (by rw [own, begun.memory]) (fun role slot => ?_)
    (by decide)) ?_
  · rw [own]
    exact begun.others role (by rintro rfl; cases slot) (by rintro rfl; cases slot)
  rintro code k₄ ⟨_, ⟨frames₀, bytes₀, accounts₄⟩, reaches₀, steady₄⟩
  simp only [own, Function.update_idem] at accounts₄
  replace steady := steady.trans steady₄
  replace reaches := reaches.calm steady₄.calm
  refine Command.ensures_bind (accounts₄.ensures_newTable
    (m := ⟨directory, Function.update (fun _ => 0) 0 code.1⟩) owner
    (by rw [steady.calm.owners]; exact drawn) ?_ (fun role slot => ?_) (by decide)) ?_
  · rw [own, Estate.addTable_block, if_neg (by simp), if_neg (by simp), if_pos rfl]
  · have away : role ≠ .table 0 ∧ role ≠ .pageTable 0 ∧ role ≠ .memory ∧ role ≠ .directory := by
      refine ⟨?_, ?_, ?_, ?_⟩ <;> rintro rfl <;> simp [Role.slot] at slot
    rw [own, Estate.addTable_block, if_neg away.1, if_neg away.2.1, if_neg away.2.2.1]
    exact begun.others role away.2.2.1 away.2.2.2
  rintro stack k₅ ⟨_, ⟨frames₁, bytes₁, accounts₅⟩, reaches₁, steady₅⟩
  simp only [own, Function.update_idem] at accounts₅
  replace steady := steady.trans steady₅
  replace reaches := reaches.calm steady₅.calm
  replace reaches₀ := reaches₀.calm steady₅.calm
  refine Command.ensures_bind (accounts₅.ensures_newTable
    (m := ⟨directory, Function.update (Function.update (fun _ => 0) 0 code.1) 767 stack.1⟩) owner
    (by rw [steady.calm.owners]; exact drawn) ?_ (fun role slot => ?_) (by decide)) ?_
  · rw [own, Estate.addTable_block, if_neg (by simp), if_neg (by simp), if_pos rfl]
  · have away : role ≠ .table 0 ∧ role ≠ .pageTable 0 ∧ role ≠ .memory ∧ role ≠ .directory ∧
        role ≠ .table 767 ∧ role ≠ .pageTable 767 := by
      refine ⟨?_, ?_, ?_, ?_, ?_, ?_⟩ <;> rintro rfl <;> simp [Role.slot] at slot
    rw [own, Estate.addTable_block, if_neg away.2.2.2.2.1, if_neg away.2.2.2.2.2, if_neg away.2.2.1,
      Estate.addTable_block, if_neg away.1, if_neg away.2.1, if_neg away.2.2.1]
    exact begun.others role away.2.2.1 away.2.2.2.1
  rintro kernelStack k₆ ⟨_, ⟨frames₂, bytes₂, accounts₆⟩, reaches₂, steady₆⟩
  simp only [own, Function.update_idem] at accounts₆
  have made : Estate.Fresh (((E.addTable process ⟨directory, fun _ => 0⟩ 0 code.1 code.2 frames₀
      bytes₀).addTable process ⟨directory, Function.update (fun _ => 0) 0 code.1⟩ 767 stack.1
      stack.2 frames₁ bytes₁).addTable process ⟨directory, Function.update
      (Function.update (fun _ => 0) 0 code.1) 767 stack.1⟩ 1022 kernelStack.1 kernelStack.2
      frames₂ bytes₂) process ⟨directory, Function.update (Function.update
      (Function.update (fun _ => 0) 0 code.1) 767 stack.1) 1022 kernelStack.1⟩ code stack
      kernelStack := {
    memory := by simp [Estate.addTable_block]
    directory := by simp [Estate.addTable_block, begun.directory]
    tables := rfl
    code := by simp [Estate.addTable_block]
    stack := by simp [Estate.addTable_block]
    kernelStack := by simp [Estate.addTable_block]
    others := fun role notMemory notDirectory away => by
      have code := away 0 (by decide)
      have stack := away 767 (by decide)
      have kernelStack := away 1022 (by decide)
      simp [Estate.addTable_block, notMemory, code, stack, kernelStack,
        begun.others role notMemory notDirectory]
    draft := begun.draft }
  generalize Estate.addTable _ process _ 1022 _ _ _ _ = F at accounts₆ made
  clear accounts₅ accounts₄ accounts₃
  -- the tables are cleared and entered in the directory
  refine (accounts₆.ensures_enterTables owner made (reaches.calm steady₆.calm)
    (reaches₀.calm steady₆.calm) (reaches₁.calm steady₆.calm) reaches₂).mono ?_
  rintro _ k₇ ⟨rfl, steady₇, accounts₇⟩
  obtain ⟨E', finished, laid, final, others, code', stack', kernelStack'⟩ :=
    accounts₇.finish_space owner made
  exact ⟨E', _, finished, (steady.trans steady₆).trans steady₇, laid, final, others, made.tables,
    code', stack', kernelStack'⟩

end Loading

end Snfos.Kernel
