import Snfos.AddProcess

set_option autoImplicit false

/- `fork`'s copy of an address space: the loops over the parent's shadow, with what
has been copied so far. -/
namespace Snfos

open ByteMemory

namespace Estate

/-- Page `j` of slot `i` of `P` is absent, or copied into a block of its own in `E`.
`t` is `P`'s structure for the slot. -/
def CopiedPage (P E : Estate) (t : ProcessPageTable) (i j : Nat) : Prop :=
  (t.pages j = 0 ∧ E.block (.page i j) = none) ∨ ∃ j' c p q, P.PageAt i j j' c p ∧
    t.pages j ≠ 0 ∧ E.block (.page i j) = some (q, .pages 1) ∧
    E.word (.pageTable i) j % 256 = P.word (.pageTable i) j % 256 ∧
    ∀ offset, offset < 4096 → E.bytes (.page i j) 0 offset = P.bytes (.page i j') c offset

/-- Slot `i` of `P` is empty, or copied to `E`. -/
def CopiedSlot (P E : Estate) (m m' : ProcessMemory) (i : Nat) : Prop :=
  (m.pageTables i = 0 ∧ m'.pageTables i = 0) ∨ ∃ t, P.block (.table i) =
      some (m.pageTables i, .table t) ∧ m.pageTables i ≠ 0 ∧ m'.pageTables i ≠ 0 ∧
    E.word .directory i % 256 = P.word .directory i % 256 ∧
    ∀ j, j < 1024 → P.CopiedPage E t i j

section Congruence

variable {P E E' : Estate} {t : ProcessPageTable} {m m' m'' : ProcessMemory} {i j : Nat}

theorem CopiedPage.congr (copied : P.CopiedPage E t i j)
    (block : E'.block (.page i j) = E.block (.page i j))
    (bytes : E'.bytes (.page i j) = E.bytes (.page i j))
    (word : E'.word (.pageTable i) j = E.word (.pageTable i) j) : P.CopiedPage E' t i j := by
  unfold CopiedPage
  rw [block, bytes, word]
  exact copied

theorem CopiedSlot.congr (copied : P.CopiedSlot E m m' i)
    (shadow : m''.pageTables i = m'.pageTables i)
    (same : m'.pageTables i ≠ 0 → E'.word .directory i = E.word .directory i ∧
      E'.word (.pageTable i) = E.word (.pageTable i) ∧
      ∀ j, E'.block (.page i j) = E.block (.page i j) ∧ E'.bytes (.page i j) = E.bytes (.page i j)) :
    P.CopiedSlot E' m m'' i := by
  rcases copied with ⟨zero, zero'⟩ | ⟨t, held, nonzero, nonzero', entry, pages⟩
  · exact Or.inl ⟨zero, shadow.trans zero'⟩
  · obtain ⟨directory, word, blocks⟩ := same nonzero'
    refine Or.inr ⟨t, held, nonzero, by rwa [shadow], by rw [directory, entry], fun j inside => ?_⟩
    exact (pages j inside).congr (blocks j).1 (blocks j).2 (congrFun word j)

end Congruence

section Writing

variable {E : Estate} {i j p q count table page value : Nat} {t : ProcessPageTable}
  {frames : Nat → Nat} {bytes : Nat → Memory} {role role' : Role} {body : Body}
  {change : Memory → Memory}

/-- Bytes written to pages after they were placed could have been placed there. -/
theorem edit_placed : ((E.place role p count frames bytes).put role' q body).edit role i change =
    (E.place role p count frames (Function.update bytes i (change (bytes i)))).put role' q body := by
  unfold place put edit
  simp

end Writing

end Estate

namespace Machine

variable (M : Machine) (rest : M.Budget)

/-- The copy of table `t` from page `j` on. -/
@[irreducible] def pagesAsks (t : ProcessPageTable) (j : Nat) : M.Budget :=
  (List.range' j (Kernel.maxPageTableEntries - j)).foldr
    (fun j rest => if t.pages j = 0 then rest else M.pageAsks rest) rest

/-- The copy of slot `i` of `P`. -/
@[irreducible] def slotAsks (P : Estate) (m : ProcessMemory) (i : Nat) : M.Budget :=
  if m.pageTables i = 0 then rest
  else M.tableAsks <| match P.block (.table i) with
    | some (_, .table t) => M.pagesAsks rest t 0
    | _ => rest

/-- The copy of `P` from slot `i` on. -/
@[irreducible] def slotsAsks (P : Estate) (m : ProcessMemory) (i : Nat) : M.Budget :=
  (List.range' i (Kernel.maxPageDirectoryEntries - i)).foldr
    (fun i rest => M.slotAsks rest P m i) rest

def forkAsks (P : Estate) (m : ProcessMemory) : M.Budget :=
  M.tableAsks (M.slotsAsks (M.linkAsks rest) P m 0)

variable {P : Estate} {t : ProcessPageTable} {m : ProcessMemory} {i j : Nat}

theorem pagesAsks_step (inside : j < Kernel.maxPageTableEntries) : M.pagesAsks rest t j =
    if t.pages j = 0 then M.pagesAsks rest t (j + 1) else M.pageAsks (M.pagesAsks rest t (j + 1)) := by
  unfold pagesAsks
  rw [← Nat.sub_add_cancel (Nat.sub_pos_of_lt inside), List.range'_succ, List.foldr_cons, Nat.sub_sub]

theorem pagesAsks_end : M.pagesAsks rest t Kernel.maxPageTableEntries = rest := by
  simp [pagesAsks]

theorem slotsAsks_step (inside : i < Kernel.maxPageDirectoryEntries) :
    M.slotsAsks rest P m i = M.slotAsks (M.slotsAsks rest P m (i + 1)) P m i := by
  unfold slotsAsks
  rw [← Nat.sub_add_cancel (Nat.sub_pos_of_lt inside), List.range'_succ, List.foldr_cons, Nat.sub_sub]

theorem slotsAsks_end : M.slotsAsks rest P m Kernel.maxPageDirectoryEntries = rest := by
  simp [slotsAsks]

end Machine

namespace Kernel

variable {M : Machine}

section Copying

variable {covered enough : Prop} {spare : M.Budget} {k : Kernel M} {w : Estates} {o o' p p' i j : Nat}
  {E : Estate} {m m' : ProcessMemory} {t t' : ProcessPageTable} {table newTable : Nat}

theorem and_255 (x : Nat) : x &&& 0xFF = x % 256 := Nat.and_two_pow_sub_one_eq_mod x 8

/-- The child's estate after one page, given what it was before the loop over slot `i`. -/
structure Copying (P E₀ E : Estate) (p : Nat) (m : ProcessMemory) (i j table newTable : Nat)
    (t : ProcessPageTable) (pageTable : Nat) : Prop where
  laid : E.Laid (some i) p m
  ready : ∃ t', E.TableReady i newTable t' ∧ t'.pageTable = pageTable ∧
    ∀ j', j ≤ j' → t'.pages j' = 0
  done : ∀ j', j' < j → P.CopiedPage E t i j'
  draft : E.draft = E₀.draft
  block : ∀ role, role.slot ≠ some i → E.block role = E₀.block role
  frame : ∀ role, (∀ j, role ≠ .page i j) → E.frame role = E₀.frame role
  bytes : ∀ role, role.slot ≠ some i → E.bytes role = E₀.bytes role

/-- A page that was absent is copied. -/
theorem Copying.step {P E₀ : Estate} {page pageTable value : Nat} {frames : Nat → Nat}
    {bytes : Nat → Memory}
    (copying : Copying P E₀ E p m i j table newTable t pageTable) (slot : i < 1024)
    (inside : j < 1024) (ready : E.TableReady i newTable t') (same : t'.pageTable = pageTable)
    (clear : ∀ j', j + 1 ≤ j' → t'.pages j' = 0) (absent : E.block (.page i j) = none)
    (leads : Leads i (frames 0) value) (bound : value < 2 ^ 32)
    (copied : P.CopiedPage (E.addPage i j newTable t' page frames bytes value) t i j) :
    Copying P E₀ (E.addPage i j newTable t' page frames bytes value) p m i (j + 1) table newTable t
      pageTable where
  laid := copying.laid.addPage slot bound
  ready := ⟨_, ready.addPage inside absent leads bound, same, fun j' later => by
    dsimp only
    rw [Function.update_of_ne (by omega), clear j' later]⟩
  done := fun j' before => by
    by_cases here : j' = j
    · rw [here]
      exact copied
    · refine (copying.done j' (by omega)).congr ?_ ?_ ?_
      · rw [Estate.addPage_block, if_neg (by simp), if_neg (by simpa using here)]
      · rw [Estate.addPage_bytes (by simpa using here) (by simp)]
      · rw [Estate.addPage_word bound (by simp), if_neg fun both => here both.2]
  draft := copying.draft
  block := fun role away => by
    rw [Estate.addPage_block, if_neg (by rintro rfl; exact away rfl),
      if_neg (by rintro rfl; exact away rfl), copying.block role away]
  frame := fun role away => by
    rw [Estate.addPage_frame, if_neg (away j), copying.frame role away]
  bytes := fun role away => by
    rw [Estate.addPage_bytes (by rintro rfl; exact away rfl) (by rintro rfl; exact away rfl),
      copying.bytes role away]

theorem Accounts.ensures_forkPage {E₀ : Estate} {pageTable : Nat}
    (accounts : Accounts covered enough (M.pagesAsks spare t j) k (Function.update w o E))
    (owner : o ≠ 0) (drawn : o < k.owners) (owner' : o' ≠ 0) (apart : o' ≠ o)
    (parent : (w o').TableReady i table t) (slot : i < 1024) (inside : j < 1024)
    (copying : Copying (w o') E₀ E p m i j table newTable t pageTable) :
    Command.Ensures (Excused M covered enough) k (forkPage table newTable pageTable i j o)
      fun _ k' => Steady o k k' ∧ ∃ E', Accounts covered enough (M.pagesAsks spare t (j + 1)) k'
          (Function.update w o E') ∧
        Copying (w o') E₀ E' p m i (j + 1) table newTable t pageTable := by
  have own : ∀ G, (Function.update w o G) o = G := fun G => Function.update_self ..
  have theirs : ∀ G, (Function.update w o G) o' = w o' := fun G => Function.update_of_ne apart ..
  obtain ⟨t', ready, rfl, clear⟩ := copying.ready
  have absent : E.block (.page i j) = none := by
    have none := accounts.absent owner (by rw [own]; exact ready.pages j inside)
      (clear j (Nat.le_refl j))
    rw [own] at none
    exact none.1
  rw [M.pagesAsks_step spare inside] at accounts
  unfold forkPage
  refine Command.ensures_bind (accounts.ensures_pageOf owner' (by rw [theirs]; exact parent.table)
    inside) ?_
  rintro _ k ⟨rfl, rfl⟩
  by_cases zero : t.pages j = 0
  · rw [if_neg (not_not.mpr zero)]
    rw [if_pos zero] at accounts
    refine Command.ensures_pure _ ⟨.refl k, E, accounts, { copying with
      ready := ⟨t', ready, rfl, fun j' later => clear j' (by omega)⟩
      done := fun j' before => ?_ }⟩
    by_cases here : j' = j
    · subst here
      exact Or.inl ⟨zero, absent⟩
    · exact copying.done j' (by omega)
  rw [if_pos zero]
  rw [if_neg zero] at accounts
  rcases parent.pages j inside with ⟨listed, _⟩ | ⟨j', c, q, place, pointer, leads⟩
  · exact absurd listed zero
  obtain ⟨count, source, within, _⟩ := place.block
  refine Command.ensures_bind (accounts.ensures_mallocPages drawn (fun zero => absurd zero owner)
    (fun _ => by rw [own]; exact absent) (Nat.succ_pos 0) (by simp)) ?_
  rintro page k₁ ⟨nonzero, aligned, ⟨frames, bytes, accounts₁⟩, steady₁, fresh⟩
  have reaches := accounts₁.reaches owner aligned fresh
  rw [own, Function.update_idem] at accounts₁
  refine Command.ensures_bind (accounts₁.ensures_setPage (i := i) (t := t') owner ?_ inside) ?_
  · rw [own, Estate.place_block, if_neg (by simp)]
    exact ready.table
  rintro _ k₂ ⟨accounts₂, steady₂⟩
  rw [own, Function.update_idem] at accounts₂
  have reaches₂ := reaches.calm steady₂.calm
  have placed : (Function.update w o ((E.place (.page i j) page 1 frames bytes).put (.table i)
      newTable (.table { t' with pages := Function.update t'.pages j page })) o).block (.page i j) =
      some (page, .pages 1) := by
    rw [own, Estate.put_block, if_neg (by simp), Estate.place_block, if_pos rfl]
  have theirs₂ : (Function.update w o ((E.place (.page i j) page 1 frames bytes).put (.table i)
      newTable (.table { t' with pages := Function.update t'.pages j page })) o').block
      (.page i j') = some (q, .pages count) := by
    rw [theirs]
    exact source
  have write := accounts₂.ensures_copyPage (n := 4096) owner placed (Nat.succ_pos 0)
    owner' theirs₂ within (by simp) (by simp)
  rw [Nat.mul_zero, Nat.add_zero, ← pointer] at write
  apply Command.ensures_bind write
  rintro _ k₃ ⟨accounts₃, steady₃⟩
  rw [own, theirs, Function.update_idem, Estate.edit_placed] at accounts₃
  generalize copied : Function.update bytes 0 _ = bytes' at accounts₃
  have same : ∀ offset, offset < 4096 →
      bytes' 0 offset = (w o').bytes (.page i j') c offset := by
    intro offset small
    rw [← copied, Function.update_self]
    simp [copy, small]
  clear copied write placed accounts₂ accounts₁
  have placed : ((E.place (.page i j) page 1 frames bytes').put (.table i) newTable
      (.table { t' with pages := Function.update t'.pages j page })).block (.page i j) =
      some (page, .pages 1) := by
    rw [Estate.put_block, if_neg (by simp), Estate.place_block, if_pos rfl]
  refine Command.ensures_bind (accounts₃.ensures_reached_first owner (by rw [own]; exact placed)
    (reaches₂.calm steady₃.calm) (Nat.succ_pos 0)) ?_
  rintro physical k₃ ⟨rfl, frame⟩
  have low := accounts₃.frame_lt owner (by rw [own]; exact placed) (Nat.succ_pos 0)
  rw [own, Estate.put_frame, Estate.place_frame, if_pos rfl] at frame low
  refine Command.ensures_bind (accounts₃.ensures_pageTableOf owner'
    (by rw [theirs]; exact parent.table)) ?_
  rintro _ k₃ ⟨rfl, rfl⟩
  refine Command.ensures_bind (accounts₃.ensures_loadEntry (.pageTable i) owner'
    (by rw [theirs]; exact parent.pageTable) inside (by simp)) ?_
  rintro _ k₃ ⟨rfl, rfl⟩
  have value : physical ||| (w o').word (.pageTable i) j &&& 0xFF =
      4096 * frames 0 + (w o').word (.pageTable i) j % 256 := by
    rw [and_255, frame, or_flags _ (by omega)]
  rw [theirs, value]
  have held : ((E.place (.page i j) page 1 frames bytes').put (.table i) newTable
      (.table { t' with pages := Function.update t'.pages j page })).block (.pageTable i) =
      some (t'.pageTable, .pages 1) := by
    rw [Estate.put_block, if_neg (by simp), Estate.place_block, if_neg (by simp)]
    exact ready.pageTable
  refine (accounts₃.ensures_storeEntry (.pageTable i) owner (by rw [own]; exact held) inside
    (by simp)).mono ?_
  rintro _ k₄ ⟨accounts₄, steady₄⟩
  rw [own, Function.update_idem] at accounts₄
  have bound : 4096 * frames 0 + (w o').word (.pageTable i) j % 256 < 2 ^ 32 := by omega
  have flags : Leads i (frames 0) (4096 * frames 0 + (w o').word (.pageTable i) j % 256) :=
    leads.copy (frames 0)
  have listed : (w o').CopiedPage (E.addPage i j newTable t' page frames bytes'
      (4096 * frames 0 + (w o').word (.pageTable i) j % 256)) t i j := by
    refine Or.inr ⟨j', c, q, page, place, zero, ?_, ?_, fun offset small => ?_⟩
    · rw [Estate.addPage_block, if_neg (by simp), if_pos rfl]
    · rw [Estate.addPage_word bound (by simp), if_pos ⟨rfl, rfl⟩]
      omega
    · rw [Estate.addPage_bytes_page]
      exact same offset small
  exact ⟨((steady₁.trans steady₂).trans steady₃).trans steady₄, _, accounts₄,
    copying.step slot inside ready rfl (fun j' later => clear j' (by omega)) absent flags bound listed⟩

/-- The child's estate once the slots before `i` are copied. -/
structure Cloning (P : Estate) (m : ProcessMemory) (E : Estate) (p directory : Nat)
    (m' : ProcessMemory) (i : Nat) : Prop where
  laid : E.Laid none p m'
  directory : m'.pageDirectory = directory
  draft : E.draft
  clear : ∀ i', i ≤ i' → m'.pageTables i' = 0
  entries : ∀ i', i' < 1024 → m'.pageTables i' = 0 → E.word .directory i' = 0
  done : ∀ i', i' < i → P.CopiedSlot E m m' i'
  others : E.block .process = none ∧ E.block .temp = none ∧ E.block .raw = none

theorem word_of_bytes {E E' : Estate} {role : Role} (same : E'.bytes role = E.bytes role) :
    E'.word role = E.word role := by
  unfold Estate.word
  rw [same]

/-- A slot whose pages are copied is entered in the child's directory. -/
theorem Cloning.step {P E E₁ E₂ : Estate} {directory pageTable value : Nat}
    (cloning : Cloning P m E p directory m' i) (inside : i < 1024) (nonzero : newTable ≠ 0)
    (held : P.block (.table i) = some (m.pageTables i, .table t)) (nonzero' : m.pageTables i ≠ 0)
    (block : ∀ role, role.slot ≠ some i → role ≠ .memory → E₁.block role = E.block role)
    (bytes : ∀ role, role ≠ .pageTable i → E₁.bytes role = E.bytes role)
    (draft : E₁.draft = E.draft)
    (copying : Copying P E₁ E₂ p { m' with pageTables := Function.update m'.pageTables i newTable }
      i maxPageTableEntries table newTable t pageTable)
    (bound : value < 2 ^ 32) (flags : value % 256 = P.word .directory i % 256)
    (laid : (E₂.setWord .directory i value).Laid none p
      { m' with pageTables := Function.update m'.pageTables i newTable }) :
    Cloning P m (E₂.setWord .directory i value) p directory
      { m' with pageTables := Function.update m'.pageTables i newTable } (i + 1) where
  laid := laid
  directory := cloning.directory
  draft := by
    rw [Estate.setWord_draft, copying.draft, draft]
    exact cloning.draft
  clear := fun i' later => by
    dsimp only
    rw [Function.update_of_ne (by omega), cloning.clear i' (by omega)]
  entries := fun i' inside' zero => by
    have other : i' ≠ i := by
      intro same
      subst same
      dsimp only at zero
      rw [Function.update_self] at zero
      exact nonzero zero
    dsimp only at zero
    rw [Function.update_of_ne other] at zero
    rw [Estate.setWord_word bound, if_neg fun both => other both.2,
      word_of_bytes (copying.bytes _ (by simp [Role.slot])), word_of_bytes (bytes _ (by simp))]
    exact cloning.entries i' inside' zero
  done := fun i' before => by
    have words : ∀ i', (E₂.setWord .directory i value).word (.pageTable i') = E₂.word (.pageTable i') :=
      fun i' => Estate.edit_word (Or.inl (by simp))
    have pages : ∀ i' j, (E₂.setWord .directory i value).bytes (.page i' j) = E₂.bytes (.page i' j) := by
      intro i' j
      unfold Estate.setWord Estate.edit
      dsimp only
      rw [Function.update_of_ne (by simp)]
    by_cases here : i' = i
    · subst here
      refine Or.inr ⟨t, held, nonzero', by simpa using nonzero, ?_, ?_⟩
      · rw [Estate.setWord_word bound, if_pos ⟨rfl, rfl⟩, flags]
      · intro j inside'
        exact (copying.done j inside').congr rfl (pages _ j) (congrFun (words _) j)
    · refine (cloning.done i' (by omega)).congr (Function.update_of_ne here ..) fun _ => ⟨?_, ?_, ?_⟩
      · rw [Estate.setWord_word bound, if_neg fun both => here both.2,
          word_of_bytes (copying.bytes _ (by simp [Role.slot])), word_of_bytes (bytes _ (by simp))]
      · rw [words, word_of_bytes (copying.bytes _ (by simpa [Role.slot] using here)),
          word_of_bytes (bytes _ (by simpa using here))]
      · intro j
        rw [pages, Estate.setWord_block, copying.block _ (by simpa [Role.slot] using here),
          block _ (by simpa [Role.slot] using here) (by simp),
          copying.bytes _ (by simpa [Role.slot] using here), bytes _ (by simp)]
        exact ⟨rfl, rfl⟩
  others := by
    have same : ∀ role, role.slot = none → role ≠ .memory →
        (E₂.setWord .directory i value).block role = E.block role := by
      intro role slot notMemory
      rw [Estate.setWord_block, copying.block role (by simp [slot]),
        block role (by simp [slot]) notMemory]
    rw [same _ rfl (by simp), same _ rfl (by simp), same _ rfl (by simp)]
    exact cloning.others

theorem Accounts.ensures_forkPages {E₀ : Estate} {pageTable : Nat}
    (accounts : Accounts covered enough (M.pagesAsks spare t 0) k (Function.update w o E))
    (owner : o ≠ 0) (drawn : o < k.owners) (owner' : o' ≠ 0) (apart : o' ≠ o)
    (parent : (w o').TableReady i table t) (slot : i < 1024)
    (copying : Copying (w o') E₀ E p m i 0 table newTable t pageTable) :
    Command.Ensures (Excused M covered enough) k (forkPages table newTable pageTable i o)
      fun _ k' => Steady o k k' ∧ ∃ E', Accounts covered enough spare k' (Function.update w o E') ∧
        Copying (w o') E₀ E' p m i maxPageTableEntries table newTable t pageTable := by
  have size : maxPageTableEntries = 1024 := rfl
  have last : M.pagesAsks spare t maxPageTableEntries = spare := M.pagesAsks_end spare
  unfold forkPages
  generalize maxPageTableEntries = n at *
  refine Command.ensures_bind (Command.ensures_for (fun j k' => Steady o k k' ∧ ∃ E',
    Accounts covered enough (M.pagesAsks spare t j) k' (Function.update w o E') ∧
      Copying (w o') E₀ E' p m i j table newTable t pageTable) ?_ ?_) ?_
  · exact ⟨.refl k, E, accounts, copying⟩
  · rintro j k₁ inside ⟨steady₁, E₁, accounts₁, copying₁⟩
    refine Command.ensures_bind (accounts₁.ensures_forkPage owner
      (by rw [steady₁.calm.owners]; exact drawn) owner' apart parent slot (by omega) copying₁) ?_
    rintro _ k₂ ⟨steady₂, E₂, accounts₂, copying₂⟩
    exact Command.ensures_pure _ ⟨steady₁.trans steady₂, E₂, accounts₂, copying₂⟩
  · rintro _ k₁ ⟨steady₁, E₁, accounts₁, copying₁⟩
    rw [last] at accounts₁
    exact Command.ensures_pure _ ⟨steady₁, E₁, accounts₁, copying₁⟩

attribute [local irreducible] forkPages in
theorem Accounts.ensures_forkTable {directory memory : Nat}
    (accounts : Accounts covered enough (M.slotsAsks spare (w o') m i) k (Function.update w o E))
    (owner : o ≠ 0) (drawn : o < k.owners) (owner' : o' ≠ 0) (apart : o' ≠ o)
    (parent : (w o').Ready memory m) (inside : i < 1024)
    (cloning : Cloning (w o') m E p directory m' i) :
    Command.Ensures (Excused M covered enough) k (forkTable memory p directory i o)
      fun _ k' => Steady o k k' ∧ ∃ E' m'',
        Accounts covered enough (M.slotsAsks spare (w o') m (i + 1)) k' (Function.update w o E') ∧
        Cloning (w o') m E' p directory m'' (i + 1) := by
  have own : ∀ G, (Function.update w o G) o = G := fun G => Function.update_self ..
  have theirs : ∀ G, (Function.update w o G) o' = w o' := fun G => Function.update_of_ne apart ..
  unfold forkTable
  refine Command.ensures_bind (accounts.ensures_tableOf owner'
    (by rw [theirs]; exact parent.laid.memory) inside) ?_
  rintro _ k ⟨rfl, rfl⟩
  rw [M.slotsAsks_step spare inside] at accounts
  unfold Machine.slotAsks at accounts
  by_cases zero : m.pageTables i = 0
  · rw [if_neg (not_not.mpr zero)]
    rw [if_pos zero] at accounts
    refine Command.ensures_pure _ ⟨.refl k, E, m', accounts, { cloning with
      clear := fun i' later => cloning.clear i' (by omega)
      done := fun i' before => ?_ }⟩
    by_cases here : i' = i
    · subst here
      exact Or.inl ⟨zero, cloning.clear i' (Nat.le_refl _)⟩
    · exact cloning.done i' (by omega)
  rw [if_pos zero]
  rcases parent.laid.slotReady i inside with ⟨absent, _⟩ | ⟨slot, ⟨t, ready⟩, leads⟩
  · exact absurd absent zero
  rw [if_neg zero, ready.table] at accounts
  have vacant : E.Vacant i := by
    have none := accounts.vacant owner (by rw [own]; exact cloning.laid) inside
      (cloning.clear i (Nat.le_refl i))
    rwa [own] at none
  have cleared := accounts.ensures_clearedTable owner drawn cloning.laid vacant inside
  apply Command.ensures_bind cleared
  rintro ⟨newTable, pageTable⟩ k₁ ⟨nonzero, reaches, steady₁, E₁, accounts₁, laid₁, table₁, draft₁,
    block₁, frame₁⟩
  dsimp only at nonzero reaches laid₁ table₁ ⊢
  have begun : Copying (w o') E₁ E₁ p { m' with
      pageTables := Function.update m'.pageTables i newTable } i 0 (m.pageTables i) newTable t
      pageTable := {
    laid := laid₁
    ready := ⟨_, table₁, rfl, fun _ _ => rfl⟩
    done := fun j before => absurd before (Nat.not_lt_zero j)
    draft := rfl
    block := fun _ _ => rfl
    frame := fun _ _ => rfl
    bytes := fun _ _ => rfl }
  refine Command.ensures_bind (accounts₁.ensures_forkPages owner
    (by rw [steady₁.calm.owners]; exact drawn) owner' apart ready inside begun) ?_
  rintro _ k₂ ⟨steady₂, E₂, accounts₂, copying⟩
  obtain ⟨t', ready', same, _⟩ := copying.ready
  have held : (Function.update w o E₂ o).block (.pageTable i) = some (pageTable, .pages 1) := by
    rw [own, ← same]
    exact ready'.pageTable
  refine Command.ensures_bind (accounts₂.ensures_reached_first owner held
    (reaches.calm steady₂.calm) (Nat.succ_pos 0)) ?_
  rintro physical k₂ ⟨rfl, frame⟩
  have low := accounts₂.frame_lt owner held (Nat.succ_pos 0)
  rw [own] at frame low
  refine Command.ensures_bind (accounts₂.ensures_pageDirectoryOf owner'
    (by rw [theirs]; exact parent.laid.memory)) ?_
  rintro _ k₂ ⟨rfl, rfl⟩
  refine Command.ensures_bind (accounts₂.ensures_loadEntry .directory owner'
    (by rw [theirs]; exact parent.laid.directory) inside fun _ => Or.inr ?_) ?_
  · unfold ProcessSlot at slot
    omega
  rintro _ k₂ ⟨rfl, rfl⟩
  rw [theirs, and_255, frame, or_flags _ (by omega)]
  have bound : 4096 * E₂.frame (.pageTable i) 0 + (w o').word .directory i % 256 < 2 ^ 32 := by
    omega
  have flags : Leads i (E₂.frame (.pageTable i) 0)
      (4096 * E₂.frame (.pageTable i) 0 + (w o').word .directory i % 256) := leads.copy _
  have directory' : (Function.update w o E₂ o).block .directory = some (directory, .pages 1) := by
    rw [own, copying.laid.directory]
    exact congrArg (fun d => some (d, Body.pages 1)) cloning.directory
  refine (accounts₂.ensures_storeEntry .directory owner directory' inside fun _ => Or.inl ?_).mono ?_
  · rw [own, copying.draft, draft₁]
    exact cloning.draft
  rintro _ k₃ ⟨accounts₃, steady₃⟩
  rw [own, Function.update_idem] at accounts₃
  refine ⟨(steady₁.trans steady₂).trans steady₃, _, _, accounts₃,
    cloning.step inside nonzero ready.table zero block₁ (fun role other => (frame₁ role other).2)
      draft₁ copying bound (by omega) ?_⟩
  exact copying.laid.enter inside slot (by simpa using ready') flags bound

theorem Accounts.ensures_forkTables {directory memory : Nat}
    (accounts : Accounts covered enough (M.slotsAsks spare (w o') m 0) k (Function.update w o E))
    (owner : o ≠ 0) (drawn : o < k.owners) (owner' : o' ≠ 0) (apart : o' ≠ o)
    (parent : (w o').Ready memory m) (cloning : Cloning (w o') m E p directory m' 0) :
    Command.Ensures (Excused M covered enough) k (forkTables memory p directory o)
      fun _ k' => Steady o k k' ∧ ∃ E' m'', Accounts covered enough spare k' (Function.update w o E') ∧
        Cloning (w o') m E' p directory m'' 1024 := by
  have size : maxPageDirectoryEntries = 1024 := rfl
  have last : M.slotsAsks spare (w o') m maxPageDirectoryEntries = spare := M.slotsAsks_end spare
  unfold forkTables
  rw [← size]
  generalize maxPageDirectoryEntries = n at *
  refine Command.ensures_bind (Command.ensures_for (fun i k' => Steady o k k' ∧ ∃ E' m'',
    Accounts covered enough (M.slotsAsks spare (w o') m i) k' (Function.update w o E') ∧
      Cloning (w o') m E' p directory m'' i) ?_ ?_) ?_
  · exact ⟨.refl k, E, m', accounts, cloning⟩
  · rintro i k₁ inside ⟨steady₁, E₁, m₁, accounts₁, cloning₁⟩
    refine Command.ensures_bind (accounts₁.ensures_forkTable owner
      (by rw [steady₁.calm.owners]; exact drawn) owner' apart parent (by omega) cloning₁) ?_
    rintro _ k₂ ⟨steady₂, E₂, m₂, accounts₂, cloning₂⟩
    exact Command.ensures_pure _ ⟨steady₁.trans steady₂, E₂, m₂, accounts₂, cloning₂⟩
  · rintro _ k₁ ⟨steady₁, E₁, m₁, accounts₁, cloning₁⟩
    rw [last] at accounts₁
    exact Command.ensures_pure _ ⟨steady₁, E₁, m₁, accounts₁, cloning₁⟩

end Copying

/-- The address space at `p` of `E` is a copy of that of `P`. -/
structure Cloned (P : Estate) (m : ProcessMemory) (E : Estate) (p : Nat) (m' : ProcessMemory) :
    Prop where
  ready : E.Ready p m'
  copied : ∀ i, i < 1024 → P.CopiedSlot E m m' i

section Entering

variable {P E : Estate} {m m' : ProcessMemory} {p i value : Nat}

/-- Entries of the kernel's do not matter to the shadow. -/
theorem copied_enter (i value : Nat) (laid : E.Laid none p m') (copied : ∀ i, i < 1024 → P.CopiedSlot E m m' i)
    (kernel : i = 768 ∨ i = 1023) (bound : value < 2 ^ 32) :
    (E.setWord .directory i value).Laid none p m' ∧
      ∀ i', i' < 1024 → P.CopiedSlot (E.setWord .directory i value) m m' i' := by
  have words : ∀ i', (E.setWord .directory i value).word (.pageTable i') = E.word (.pageTable i') :=
    fun i' => Estate.edit_word (Or.inl (by simp))
  have outside : ∀ i', m'.pageTables i' ≠ 0 → i' < 1024 → i' ≠ i := by
    intro i' listed inside same
    rcases laid.slotReady i' inside with ⟨absent, _⟩ | ⟨slot, _⟩
    · exact listed absent
    · unfold ProcessSlot at slot
      omega
  have entry : ∀ i', i' ≠ i → (E.setWord .directory i value).word .directory i' =
      E.word .directory i' := by
    intro i' other
    rw [Estate.setWord_word bound, if_neg fun both => other both.2]
  refine ⟨⟨laid.memory, laid.directory, fun i' inside _ => ?_, laid.beyond⟩, fun i' inside => ?_⟩
  · by_cases here : i' = i
    · subst here
      rcases laid.slotReady i' inside with ⟨absent, vacant, _⟩ | ⟨slot, _⟩
      · refine Or.inl ⟨absent, vacant, fun slot => ?_⟩
        unfold ProcessSlot at slot
        omega
      · unfold ProcessSlot at slot
        omega
    · exact (laid.slotReady i' inside).congr (fun _ _ => ⟨rfl, rfl⟩) (words i') (entry i' here) rfl
  · refine (copied i' inside).congr rfl fun listed => ⟨?_, words i', fun j => ⟨rfl, ?_⟩⟩
    · exact entry i' (outside i' listed inside)
    · unfold Estate.setWord Estate.edit
      dsimp only
      rw [Function.update_of_ne (by simp)]

end Entering

section Children

variable {covered enough : Prop} {spare : M.Budget} {k : Kernel M} {w : Estates} {o o' : Nat}
  {m : ProcessMemory} {pr : Process}

attribute [local irreducible] forkTables in
theorem Accounts.ensures_forkMemory
    (accounts : Accounts covered enough (M.tableAsks (M.slotsAsks spare (w o') m 0)) k w)
    (owner : o ≠ 0) (drawn : o < k.owners) (new : w o = Estate.new) (owner' : o' ≠ 0) (apart : o' ≠ o)
    (current : (w o').block .process = some (k.current, .process pr))
    (parent : (w o').Ready pr.processMemory m) :
    Command.Ensures (Excused M covered enough) k (forkMemory o) fun p k' => Steady o k k' ∧
      ∃ E m', Accounts covered enough spare k' (Function.update w o E) ∧ Cloned (w o') m E p m' ∧
        E.block .process = none := by
  have own : ∀ G, (Function.update w o G) o = G := fun G => Function.update_self ..
  have theirs : ∀ G, (Function.update w o G) o' = w o' := fun G => Function.update_of_ne apart ..
  have low := M.kernelPageTable_used.1
  unfold forkMemory
  refine accounts.ensures_beginSpace owner drawn new
    fun memory directory k₃ E steady₃ accounts₃ reaches fresh => ?_
  refine Command.ensures_bind (accounts₃.ensures_zeroPage .directory owner
    (by rw [own]; exact fresh.directory) (fun _ => by rw [own]; exact fresh.draft)) ?_
  rintro _ k₄ ⟨accounts₄, steady₄⟩
  rw [own, Function.update_idem] at accounts₄
  have steady := steady₃.trans steady₄
  replace reaches := reaches.calm steady₄.calm
  apply Command.ensures_get_bind
  refine Command.ensures_bind (accounts₄.ensures_processAt owner'
    (by rw [theirs, steady.calm.current]; exact current) (by decide)) ?_
  rintro _ k₄ ⟨rfl, rfl⟩
  -- the child has no slot yet
  have begun : Cloning (w o') m (E.zero .directory) memory directory ⟨directory, fun _ => 0⟩ 0 := {
    laid := {
      memory := fresh.memory
      directory := fresh.directory
      slots := fun i inside _ => Or.inl ⟨rfl, fun role slot => fresh.others role
        (by rintro rfl; cases slot) (by rintro rfl; cases slot), fun _ => by
          rw [Estate.zero_word inside, if_pos rfl]⟩
      beyond := fun i _ role slot => fresh.others role (by rintro rfl; cases slot)
        (by rintro rfl; cases slot) }
    directory := rfl
    draft := fresh.draft
    clear := fun _ _ => rfl
    entries := fun i inside _ => by rw [Estate.zero_word inside, if_pos rfl]
    done := fun i before => absurd before (Nat.not_lt_zero i)
    others := ⟨fresh.others _ (by simp) (by simp), fresh.others _ (by simp) (by simp),
      fresh.others _ (by simp) (by simp)⟩ }
  refine Command.ensures_bind (accounts₄.ensures_forkTables owner
    (by rw [steady.calm.owners]; exact drawn) owner' apart parent begun) ?_
  rintro _ k₅ ⟨steady₅, F, m', accounts₅, cloning⟩
  have place : F.block .directory = some (directory, .pages 1) := by
    rw [cloning.laid.directory, cloning.directory]
  -- the entries of the kernel's
  refine Command.ensures_bind (accounts₅.ensures_enterBlock .directory .directory owner
    (by rw [own]; exact place) (by decide) (fun _ => Or.inl (by rw [own]; exact cloning.draft))
    (by rw [own]; exact place) (reaches.calm steady₅.calm) (by decide)) ?_
  rintro _ k₆ ⟨accounts₆, steady₆⟩
  have frame := accounts₅.frame_lt owner (by rw [own]; exact place) (Nat.succ_pos 0)
  rw [own] at frame
  rw [own, Function.update_idem] at accounts₆
  refine Command.ensures_bind (accounts₆.ensures_storeEntry .directory owner
    (by rw [own]; exact place) (by decide) (fun _ => Or.inl (by rw [own]; exact cloning.draft))) ?_
  rintro _ k₇ ⟨accounts₇, steady₇⟩
  rw [own, Function.update_idem, or_flags _ (by decide)] at accounts₇
  have first := copied_enter 1023 (4096 * F.frame .directory 0 + 3) cloning.laid cloning.done
    (Or.inr rfl) (by omega)
  have second := copied_enter 768 (4096 * M.kernelPageTable + 3) first.1 first.2
    (Or.inl rfl) (by omega)
  have entry : ∀ i, i ≠ 768 → i ≠ 1023 → ((F.setWord .directory 1023
      (4096 * F.frame .directory 0 + 3)).setWord .directory 768 (4096 * M.kernelPageTable + 3)).word
      .directory i = F.word .directory i := by
    intro i notShared notSelf
    rw [Estate.setWord_word (by omega), if_neg fun both => notShared both.2,
      Estate.setWord_word (by omega), if_neg fun both => notSelf both.2]
  have place₇ : (Function.update w o ((F.setWord .directory 1023 (4096 * F.frame .directory 0 + 3)).setWord
      .directory 768 (4096 * M.kernelPageTable + 3)) o).block .directory = some (directory, .pages 1) := by
    rw [own]
    exact place
  have finished := accounts₇.finish owner place₇ (by rw [own]; exact cloning.draft)
    (by rw [own, Estate.setWord_word (by omega), if_neg (by simp), Estate.setWord_word (by omega),
      if_pos ⟨rfl, rfl⟩]; rfl)
    (by rw [own, Estate.setWord_word (by omega), if_pos ⟨rfl, rfl⟩])
    (fun i lower upper => by
      rw [own, entry i (by omega) (by omega)]
      apply cloning.entries i (by omega)
      rcases cloning.laid.slotReady i (by omega) with ⟨absent, _⟩ | ⟨slot, _⟩
      · exact absent
      · unfold ProcessSlot at slot
        omega)
  rw [own, Function.update_idem] at finished
  refine Command.ensures_pure _ ⟨((steady.trans steady₅).trans steady₆).trans steady₇, _, m', finished,
    ⟨⟨second.1.finish, id, ?_, ?_⟩, fun i inside => (second.2 i inside).congr rfl fun _ =>
      ⟨rfl, rfl, fun _ => ⟨rfl, rfl⟩⟩⟩, ?_⟩
  · exact cloning.others.2.1
  · exact cloning.others.2.2
  · exact cloning.others.1

/-- The child of a process that called with `s`. -/
def childProcess (s : ProcessState) (processMemory pid : Nat) : Process :=
  { processState := withEax s 0, processMemory := processMemory, ring0 := false, pid := pid
    next := 0, prev := 0 }

theorem copiedSlot_beside {P : Estate} {w w' : Estates} {m m' : ProcessMemory} {o i : Nat}
    (copied : P.CopiedSlot (w o) m m' i) (beside : Beside w w') : P.CopiedSlot (w' o) m m' i :=
  copied.congr rfl fun _ => ⟨by rw [beside.word], by rw [beside.word], fun _ =>
    ⟨beside.block (by simp), by rw [beside.bytes]⟩⟩

theorem Accounts.ensures_fork {s : ProcessState} {before : Process} {b : Process} {order : List Nat}
    (accounts : Accounts covered enough (M.forkAsks spare (w o') m) k w)
    (known : k.detail k.current = some (o', b)) (parent : (w o').Ready b.processMemory m)
    (linked : Linked k order) :
    Command.Ensures (Excused M covered enough) k (fork s before) fun r k' => r = withEax s k.pidInc ∧
      ∃ w' q p m', Accounts covered enough spare k' w' ∧ Cloned (w o') m (w' k.owners) p m' ∧
        (∀ o, o ≠ k.owners → (w' o).drop .process = (w o).drop .process) ∧
        Kept { k with owners := k.owners + 1 } k' ∧ q ∉ order ∧ Linked k' (order ++ [q]) ∧
        k'.pidInc = u32 (k.pidInc + 1) ∧
        k'.detail = Function.update k.detail q (some (k.owners, childProcess s p k.pidInc)) := by
  obtain ⟨pr, found, bare, _⟩ := processOf_of_detail known
  obtain ⟨owner', current⟩ := accounts.processOf_iff.mp found
  have drawn : o' < k.owners := (accounts.blocks _ _ (accounts.live owner' current)).2.2.1
  have apart : o' ≠ k.owners := Nat.ne_of_lt drawn
  unfold fork
  apply Command.ensures_bind accounts.ensures_newOwner
  rintro _ k₁ ⟨rfl, owner, shape, accounts₁⟩
  have theirs : Function.update w k.owners Estate.new o' = w o' := Function.update_of_ne apart ..
  have memory : pr.processMemory = b.processMemory := by
    rw [← bare]
    rfl
  rw [← theirs] at accounts₁
  have inside : k.owners < k₁.owners := by
    rw [shape]
    exact Nat.lt_succ_self _
  refine Command.ensures_bind (accounts₁.ensures_forkMemory (m := m) owner inside
    (Function.update_self ..) owner' apart (by rw [theirs, shape]; exact current)
    (by rw [theirs, memory]; exact parent)) ?_
  rintro p k₂ ⟨steady₂, E, m', accounts₂, cloned, none⟩
  rw [Function.update_idem] at accounts₂
  rw [theirs] at cloned
  have linked₁ : Linked k₁ order := by
    rw [shape]
    exact linked.congr rfl rfl (fun _ => rfl) rfl rfl rfl
  have same₁ : k₁.processOf = k.processOf := by
    rw [shape]
    rfl
  have same₂ : k₂.processOf = k₁.processOf := accounts₁.processOf_same accounts₂ fun o _ => by
    by_cases here : o = k.owners
    · rw [here, Function.update_self, Function.update_self, none]
      rfl
    · rw [Function.update_of_ne here, Function.update_of_ne here]
  have detail₂ : k₂.detail = k.detail := by
    unfold detail
    rw [same₂, same₁]
  refine Command.ensures_bind (accounts₂.ensures_linkProcess owner
    (by rw [steady₂.calm.owners]; exact inside) (by rw [Function.update_self]; exact none)
    (linked₁.steady steady₂ same₂)) ?_
  rintro q k₃ ⟨⟨w₃, accounts₃, beside₃⟩, kept₃, absent, linked₃, pid₃, detail₃⟩
  have known₃ : k₃.detail q = some (k.owners, linkedProcess p k₂.pidInc before) := by
    rw [detail₃, Function.update_self]
  refine Command.ensures_bind (accounts₃.ensures_setDetail ({ · with processState := s }) known₃
    (by decide) fun _ => ⟨rfl, rfl, rfl⟩) ?_
  rintro _ k₄ ⟨⟨w₄, accounts₄, beside₄⟩, steady₄, next₄, prev₄, detail₄⟩
  have known₄ : k₄.detail q = some (k.owners,
      { linkedProcess p k₂.pidInc before with processState := s }) := by
    rw [detail₄, Function.update_self]
  refine Command.ensures_bind (accounts₄.ensures_setDetail
    (fun p => { p with processState := withEax p.processState 0 }) known₄ (by decide)
    fun _ => ⟨rfl, rfl, rfl⟩) ?_
  rintro _ k₅ ⟨⟨w₅, accounts₅, beside₅⟩, steady₅, next₅, prev₅, detail₅⟩
  have pid : k₂.pidInc = k.pidInc := by
    rw [steady₂.calm.pidInc, shape]
  have known₅ : k₅.detail q = some (k.owners, childProcess s p k.pidInc) := by
    rw [detail₅, Function.update_self, ← pid]
    rfl
  apply Command.ensures_bind (accounts₅.ensures_readProcess known₅ (by decide))
  rintro child k₅ ⟨rfl, bare', _⟩
  have child' : child.pid = k.pidInc := congrArg Process.pid bare'
  have beside := (beside₃.trans beside₄).trans beside₅
  have own : Function.update w k.owners E k.owners = E := Function.update_self ..
  have clone : Cloned (w o') m (w₅ k.owners) p m' := {
    ready := Estate.Ready.beside (by rw [own]; exact cloned.ready) beside
    copied := fun i inside => copiedSlot_beside (by rw [own]; exact cloned.copied i inside) beside }
  have live : ∀ p, (k₅.detail p).isSome = (k₃.detail p).isSome := by
    intro x
    rw [detail₅, detail₄]
    by_cases here : x = q
    · rw [here, Function.update_self, known₃, Option.isSome_some, Option.isSome_some]
    · rw [Function.update_of_ne here, Function.update_of_ne here]
  have kept := ((steady₂.kept.trans kept₃).trans steady₄.kept).trans steady₅.kept
  refine Command.ensures_pure _ ⟨by rw [child'], w₅, q, p, m', accounts₅, clone, fun o other => ?_, ?_,
    absent, ?_, ?_, ?_⟩
  · rw [beside o, Function.update_of_ne other]
  · rw [← shape]
    exact kept
  · exact linked₃.congr (next₅.trans next₄) (prev₅.trans prev₄) live
      (steady₅.calm.first.trans steady₄.calm.first) (steady₅.calm.last.trans steady₄.calm.last)
      (steady₅.calm.current.trans steady₄.calm.current)
  · rw [steady₅.calm.pidInc, steady₄.calm.pidInc, pid₃, pid]
  · rw [detail₅, detail₄, detail₃, Function.update_idem, Function.update_idem, detail₂, ← pid]
    rfl

end Children

end Kernel

end Snfos
