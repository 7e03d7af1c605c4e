import Snfos.EstateAccess
import Snfos.Process

set_option autoImplicit false

/- An address space in step with its shadow: what `page_tables[i]->pages[j]` says is
what the page directory and the page tables map, and every block is pointed to. -/
namespace Snfos

open ByteMemory

/-- The slot of the page directory that a block belongs to. -/
def Role.slot : Role → Option Nat
  | .table i => some i
  | .pageTable i => some i
  | .page i _ => some i
  | _ => none

/-- The slots a process may have tables in: user addresses, and its kernel stack. -/
def ProcessSlot (i : Nat) : Prop := i < 768 ∨ i = 1022

/-- Present and writable, and below 3 GiB for user mode. -/
def pageFlags (i : Nat) : Nat := if i < 768 then 7 else 3

/-- An entry that leads to a frame with the flags of slot `i`. The processor may
have marked it accessed or dirty. -/
def Leads (i frame value : Nat) : Prop :=
  ∃ flags, flags < 256 ∧ flags % 8 = pageFlags i ∧ value = 4096 * frame + flags

theorem leads_pageFlags (i frame : Nat) : Leads i frame (4096 * frame + pageFlags i) := by
  refine ⟨pageFlags i, ?_, ?_, rfl⟩ <;> unfold pageFlags <;> split <;> decide

theorem Leads.frame {i frame value : Nat} (leads : Leads i frame value) : value / 4096 = frame := by
  obtain ⟨flags, low, _, rfl⟩ := leads
  omega

theorem Leads.odd {i frame value : Nat} (leads : Leads i frame value) : value % 2 ≠ 0 := by
  obtain ⟨flags, _, low, rfl⟩ := leads
  unfold pageFlags at low
  split at low <;> omega

/-- The flags of an entry, copied to one for another frame. -/
theorem Leads.copy {i frame value : Nat} (leads : Leads i frame value) (frame' : Nat) :
    Leads i frame' (4096 * frame' + value % 256) := by
  obtain ⟨flags, small, mode, entry⟩ := leads
  refine ⟨value % 256, Nat.mod_lt _ (by decide), ?_, rfl⟩
  rw [entry]
  omega

theorem Leads.bound {i frame value : Nat} (leads : Leads i frame value) (small : frame < 2 ^ 20) :
    value < 2 ^ 32 := by
  obtain ⟨flags, low, _, rfl⟩ := leads
  omega

namespace Estate

/-- Page `j` of slot `i` is page `c` of the block at `p`, whose first page is `j'`:
a block of its own, or the one block that holds the code of a loaded module. -/
structure PageAt (E : Estate) (i j j' c p : Nat) : Prop where
  index : j' + c = j
  block : ∃ count, E.block (.page i j') = some (p, .pages count) ∧ c < count ∧
    (count = 1 ∨ i = 0 ∧ j' = 0)
  alone : c ≠ 0 → E.block (.page i j) = none

/-- Page `j` of slot `i` is absent from the shadow and from the page table, or in both. -/
def PageReady (E : Estate) (t : ProcessPageTable) (i j : Nat) : Prop :=
  (t.pages j = 0 ∧ E.block (.page i j) = none ∧ E.word (.pageTable i) j = 0) ∨
    ∃ j' c p, E.PageAt i j j' c p ∧ t.pages j = p + 4096 * c ∧
      Leads i (E.frame (.page i j') c) (E.word (.pageTable i) j)

/-- The table structure at `p` and its page table agree. -/
structure TableReady (E : Estate) (i p : Nat) (t : ProcessPageTable) : Prop where
  table : E.block (.table i) = some (p, .table t)
  pageTable : E.block (.pageTable i) = some (t.pageTable, .pages 1)
  pages : ∀ j, j < 1024 → E.PageReady t i j
  beyond : ∀ j, 1024 ≤ j → E.block (.page i j) = none

def Vacant (E : Estate) (i : Nat) : Prop := ∀ role, role.slot = some i → E.block role = none

/-- Slot `i` is empty in the shadow and in the page directory, or has a table in both. -/
def SlotReady (E : Estate) (m : ProcessMemory) (i : Nat) : Prop :=
  (m.pageTables i = 0 ∧ E.Vacant i ∧ (ProcessSlot i → E.word .directory i = 0)) ∨
    ProcessSlot i ∧ (∃ t, E.TableReady i (m.pageTables i) t) ∧
      Leads i (E.frame (.pageTable i) 0) (E.word .directory i)

/-- The address space of the structure at `p`, but for slot `skip`. -/
structure Laid (skip : Option Nat) (E : Estate) (p : Nat) (m : ProcessMemory) : Prop where
  memory : E.block .memory = some (p, .memory m)
  directory : E.block .directory = some (m.pageDirectory, .pages 1)
  slots : ∀ i, i < 1024 → skip ≠ some i → E.SlotReady m i
  beyond : ∀ i, 1024 ≤ i → E.Vacant i

/-- A complete address space, and no other blocks but that of the process. -/
structure Ready (E : Estate) (p : Nat) (m : ProcessMemory) : Prop where
  laid : E.Laid none p m
  final : ¬ E.draft
  temp : E.block .temp = none
  raw : E.block .raw = none

/-- The shadow lists page `j` of slot `i`. -/
def Has (E : Estate) (i j : Nat) : Prop :=
  ∃ p t, E.block (.table i) = some (p, .table t) ∧ t.pages j ≠ 0

theorem has_iff {E : Estate} {i j p : Nat} {t : ProcessPageTable}
    (held : E.block (.table i) = some (p, .table t)) : E.Has i j ↔ t.pages j ≠ 0 := by
  constructor
  · rintro ⟨p', t', held', listed⟩
    rw [held] at held'
    cases held'
    exact listed
  · exact fun listed => ⟨p, t, held, listed⟩

section Congruence

variable {E E' : Estate} {t t' : ProcessPageTable} {m m' : ProcessMemory} {i j p : Nat}
  {skip : Option Nat}

theorem PageAt.congr {j' c : Nat} (place : E.PageAt i j j' c p)
    (pages : ∀ j₁, j₁ = j ∨ E.block (.page i j₁) ≠ none →
      E'.block (.page i j₁) = E.block (.page i j₁)) : E'.PageAt i j j' c p := by
  obtain ⟨count, held, rest⟩ := place.block
  refine ⟨place.index, ⟨count, ?_, rest⟩, fun later => ?_⟩
  · rw [pages j' (Or.inr (by simp [held])), held]
  · rw [pages j (Or.inl rfl), place.alone later]

theorem PageReady.congr (ready : E.PageReady t i j)
    (pages : ∀ j', j' = j ∨ E.block (.page i j') ≠ none →
      E'.block (.page i j') = E.block (.page i j') ∧ E'.frame (.page i j') = E.frame (.page i j'))
    (word : E'.word (.pageTable i) j = E.word (.pageTable i) j)
    (shadow : t'.pages j = t.pages j) : E'.PageReady t' i j := by
  unfold PageReady
  rw [word, shadow]
  rcases ready with ⟨zero, absent, entry⟩ | ⟨j', c, p, place, pointer, leads⟩
  · exact Or.inl ⟨zero, by rw [(pages j (Or.inl rfl)).1, absent], entry⟩
  · refine Or.inr ⟨j', c, p, place.congr fun j₁ which => (pages j₁ which).1, pointer, ?_⟩
    obtain ⟨count, held, _⟩ := place.block
    rwa [(pages j' (Or.inr (by simp [held]))).2]

theorem TableReady.congr (ready : E.TableReady i p t)
    (same : ∀ role, role.slot = some i → E'.block role = E.block role ∧
      E'.frame role = E.frame role)
    (word : E'.word (.pageTable i) = E.word (.pageTable i)) : E'.TableReady i p t where
  table := (same _ rfl).1.trans ready.table
  pageTable := (same _ rfl).1.trans ready.pageTable
  pages := fun j inside => (ready.pages j inside).congr (fun j' _ => same _ rfl) (by rw [word]) rfl
  beyond := fun j outside => (same _ rfl).1.trans (ready.beyond j outside)

theorem Vacant.congr (vacant : E.Vacant i)
    (same : ∀ role, role.slot = some i → E'.block role = E.block role) : E'.Vacant i :=
  fun role slot => (same role slot).trans (vacant role slot)

theorem SlotReady.congr (ready : E.SlotReady m i)
    (same : ∀ role, role.slot = some i → E'.block role = E.block role ∧
      E'.frame role = E.frame role)
    (word : E'.word (.pageTable i) = E.word (.pageTable i))
    (entry : E'.word .directory i = E.word .directory i)
    (shadow : m'.pageTables i = m.pageTables i) : E'.SlotReady m' i := by
  unfold SlotReady
  rw [entry, shadow]
  rcases ready with ⟨zero, vacant, absent⟩ | ⟨slot, ⟨t, table⟩, leads⟩
  · exact Or.inl ⟨zero, vacant.congr fun role which => (same role which).1, absent⟩
  · refine Or.inr ⟨slot, ⟨t, table.congr same word⟩, ?_⟩
    rwa [(same (.pageTable i) rfl).2]

/-- Blocks of other roles, and those of the slot left out, do not matter. -/
theorem Laid.congr (laid : E.Laid skip p m)
    (same : ∀ role, role = .memory ∨ role = .directory ∨
      (∃ i, role.slot = some i ∧ skip ≠ some i) →
      E'.block role = E.block role ∧ E'.frame role = E.frame role)
    (word : ∀ i, skip ≠ some i → E'.word (.pageTable i) = E.word (.pageTable i) ∧
      E'.word .directory i = E.word .directory i)
    (beyond : ∀ i, skip = some i → i < 1024) : E'.Laid skip p m where
  memory := (same _ (Or.inl rfl)).1.trans laid.memory
  directory := (same _ (Or.inr (Or.inl rfl))).1.trans laid.directory
  slots := fun i inside other => (laid.slots i inside other).congr
    (fun role slot => same role (Or.inr (Or.inr ⟨i, slot, other⟩))) (word i other).1
    (word i other).2 rfl
  beyond := fun i outside => (laid.beyond i outside).congr fun role slot =>
    (same role (Or.inr (Or.inr ⟨i, slot, fun is => by
      have inside := beyond i is
      omega⟩))).1

theorem Laid.slotReady (laid : E.Laid none p m) (i : Nat) (inside : i < 1024) :
    E.SlotReady m i :=
  laid.slots i inside (by simp)

theorem Laid.leave (laid : E.Laid none p m) (i : Nat) : E.Laid (some i) p m :=
  { laid with slots := fun i inside _ => laid.slotReady i inside }

theorem TableReady.finish (ready : E.TableReady i p t) : E.finish.TableReady i p t :=
  ready.congr (fun _ _ => ⟨rfl, rfl⟩) rfl

theorem Laid.finish (laid : E.Laid skip p m) : E.finish.Laid skip p m :=
  ⟨laid.memory, laid.directory, fun i inside other => (laid.slots i inside other).congr
    (fun _ _ => ⟨rfl, rfl⟩) rfl rfl rfl, laid.beyond⟩

end Congruence

section Building

variable {E : Estate} {m : ProcessMemory} {i j p : Nat} {t : ProcessPageTable}

/-- What `newTable` makes of an estate. -/
def addTable (E : Estate) (p : Nat) (m : ProcessMemory) (i table pageTable : Nat)
    (frames : Nat → Nat) (bytes : Nat → Memory) : Estate :=
  (((E.put (.table i) table (.table Kernel.emptyTable)).put .memory p
    (.memory { m with pageTables := Function.update m.pageTables i table })).place
      (.pageTable i) pageTable 1 frames bytes).put (.table i) table (.table ⟨pageTable, fun _ => 0⟩)

/-- What `newPage` makes of an estate, with `value` entered in the page table. -/
def addPage (E : Estate) (i j table : Nat) (t : ProcessPageTable) (page : Nat)
    (frames : Nat → Nat) (bytes : Nat → Memory) (value : Nat) : Estate :=
  ((E.place (.page i j) page 1 frames bytes).put (.table i) table
    (.table { t with pages := Function.update t.pages j page })).setWord (.pageTable i) j value

section Simp

variable {table pageTable page value : Nat} {frames : Nat → Nat} {bytes : Nat → Memory} {role : Role}

theorem addTable_block : (E.addTable p m i table pageTable frames bytes).block role =
    if role = .table i then some (table, .table ⟨pageTable, fun _ => 0⟩)
    else if role = .pageTable i then some (pageTable, .pages 1)
    else if role = .memory then
      some (p, .memory { m with pageTables := Function.update m.pageTables i table })
    else E.block role := by
  unfold addTable
  simp only [put_block, place_block]
  split
  · rfl
  · rfl

theorem addTable_frame (other : role ≠ .pageTable i) :
    (E.addTable p m i table pageTable frames bytes).frame role = E.frame role := by
  simp only [addTable, put_frame, place_frame, other, ↓reduceIte]

theorem addTable_word (other : role ≠ .pageTable i) :
    (E.addTable p m i table pageTable frames bytes).word role = E.word role := by
  simp only [addTable, put_word, place_word other]

@[simp] theorem addTable_draft :
    (E.addTable p m i table pageTable frames bytes).draft = E.draft := rfl

theorem addPage_block : (E.addPage i j table t page frames bytes value).block role =
    if role = .table i then
      some (table, .table { t with pages := Function.update t.pages j page })
    else if role = .page i j then some (page, .pages 1)
    else E.block role := by
  simp only [addPage, setWord_block, put_block, place_block]

theorem addPage_frame : (E.addPage i j table t page frames bytes value).frame role =
    if role = .page i j then frames else E.frame role := by
  simp only [addPage, setWord_frame, put_frame, place_frame]

theorem addPage_word (bound : value < 2 ^ 32) (notPage : role ≠ .page i j) (j' : Nat) :
    (E.addPage i j table t page frames bytes value).word role j' =
      if role = .pageTable i ∧ j' = j then value else E.word role j' := by
  simp only [addPage, setWord_word bound, put_word, place_word notPage]

theorem addPage_bytes_page :
    (E.addPage i j table t page frames bytes value).bytes (.page i j) = bytes := by
  unfold addPage setWord edit
  dsimp only
  rw [Function.update_of_ne (by simp), put_bytes, place_bytes, if_pos rfl]

theorem addPage_bytes (notPage : role ≠ .page i j) (notTable : role ≠ .pageTable i) :
    (E.addPage i j table t page frames bytes value).bytes role = E.bytes role := by
  unfold addPage setWord edit
  dsimp only
  rw [Function.update_of_ne notTable, put_bytes, place_bytes, if_neg notPage]

@[simp] theorem addPage_draft :
    (E.addPage i j table t page frames bytes value).draft = E.draft := rfl

end Simp

variable {frames : Nat → Nat} {bytes : Nat → Memory} {table pageTable page value : Nat}

/-- A new table with a cleared page table maps nothing. -/
theorem tableReady_addTable (vacant : E.Vacant i) :
    ((E.addTable p m i table pageTable frames bytes).zero (.pageTable i)).TableReady i table
      ⟨pageTable, fun _ => 0⟩ where
  table := by rw [zero_block, addTable_block, if_pos rfl]
  pageTable := by rw [zero_block, addTable_block, if_neg (by simp), if_pos rfl]
  pages := fun j inside => by
    refine Or.inl ⟨rfl, ?_, ?_⟩
    · rw [zero_block, addTable_block, if_neg (by simp), if_neg (by simp), if_neg (by simp)]
      exact vacant _ rfl
    · rw [zero_word inside, if_pos rfl]
  beyond := fun j _ => by
    rw [zero_block, addTable_block, if_neg (by simp), if_neg (by simp), if_neg (by simp)]
    exact vacant _ rfl

/-- The other slots do not notice a new table. -/
theorem Laid.addTable (laid : E.Laid none p m) (inside : i < 1024) :
    ((E.addTable p m i table pageTable frames bytes).zero (.pageTable i)).Laid (some i) p
      { m with pageTables := Function.update m.pageTables i table } where
  memory := by
    rw [zero_block, addTable_block, if_neg (by simp), if_neg (by simp), if_pos rfl]
  directory := by
    rw [zero_block, addTable_block, if_neg (by simp), if_neg (by simp), if_neg (by simp)]
    exact laid.directory
  slots := fun i' inside' other => by
    have apart : i' ≠ i := fun same => other (by rw [same])
    refine (laid.slotReady i' inside').congr (fun role slot => ?_) ?_ ?_ ?_
    · have away : role ≠ .table i ∧ role ≠ .pageTable i ∧ role ≠ .memory := by
        refine ⟨?_, ?_, ?_⟩ <;> rintro rfl <;> simp only [Role.slot, Option.some.injEq] at slot
        · exact apart slot.symm
        · exact apart slot.symm
        · cases slot
      rw [zero_block, addTable_block, if_neg away.1, if_neg away.2.1, if_neg away.2.2, zero_frame,
        addTable_frame away.2.1]
      exact ⟨rfl, rfl⟩
    · unfold zero
      rw [edit_word (Or.inl (by simpa using apart)), addTable_word (by simpa using apart)]
    · unfold zero
      rw [edit_word (Or.inl (by simp)), addTable_word (by simp)]
    · dsimp only
      rw [Function.update_of_ne apart]
  beyond := fun i' outside => by
    refine (laid.beyond i' outside).congr fun role slot => ?_
    have away : role ≠ .table i ∧ role ≠ .pageTable i ∧ role ≠ .memory := by
      refine ⟨?_, ?_, ?_⟩ <;> rintro rfl <;> simp only [Role.slot, Option.some.injEq] at slot
      · omega
      · omega
      · cases slot
    rw [zero_block, addTable_block, if_neg away.1, if_neg away.2.1, if_neg away.2.2]

/-- The slot left out is there in the directory too. -/
theorem Laid.close (laid : E.Laid (some i) p m) (slot : ProcessSlot i)
    (ready : E.TableReady i (m.pageTables i) t)
    (leads : Leads i (E.frame (.pageTable i) 0) (E.word .directory i)) : E.Laid none p m where
  memory := laid.memory
  directory := laid.directory
  slots := fun i' inside' _ => by
    by_cases here : i' = i
    · subst here
      exact Or.inr ⟨slot, ⟨t, ready⟩, leads⟩
    · exact laid.slots i' inside' fun same => here (Option.some.inj same).symm
  beyond := laid.beyond

/-- The slot left out is entered in the directory. -/
theorem Laid.enter (laid : E.Laid (some i) p m) (inside : i < 1024) (slot : ProcessSlot i)
    (ready : E.TableReady i (m.pageTables i) t)
    (leads : Leads i (E.frame (.pageTable i) 0) value) (bound : value < 2 ^ 32) :
    (E.setWord .directory i value).Laid none p m := by
  have others : ∀ i', (E.setWord .directory i value).word (.pageTable i') = E.word (.pageTable i') :=
    fun i' => edit_word (Or.inl (by simp))
  refine Laid.close (laid.congr (fun _ _ => ⟨rfl, rfl⟩) (fun i' other => ⟨others i', ?_⟩) ?_) slot
    (ready.congr (fun _ _ => ⟨rfl, rfl⟩) (others i)) ?_
  · rw [setWord_word bound, if_neg]
    rintro ⟨_, rfl⟩
    exact other rfl
  · rintro i' same
    cases same
    exact inside
  · rw [setWord_word bound, if_pos ⟨rfl, rfl⟩]
    exact leads

theorem TableReady.enter {j : Nat} (ready : E.TableReady i table t) :
    (E.setWord .directory j value).TableReady i table t :=
  ready.congr (fun _ _ => ⟨rfl, rfl⟩) (edit_word (Or.inl (by simp)))

/-- A page that was absent is there in both. -/
theorem TableReady.addPage (ready : E.TableReady i table t) (inside : j < 1024)
    (absent : E.block (.page i j) = none) (leads : Leads i (frames 0) value)
    (bound : value < 2 ^ 32) :
    (E.addPage i j table t page frames bytes value).TableReady i table
      { t with pages := Function.update t.pages j page } where
  table := by rw [addPage_block, if_pos rfl]
  pageTable := by
    rw [addPage_block, if_neg (by simp), if_neg (by simp)]
    exact ready.pageTable
  pages := fun j' inside' => by
    by_cases here : j' = j
    · subst here
      refine Or.inr ⟨j', 0, page, ⟨Nat.add_zero _, ⟨1, ?_, by decide, Or.inl rfl⟩,
        fun later => absurd rfl later⟩, ?_, ?_⟩
      · rw [addPage_block, if_neg (by simp), if_pos rfl]
      · dsimp only
        rw [Function.update_self, Nat.mul_zero, Nat.add_zero]
      · rw [addPage_frame, if_pos rfl, addPage_word bound (by simp), if_pos ⟨rfl, rfl⟩]
        exact leads
    · refine (ready.pages j' inside').congr (fun j₁ which => ?_) ?_ ?_
      · have other : j₁ ≠ j := by
          rintro rfl
          rcases which with same | held
          · exact here same.symm
          · exact held absent
        rw [addPage_block, if_neg (by simp), if_neg (by simpa using other), addPage_frame,
          if_neg (by simpa using other)]
        exact ⟨rfl, rfl⟩
      · rw [addPage_word bound (by simp), if_neg fun both => here both.2]
      · dsimp only
        rw [Function.update_of_ne here]
  beyond := fun j' outside => by
    rw [addPage_block, if_neg (by simp), if_neg (by simp; omega)]
    exact ready.beyond j' outside

/-- Blocks of slot `i` change. -/
theorem Laid.addPage (laid : E.Laid (some i) p m) (inside : i < 1024) (bound : value < 2 ^ 32) :
    (E.addPage i j table t page frames bytes value).Laid (some i) p m := by
  refine laid.congr (fun role which => ?_) (fun i' other => ?_) (fun i' same => ?_)
  · have away : role ≠ .table i ∧ role ≠ .page i j := by
      refine ⟨?_, ?_⟩ <;> rintro rfl <;> simp [Role.slot] at which
    rw [addPage_block, if_neg away.1, if_neg away.2, addPage_frame, if_neg away.2]
    exact ⟨rfl, rfl⟩
  · have apart : i' ≠ i := fun same => other (by rw [same])
    refine ⟨?_, ?_⟩
    · funext j'
      rw [addPage_word bound (by simp), if_neg]
      rintro ⟨same, _⟩
      exact apart (by simpa using same)
    · rw [addPage_word bound (by simp), if_neg (by simp)]
  · cases same
    exact inside

/-- A page is added to a slot that is entered in the directory. -/
theorem Laid.growPage (laid : E.Laid none p m) (ready : E.TableReady i table t)
    (linked : m.pageTables i = table) (nonzero : table ≠ 0) (slot : i < 1024) (inside : j < 1024)
    (absent : E.block (.page i j) = none) (leads : Leads i (frames 0) value)
    (bound : value < 2 ^ 32) : (E.addPage i j table t page frames bytes value).Laid none p m := by
  rcases laid.slotReady i slot with ⟨zero, _⟩ | ⟨process, _, entry⟩
  · exact absurd (linked.symm.trans zero) nonzero
  · refine ((laid.leave i).addPage slot bound).close
      (t := { t with pages := Function.update t.pages j page }) process ?_ ?_
    · rw [linked]
      exact ready.addPage inside absent leads bound
    · rw [addPage_frame, if_neg (by simp), addPage_word bound (by simp), if_neg (by simp)]
      exact entry

theorem TableReady.addPage_ne {i' q : Nat} {t' : ProcessPageTable} (ready : E.TableReady i' q t')
    (other : i' ≠ i) (bound : value < 2 ^ 32) :
    (E.addPage i j table t page frames bytes value).TableReady i' q t' := by
  refine ready.congr (fun role which => ?_) ?_
  · have away : role ≠ .table i ∧ role ≠ .page i j := by
      refine ⟨?_, ?_⟩ <;> rintro rfl <;> simp only [Role.slot, Option.some.injEq] at which <;>
        exact other which.symm
    rw [addPage_block, if_neg away.1, if_neg away.2, addPage_frame, if_neg away.2]
    exact ⟨rfl, rfl⟩
  · funext j'
    rw [addPage_word bound (by simp), if_neg (by simp [other])]

end Building

section Code

variable {E E' : Estate} {table pageTable page count p : Nat} {m : ProcessMemory}

/-- The first `count` pages of the block at `page` are entered in table 0. -/
structure Entered (E E' : Estate) (table pageTable page count : Nat) : Prop where
  block : ∀ role, role ≠ .table 0 → E'.block role = E.block role
  frame : E'.frame = E.frame
  draft : E'.draft = E.draft
  bytes : ∀ role, role ≠ .pageTable 0 → E'.bytes role = E.bytes role
  table : E'.block (.table 0) =
    some (table, .table ⟨pageTable, fun j => if j < count then page + 4096 * j else 0⟩)
  word : ∀ j, j < 1024 → E'.word (.pageTable 0) j =
    if j < count then 4096 * E.frame (.page 0 0) j + 7 else 0

/-- With all pages of the block entered, shadow and page table agree on them. -/
theorem Entered.tableReady (entered : E.Entered E' table pageTable page count)
    (held : E.block (.pageTable 0) = some (pageTable, .pages 1))
    (code : 0 < count → E.block (.page 0 0) = some (page, .pages count))
    (absent : ∀ j, 0 < j ∨ count = 0 → E.block (.page 0 j) = none) (few : count ≤ 1024) :
    E'.TableReady 0 table ⟨pageTable, fun j => if j < count then page + 4096 * j else 0⟩ where
  table := entered.table
  pageTable := (entered.block _ (by simp)).trans held
  pages := fun j inside => by
    have word := entered.word j inside
    by_cases there : j < count
    · refine Or.inr ⟨0, j, page, ⟨Nat.zero_add j, ⟨count, ?_, there, Or.inr ⟨rfl, rfl⟩⟩,
        fun later => ?_⟩, ?_, ?_⟩
      · rw [entered.block _ (by simp), code (by omega)]
      · rw [entered.block _ (by simp), absent j (Or.inl (by omega))]
      · dsimp only
        rw [if_pos there]
      · rw [word, if_pos there, entered.frame]
        exact leads_pageFlags 0 _
    · refine Or.inl ⟨?_, ?_, ?_⟩
      · dsimp only
        rw [if_neg there]
      · rw [entered.block _ (by simp), absent j (by omega)]
      · rw [word, if_neg there]
  beyond := fun j outside => by
    rw [entered.block _ (by simp), absent j (Or.inl (by omega))]

/-- Only slot 0 notices. -/
theorem Entered.laid (entered : E.Entered E' table pageTable page count)
    (laid : E.Laid (some 0) p m) : E'.Laid (some 0) p m := by
  refine laid.congr (fun role which => ?_) (fun i other => ?_) (fun i same => ?_)
  · refine ⟨entered.block role ?_, by rw [entered.frame]⟩
    rintro rfl
    simp [Role.slot] at which
  · have away : Role.pageTable i ≠ .pageTable 0 := fun same => other (by
      rw [Role.pageTable.injEq] at same
      rw [same])
    unfold Estate.word
    rw [entered.bytes _ away, entered.bytes _ (by simp)]
    exact ⟨rfl, rfl⟩
  · cases same
    decide

end Code

section Loading

variable {E F G : Estate} {table pageTable page tempPages n p : Nat} {m : ProcessMemory}
  {frames : Nat → Nat} {bytes bytes' : Nat → Memory}

/-- While a module is loaded: its code is a block, and the temporary pages show `bytes`. -/
structure Loading (E F : Estate) (page tempPages n : Nat) (frames : Nat → Nat)
    (bytes : Nat → Memory) : Prop where
  block : ∀ role, role ≠ .page 0 0 → role ≠ .temp → F.block role = E.block role
  frame : ∀ role, role ≠ .page 0 0 → role ≠ .temp → F.frame role = E.frame role
  word : ∀ role, role ≠ .page 0 0 → role ≠ .temp → F.word role = E.word role
  draft : F.draft = E.draft
  code : F.block (.page 0 0) = some (page, .pages n)
  temp : F.block .temp = some (tempPages, .pages n)
  tempFrame : F.frame .temp = frames
  tempBytes : F.bytes .temp = bytes

theorem loading_place {frames' : Nat → Nat} :
    E.Loading ((E.place .temp tempPages n frames bytes).place (.page 0 0) page n frames' bytes') page
      tempPages n frames bytes where
  block := fun role notPage notTemp => by
    rw [place_block, if_neg notPage, place_block, if_neg notTemp]
  frame := fun role notPage notTemp => by
    rw [place_frame, if_neg notPage, place_frame, if_neg notTemp]
  word := fun role notPage notTemp => by rw [place_word notPage, place_word notTemp]
  draft := by rw [place_draft, place_draft]
  code := by rw [place_block, if_pos rfl]
  temp := by rw [place_block, if_neg (by simp), place_block, if_pos rfl]
  tempFrame := by rw [place_frame, if_neg (by simp), place_frame, if_pos rfl]
  tempBytes := by rw [place_bytes, if_neg (by simp), place_bytes, if_pos rfl]

theorem Loading.begun (loading : E.Loading F page tempPages n frames bytes)
    (ready : E.TableReady 0 table ⟨pageTable, fun _ => 0⟩)
    (empty : ∀ j, j < 1024 → E.word (.pageTable 0) j = 0) :
    F.Entered F table pageTable page 0 where
  block := fun _ _ => rfl
  frame := rfl
  draft := rfl
  bytes := fun _ _ => rfl
  table := by
    rw [loading.block _ (by simp) (by simp), ready.table]
    simp only [Nat.not_lt_zero, ↓reduceIte]
  word := fun j inside => by
    rw [loading.word _ (by simp) (by simp), empty j inside, if_neg (Nat.not_lt_zero j)]

/-- The new blocks are in slot 0 or in none. -/
theorem Loading.laid (loading : E.Loading F page tempPages n frames bytes)
    (laid : E.Laid none p m) : F.Laid (some 0) p m := by
  refine (laid.leave 0).congr (fun role which => ?_) (fun i other => ?_) (by simp)
  · have notPage : role ≠ .page 0 0 := by
      rintro rfl
      simp [Role.slot] at which
    have notTemp : role ≠ .temp := by
      rintro rfl
      simp [Role.slot] at which
    exact ⟨loading.block role notPage notTemp, loading.frame role notPage notTemp⟩
  · rw [loading.word _ (by simp) (by simp), loading.word _ (by simp) (by simp)]
    exact ⟨rfl, rfl⟩

theorem Loading.tableReady (loading : E.Loading F page tempPages n frames bytes)
    (entered : F.Entered G table pageTable page n)
    (held : E.block (.pageTable 0) = some (pageTable, .pages 1))
    (absent : ∀ j, E.block (.page 0 j) = none) (positive : 0 < n) (few : n ≤ 1024) :
    G.TableReady 0 table ⟨pageTable, fun j => if j < n then page + 4096 * j else 0⟩ := by
  refine entered.tableReady ((loading.block _ (by simp) (by simp)).trans held)
    (fun _ => loading.code) (fun j later => ?_) few
  rw [loading.block _ (by simp; omega) (by simp), absent j]

/-- The directory still leads to table 0. -/
theorem Loading.leads (loading : E.Loading F page tempPages n frames bytes)
    (entered : F.Entered G table pageTable page n) (laid : E.Laid none p m) (linked : m.pageTables 0 = table) (null : table ≠ 0) :
    Leads 0 (G.frame (.pageTable 0) 0) (G.word .directory 0) := by
  have word : G.word .directory 0 = E.word .directory 0 := by
    rw [← loading.word .directory (by simp) (by simp)]
    unfold Estate.word
    rw [entered.bytes _ (by simp)]
  rw [word, entered.frame, loading.frame _ (by simp) (by simp)]
  rcases laid.slotReady 0 (by decide) with ⟨zero, _⟩ | ⟨_, _, leads⟩
  · exact absurd (linked.symm.trans zero) null
  · exact leads

/-- The temporary pages are gone in the end. -/
theorem Loading.block_after (loading : E.Loading F page tempPages n frames bytes)
    (entered : F.Entered G table pageTable page n) (temp : E.block .temp = none) {role : Role}
    (away : role.slot ≠ some 0) :
    ((G.setBytes (.page 0 0) bytes').drop .temp).block role = E.block role := by
  by_cases notTemp : role = .temp
  · rw [notTemp, drop_block, if_pos rfl, temp]
  · have notTable : role ≠ .table 0 := by
      rintro rfl
      exact away rfl
    have notPage : role ≠ .page 0 0 := by
      rintro rfl
      exact away rfl
    rw [drop_block, if_neg notTemp, setBytes_block, entered.block role notTable,
      loading.block role notPage notTemp]

/-- Neither slot 0 nor the others notice the copied bytes. -/
theorem TableReady.copied {t : ProcessPageTable} (ready : G.TableReady 0 table t) :
    ((G.setBytes (.page 0 0) bytes').drop .temp).TableReady 0 table t := by
  refine ready.congr (fun role which => ⟨?_, rfl⟩) ?_
  · have notTemp : role ≠ .temp := by
      rintro rfl
      cases which
    rw [drop_block, if_neg notTemp, setBytes_block]
  · rw [drop_word, setBytes_word (by simp)]

theorem Laid.copied (laid : G.Laid none p m) :
    ((G.setBytes (.page 0 0) bytes').drop .temp).Laid none p m := by
  refine laid.congr (fun role which => ⟨?_, rfl⟩) (fun i _ => ?_) (by simp)
  · have notTemp : role ≠ .temp := by
      rintro rfl
      simp [Role.slot] at which
    rw [drop_block, if_neg notTemp, setBytes_block]
  · rw [drop_word, setBytes_word (by simp), setBytes_word (by simp)]
    exact ⟨rfl, rfl⟩

end Loading

section Entering

variable {E : Estate} {shared i j : Nat}

/-- What the end of `newSpace` writes: cleared tables, and the directory's entries. -/
def enterTables (E : Estate) (shared : Nat) : Estate :=
  (((((((((E.zero .directory).zero (.pageTable 0)).zero (.pageTable 767)).zero
    (.pageTable 1022)).setWord .directory 1023 (4096 * E.frame .directory 0 + 3)).setWord
    .directory 768 (4096 * shared + 3)).setWord
    .directory 0 (4096 * E.frame (.pageTable 0) 0 + 7)).setWord
    .directory 767 (4096 * E.frame (.pageTable 767) 0 + 7)).setWord
    .directory 1022 (4096 * E.frame (.pageTable 1022) 0 + 3))

@[simp] theorem enterTables_block : (E.enterTables shared).block = E.block := by
  simp only [enterTables, setWord_block, zero_block]

@[simp] theorem enterTables_frame : (E.enterTables shared).frame = E.frame := by
  simp only [enterTables, setWord_frame, zero_frame]

@[simp] theorem enterTables_draft : (E.enterTables shared).draft = E.draft := by
  simp only [enterTables, setWord_draft, zero_draft]

theorem enterTables_pageTable (slot : i = 0 ∨ i = 767 ∨ i = 1022) (inside : j < 1024) :
    (E.enterTables shared).word (.pageTable i) j = 0 := by
  unfold enterTables setWord
  iterate 5 rw [edit_word (Or.inl (by simp))]
  simp only [zero_word inside]
  rcases slot with rfl | rfl | rfl <;> simp

theorem enterTables_directory
    (small : ∀ role ∈ [Role.directory, .pageTable 0, .pageTable 767, .pageTable 1022],
      E.frame role 0 < 2 ^ 20) (low : shared < 2 ^ 20) (inside : i < 1024) :
    (E.enterTables shared).word .directory i =
      if i = 1022 then 4096 * E.frame (.pageTable 1022) 0 + 3
      else if i = 767 then 4096 * E.frame (.pageTable 767) 0 + 7
      else if i = 0 then 4096 * E.frame (.pageTable 0) 0 + 7
      else if i = 768 then 4096 * shared + 3
      else if i = 1023 then 4096 * E.frame .directory 0 + 3 else 0 := by
  have directory := small .directory (by simp)
  have code := small (.pageTable 0) (by simp)
  have stack := small (.pageTable 767) (by simp)
  have kernelStack := small (.pageTable 1022) (by simp)
  unfold enterTables
  rw [setWord_word (by omega), setWord_word (by omega), setWord_word (by omega),
    setWord_word (by omega), setWord_word (by omega)]
  simp only [zero_word inside, true_and, reduceCtorEq, ↓reduceIte]

/-- A directory that is still to be filled, its shadow, which is empty, and nothing else. -/
structure Begun (E : Estate) (p directory : Nat) : Prop where
  memory : E.block .memory = some (p, .memory ⟨directory, fun _ => 0⟩)
  directory : E.block .directory = some (directory, .pages 1)
  others : ∀ role, role ≠ .memory → role ≠ .directory → E.block role = none
  draft : E.draft

/-- Three tables, still without pages, and nothing else but what they hang from. -/
structure Fresh (E : Estate) (p : Nat) (m : ProcessMemory) (code stack kernelStack : Nat × Nat) :
    Prop where
  memory : E.block .memory = some (p, .memory m)
  directory : E.block .directory = some (m.pageDirectory, .pages 1)
  tables : m.pageTables = Function.update (Function.update (Function.update (fun _ => 0)
    0 code.1) 767 stack.1) 1022 kernelStack.1
  code : E.block (.table 0) = some (code.1, .table ⟨code.2, fun _ => 0⟩) ∧
    E.block (.pageTable 0) = some (code.2, .pages 1)
  stack : E.block (.table 767) = some (stack.1, .table ⟨stack.2, fun _ => 0⟩) ∧
    E.block (.pageTable 767) = some (stack.2, .pages 1)
  kernelStack : E.block (.table 1022) = some (kernelStack.1, .table ⟨kernelStack.2, fun _ => 0⟩) ∧
    E.block (.pageTable 1022) = some (kernelStack.2, .pages 1)
  others : ∀ role, role ≠ .memory → role ≠ .directory →
    (∀ i, i = 0 ∨ i = 767 ∨ i = 1022 → role ≠ .table i ∧ role ≠ .pageTable i) →
    E.block role = none
  draft : E.draft

variable {p : Nat} {m : ProcessMemory} {code stack kernelStack : Nat × Nat}

theorem Fresh.tableReady (fresh : E.Fresh p m code stack kernelStack) {tables : Nat × Nat}
    (slot : i = 0 ∨ i = 767 ∨ i = 1022)
    (made : E.block (.table i) = some (tables.1, .table ⟨tables.2, fun _ => 0⟩) ∧
      E.block (.pageTable i) = some (tables.2, .pages 1)) :
    (E.enterTables shared).TableReady i tables.1 ⟨tables.2, fun _ => 0⟩ where
  table := by rw [enterTables_block, made.1]
  pageTable := by rw [enterTables_block, made.2]
  pages := fun j inside => by
    refine Or.inl ⟨rfl, ?_, enterTables_pageTable slot inside⟩
    rw [enterTables_block]
    exact fresh.others _ (by simp) (by simp) (by simp)
  beyond := fun j _ => by
    rw [enterTables_block]
    exact fresh.others _ (by simp) (by simp) (by simp)

theorem Fresh.slotReady (fresh : E.Fresh p m code stack kernelStack) {tables : Nat × Nat}
    (slot : i = 0 ∨ i = 767 ∨ i = 1022)
    (made : E.block (.table i) = some (tables.1, .table ⟨tables.2, fun _ => 0⟩) ∧
      E.block (.pageTable i) = some (tables.2, .pages 1))
    (linked : m.pageTables i = tables.1)
    (entry : (E.enterTables shared).word .directory i =
      4096 * E.frame (.pageTable i) 0 + pageFlags i) :
    (E.enterTables shared).SlotReady m i := by
  refine Or.inr ⟨?_, ⟨⟨tables.2, fun _ => 0⟩, ?_⟩, ?_⟩
  · unfold ProcessSlot
    omega
  · rw [linked]
    exact fresh.tableReady slot made
  · rw [entry, enterTables_frame]
    exact leads_pageFlags i _

theorem Fresh.laid (fresh : E.Fresh p m code stack kernelStack)
    (small : ∀ role ∈ [Role.directory, .pageTable 0, .pageTable 767, .pageTable 1022],
      E.frame role 0 < 2 ^ 20) (low : shared < 2 ^ 20) :
    (E.enterTables shared).Laid none p m where
  memory := by rw [enterTables_block, fresh.memory]
  directory := by rw [enterTables_block, fresh.directory]
  slots := fun i inside _ => by
    have entry := enterTables_directory small low inside
    by_cases code : i = 0
    · subst code
      exact fresh.slotReady (Or.inl rfl) fresh.code (by simp [fresh.tables])
        (by simp [entry, pageFlags])
    · by_cases stack : i = 767
      · subst stack
        exact fresh.slotReady (Or.inr (Or.inl rfl)) fresh.stack (by simp [fresh.tables])
          (by simp [entry, pageFlags])
      · by_cases kernelStack : i = 1022
        · subst kernelStack
          exact fresh.slotReady (Or.inr (Or.inr rfl)) fresh.kernelStack (by simp [fresh.tables])
            (by simp [entry, pageFlags])
        · refine Or.inl ⟨?_, fun role which => ?_, fun user => ?_⟩
          · rw [fresh.tables, Function.update_of_ne kernelStack, Function.update_of_ne stack,
              Function.update_of_ne code]
          · rw [enterTables_block]
            apply fresh.others role (by rintro rfl; cases which) (by rintro rfl; cases which)
            intro i' slot'
            refine ⟨?_, ?_⟩ <;> rintro rfl <;>
              simp only [Role.slot, Option.some.injEq] at which <;> omega
          · unfold ProcessSlot at user
            rw [entry, if_neg kernelStack, if_neg stack, if_neg code, if_neg (by omega),
              if_neg (by omega)]
  beyond := fun i outside role which => by
    rw [enterTables_block]
    apply fresh.others role (by rintro rfl; cases which) (by rintro rfl; cases which)
    intro i' slot'
    refine ⟨?_, ?_⟩ <;> rintro rfl <;>
      simp only [Role.slot, Option.some.injEq] at which <;> omega

end Entering

end Estate

end Snfos
