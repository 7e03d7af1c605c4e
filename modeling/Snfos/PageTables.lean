import Snfos.Paging

set_option autoImplicit false

/- The page tables of `page.c` on the memory of the frames, and the entries that a new
table and a new entry leave in them. -/
namespace Snfos

open ByteMemory

/-- The memory of each frame, the frame of the directory in use, the bitmap and
`heap_end`. `installed` records the frames written to entries of the directory or
of a table, the last one first; no code reads it. -/
structure PageState where
  ram : Nat → Memory
  directory : Nat
  frames : Frames
  heapEnd : Nat
  installed : List Nat

namespace PageState

/-- `none` is a page fault. -/
def readWord (address : Nat) (s : PageState) : Option Nat := do
  let (frame, offset) ← translate s.ram s.directory address
  some (load32 (s.ram frame) offset)

def writeWord (address value : Nat) (s : PageState) : Option PageState := do
  let (frame, offset) ← translate s.ram s.directory address
  some { s with ram := Function.update s.ram frame (store32 (s.ram frame) offset value) }

def clearPage (address : Nat) (s : PageState) : Option PageState := do
  let (frame, _) ← translate s.ram s.directory address
  some { s with ram := Function.update s.ram frame (fill (s.ram frame) 0 4096 0) }

def allocateNextPage (s : PageState) : Nat × PageState :=
  (s.frames.allocateNextPage.1, { s with frames := s.frames.allocateNextPage.2 })

def install (frame : Nat) (s : PageState) : PageState := { s with installed := frame :: s.installed }

/-- The part of `map_page` that installs a missing page table. -/
def installTable (i : Nat) (s : PageState) : Option PageState := do
  let pde ← s.readWord (Kernel.directoryEntry i)
  if pde % 2 = 0 then do
    let (page, s) := s.allocateNextPage
    let s ← s.writeWord (Kernel.directoryEntry i) (page ||| 0x03)
    (s.install (page / 4096)).clearPage (Kernel.tableEntry i 0)
  else some s

def mapPage (virtualAddress physicalAddress flags : Nat) (s : PageState) : Option PageState := do
  let page := virtualAddress / 4096
  let frame := physicalAddress / 4096
  let s ← s.installTable (page / 1024)
  let s ← s.writeWord (Kernel.tableEntry (page / 1024) (page % 1024))
    (4096 * frame ||| flags % 4096 ||| 1)
  some (s.install frame)

def mapVirtualAddress (virtualAddress flags : Nat) (s : PageState) : Option PageState :=
  s.allocateNextPage.2.mapPage virtualAddress s.allocateNextPage.1 flags

/-- The `for` loop of `alloc_page`. -/
def allocPages : Nat → PageState → Option PageState
  | 0, s => some s
  | pages + 1, s => do
      let s ← s.mapVirtualAddress s.heapEnd 0x03
      allocPages pages { s with heapEnd := u32 (s.heapEnd + 4096) }

/-- Where `alloc_page` maps the next page. -/
def start (L : Layout) (s : PageState) : Nat := if s.heapEnd = 0 then L.heapStart else s.heapEnd

/-- The start of the new pages is returned. -/
def allocPage (L : Layout) (pages : Nat) (s : PageState) : Option (Nat × PageState) := do
  let t ← allocPages pages { s with heapEnd := s.start L }
  some (s.start L, t)

def Absent (s : PageState) (c : Nat) : Prop := entry s.ram s.directory c % 2 = 0

instance (s : PageState) (c : Nat) : Decidable (s.Absent c) := inferInstanceAs (Decidable (_ = _))

/-- The frame that entry `c` of the directory leads to. -/
def table (s : PageState) (c : Nat) : Nat := entry s.ram s.directory c / 4096

/-- Entry 1023 leads to the directory itself. -/
structure SelfMapped (s : PageState) : Prop where
  present : ¬ s.Absent 1023
  leads : s.table 1023 = s.directory

/-- Entry `j` of the table that entry `c` of the directory leads to. -/
def pte (s : PageState) (c j : Nat) : Nat := entry s.ram (s.table c) j

/-- The directory leads to itself, and its tables lie in different frames that are in use. -/
structure Separate (s : PageState) : Prop extends SelfMapped s where
  apart : ∀ c c', c < 1024 → c' < 1024 → ¬ s.Absent c → ¬ s.Absent c' →
    s.table c = s.table c' → c = c'
  tables : ∀ c, c < 1024 → ¬ s.Absent c → s.frames.used (s.table c) = true

/-- The state after frame `q` was taken and made table `c`. -/
def withTable (s : PageState) (c q : Nat) : PageState where
  ram := Function.update
    (Function.update s.ram s.directory (store32 (s.ram s.directory) (4 * c) (4096 * q + 3))) q
    (fill (s.ram q) 0 4096 0)
  directory := s.directory
  frames := s.frames.take q
  heapEnd := s.heapEnd
  installed := q :: s.installed

/-- The state after entry `j` of table `c` was written. -/
def withEntry (s : PageState) (c j value : Nat) : PageState :=
  { s with
    ram := Function.update s.ram (s.table c) (store32 (s.ram (s.table c)) (4 * j) value) }

section Writes

variable {s : PageState} {c j q : Nat}

theorem writeWord_at {address value frame offset : Nat}
    (found : translate s.ram s.directory address = some (frame, offset)) :
    s.writeWord address value =
      some { s with ram := Function.update s.ram frame (store32 (s.ram frame) offset value) } := by
  unfold writeWord
  rw [found]
  rfl

theorem clearPage_at {address frame offset : Nat}
    (found : translate s.ram s.directory address = some (frame, offset)) :
    s.clearPage address =
      some { s with ram := Function.update s.ram frame (fill (s.ram frame) 0 4096 0) } := by
  unfold clearPage
  rw [found]
  rfl

/-- Entry `j` of the table that entry `c` leads to, through the window. -/
theorem SelfMapped.translate_tableEntry (mapped : SelfMapped s) (inside : c < 1024)
    (within : j < 1024) (present : ¬ s.Absent c) :
    translate s.ram s.directory (Kernel.tableEntry c j) = some (s.table c, 4 * j) := by
  rw [Kernel.translate_window mapped.present mapped.leads inside within]
  exact if_neg present

theorem SelfMapped.translate_directoryEntry (mapped : SelfMapped s) (inside : c < 1024) :
    translate s.ram s.directory (Kernel.directoryEntry c) = some (s.directory, 4 * c) := by
  rw [Kernel.directoryEntry_eq, mapped.translate_tableEntry (by decide) inside mapped.present,
    mapped.leads]

theorem SelfMapped.readWord_directoryEntry (mapped : SelfMapped s) (inside : c < 1024) :
    s.readWord (Kernel.directoryEntry c) = some (entry s.ram s.directory c) := by
  unfold readWord
  rw [mapped.translate_directoryEntry inside]
  rfl

theorem SelfMapped.installTable_present (mapped : SelfMapped s) (inside : c < 1024)
    (present : ¬ s.Absent c) : s.installTable c = some s := by
  unfold installTable
  rw [mapped.readWord_directoryEntry inside]
  exact if_neg present

theorem installTable_absent {pde : Nat} (read : s.readWord (Kernel.directoryEntry c) = some pde)
    (zero : pde % 2 = 0) : s.installTable c =
      (s.allocateNextPage.2.writeWord (Kernel.directoryEntry c) (s.allocateNextPage.1 ||| 0x03)).bind
        fun t => (t.install (s.allocateNextPage.1 / 4096)).clearPage (Kernel.tableEntry c 0) := by
  unfold installTable
  rw [read]
  exact if_pos zero

theorem entry_withTable (bound : q < 2 ^ 20) (other : q ≠ s.directory) (i : Nat) :
    entry (s.withTable c q).ram s.directory i =
      if i = c then 4096 * q + 3 else entry s.ram s.directory i := by
  show entry (Function.update _ q _) s.directory i = _
  rw [Kernel.entry_update_ne _ _ other.symm, Kernel.entry_store (by omega)]

theorem SelfMapped.installTable_missing (mapped : SelfMapped s) (inside : c < 1023)
    (absent : s.Absent c) (bound : q < 2 ^ 20) (other : q ≠ s.directory)
    (taken : s.frames.allocateNextPage = (4096 * q, s.frames.take q)) :
    s.installTable c = some (s.withTable c q) := by
  have value : 4096 * q ||| 0x03 = 4096 * q + 3 := Kernel.or_flags q (by decide)
  have frame : 4096 * q / 4096 = q := Nat.mul_div_cancel_left q (by decide)
  obtain ⟨ram, ramIs⟩ : ∃ ram, ram = Function.update s.ram s.directory
      (store32 (s.ram s.directory) (4 * c) (4096 * q + 3)) := ⟨_, rfl⟩
  have written : ({ s with frames := s.frames.take q } : PageState).writeWord
      (Kernel.directoryEntry c) (4096 * q + 3) =
      some { s with frames := s.frames.take q, ram := ram } := by
    rw [ramIs]
    exact writeWord_at (mapped.translate_directoryEntry (by omega))
  have entries : ∀ i, entry ram s.directory i =
      if i = c then 4096 * q + 3 else entry s.ram s.directory i := by
    intro i
    rw [ramIs, Kernel.entry_store (by omega)]
  have self : SelfMapped { s with frames := s.frames.take q, ram := ram } := by
    refine ⟨?_, ?_⟩
    · show ¬ entry ram s.directory 1023 % 2 = 0
      rw [entries, if_neg (by omega)]
      exact mapped.present
    · show entry ram s.directory 1023 / 4096 = s.directory
      rw [entries, if_neg (by omega)]
      exact mapped.leads
  have leads : translate ram s.directory (Kernel.tableEntry c 0) = some (q, 0) := by
    have present : ¬ entry ram s.directory c % 2 = 0 := by
      rw [entries, if_pos rfl]
      omega
    apply (self.translate_tableEntry (by omega) (by decide) present).trans
    show some (entry ram s.directory c / 4096, 4 * 0) = _
    rw [entries, if_pos rfl, show (4096 * q + 3) / 4096 = q by omega]
  have cleared := clearPage_at (s := { s with
    frames := s.frames.take q, ram := ram, installed := q :: s.installed }) leads
  rw [installTable_absent (mapped.readWord_directoryEntry (by omega)) absent]
  unfold allocateNextPage
  rw [taken]
  dsimp only
  rw [value, frame, written]
  apply cleared.trans
  unfold withTable
  dsimp only
  rw [ramIs, Function.update_of_ne other]

theorem mapPage_eq (virtualAddress physicalAddress flags : Nat) :
    s.mapPage virtualAddress physicalAddress flags =
      (s.installTable (virtualAddress / 4096 / 1024)).bind fun t =>
        (t.writeWord (Kernel.tableEntry (virtualAddress / 4096 / 1024) (virtualAddress / 4096 % 1024))
          (4096 * (physicalAddress / 4096) ||| flags % 4096 ||| 1)).map
            (install (physicalAddress / 4096)) := by
  unfold mapPage
  apply congrArg (Option.bind (s.installTable (virtualAddress / 4096 / 1024)))
  funext t
  rw [Option.map_eq_bind]
  rfl

/-- The entry that `map_page` writes. -/
theorem pageEntry_eq (frame flags : Nat) :
    4096 * frame ||| flags % 4096 ||| 1 = 4096 * frame + (flags % 4096 ||| 1) := by
  rw [Nat.or_assoc]
  exact Kernel.or_flags frame (Nat.or_lt_two_pow (n := 12) (Nat.mod_lt flags (by decide)) (by decide))

end Writes

section Views

variable {s : PageState} {c j q value : Nat}

theorem translate_eq (s : PageState) (address : Nat) : translate s.ram s.directory address =
    if s.Absent (address / 2 ^ 22) then none
    else if s.pte (address / 2 ^ 22) (address / 4096 % 1024) % 2 = 0 then none
    else some (s.pte (address / 2 ^ 22) (address / 4096 % 1024) / 4096, address % 4096) := rfl

theorem SelfMapped.readEntry (mapped : SelfMapped s) (inside : c < 1024) (within : j < 1024)
    (present : ¬ s.Absent c) : s.readWord (Kernel.tableEntry c j) = some (s.pte c j) := by
  unfold readWord
  rw [mapped.translate_tableEntry inside within present]
  rfl

theorem SelfMapped.writeEntry (mapped : SelfMapped s) (inside : c < 1024) (within : j < 1024)
    (present : ¬ s.Absent c) (value : Nat) :
    s.writeWord (Kernel.tableEntry c j) value = some (s.withEntry c j value) :=
  writeWord_at (mapped.translate_tableEntry inside within present)

/-- The tables below the window are not the directory. -/
theorem Separate.table_ne (separate : Separate s) (below : c < 1023) (present : ¬ s.Absent c) :
    s.table c ≠ s.directory := by
  intro same
  have alike := separate.apart c 1023 (by omega) (by decide) present separate.present
    (same.trans separate.leads.symm)
  omega

theorem Separate.directory_used (separate : Separate s) : s.frames.used s.directory = true := by
  rw [← separate.leads]
  exact separate.tables 1023 (by decide) separate.present

section Entry

variable (separate : Separate s) (below : c < 1023) (present : ¬ s.Absent c) (small : value < 2 ^ 32)

include small in
theorem entry_withEntry (f i : Nat) : entry (s.withEntry c j value).ram f i =
    if f = s.table c ∧ i = j then value else entry s.ram f i := by
  by_cases here : f = s.table c
  · rw [here]
    show entry (Function.update s.ram _ _) _ i = _
    rw [Kernel.entry_store small]
    exact if_congr (by simp only [true_and]) rfl rfl
  · rw [if_neg fun both => here both.1]
    exact Kernel.entry_update_ne _ _ here

include separate below present in
theorem directory_withEntry (j value i : Nat) :
    entry (s.withEntry c j value).ram s.directory i = entry s.ram s.directory i :=
  Kernel.entry_update_ne _ _ (separate.table_ne below present).symm

include separate below present in
theorem absent_withEntry (j value i : Nat) : (s.withEntry c j value).Absent i ↔ s.Absent i := by
  unfold Absent
  rw [← directory_withEntry separate below present j value i]
  rfl

include separate below present in
theorem table_withEntry (j value i : Nat) : (s.withEntry c j value).table i = s.table i := by
  unfold table
  rw [← directory_withEntry separate below present j value i]
  rfl

include separate below present small in
theorem pte_withEntry {i : Nat} (inside : i < 1024) (there : ¬ s.Absent i) (k : Nat) :
    (s.withEntry c j value).pte i k = if i = c ∧ k = j then value else s.pte i k := by
  unfold pte
  rw [table_withEntry separate below present, entry_withEntry small]
  refine if_congr (and_congr_left fun _ => ⟨fun same => ?_, fun same => by rw [same]⟩) rfl rfl
  exact separate.apart i c inside (by omega) there present same

include separate below present in
theorem Separate.withEntry (j value : Nat) : Separate (s.withEntry c j value) := by
  have absent := absent_withEntry separate below present j value
  have table := table_withEntry separate below present j value
  refine ⟨⟨?_, ?_⟩, ?_, ?_⟩
  · rw [absent]
    exact separate.present
  · rw [table]
    exact separate.leads
  · intro i i' inside inside' there there'
    rw [absent] at there there'
    rw [table, table]
    exact separate.apart i i' inside inside' there there'
  · intro i inside there
    rw [absent] at there
    rw [table]
    exact separate.tables i inside there

end Entry

theorem Separate.install (separate : Separate s) (frame : Nat) : Separate (s.install frame) :=
  ⟨⟨separate.present, separate.leads⟩, separate.apart, separate.tables⟩

theorem Separate.take (separate : Separate s) (n : Nat) :
    Separate { s with frames := s.frames.take n } :=
  ⟨⟨separate.present, separate.leads⟩, separate.apart, fun i inside present =>
    s.frames.take_keeps n (separate.tables i inside present)⟩

/-- A frame in use is not one that is clear. -/
theorem ne_clear {f : Nat} (unset : s.frames.used q = false) (use : s.frames.used f = true) :
    f ≠ q := by
  rintro rfl
  rw [unset] at use
  cases use

theorem ram_withTable (s : PageState) (c q : Nat) :
    (s.withTable c q).ram q = fill (s.ram q) 0 4096 0 := Function.update_self ..

section Table

variable (separate : Separate s) (below : c < 1023) (missing : s.Absent c) (bound : q < 2 ^ 20)
  (unset : s.frames.used q = false)

include separate bound unset in
theorem directory_withTable (i : Nat) : entry (s.withTable c q).ram s.directory i =
    if i = c then 4096 * q + 3 else entry s.ram s.directory i :=
  entry_withTable bound (ne_clear unset separate.directory_used).symm i

include separate bound unset in
theorem absent_withTable (i : Nat) : (s.withTable c q).Absent i ↔ s.Absent i ∧ i ≠ c := by
  show entry (s.withTable c q).ram s.directory i % 2 = 0 ↔ _
  rw [directory_withTable separate bound unset]
  by_cases here : i = c
  · rw [if_pos here]
    exact ⟨fun even => absurd even (by omega), fun both => absurd here both.2⟩
  · rw [if_neg here]
    exact ⟨fun even => ⟨even, here⟩, And.left⟩

include separate bound unset in
theorem table_withTable (i : Nat) :
    (s.withTable c q).table i = if i = c then q else s.table i := by
  show entry (s.withTable c q).ram s.directory i / 4096 = _
  rw [directory_withTable separate bound unset]
  split
  · omega
  · rfl

include separate bound unset in
/-- The new table is empty, and the others are as they were. -/
theorem pte_withTable {i k : Nat} (inside : i < 1023) (within : k < 1024)
    (there : i = c ∨ ¬ s.Absent i) :
    (s.withTable c q).pte i k = if i = c then 0 else s.pte i k := by
  unfold pte
  rw [table_withTable separate bound unset]
  by_cases here : i = c
  · rw [if_pos here, if_pos here]
    unfold entry
    rw [ram_withTable]
    exact load32_fill_zero _ _ _ _ (by omega) (by omega)
  · have present := there.resolve_left here
    rw [if_neg here, if_neg here]
    show entry (Function.update (Function.update _ _ _) q _) _ _ = _
    rw [Kernel.entry_update_ne _ _ (ne_clear unset (separate.tables i (by omega) present)),
      Kernel.entry_update_ne _ _ (separate.table_ne inside present)]

include separate below bound unset in
theorem Separate.withTable : Separate (s.withTable c q) := by
  have absent := absent_withTable (c := c) separate bound unset
  have table := table_withTable (c := c) separate bound unset
  have fresh : ∀ i, i < 1024 → ¬ s.Absent i → s.table i ≠ q := fun i inside there =>
    ne_clear unset (separate.tables i inside there)
  have there : ∀ {i}, ¬ (s.withTable c q).Absent i → i ≠ c → ¬ s.Absent i := by
    intro i present different even
    exact present ((absent i).mpr ⟨even, different⟩)
  refine ⟨⟨?_, ?_⟩, ?_, ?_⟩
  · rw [absent]
    exact fun both => separate.present both.1
  · rw [table, if_neg (by omega)]
    exact separate.leads
  · intro i i' inside inside' present present' same
    rw [table, table] at same
    by_cases first : i = c <;> by_cases second : i' = c
    · rw [first, second]
    · rw [if_pos first, if_neg second] at same
      exact absurd same.symm (fresh i' inside' (there present' second))
    · rw [if_neg first, if_pos second] at same
      exact absurd same (fresh i inside (there present first))
    · rw [if_neg first, if_neg second] at same
      exact separate.apart i i' inside inside' (there present first) (there present' second) same
  · intro i inside present
    show (s.frames.take q).used _ = true
    rw [table]
    split
    · rw [Frames.used_take, decide_eq_true rfl, Bool.or_true]
    · next different => exact s.frames.take_keeps q (separate.tables i inside (there present different))

end Table

section Translations

variable (separate : Separate s) (below : c < 1023) {address : Nat} (under : address / 2 ^ 22 < 1023)

include separate under in
/-- An empty table in place of none maps nothing. -/
theorem translate_emptyTable (missing : s.Absent c) (bound : q < 2 ^ 20)
    (unset : s.frames.used q = false) :
    translate (s.withTable c q).ram s.directory address = translate s.ram s.directory address := by
  have absent := absent_withTable (c := c) separate bound unset (address / 2 ^ 22)
  have within : address / 4096 % 1024 < 1024 := Nat.mod_lt _ (by decide)
  have entries := pte_withTable (c := c) separate bound unset under within
  apply (translate_eq (s.withTable c q) address).trans
  rw [translate_eq s]
  by_cases here : address / 2 ^ 22 = c
  · have none : s.Absent (address / 2 ^ 22) := here.symm ▸ missing
    have empty := entries (Or.inl here)
    have new : ¬ (s.withTable c q).Absent (address / 2 ^ 22) := fun even => (absent.mp even).2 here
    rw [if_pos here] at empty
    rw [if_pos none, if_neg new, empty]
    rfl
  · by_cases there : s.Absent (address / 2 ^ 22)
    · rw [if_pos there, if_pos (absent.mpr ⟨there, here⟩)]
    · have old : ¬ (s.withTable c q).Absent (address / 2 ^ 22) := fun even => there (absent.mp even).1
      have kept := entries (Or.inr there)
      rw [if_neg here] at kept
      rw [if_neg there, if_neg old, kept]

include separate below under in
/-- Only the page whose entry was written is mapped otherwise. -/
theorem translate_withEntry (inside : j < 1024) (present : ¬ s.Absent c) (small : value < 2 ^ 32) :
    translate (s.withEntry c j value).ram s.directory address =
      if address / 4096 = 1024 * c + j then
        if value % 2 = 0 then none else some (value / 4096, address % 4096)
      else translate s.ram s.directory address := by
  have absent := absent_withEntry separate below present j value (address / 2 ^ 22)
  apply (translate_eq (s.withEntry c j value) address).trans
  rw [translate_eq s]
  by_cases there : s.Absent (address / 2 ^ 22)
  · have elsewhere : address / 4096 ≠ 1024 * c + j := by
      intro same
      rw [show address / 2 ^ 22 = c by omega] at there
      exact present there
    rw [if_pos there, if_pos (absent.mpr there), if_neg elsewhere]
  · have old : ¬ (s.withEntry c j value).Absent (address / 2 ^ 22) := fun even => there (absent.mp even)
    have entry := pte_withEntry (j := j) separate below present small (i := address / 2 ^ 22)
      (by omega) there (address / 4096 % 1024)
    have index : address / 2 ^ 22 = c ∧ address / 4096 % 1024 = j ↔
        address / 4096 = 1024 * c + j := by omega
    rw [if_congr index rfl rfl] at entry
    rw [if_neg there, if_neg old, entry]
    by_cases here : address / 4096 = 1024 * c + j
    · rw [if_pos here, if_pos here]
    · rw [if_neg here, if_neg here]

end Translations

end Views

end PageState

end Snfos
