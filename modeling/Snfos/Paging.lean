import Snfos.Kernel

set_option autoImplicit false

/- What holds of the page tables at every moment, and how mapping the next heap
page keeps it. Every directory in use maps a heap page to its one home frame. -/
namespace Snfos.Kernel

open ByteMemory

variable {M : Machine}

section Entries

theorem or_flags (frame : Nat) {flags : Nat} (small : flags < 4096) :
    4096 * frame ||| flags = 4096 * frame + flags :=
  (Nat.two_pow_add_eq_or_of_lt (i := 12) small frame).symm

theorem entry_update_ne {ram : Nat → Memory} {f f' : Nat} (bytes : Memory) (i : Nat)
    (different : f' ≠ f) : entry (Function.update ram f bytes) f' i = entry ram f' i := by
  unfold entry
  rw [Function.update_of_ne different]

theorem entry_store {ram : Nat → Memory} {f i value : Nat} (bound : value < 2 ^ 32) (j : Nat) :
    entry (Function.update ram f (store32 (ram f) (4 * i) value)) f j =
      if j = i then value else entry ram f j := by
  unfold entry
  rw [Function.update_self]
  split
  · next here =>
      rw [here, load32_store32_of_lt _ _ _ bound]
  · exact load32_store32_ne _ _ _ _ (by omega)

theorem entry_clear {ram : Nat → Memory} {f i : Nat} (inside : i < 1024) :
    entry (Function.update ram f (fill (ram f) 0 4096 0)) f i = 0 := by
  unfold entry
  rw [Function.update_self]
  exact load32_fill_zero _ _ _ _ (by omega) (by omega)

theorem entry_congr {ram ram' : Nat → Memory} {f f' i : Nat}
    (same : ∀ offset, 4 * i ≤ offset → offset < 4 * i + 4 → ram' f' offset = ram f offset) :
    entry ram' f' i = entry ram f i := by
  unfold entry load32
  rw [same (4 * i) (by omega) (by omega), same (4 * i + 1) (by omega) (by omega),
    same (4 * i + 2) (by omega) (by omega), same (4 * i + 3) (by omega) (by omega)]

end Entries

/-- Page `v` of the heap, which reaches up to `top`. -/
def HeapPage (M : Machine) (top v : Nat) : Prop :=
  M.layout.heapStart ≤ 4096 * v ∧ 4096 * v < top

/-- Table `i` of directory `d`, past the one that all directories share: none, or one
of its own, which maps pages that were mapped under `d`. -/
def OwnTable (top : Nat) (k : Kernel M) (d i : Nat) : Prop :=
  entry k.ram d i = 0 ∨ ∃ t, entry k.ram d i = 4096 * t + 3 ∧
    k.uses t = some (.pageTable d i) ∧ ∀ j, j < 1024 → entry k.ram t j = 0 ∨
      HeapPage M top (1024 * i + j) ∧ k.mapper (1024 * i + j) = d ∧
        entry k.ram t j = 4096 * k.home (1024 * i + j) + 3

/-- A directory the processor can run on. -/
structure Space (top : Nat) (k : Kernel M) (d : Nat) : Prop where
  place : k.uses d = some .bootPageDirectory ∨ ∃ v, k.uses d = some (.heap v)
  self : entry k.ram d 1023 = 4096 * d + 3
  shared : entry k.ram d 768 = 4096 * M.kernelPageTable + 3
  own : ∀ i, 769 ≤ i → i < 1022 → OwnTable top k d i

/-- The current directory maps page `v`. -/
def Mapped (k : Kernel M) (v : Nat) : Prop :=
  (translate k.ram (k.cr3 / 4096) (4096 * v)).isSome

/-- The state of the page tables with the heap mapped up to `top`. With `covered`
the current directory maps all of it, with `enough` there are `spare` frames left. -/
structure Paging (covered enough : Prop) (spare top : Nat) (k : Kernel M) : Prop where
  aligned : top % 4096 = 0
  lower : M.layout.heapStart ≤ top
  upper : top ≤ 0xFF800000
  hinted : k.frames.Hinted
  used : ∀ f u, k.uses f = some u → f < 2 ^ 20 ∧ k.frames.used f = true
  low : k.uses 0 = some .low
  kernelPageTable : k.uses M.kernelPageTable = some .kernelPageTable
  bootPageDirectory : k.uses M.bootPageDirectory = some .bootPageDirectory
  homes : ∀ v, HeapPage M top v → k.uses (k.home v) = some (.heap v)
  shared : ∀ j, j < 1024 → HeapPage M top (786432 + j) →
    entry k.ram M.kernelPageTable j = 4096 * k.home (786432 + j) + 3
  beyond : ∀ j, j < 1024 → top ≤ 4096 * (786432 + j) → entry k.ram M.kernelPageTable j = 0
  boot : Space top k M.bootPageDirectory
  current : Space top k (k.cr3 / 4096)
  covers : covered → ∀ v, HeapPage M top v → Mapped k v
  supply : enough → spare ≤ k.frames.unused

/-- The faults a command may end in: those of a heap that is not known to be mapped
or to last, and an index that runs off its table where a module has more pages than
a table has entries. -/
def Excused (M : Machine) (covered enough : Prop) : Fault → Prop
  | .exhausted => ¬ enough
  | .pageFault => ¬ covered
  | .halted => ¬ covered
  | .refused => False
  | .overrun => ∃ m ∈ M.modules, 1024 < m.numCodePages
  | .undefined => False

section Translation

variable {covered enough : Prop} {spare top : Nat} {k : Kernel M} {d : Nat}

theorem Paging.spend {spare' : Nat} (paging : Paging covered enough spare top k)
    (fewer : spare' ≤ spare) : Paging covered enough spare' top k :=
  { paging with supply := fun so => Nat.le_trans fewer (paging.supply so) }

theorem HeapPage.bounds {v : Nat} (page : HeapPage M top v) (upper : top ≤ 0xFF800000) :
    768 ≤ v / 1024 ∧ v / 1024 < 1022 := by
  have low := M.layout.heapStart_facts
  unfold HeapPage at page
  omega

/-- An address in the window of page tables reaches the table entry `i` leads to. -/
theorem translate_window {ram : Nat → Memory} (odd : entry ram d 1023 % 2 ≠ 0)
    (leads : entry ram d 1023 / 4096 = d) {i j : Nat} (iInside : i < 1024) (jInside : j < 1024) :
    translate ram d (tableEntry i j) =
      if entry ram d i % 2 = 0 then none else some (entry ram d i / 4096, 4 * j) := by
  unfold tableEntry
  have pde : (0xFFC00000 + 4096 * i + 4 * j) / 2 ^ 22 = 1023 := by omega
  have pte : (0xFFC00000 + 4096 * i + 4 * j) / 4096 % 1024 = i := by omega
  have offset : (0xFFC00000 + 4096 * i + 4 * j) % 4096 = 4 * j := by omega
  simp only [translate, pde, pte, offset, odd, leads, ↓reduceIte]

theorem translate_tableEntry {ram : Nat → Memory} (self : entry ram d 1023 = 4096 * d + 3)
    {i j : Nat} (iInside : i < 1024) (jInside : j < 1024) :
    translate ram d (tableEntry i j) =
      if entry ram d i % 2 = 0 then none else some (entry ram d i / 4096, 4 * j) :=
  translate_window (by omega) (by omega) iInside jInside

/-- The directory is the last page of the window. -/
theorem directoryEntry_eq (i : Nat) : directoryEntry i = tableEntry 1023 i := by
  unfold directoryEntry tableEntry
  omega

theorem translate_directoryEntry {ram : Nat → Memory} (self : entry ram d 1023 = 4096 * d + 3)
    {i : Nat} (inside : i < 1024) : translate ram d (directoryEntry i) = some (d, 4 * i) := by
  rw [directoryEntry_eq, translate_tableEntry self (by decide) inside, if_neg (by omega),
    show entry ram d 1023 / 4096 = d by omega]

/-- Entry `v / 1024` of a directory, for a heap page. -/
theorem Space.table (space : Space top k d) {i : Nat} (lower : 768 ≤ i) (upper : i < 1022) :
    entry k.ram d i = 0 ∧ i ≠ 768 ∨ ∃ t, entry k.ram d i = 4096 * t + 3 ∧
      (i = 768 ∧ t = M.kernelPageTable ∨ i ≠ 768 ∧ k.uses t = some (.pageTable d i)) := by
  by_cases first : i = 768
  · subst first
    exact Or.inr ⟨_, space.shared, Or.inl ⟨rfl, rfl⟩⟩
  · rcases space.own i (by omega) upper with absent | ⟨t, present, use, _⟩
    · exact Or.inl ⟨absent, first⟩
    · exact Or.inr ⟨t, present, Or.inr ⟨first, use⟩⟩

/-- The entry of a heap page in the table that a directory leads to. -/
theorem Space.page_entry (space : Space top k d) (paging : Paging covered enough spare top k) {v t : Nat}
    (page : HeapPage M top v) (leads : entry k.ram d (v / 1024) = 4096 * t + 3) :
    entry k.ram t (v % 1024) = 0 ∧ v / 1024 ≠ 768 ∨
      entry k.ram t (v % 1024) = 4096 * k.home v + 3 ∧
        (v / 1024 = 768 ∨ k.mapper v = d) := by
  obtain ⟨lower, upper⟩ := page.bounds paging.upper
  have whole : 1024 * (v / 1024) + v % 1024 = v := by omega
  by_cases first : v / 1024 = 768
  · have table : t = M.kernelPageTable := by
      rw [first, space.shared] at leads
      omega
    have index : 786432 + v % 1024 = v := by omega
    have home := paging.shared (v % 1024) (by omega) (by rwa [index])
    rw [index] at home
    rw [table]
    exact Or.inr ⟨home, Or.inl first⟩
  · rcases space.own (v / 1024) (by omega) upper with absent | ⟨t', present, _, entries⟩
    · omega
    · obtain rfl : t' = t := by omega
      have which := entries (v % 1024) (by omega)
      rw [whole] at which
      rcases which with zero | ⟨_, mapper, home⟩
      · exact Or.inl ⟨zero, first⟩
      · exact Or.inr ⟨home, Or.inr mapper⟩

/-- A directory that maps a heap address maps it into the page's home frame. -/
theorem Space.translate_heap (space : Space top k d) (paging : Paging covered enough spare top k) {a : Nat}
    (page : HeapPage M top (a / 4096)) :
    translate k.ram d a = none ∨ translate k.ram d a = some (k.home (a / 4096), a % 4096) := by
  obtain ⟨lower, upper⟩ := page.bounds paging.upper
  have pde : a / 2 ^ 22 = a / 4096 / 1024 := by omega
  have odd : ∀ t, (4096 * t + 3) % 2 ≠ 0 := fun t => by omega
  have frame : ∀ t, (4096 * t + 3) / 4096 = t := fun t => by omega
  rcases space.table lower upper with ⟨absent, _⟩ | ⟨t, present, _⟩
  · left
    simp only [translate, pde, absent, Nat.zero_mod, ↓reduceIte]
  · rcases space.page_entry paging page present with ⟨zero, _⟩ | ⟨home, _⟩
    · left
      simp only [translate, pde, present, odd, frame, zero, Nat.zero_mod, ↓reduceIte]
    · right
      simp only [translate, pde, present, odd, frame, home, ↓reduceIte]

/-- The pages of the shared table are mapped under every directory. -/
theorem Space.translate_window (space : Space top k d) (paging : Paging covered enough spare top k) {a : Nat}
    (page : HeapPage M top (a / 4096)) (window : a < 0xC0400000) :
    translate k.ram d a = some (k.home (a / 4096), a % 4096) := by
  obtain ⟨lower, _⟩ := page.bounds paging.upper
  have first : a / 4096 / 1024 = 768 := by omega
  have pde : a / 2 ^ 22 = 768 := by omega
  have odd : ∀ t, (4096 * t + 3) % 2 ≠ 0 := fun t => by omega
  have frame : ∀ t, (4096 * t + 3) / 4096 = t := fun t => by omega
  have leads := space.shared
  rw [← first] at leads
  rcases space.page_entry paging page leads with ⟨_, other⟩ | ⟨home, _⟩
  · exact absurd first other
  · simp only [translate, pde, space.shared, odd, frame, home, ↓reduceIte]

/-- A heap that has not outgrown the shared table has its pages there. -/
theorem HeapPage.inside_window {v : Nat} (page : HeapPage M k.mappedEnd v)
    (window : M.allocator.heapEnd k.heap ≤ 0xC0400000) : 4096 * v < 0xC0400000 := by
  have upper : 4096 * v < k.mappedEnd := page.2
  have lower := page.1
  unfold mappedEnd at upper
  split at upper <;> omega

/-- The first byte of such a page. -/
theorem Space.translate_page (space : Space top k d) (paging : Paging covered enough spare top k)
    {v : Nat} (page : HeapPage M top v) (window : 4096 * v < 0xC0400000) :
    translate k.ram d (4096 * v) = some (k.home v, 0) := by
  have whole : 4096 * v / 4096 = v := Nat.mul_div_cancel_left v (by decide)
  rw [← whole] at page
  have here := space.translate_window paging page window
  rwa [whole, Nat.mul_mod_right] at here

end Translation

section Access

variable {k : Kernel M}

theorem ensures_resolve {excused : Fault → Prop} {a : Nat} {Q : Nat × Nat → Kernel M → Prop}
    (present : ∀ place, translate k.ram (k.cr3 / 4096) a = some place → Q place k)
    (absent : translate k.ram (k.cr3 / 4096) a = none → excused .pageFault) :
    Command.Ensures excused k (resolve a) Q := by
  unfold resolve
  apply Command.ensures_get_bind
  cases found : translate k.ram (k.cr3 / 4096) a with
  | none => exact Command.ensures_throw _ (absent found)
  | some place => exact Command.ensures_pure place (present place found)

theorem ensures_readWord {excused : Fault → Prop} {a : Nat} {Q : Nat → Kernel M → Prop}
    (present : ∀ f offset, translate k.ram (k.cr3 / 4096) a = some (f, offset) →
      Q (load32 (k.ram f) offset) k)
    (absent : translate k.ram (k.cr3 / 4096) a = none → excused .pageFault) :
    Command.Ensures excused k (readWord a) Q := by
  unfold readWord
  refine Command.ensures_bind (ensures_resolve
    (Q := fun place k' => translate k.ram (k.cr3 / 4096) a = some place ∧ k' = k)
    (fun place found => ⟨found, rfl⟩) absent) ?_
  rintro ⟨f, offset⟩ _ ⟨found, rfl⟩
  exact Command.ensures_get_bind (Command.ensures_pure _ (present f offset found))

theorem ensures_editFrame {excused : Fault → Prop} {a : Nat} {edit : Memory → Nat → Memory}
    {Q : Unit → Kernel M → Prop}
    (present : ∀ f offset, translate k.ram (k.cr3 / 4096) a = some (f, offset) →
      Q () { k with ram := Function.update k.ram f (edit (k.ram f) offset) })
    (absent : translate k.ram (k.cr3 / 4096) a = none → excused .pageFault) :
    Command.Ensures excused k (editFrame a edit) Q := by
  unfold editFrame
  refine Command.ensures_bind (ensures_resolve
    (Q := fun place k' => translate k.ram (k.cr3 / 4096) a = some place ∧ k' = k)
    (fun place found => ⟨found, rfl⟩) absent) ?_
  rintro ⟨f, offset⟩ _ ⟨found, rfl⟩
  exact Command.ensures_modify _ (present f offset found)

end Access

end Snfos.Kernel
