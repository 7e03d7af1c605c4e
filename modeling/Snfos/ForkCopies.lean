import Snfos.Isolation

set_option autoImplicit false

/- What a fork gives its child: the parent's pages at the parent's addresses, with their
flags and bytes, in frames of its own. -/
namespace Snfos

open ByteMemory

theorem Estate.PageAt.unique {E : Estate} {i j j' j'' c c' p p' : Nat} (place : E.PageAt i j j' c p)
    (place' : E.PageAt i j j'' c' p') : j' = j'' ∧ c = c' ∧ p = p' := by
  obtain ⟨count, held, within, single⟩ := place.block
  obtain ⟨count', held', within', single'⟩ := place'.block
  have index := place.index
  have index' := place'.index
  have same : c = c' := by
    by_cases zero : c = 0
    · by_contra other
      have none := place'.alone (by omega)
      rw [← index, zero, Nat.add_zero, held] at none
      cases none
    · by_cases zero' : c' = 0
      · have none := place.alone zero
        rw [← index', zero', Nat.add_zero, held'] at none
        cases none
      · omega
  obtain rfl : j' = j'' := by omega
  rw [held, Option.some.injEq, Prod.mk.injEq] at held'
  exact ⟨rfl, same, held'.1⟩

namespace Kernel

variable {M : Machine}

/-- Address `a` leads to the same bytes under both directories, with the same flags in both
entries, or to nothing under both. -/
structure SameAt (ram ram' : Nat → Memory) (d d' a : Nat) : Prop where
  absent : Snfos.translate ram d a = none → Snfos.translate ram' d' a = none
  present : ∀ f x, Snfos.translate ram d a = some (f, x) → ∃ f', Snfos.translate ram' d' a = some (f', x) ∧
    Snfos.entry ram' d' (a / 2 ^ 22) % 256 = Snfos.entry ram d (a / 2 ^ 22) % 256 ∧
    Snfos.entry ram' (Snfos.entry ram' d' (a / 2 ^ 22) / 4096) (a / 4096 % 1024) % 256 =
      Snfos.entry ram (Snfos.entry ram d (a / 2 ^ 22) / 4096) (a / 4096 % 1024) % 256 ∧
    ∀ offset, offset < 4096 → ram' f' offset = ram f offset

section Spaces

variable {covered enough : Prop} {spare : M.Budget} {k k' : Kernel M} {w w' : Estates}
  {o o' p p' i j f : Nat} {m m' : ProcessMemory}

/-- A slot of user mode's: the shadow has none and neither has the directory, or both do. -/
theorem Accounts.slot_present (accounts : Accounts covered enough spare k w) (owner : o ≠ 0)
    (ready : (w o).Ready p m) (user : i < 768) :
    m.pageTables i = 0 ∧ Snfos.entry k.ram ((w o).frame .directory 0) i = 0 ∨
      ∃ t, (w o).TableReady i (m.pageTables i) t ∧ m.pageTables i ≠ 0 ∧
        Leads i ((w o).frame (.pageTable i) 0) (Snfos.entry k.ram ((w o).frame .directory 0) i) := by
  have word := accounts.entry owner ready.laid.directory (Nat.succ_pos 0) (by omega : i < 1024)
    fun _ => Or.inr (by omega)
  rw [word]
  rcases ready.laid.slotReady i (by omega) with ⟨zero, _, absent⟩ | ⟨_, ⟨t, table⟩, leads⟩
  · exact Or.inl ⟨zero, absent (Or.inl user)⟩
  · exact Or.inr ⟨t, table, (accounts.fits owner table.table).2, leads⟩

/-- An address whose two entries are known. -/
theorem translate_entries {ram : Nat → Memory} {d a : Nat}
    (directory : Snfos.entry ram d (a / 2 ^ 22) % 2 ≠ 0) :
    translate ram d a =
      if Snfos.entry ram (Snfos.entry ram d (a / 2 ^ 22) / 4096) (a / 4096 % 1024) % 2 = 0 then none
      else some (Snfos.entry ram (Snfos.entry ram d (a / 2 ^ 22) / 4096) (a / 4096 % 1024) / 4096,
        a % 4096) := by
  unfold translate
  dsimp only
  rw [if_neg directory]

/-- The entries for a page in the page tables of parent and child. -/
theorem Accounts.copied_page (accounts : Accounts covered enough spare k w)
    (accounts' : Accounts covered enough spare k' w') (owner : o ≠ 0) (owner' : o' ≠ 0)
    {t t' : ProcessPageTable} (table : (w o).TableReady i p t) (table' : (w' o').TableReady i p' t')
    (pages : ∀ j, j < 1024 → (w o).CopiedPage (w' o') t i j) (inside : j < 1024) :
    (Snfos.entry k.ram ((w o).frame (.pageTable i) 0) j = 0 ∧
      Snfos.entry k'.ram ((w' o').frame (.pageTable i) 0) j = 0) ∨
    ∃ f f', Leads i f (Snfos.entry k.ram ((w o).frame (.pageTable i) 0) j) ∧
      Leads i f' (Snfos.entry k'.ram ((w' o').frame (.pageTable i) 0) j) ∧
      Snfos.entry k'.ram ((w' o').frame (.pageTable i) 0) j % 256 =
        Snfos.entry k.ram ((w o).frame (.pageTable i) 0) j % 256 ∧
      ∀ offset, offset < 4096 → k'.ram f' offset = k.ram f offset := by
  -- the child's pages are blocks of one page each
  have single : ∀ j, j < 1024 → ∀ q count, (w' o').block (.page i j) = some (q, .pages count) →
      count = 1 := by
    intro j inside q count held
    rcases pages j inside with ⟨_, absent⟩ | ⟨_, _, _, q', _, _, held', _⟩
    · rw [absent] at held
      cases held
    · rw [held', Option.some.injEq, Prod.mk.injEq, Body.pages.injEq] at held
      exact held.2.symm
  rcases pages j inside with ⟨zero, absent⟩ | ⟨j', c, q, q', place, listed, held', same, bytes⟩
  · rcases accounts.page_present owner table inside with ⟨_, none⟩ | ⟨_, _, _, _, _, listed, _⟩
    swap
    · exact absurd zero listed
    rcases accounts'.page_present owner' table' inside with ⟨_, none'⟩ | ⟨j₁, c₁, q₁, place₁, _⟩
    · exact Or.inl ⟨none, none'⟩
    obtain ⟨count, held, within, _⟩ := place₁.block
    have index := place₁.index
    obtain rfl := single j₁ (by omega) q₁ count held
    obtain rfl : j₁ = j := by omega
    rw [absent] at held
    cases held
  · rcases accounts.page_present owner table inside with ⟨zero, _⟩ | ⟨j₁, c₁, q₁, place₁, _, _, leads⟩
    · exact absurd zero listed
    obtain ⟨rfl, rfl, rfl⟩ := place₁.unique place
    rcases accounts'.page_present owner' table' inside with ⟨_, none⟩ | ⟨j₂, c₂, q₂, place₂, _, _, leads'⟩
    · rcases table'.pages j inside with ⟨_, absent, _⟩ | ⟨_, _, _, _, _, entered⟩
      · rw [held'] at absent
        cases absent
      · have entry := accounts'.entry owner' table'.pageTable (Nat.succ_pos 0) inside nofun
        rw [← entry, none] at entered
        exact absurd rfl entered.odd
    have first : c₂ = 0 := by
      by_contra later
      have absent := place₂.alone later
      rw [held'] at absent
      cases absent
    have index := place₂.index
    rw [first] at index
    obtain rfl : j₂ = j := by omega
    rw [first] at leads'
    obtain ⟨count, held, within, _⟩ := place.block
    refine Or.inr ⟨_, _, leads, leads', ?_, fun offset low => ?_⟩
    · rw [accounts'.entry owner' table'.pageTable (Nat.succ_pos 0) inside nofun,
        accounts.entry owner table.pageTable (Nat.succ_pos 0) inside nofun]
      exact same
    · rw [(accounts'.pages o' owner' _ _ _ held' 0 (Nat.succ_pos 0)).2 offset low nofun,
        (accounts.pages o owner _ _ _ held c₁ within).2 offset low nofun]
      exact bytes offset low

/-- The child's mapping of a user address is its parent's. -/
theorem Accounts.copied_at (accounts : Accounts covered enough spare k w)
    (accounts' : Accounts covered enough spare k' w') (owner : o ≠ 0) (owner' : o' ≠ 0)
    (ready : (w o).Ready p m) (cloned : Cloned (w o) m (w' o') p' m') {a : Nat} (user : a < 0xC0000000) :
    SameAt k.ram k'.ram ((w o).frame .directory 0) ((w' o').frame .directory 0) a := by
  have low : a / 2 ^ 22 < 768 := by omega
  have inside : a / 4096 % 1024 < 1024 := Nat.mod_lt _ (by decide)
  have ready' := cloned.ready
  have unmapped : ∀ {ram : Nat → Memory} {d : Nat}, Snfos.entry ram d (a / 2 ^ 22) = 0 →
      Snfos.translate ram d a = none := by
    intro ram d absent
    unfold Snfos.translate
    dsimp only
    rw [absent]
    rfl
  rcases cloned.copied (a / 2 ^ 22) (by omega) with
    ⟨zero, zero'⟩ | ⟨t, held, nonzero, nonzero', flags, pages⟩
  · -- neither has a table
    rcases accounts.slot_present owner ready low with ⟨_, absent⟩ | ⟨_, _, listed, _⟩
    swap
    · exact absurd zero listed
    rcases accounts'.slot_present owner' ready' low with ⟨_, absent'⟩ | ⟨_, _, listed, _⟩
    swap
    · exact absurd zero' listed
    refine ⟨fun _ => unmapped absent', fun f x found => ?_⟩
    rw [unmapped absent] at found
    cases found
  rcases accounts.slot_present owner ready low with ⟨zero, _⟩ | ⟨t₁, table, _, leads⟩
  · exact absurd zero nonzero
  rcases accounts'.slot_present owner' ready' low with ⟨zero, _⟩ | ⟨t', table', _, leads'⟩
  · exact absurd zero nonzero'
  obtain rfl : t₁ = t := by
    have same := table.table.symm.trans held
    simpa using same
  have entry := accounts.entry owner ready.laid.directory (Nat.succ_pos 0)
    (by omega : a / 2 ^ 22 < 1024) fun _ => Or.inr (by omega)
  have entry' := accounts'.entry owner' ready'.laid.directory (Nat.succ_pos 0)
    (by omega : a / 2 ^ 22 < 1024) fun _ => Or.inr (by omega)
  have whole := translate_entries leads.odd
  have whole' := translate_entries leads'.odd
  rw [leads.frame] at whole
  rw [leads'.frame] at whole'
  rcases accounts.copied_page accounts' owner owner' table table' pages inside with
    ⟨none, none'⟩ | ⟨f, f', enters, enters', same, bytes⟩
  · rw [none, Nat.zero_mod, if_pos rfl] at whole
    rw [none', Nat.zero_mod, if_pos rfl] at whole'
    refine ⟨fun _ => whole', fun f x found => ?_⟩
    rw [whole] at found
    cases found
  · rw [if_neg enters.odd, enters.frame] at whole
    rw [if_neg enters'.odd, enters'.frame] at whole'
    refine ⟨fun absent => ?_, fun f₁ x found => ?_⟩
    · rw [whole] at absent
      cases absent
    · rw [whole] at found
      cases found
      refine ⟨f', whole', ?_, ?_, bytes⟩
      · rw [entry, entry', flags]
      · rw [leads.frame, leads'.frame, same]

end Spaces

end Kernel

namespace System

open Kernel

variable {M : Machine}

end System

end Snfos
