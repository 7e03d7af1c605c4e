import Snfos.PageDirectory
import Mathlib.Data.Set.Insert

set_option autoImplicit false

/- The page tables as they grow and shrink. A page table is itself a page of the address
space, in the window of page tables, so pages and tables are added and taken away alike. -/
namespace Snfos.PageState

open ByteMemory

/-- The entry of page `v`. -/
def pageEntry (s : PageState) (v : Nat) : Nat := s.pte (v / 1024) (v % 1024)

/-- The page that a table is in the window. -/
def windowPage (c : Nat) : Nat := 1024 * 1023 + c

/-- What the entry of page `v` was, or is once its table was added. -/
def before (s : PageState) (v : Nat) : Nat :=
  if s.Absent (v / 1024) then 0 else s.pageEntry v

/-- The pages of `added`, and only they, were entered since `s₀`, each on its frame. -/
structure Entered (s₀ : PageState) (added : Set Nat) (frame : Nat → Nat) (s : PageState) : Prop
    extends SelfMapped s where
  directory : s.directory = s₀.directory
  entered : ∀ v, v ∈ added → ¬ s.Absent (v / 1024) ∧ s.pageEntry v = 4096 * frame v + 3
  kept : ∀ v, v < 2 ^ 20 → v ∉ added → ¬ s.Absent (v / 1024) → s.pageEntry v = s₀.before v

/-- Their frames, clear and different, are what was taken from the bitmap since `s₀`. -/
structure Taken (s₀ : PageState) (added : Set Nat) (frame : Nat → Nat) (s : PageState) : Prop where
  used : ∀ n, s.frames.used n = true ↔ s₀.frames.used n = true ∨ ∃ v ∈ added, frame v = n
  clear : ∀ v ∈ added, frame v < 2 ^ 20 ∧ s₀.frames.used (frame v) = false
  apart : Set.InjOn frame added

section Pages

variable {s₀ s : PageState} {added : Set Nat} {frame : Nat → Nat} {c v : Nat}

theorem windowPage_div (inside : c < 1024) : windowPage c / 1024 = 1023 := by
  unfold windowPage
  omega

theorem windowPage_mod (inside : c < 1024) : windowPage c % 1024 = c := by
  unfold windowPage
  omega

/-- The entries of the directory, seen in the window. -/
theorem SelfMapped.pageEntry_window (mapped : SelfMapped s) (inside : c < 1024) :
    s.pageEntry (windowPage c) = entry s.ram s.directory c := by
  unfold pageEntry pte
  rw [windowPage_div inside, windowPage_mod inside, mapped.leads]

theorem SelfMapped.before_window (mapped : SelfMapped s) (inside : c < 1024) :
    s.before (windowPage c) = entry s.ram s.directory c := by
  unfold before
  rw [windowPage_div inside, if_neg mapped.present, mapped.pageEntry_window inside]

/-- Entry `c` of the directory since `s₀`. -/
theorem Entered.directoryEntry (entered : Entered s₀ added frame s) (first : SelfMapped s₀)
    (inside : c < 1024) :
    windowPage c ∈ added ∧ entry s.ram s.directory c = 4096 * frame (windowPage c) + 3 ∨
      windowPage c ∉ added ∧ entry s.ram s.directory c = entry s₀.ram s₀.directory c := by
  by_cases new : windowPage c ∈ added
  · refine Or.inl ⟨new, ?_⟩
    rw [← entered.pageEntry_window inside]
    exact (entered.entered _ new).2
  · refine Or.inr ⟨new, ?_⟩
    rw [← entered.pageEntry_window inside, ← first.before_window inside]
    have present : ¬ s.Absent (windowPage c / 1024) := by
      rw [windowPage_div inside]
      exact entered.present
    refine entered.kept _ ?_ new present
    unfold windowPage
    omega

theorem Entered.absent_iff (entered : Entered s₀ added frame s) (first : SelfMapped s₀)
    (inside : c < 1024) : s.Absent c ↔ s₀.Absent c ∧ windowPage c ∉ added := by
  unfold Absent
  rcases entered.directoryEntry first inside with ⟨new, same⟩ | ⟨old, same⟩
  · rw [same]
    exact ⟨fun even => absurd even (by omega), fun both => absurd new both.2⟩
  · rw [same]
    exact ⟨fun even => ⟨even, old⟩, And.left⟩

/-- The tables are those of `s₀` and the ones that were added, each in a frame of its own. -/
theorem Entered.separate (entered : Entered s₀ added frame s) (taken : Taken s₀ added frame s)
    (first : Separate s₀) : Separate s := by
  have cases : ∀ i, i < 1024 → ¬ s.Absent i →
      windowPage i ∈ added ∧ s.table i = frame (windowPage i) ∨
        ¬ s₀.Absent i ∧ s.table i = s₀.table i := by
    intro i inside present
    unfold table
    rcases entered.directoryEntry first.toSelfMapped inside with ⟨new, same⟩ | ⟨old, same⟩
    · rw [same]
      exact Or.inl ⟨new, by omega⟩
    · rw [same]
      rw [entered.absent_iff first.toSelfMapped inside] at present
      exact Or.inr ⟨fun absent => present ⟨absent, old⟩, rfl⟩
  refine ⟨entered.toSelfMapped, fun i i' inside inside' present present' same => ?_,
    fun i inside present => ?_⟩
  · rcases cases i inside present with ⟨new, here⟩ | ⟨old, here⟩ <;>
      rcases cases i' inside' present' with ⟨new', here'⟩ | ⟨old', here'⟩
    · have page := taken.apart new new' (by rw [← here, ← here', same])
      unfold windowPage at page
      omega
    · have use := first.tables i' inside' old'
      rw [← here', ← same, here, (taken.clear _ new).2] at use
      cases use
    · have use := first.tables i inside old
      rw [← here, same, here', (taken.clear _ new').2] at use
      cases use
    · exact first.apart i i' inside inside' old old' (by rw [← here, ← here', same])
  · rw [taken.used]
    rcases cases i inside present with ⟨new, here⟩ | ⟨old, here⟩
    · exact Or.inr ⟨_, new, here.symm⟩
    · rw [here]
      exact Or.inl (first.tables i inside old)

/-- Before anything is added. -/
theorem Entered.refl (first : SelfMapped s) (frame : Nat → Nat) : Entered s ∅ frame s := by
  refine ⟨first, rfl, fun v member => absurd member (Set.notMem_empty v), fun v _ _ present => ?_⟩
  unfold before
  rw [if_neg present]

theorem Taken.refl (s : PageState) (frame : Nat → Nat) : Taken s ∅ frame s :=
  ⟨fun n => ⟨Or.inl, fun use => use.resolve_right fun new => by simp at new⟩,
    fun v member => absurd member (Set.notMem_empty v), Set.injOn_empty frame⟩

end Pages

section Steps

variable {s₀ s : PageState} {added : Set Nat} {frame : Nat → Nat} {c v n : Nat}

theorem pageEntry_withEntry (separate : Separate s) (below : v / 1024 < 1023)
    (present : ¬ s.Absent (v / 1024)) {value : Nat} (small : value < 2 ^ 32) {u : Nat}
    (inside : u < 2 ^ 20) (there : ¬ s.Absent (u / 1024)) :
    (s.withEntry (v / 1024) (v % 1024) value).pageEntry u = if u = v then value else s.pageEntry u := by
  have same : u / 1024 = v / 1024 ∧ u % 1024 = v % 1024 ↔ u = v := by omega
  unfold pageEntry
  rw [pte_withEntry separate below present small (by omega) there, if_congr same rfl rfl]

/-- Entry `v` below the window was written: a page that stays to be entered, or is cleared
as it was before. -/
theorem Entered.withEntry (entered : Entered s₀ added frame s) (separate : Separate s)
    (below : v / 1024 < 1023) (present : ¬ s.Absent (v / 1024)) {value : Nat}
    (small : value < 2 ^ 32) {added' : Set Nat} (others : ∀ u, u ≠ v → (u ∈ added' ↔ u ∈ added))
    (here : v ∈ added' ∧ value = 4096 * frame v + 3 ∨ v ∉ added' ∧ value = s₀.before v)
    (bounded : ∀ u ∈ added', u < 2 ^ 20) :
    Entered s₀ added' frame (s.withEntry (v / 1024) (v % 1024) value) := by
  have absent := absent_withEntry separate below present (v % 1024) value
  have kept := (separate.withEntry below present (v % 1024) value).toSelfMapped
  refine ⟨kept, entered.directory, fun u member => ?_, fun u inside apart there => ?_⟩
  · rw [absent]
    by_cases same : u = v
    · rw [same] at member ⊢
      refine ⟨present, ?_⟩
      rw [pageEntry_withEntry separate below present small (by omega) present, if_pos rfl]
      exact (here.resolve_right fun out => out.1 member).2
    · obtain ⟨there, value⟩ := entered.entered u ((others u same).mp member)
      refine ⟨there, ?_⟩
      rw [pageEntry_withEntry separate below present small (bounded u member) there, if_neg same, value]
  · rw [absent] at there
    rw [pageEntry_withEntry separate below present small inside there]
    by_cases same : u = v
    · rw [if_pos same, same]
      rw [same] at apart
      exact (here.resolve_left fun member => apart member.1).2
    · rw [if_neg same]
      exact entered.kept u inside (fun member => apart ((others u same).mpr member)) there

/-- A new table, of which no page is entered yet. -/
theorem Entered.withTable (entered : Entered s₀ added frame s) (separate : Separate s)
    (first : SelfMapped s₀) (below : c < 1023) (missing : s.Absent c) (bound : n < 2 ^ 20)
    (unset : s.frames.used n = false) (frames : frame (windowPage c) = n)
    (bounded : ∀ u ∈ added, u < 2 ^ 20) :
    Entered s₀ (insert (windowPage c) added) frame (s.withTable c n) := by
  have absent := absent_withTable (c := c) separate bound unset
  have mapped := (separate.withTable below bound unset).toSelfMapped
  have window : (windowPage c) / 1024 = 1023 := windowPage_div (by omega)
  have directory : ∀ i, i < 1024 → (s.withTable c n).pageEntry (windowPage i) =
      if i = c then 4096 * n + 3 else s.pageEntry (windowPage i) := by
    intro i inside
    rw [mapped.pageEntry_window inside, entered.pageEntry_window inside]
    exact directory_withTable separate bound unset i
  -- a page outside the window keeps its entry, or is of the new table
  have pages : ∀ u, u / 1024 < 1023 → (u / 1024 = c ∨ ¬ s.Absent (u / 1024)) →
      (s.withTable c n).pageEntry u = if u / 1024 = c then 0 else s.pageEntry u :=
    fun u under there => pte_withTable separate bound unset under (Nat.mod_lt u (by decide)) there
  have whole : ∀ u, u < 2 ^ 20 → ¬ u / 1024 < 1023 → ∃ i, i < 1024 ∧ u = windowPage i := by
    intro u inside high
    refine ⟨u % 1024, Nat.mod_lt u (by decide), ?_⟩
    unfold windowPage
    omega
  refine ⟨mapped, entered.directory, fun u member => ?_, fun u inside apart there => ?_⟩
  · rcases Set.mem_insert_iff.mp member with rfl | old
    · refine ⟨?_, ?_⟩
      · rw [window]
        exact mapped.present
      · rw [directory c (by omega), if_pos rfl, frames]
    · obtain ⟨there, value⟩ := entered.entered u old
      have elsewhere : u / 1024 ≠ c := fun same => there (same.symm ▸ missing)
      refine ⟨fun even => there ((absent _).mp even).1, ?_⟩
      rw [← value]
      by_cases under : u / 1024 < 1023
      · rw [pages u under (Or.inr there), if_neg elsewhere]
      · obtain ⟨i, within, rfl⟩ := whole u (bounded u old) under
        have different : i ≠ c := by
          rintro rfl
          exact ((entered.absent_iff first within).mp missing).2 old
        rw [directory i within, if_neg different]
  · rw [Set.mem_insert_iff, not_or] at apart
    by_cases under : u / 1024 < 1023
    · by_cases here : u / 1024 = c
      · rw [pages u under (Or.inl here), if_pos here]
        unfold before
        rw [here, if_pos ((entered.absent_iff first (by omega)).mp missing).1]
      · have old : ¬ s.Absent (u / 1024) := fun even => there ((absent _).mpr ⟨even, here⟩)
        rw [pages u under (Or.inr old), if_neg here]
        exact entered.kept u inside apart.2 old
    · obtain ⟨i, within, rfl⟩ := whole u inside under
      have different : i ≠ c := by
        rintro rfl
        exact apart.1 rfl
      rw [directory i within, if_neg different]
      apply entered.kept _ inside apart.2
      rw [windowPage_div within]
      exact entered.present

/-- A table of which no page is entered is taken away. -/
theorem Entered.withoutTable (entered : Entered s₀ added frame s) (separate : Separate s)
    (first : SelfMapped s₀) (below : c < 1023) (unused : ∀ u ∈ added, u / 1024 ≠ c)
    (zero : entry s₀.ram s₀.directory c = 0) (bounded : ∀ u ∈ added, u < 2 ^ 20) :
    Entered s₀ (added \ {windowPage c}) frame (s.withEntry 1023 c 0) := by
  have directory : ∀ i, entry (s.withEntry 1023 c 0).ram s.directory i =
      if i = c then 0 else entry s.ram s.directory i := by
    intro i
    rw [← separate.leads, entry_withEntry (by decide)]
    exact if_congr (by simp only [true_and]) rfl rfl
  have absent : ∀ i, (s.withEntry 1023 c 0).Absent i ↔ i = c ∨ s.Absent i := by
    intro i
    show entry (s.withEntry 1023 c 0).ram s.directory i % 2 = 0 ↔ _
    rw [directory]
    by_cases here : i = c
    · rw [if_pos here]
      exact ⟨fun _ => Or.inl here, fun _ => rfl⟩
    · rw [if_neg here]
      exact ⟨Or.inr, fun either => either.resolve_left here⟩
  have table : ∀ i, i ≠ c → (s.withEntry 1023 c 0).table i = s.table i := by
    intro i different
    show entry (s.withEntry 1023 c 0).ram s.directory i / 4096 = _
    rw [directory, if_neg different]
    rfl
  have entries : ∀ u, u < 2 ^ 20 → u / 1024 ≠ c → ¬ s.Absent (u / 1024) →
      (s.withEntry 1023 c 0).pageEntry u = if u = windowPage c then 0 else s.pageEntry u := by
    intro u inside different there
    unfold pageEntry pte
    rw [table _ different, entry_withEntry (by decide)]
    refine if_congr ⟨fun both => ?_, fun same => ?_⟩ rfl rfl
    · have high := separate.apart _ 1023 (by omega) (by decide) there separate.present both.1
      unfold windowPage
      omega
    · rw [same, windowPage_div (by omega), windowPage_mod (by omega)]
      exact ⟨rfl, rfl⟩
  refine ⟨⟨?_, ?_⟩, entered.directory, fun u member => ?_, fun u inside apart there => ?_⟩
  · rw [absent]
    exact fun either => either.elim (by omega) separate.present
  · rw [table _ (by omega)]
    exact separate.leads
  · obtain ⟨old, different⟩ := member
    obtain ⟨there, value⟩ := entered.entered u old
    rw [absent]
    refine ⟨fun either => either.elim (unused u old) there, ?_⟩
    have apart : u ≠ windowPage c := different
    rw [entries u (bounded u old) (unused u old) there, if_neg apart, value]
  · rw [absent, not_or] at there
    rw [entries u inside there.1 there.2]
    by_cases here : u = windowPage c
    · rw [if_pos here, here, first.before_window (by omega), zero]
    · rw [if_neg here]
      exact entered.kept u inside (fun old => apart ⟨old, here⟩) there.2

theorem Entered.congr (entered : Entered s₀ added frame s) {frame' : Nat → Nat}
    (same : ∀ v ∈ added, frame' v = frame v) (frames : Frames) :
    Entered s₀ added frame' { s with frames := frames } :=
  ⟨⟨entered.present, entered.leads⟩, entered.directory, fun v member => by
    rw [same v member]
    exact entered.entered v member, entered.kept⟩

/-- A frame that was clear is taken for page `v`. -/
theorem Taken.take (taken : Taken s₀ added frame s) (fresh : v ∉ added) (bound : n < 2 ^ 20)
    (unset : s.frames.used n = false) {s' : PageState} (frames : s'.frames = s.frames.take n) :
    Taken s₀ (insert v added) (Function.update frame v n) s' := by
  have other : ∀ u ∈ added, Function.update frame v n u = frame u := by
    intro u member
    refine Function.update_of_ne ?_ _ _
    rintro rfl
    exact fresh member
  have free : ∀ u ∈ added, frame u ≠ n := by
    rintro u member rfl
    have use := (taken.used (frame u)).mpr (Or.inr ⟨u, member, rfl⟩)
    rw [unset] at use
    cases use
  refine ⟨fun k => ?_, fun u member => ?_, ?_⟩
  · rw [frames, Frames.used_take, Bool.or_eq_true, decide_eq_true_eq, taken.used]
    constructor
    · rintro ((use | ⟨u, member, rfl⟩) | rfl)
      · exact Or.inl use
      · exact Or.inr ⟨u, Set.mem_insert_of_mem v member, other u member⟩
      · exact Or.inr ⟨v, Set.mem_insert v added, Function.update_self ..⟩
    · rintro (use | ⟨u, member, rfl⟩)
      · exact Or.inl (Or.inl use)
      · rcases Set.mem_insert_iff.mp member with rfl | old
        · exact Or.inr (Function.update_self ..)
        · rw [other u old]
          exact Or.inl (Or.inr ⟨u, old, rfl⟩)
  · rcases Set.mem_insert_iff.mp member with rfl | old
    · rw [Function.update_self]
      refine ⟨bound, Bool.eq_false_iff.mpr fun use => ?_⟩
      rw [(taken.used n).mpr (Or.inl use)] at unset
      cases unset
    · rw [other u old]
      exact taken.clear u old
  · intro u member u' member' same
    rcases Set.mem_insert_iff.mp member with rfl | old <;>
      rcases Set.mem_insert_iff.mp member' with rfl | old'
    · rfl
    · rw [Function.update_self, other u' old'] at same
      exact absurd same.symm (free u' old')
    · rw [Function.update_self, other u old] at same
      exact absurd same (free u old)
    · rw [other u old, other u' old'] at same
      exact taken.apart old old' same

/-- The frame of page `v` is given back. -/
theorem Taken.free (taken : Taken s₀ added frame s) (member : v ∈ added) {page : Nat}
    (word : page < 2 ^ 32) (here : page / 4096 = frame v) {s' : PageState}
    (frames : s'.frames = s.frames.freePhysicalPage page) :
    Taken s₀ (added \ {v}) frame s' := by
  refine ⟨fun k => ?_, fun u left => taken.clear u left.1, taken.apart.mono Set.sdiff_subset⟩
  rw [frames, Frames.used_freePhysicalPage word, Bool.and_eq_true, decide_eq_true_eq, here, taken.used]
  constructor
  · rintro ⟨use | ⟨u, old, rfl⟩, different⟩
    · exact Or.inl use
    · exact Or.inr ⟨u, ⟨old, fun same => different (congrArg frame same)⟩, rfl⟩
  · rintro (use | ⟨u, ⟨old, different⟩, rfl⟩)
    · refine ⟨Or.inl use, ?_⟩
      rintro rfl
      rw [(taken.clear v member).2] at use
      cases use
    · exact ⟨Or.inr ⟨u, old, rfl⟩, fun same => different (taken.apart old member same)⟩

end Steps

end Snfos.PageState
