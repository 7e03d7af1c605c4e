import Snfos.PageAdditions

set_option autoImplicit false

/- `free_page`, and how it undoes `alloc_page`. -/
namespace Snfos.PageState

open ByteMemory

def freePhysicalPage (page : Nat) (s : PageState) : PageState :=
  { s with frames := s.frames.freePhysicalPage page }

/-- The `for` loop of `unmap_virtual_address` over the entries that are left of a table. -/
def anyPresent (i : Nat) : Nat → Nat → PageState → Option Bool
  | 0, _, _ => some false
  | left + 1, j, s => do
      let pte ← s.readWord (Kernel.tableEntry i j)
      if pte % 2 = 1 then some true else anyPresent i left (j + 1) s

/-- The recursion is as deep as `fuel` at most; `none` is also a page fault. Translations
are read from memory each time, so there is no `invlpg`. -/
def unmapVirtualAddress : Nat → Nat → PageState → Option PageState
  | 0, _, _ => none
  | fuel + 1, virtualAddress, s => do
      let page := virtualAddress / 4096
      let physAddr ← s.readWord (Kernel.tableEntry (page / 1024) (page % 1024))
      let s ← s.writeWord (Kernel.tableEntry (page / 1024) (page % 1024)) 0
      let s := s.freePhysicalPage physAddr
      let rest ← anyPresent (page / 1024) 1024 0 s
      if rest then some s else unmapVirtualAddress fuel (Kernel.tableEntry (page / 1024) 0) s

/-- The `for` loop of `free_page`. -/
def freePages (fuel : Nat) : Nat → Nat → PageState → Option PageState
  | 0, _, s => some s
  | pages + 1, page, s => do
      let s ← unmapVirtualAddress fuel page s
      freePages fuel pages (u32 (page + 4096)) s

def freePage (fuel start pages : Nat) (s : PageState) : Option PageState := do
  let t ← freePages fuel pages start s
  some { t with heapEnd := sub32 t.heapEnd (u32 (pages * 4096)) }

/-- Absent entries are zero, and every table has an entry that is present. -/
structure Tidy (s : PageState) : Prop where
  directory : ∀ c, c < 1024 → s.Absent c → entry s.ram s.directory c = 0
  entries : ∀ c j, c < 1023 → j < 1024 → ¬ s.Absent c → s.pte c j % 2 = 0 → s.pte c j = 0
  inhabited : ∀ c, c < 1023 → ¬ s.Absent c → ∃ j, j < 1024 ∧ s.pte c j % 2 = 1

section Unmapping

variable {s₀ s : PageState} {added : Set Nat} {frame : Nat → Nat} {c v : Nat}

theorem SelfMapped.anyPresent (mapped : SelfMapped s) (inside : c < 1024) (present : ¬ s.Absent c)
    (left j : Nat) (all : j + left = 1024) :
    ∃ rest, PageState.anyPresent c left j s = some rest ∧
      (rest = true ↔ ∃ k, j ≤ k ∧ k < 1024 ∧ s.pte c k % 2 = 1) := by
  induction left generalizing j with
  | zero =>
    refine ⟨false, rfl, fun never => absurd never Bool.false_ne_true, ?_⟩
    rintro ⟨k, lower, upper, _⟩
    omega
  | succ left ih =>
    have read := mapped.readEntry inside (show j < 1024 by omega) present
    by_cases here : s.pte c j % 2 = 1
    · refine ⟨true, ?_, fun _ => ⟨j, Nat.le_refl j, by omega, here⟩, fun _ => rfl⟩
      unfold PageState.anyPresent
      rw [read]
      exact if_pos here
    · obtain ⟨rest, result, found⟩ := ih (j + 1) (by omega)
      refine ⟨rest, ?_, found.trans ⟨?_, ?_⟩⟩
      · unfold PageState.anyPresent
        rw [read]
        exact (if_neg here).trans result
      · rintro ⟨k, lower, upper, odd⟩
        exact ⟨k, by omega, upper, odd⟩
      · rintro ⟨k, lower, upper, odd⟩
        have later : k ≠ j := by
          rintro rfl
          exact here odd
        exact ⟨k, by omega, upper, odd⟩

/-- Page `v` after its entry was cleared and its frame given back. -/
def withoutPage (s : PageState) (v : Nat) : PageState :=
  (s.withEntry (v / 1024) (v % 1024) 0).freePhysicalPage (s.pageEntry v)

theorem SelfMapped.unmap_succ (mapped : SelfMapped s) {address : Nat} (page : address / 4096 = v)
    (inside : v < 2 ^ 20) (present : ¬ s.Absent (v / 1024)) (fuel : Nat) :
    unmapVirtualAddress (fuel + 1) address s =
      (PageState.anyPresent (v / 1024) 1024 0 (s.withoutPage v)).bind fun rest =>
        if rest then some (s.withoutPage v)
        else unmapVirtualAddress fuel (Kernel.tableEntry (v / 1024) 0) (s.withoutPage v) := by
  have table : v / 1024 < 1024 := by omega
  have within : v % 1024 < 1024 := Nat.mod_lt v (by decide)
  rw [unmapVirtualAddress]
  dsimp only
  rw [page, mapped.readEntry table within present, mapped.writeEntry table within present]
  rfl

theorem pageEntry_word (s : PageState) (v : Nat) : s.pageEntry v < 2 ^ 32 := load32_lt _ _

/-- The table of the window page of `c` loses its entry. The directory still leads to itself,
so the recursion ends here. -/
theorem unmap_table (entered : Entered s₀ added frame s) (taken : Taken s₀ added frame s)
    (first : Separate s₀) (below : c < 1023) (member : windowPage c ∈ added)
    (unused : ∀ u ∈ added, u / 1024 ≠ c) (zero : entry s₀.ram s₀.directory c = 0)
    (bounded : ∀ u ∈ added, u < 2 ^ 20) (fuel : Nat) :
    ∃ t, unmapVirtualAddress (fuel + 1) (Kernel.tableEntry c 0) s = some t ∧
      t.heapEnd = s.heapEnd ∧ Entered s₀ (added \ {windowPage c}) frame t ∧ Taken s₀ (added \ {windowPage c}) frame t := by
  have page : Kernel.tableEntry c 0 / 4096 = windowPage c := by
    unfold Kernel.tableEntry windowPage
    omega
  have window := windowPage_div (show c < 1024 by omega)
  have index := windowPage_mod (show c < 1024 by omega)
  have value := (entered.entered _ member).2
  have separate := entered.separate taken first
  have present : ¬ s.Absent (windowPage c / 1024) := by
    rw [window]
    exact entered.present
  have after := entered.withoutTable separate first.toSelfMapped below unused zero bounded
  have same : s.withoutPage (windowPage c) =
      (s.withEntry 1023 c 0).freePhysicalPage (s.pageEntry (windowPage c)) := by
    unfold withoutPage
    rw [window, index]
  have entered' : Entered s₀ (added \ {windowPage c}) frame (s.withoutPage (windowPage c)) := by
    rw [same]
    exact after.congr (fun _ _ => rfl) _
  have taken' : Taken s₀ (added \ {windowPage c}) frame (s.withoutPage (windowPage c)) :=
    taken.free member (pageEntry_word s _) (by rw [value]; omega) rfl
  refine ⟨s.withoutPage (windowPage c), ?_, rfl, entered', taken'⟩
  rw [entered.unmap_succ page (bounded _ member) present]
  have last : (s.withoutPage (windowPage c)).pte 1023 1023 % 2 = 1 := by
    have odd := entered'.present
    have leads := entered'.leads
    unfold Absent at odd
    unfold pte
    rw [leads]
    omega
  obtain ⟨rest, result, found⟩ :=
    entered'.anyPresent (by decide : 1023 < 1024) entered'.present 1024 0 rfl
  rw [window, result, found.mpr ⟨1023, by decide, by decide, last⟩]
  rfl

/-- A page below the window is unmapped: its table goes with it if it was added and nothing
else in it is mapped. -/
theorem unmap_page (entered : Entered s₀ added frame s) (taken : Taken s₀ added frame s)
    (first : Separate s₀) (tidy : Tidy s₀) (below : v / 1024 < 1023) (member : v ∈ added)
    (fresh : ∀ u ∈ added, s₀.before u = 0) (bounded : ∀ u ∈ added, u < 2 ^ 20)
    {address : Nat} (page : address / 4096 = v) (fuel : Nat) :
    ∃ t added', unmapVirtualAddress (fuel + 2) address s = some t ∧ t.heapEnd = s.heapEnd ∧
      Entered s₀ added' frame t ∧ Taken s₀ added' frame t ∧
      (((∃ u ∈ added, u ≠ v ∧ u / 1024 = v / 1024) ∨ ¬ s₀.Absent (v / 1024)) ∧ added' = added \ {v} ∨
        (¬ (∃ u ∈ added, u ≠ v ∧ u / 1024 = v / 1024) ∧ s₀.Absent (v / 1024)) ∧
          added' = (added \ {v}) \ {windowPage (v / 1024)}) := by
  obtain ⟨present, value⟩ := entered.entered v member
  have separate := entered.separate taken first
  have inside := bounded v member
  have fewer : ∀ u ∈ added \ {v}, u < 2 ^ 20 := fun u left => bounded u left.1
  have after : Entered s₀ (added \ {v}) frame (s.withoutPage v) := by
    refine (entered.withEntry separate below present (by decide) (fun u different => ?_)
      (Or.inr ⟨fun left => left.2 rfl, (fresh v member).symm⟩) fewer).congr (fun _ _ => rfl) _
    exact ⟨And.left, fun old => ⟨old, different⟩⟩
  have taken' : Taken s₀ (added \ {v}) frame (s.withoutPage v) :=
    taken.free member (pageEntry_word s v) (by rw [value]; omega) rfl
  have still : ¬ (s.withoutPage v).Absent (v / 1024) := by
    intro even
    exact present ((absent_withEntry separate below present (v % 1024) 0 _).mp even)
  have entries : ∀ k, k < 1024 → (s.withoutPage v).pageEntry (1024 * (v / 1024) + k) =
      (s.withoutPage v).pte (v / 1024) k := by
    intro k within
    unfold pageEntry
    rw [show (1024 * (v / 1024) + k) / 1024 = v / 1024 by omega,
      show (1024 * (v / 1024) + k) % 1024 = k by omega]
  obtain ⟨rest, result, found⟩ :=
    after.anyPresent (show v / 1024 < 1024 by omega) still 1024 0 rfl
  have unmapped := entered.unmap_succ page inside present (fuel + 1)
  rw [result] at unmapped
  by_cases more : (∃ u ∈ added, u ≠ v ∧ u / 1024 = v / 1024) ∨ ¬ s₀.Absent (v / 1024)
  · have odd : ∃ k, 0 ≤ k ∧ k < 1024 ∧ (s.withoutPage v).pte (v / 1024) k % 2 = 1 := by
      rcases more with ⟨u, old, different, table⟩ | there
      · refine ⟨u % 1024, Nat.zero_le _, Nat.mod_lt u (by decide), ?_⟩
        rw [← entries _ (Nat.mod_lt u (by decide)), show 1024 * (v / 1024) + u % 1024 = u by omega,
          (after.entered u ⟨old, different⟩).2]
        omega
      · obtain ⟨k, within, odd⟩ := tidy.inhabited _ below there
        have was : s₀.before (1024 * (v / 1024) + k) = s₀.pte (v / 1024) k := by
          unfold before pageEntry
          rw [show (1024 * (v / 1024) + k) / 1024 = v / 1024 by omega,
            show (1024 * (v / 1024) + k) % 1024 = k by omega, if_neg there]
        refine ⟨k, Nat.zero_le k, within, ?_⟩
        rw [← entries k within, after.kept _ (by omega) ?_ ?_, was, odd]
        · intro left
          rw [fresh _ left.1] at was
          omega
        · rw [show (1024 * (v / 1024) + k) / 1024 = v / 1024 by omega]
          exact still
    rw [found.mpr odd] at unmapped
    exact ⟨_, _, unmapped, rfl, after, taken', Or.inl ⟨more, rfl⟩⟩
  · rw [not_or, not_not] at more
    have alone : ∀ u ∈ added \ {v}, u / 1024 ≠ v / 1024 := fun u left same =>
      more.1 ⟨u, left.1, left.2, same⟩
    have new : windowPage (v / 1024) ∈ added \ {v} := by
      refine ⟨?_, fun same => ?_⟩
      · by_contra old
        exact present ((entered.absent_iff first.toSelfMapped (by omega)).mpr ⟨more.2, old⟩)
      · have window := windowPage_div (show v / 1024 < 1024 by omega)
        rw [show windowPage (v / 1024) = v from same] at window
        omega
    have none : rest = false := by
      rw [← Bool.not_eq_true, found]
      rintro ⟨k, _, within, odd⟩
      have left : 1024 * (v / 1024) + k ∉ added \ {v} := fun left => alone _ left (by omega)
      have kept := after.kept _ (by omega) left (by
        rw [show (1024 * (v / 1024) + k) / 1024 = v / 1024 by omega]
        exact still)
      unfold before at kept
      rw [show (1024 * (v / 1024) + k) / 1024 = v / 1024 by omega, if_pos more.2,
        entries k within] at kept
      omega
    rw [none] at unmapped
    obtain ⟨t, done, heapEnd, entered', taken''⟩ := unmap_table after taken' first below new alone
      (tidy.directory _ (by omega) more.2) fewer fuel
    exact ⟨t, _, unmapped.trans done, heapEnd, entered', taken'', Or.inr ⟨more, rfl⟩⟩

end Unmapping

/-- Pages `lo` to `hi` and the tables that were missing for them. -/
def grown (s₀ : PageState) (lo hi : Nat) : Set Nat :=
  {u | lo ≤ u ∧ u < hi ∨ ∃ v, lo ≤ v ∧ v < hi ∧ s₀.Absent (v / 1024) ∧ u = windowPage (v / 1024)}

section Ranges

variable {s₀ : PageState} {lo hi u c : Nat}

theorem grown_self (s₀ : PageState) (v : Nat) : grown s₀ v v = ∅ := by
  refine Set.eq_empty_of_forall_notMem fun u member => ?_
  rcases member with range | ⟨w, lower, upper, _⟩
  · omega
  · omega

theorem mem_grown_page (below : u < 1024 * 1023) : u ∈ grown s₀ lo hi ↔ lo ≤ u ∧ u < hi := by
  constructor
  · rintro (range | ⟨w, _, _, _, rfl⟩)
    · exact range
    · unfold windowPage at below
      omega
  · exact Or.inl

theorem grown_bounded (bound : hi ≤ 1024 * 1023) : ∀ u ∈ grown s₀ lo hi, u < 2 ^ 20 := by
  rintro u (range | ⟨w, _, _, _, rfl⟩)
  · omega
  · unfold windowPage
    omega

/-- Where they were not mapped, all their entries were zero. -/
theorem grown_before (first : SelfMapped s₀) (tidy : Tidy s₀) (bound : hi ≤ 1024 * 1023)
    (unmapped : ∀ v, lo ≤ v → v < hi → s₀.before v = 0) : ∀ u ∈ grown s₀ lo hi, s₀.before u = 0 := by
  rintro u (range | ⟨w, _, upper, absent, rfl⟩)
  · exact unmapped u range.1 range.2
  · rw [first.before_window (by omega)]
    exact tidy.directory _ (by omega) absent

theorem grown_succ (order : lo ≤ hi) : grown s₀ lo (hi + 1) = insert hi
    (if s₀.Absent (hi / 1024) then insert (windowPage (hi / 1024)) (grown s₀ lo hi)
      else grown s₀ lo hi) := by
  ext u
  have split : u ∈ (if s₀.Absent (hi / 1024) then insert (windowPage (hi / 1024)) (grown s₀ lo hi)
      else grown s₀ lo hi) ↔ s₀.Absent (hi / 1024) ∧ u = windowPage (hi / 1024) ∨ u ∈ grown s₀ lo hi := by
    split
    · next absent => rw [Set.mem_insert_iff, and_iff_right absent]
    · next present =>
      exact ⟨Or.inr, fun either => either.resolve_left fun both => present both.1⟩
  rw [Set.mem_insert_iff, split]
  constructor
  · rintro (range | ⟨w, lower, upper, absent, same⟩)
    · by_cases last : u = hi
      · exact Or.inl last
      · exact Or.inr (Or.inr (Or.inl ⟨range.1, by omega⟩))
    · by_cases last : w = hi
      · exact Or.inr (Or.inl ⟨last ▸ absent, last ▸ same⟩)
      · exact Or.inr (Or.inr (Or.inr ⟨w, lower, by omega, absent, same⟩))
  · rintro (rfl | ⟨absent, same⟩ | range | ⟨w, lower, upper, absent, same⟩)
    · exact Or.inl ⟨order, by omega⟩
    · exact Or.inr ⟨hi, order, by omega, absent, same⟩
    · exact Or.inl ⟨range.1, by omega⟩
    · exact Or.inr ⟨w, lower, by omega, absent, same⟩

/-- The first page goes, and its table stays while a page or `s₀` needs it. -/
theorem grown_tail (bound : hi ≤ 1024 * 1023) (inside : lo < hi)
    (stays : (∃ u ∈ grown s₀ lo hi, u ≠ lo ∧ u / 1024 = lo / 1024) ∨ ¬ s₀.Absent (lo / 1024)) :
    grown s₀ lo hi \ {lo} = grown s₀ (lo + 1) hi := by
  ext u
  constructor
  · rintro ⟨range | ⟨w, lower, upper, absent, same⟩, different⟩
    · have later : u ≠ lo := different
      exact Or.inl ⟨by omega, range.2⟩
    · by_cases last : w = lo
      · rcases stays with ⟨x, member, other, table⟩ | present
        · have range := (mem_grown_page (by omega)).mp member
          exact Or.inr ⟨x, by omega, range.2, by rwa [table, ← last], by rw [same, table, last]⟩
        · exact absurd (last ▸ absent) present
      · exact Or.inr ⟨w, by omega, upper, absent, same⟩
  · rintro (range | ⟨w, lower, upper, absent, same⟩)
    · exact ⟨Or.inl ⟨by omega, range.2⟩, fun first => by have : u = lo := first; omega⟩
    · refine ⟨Or.inr ⟨w, by omega, upper, absent, same⟩, fun first => ?_⟩
      have early : u = lo := first
      unfold windowPage at same
      omega

/-- The first page goes with its table. -/
theorem grown_tail_table (bound : hi ≤ 1024 * 1023) (inside : lo < hi)
    (goes : ¬ (∃ u ∈ grown s₀ lo hi, u ≠ lo ∧ u / 1024 = lo / 1024) ∧ s₀.Absent (lo / 1024)) :
    (grown s₀ lo hi \ {lo}) \ {windowPage (lo / 1024)} = grown s₀ (lo + 1) hi := by
  have alone : ∀ w, lo < w → w < hi → w / 1024 ≠ lo / 1024 := by
    intro w lower upper same
    exact goes.1 ⟨w, Or.inl ⟨by omega, upper⟩, by omega, same⟩
  ext u
  constructor
  · rintro ⟨⟨range | ⟨w, lower, upper, absent, same⟩, different⟩, apart⟩
    · have later : u ≠ lo := different
      exact Or.inl ⟨by omega, range.2⟩
    · have other : u ≠ windowPage (lo / 1024) := apart
      have last : w ≠ lo := by
        rintro rfl
        exact other same
      exact Or.inr ⟨w, by omega, upper, absent, same⟩
  · rintro (range | ⟨w, lower, upper, absent, same⟩)
    · refine ⟨⟨Or.inl ⟨by omega, range.2⟩, fun first => ?_⟩, fun window => ?_⟩
      · have early : u = lo := first
        omega
      · have table : u = windowPage (lo / 1024) := window
        unfold windowPage at table
        omega
    · have table := alone w (by omega) upper
      unfold windowPage at same
      refine ⟨⟨Or.inr ⟨w, by omega, upper, absent, same⟩, fun first => ?_⟩, fun window => ?_⟩
      · have early : u = lo := first
        omega
      · have early : u = windowPage (lo / 1024) := window
        unfold windowPage at early
        omega

end Ranges

section Growing

variable {s₀ s : PageState} {added pages : Set Nat} {frame : Nat → Nat} {c lo hi n : Nat}

/-- `map_page` adds the table that is missing, while other frames may be taken already. -/
theorem Entered.installTable (entered : Entered s₀ added frame s) (taken : Taken s₀ pages frame s)
    (separate : Separate s) (first : SelfMapped s₀) (hinted : s.frames.Hinted) (below : c < 1023)
    (within : added ⊆ pages) (apart : windowPage c ∈ pages → windowPage c ∈ added)
    (bounded : ∀ u ∈ added, u < 2 ^ 20) (enough : (if s.Absent c then 1 else 0) ≤ s.frames.unused) :
    ∃ u frame', s.installTable c = some u ∧ ¬ u.Absent c ∧ Separate u ∧ u.frames.Hinted ∧
      u.heapEnd = s.heapEnd ∧ (∀ w ∈ pages, frame' w = frame w) ∧
      Entered s₀ (if s₀.Absent c then insert (windowPage c) added else added) frame' u ∧
      Taken s₀ (if s₀.Absent c then insert (windowPage c) pages else pages) frame' u ∧
      (∀ i, u.Absent i ↔ s.Absent i ∧ i ≠ c) ∧
      u.frames.unused + (if s.Absent c then 1 else 0) = s.frames.unused := by
  have absent := entered.absent_iff first (show c < 1024 by omega)
  by_cases missing : s.Absent c
  · obtain ⟨none, new⟩ := absent.mp missing
    have fresh : windowPage c ∉ pages := fun old => new (apart old)
    rw [if_pos missing] at enough ⊢
    rw [if_pos none, if_pos none]
    rcases hinted.allocateNextPage with ⟨q, bound, unset, lowest, result⟩ | ⟨full, _⟩
    · have other := (ne_clear unset separate.directory_used).symm
      have same : ∀ w ∈ pages, Function.update frame (windowPage c) q w = frame w := by
        intro w member
        refine Function.update_of_ne ?_ _ _
        rintro rfl
        exact fresh member
      have tables := (entered.congr (fun w member => same w (within member)) s.frames).withTable
        separate first below missing bound unset (Function.update_self ..) bounded
      refine ⟨s.withTable c q, Function.update frame (windowPage c) q,
        separate.installTable_missing below missing bound other result, ?_,
        separate.withTable below bound unset, Frames.hinted_take bound lowest, rfl, same, tables,
        taken.take fresh bound unset rfl, absent_withTable separate bound unset,
        Frames.unused_take bound unset⟩
      rw [absent_withTable separate bound unset]
      exact fun both => both.2 rfl
    · rw [Frames.unused_eq_zero full] at enough
      omega
  · have kept : ∀ set : Set Nat, (windowPage c ∈ added → windowPage c ∈ set) →
        (if s₀.Absent c then insert (windowPage c) set else set) = set := by
      intro set member
      split
      · next none =>
        refine Set.insert_eq_of_mem (member ?_)
        by_contra old
        exact missing (absent.mpr ⟨none, old⟩)
      · rfl
    rw [if_neg missing, kept added id, kept pages fun old => within old]
    refine ⟨s, frame, separate.installTable_present (by omega) missing, missing, separate, hinted, rfl,
      fun _ _ => rfl, entered, taken, fun i => ⟨fun even => ⟨even, ?_⟩, And.left⟩, Nat.add_zero _⟩
    rintro rfl
    exact missing even

/-- One more page, and its table where that is missing. -/
theorem Entered.mapVirtualAddress (entered : Entered s₀ (grown s₀ lo hi) frame s)
    (taken : Taken s₀ (grown s₀ lo hi) frame s) (first : Separate s₀) (hinted : s.frames.Hinted)
    (order : lo ≤ hi) (bound : hi < 1024 * 1023) {address : Nat} (page : address / 4096 = hi)
    (enough : s.cost hi ≤ s.frames.unused) :
    ∃ t frame', s.mapVirtualAddress address 0x03 = some t ∧ t.heapEnd = s.heapEnd ∧
      Entered s₀ (grown s₀ lo (hi + 1)) frame' t ∧ Taken s₀ (grown s₀ lo (hi + 1)) frame' t ∧
      t.frames.Hinted ∧ (∀ i, t.Absent i ↔ s.Absent i ∧ i ≠ hi / 1024) ∧
      t.frames.unused + s.cost hi = s.frames.unused := by
  have share : s.cost hi = 1 + if s.Absent (hi / 1024) then 1 else 0 := by
    unfold cost
    split <;> rfl
  have bounded : ∀ u ∈ grown s₀ lo hi, u < 2 ^ 20 := grown_bounded (by omega)
  rcases hinted.allocateNextPage with ⟨p, small, unset, lowest, result⟩ | ⟨full, _⟩
  · have fresh : hi ∉ grown s₀ lo hi := by
      rw [mem_grown_page bound]
      omega
    have other : ∀ w ∈ grown s₀ lo hi, Function.update frame hi p w = frame w := by
      intro w member
      refine Function.update_of_ne ?_ _ _
      rintro rfl
      exact fresh member
    obtain ⟨s₁, s₁Is⟩ : ∃ s₁ : PageState, s₁ = { s with frames := s.frames.take p } := ⟨_, rfl⟩
    have allocated : s.allocateNextPage = (4096 * p, s₁) := by
      rw [s₁Is]
      unfold allocateNextPage
      rw [result]
    have absent : ∀ i, s₁.Absent i ↔ s.Absent i := fun i => by rw [s₁Is]; rfl
    have left := Frames.unused_take small unset
    have frames : s₁.frames = s.frames.take p := by rw [s₁Is]
    have entered₁ : Entered s₀ (grown s₀ lo hi) (Function.update frame hi p) s₁ := by
      rw [s₁Is]
      exact entered.congr other _
    have taken₁ : Taken s₀ (insert hi (grown s₀ lo hi)) (Function.update frame hi p) s₁ :=
      taken.take fresh small unset frames
    have separate₁ : Separate s₁ := by
      rw [s₁Is]
      exact (entered.separate taken first).take p
    obtain ⟨u, frame', installed, present, separate, hinted', heapEnd, kept, entered', taken', gone,
      rest⟩ := entered₁.installTable taken₁ separate₁ first.toSelfMapped
        (by rw [frames]; exact Frames.hinted_take small lowest) (show hi / 1024 < 1023 by omega)
        (Set.subset_insert _ _) (fun old => (Set.mem_insert_iff.mp old).resolve_left (by
          unfold windowPage
          omega)) bounded (by
          rw [if_congr (absent _) rfl rfl, frames]
          omega)
    rw [if_congr (absent _) rfl rfl, frames] at rest
    have here : frame' hi = p := by
      rw [kept hi (Set.mem_insert hi _)]
      exact Function.update_self ..
    have value : 4096 * p ||| 0x03 % 4096 ||| 1 = 4096 * p + 3 := pageEntry_eq p 0x03
    have inside : hi % 1024 < 1024 := Nat.mod_lt hi (by decide)
    obtain ⟨t, tIs⟩ : ∃ t, t = (u.withEntry (hi / 1024) (hi % 1024) (4096 * p + 3)).install p := ⟨_, rfl⟩
    have mapped : s.mapVirtualAddress address 0x03 = some t := by
      unfold PageState.mapVirtualAddress
      rw [allocated]
      dsimp only
      rw [mapPage_eq, page, installed, Nat.mul_div_cancel_left p (by decide), value, tIs]
      exact congrArg (Option.map (install p))
        (separate.writeEntry (by omega) inside present (4096 * p + 3))
    have members : grown s₀ lo (hi + 1) = insert hi (if s₀.Absent (hi / 1024) then
        insert (windowPage (hi / 1024)) (grown s₀ lo hi) else grown s₀ lo hi) := grown_succ order
    have pages : Entered s₀ (grown s₀ lo (hi + 1)) frame'
        (u.withEntry (hi / 1024) (hi % 1024) (4096 * p + 3)) := by
      refine entered'.withEntry separate (by omega) present (by omega) (fun w different => ?_)
        (Or.inl ⟨?_, by rw [here]⟩) (grown_bounded (by omega))
      · rw [members, Set.mem_insert_iff, or_iff_right different]
      · rw [members]
        exact Set.mem_insert hi _
    have taken'' : Taken s₀ (grown s₀ lo (hi + 1)) frame' u := by
      rw [members]
      by_cases none : s₀.Absent (hi / 1024)
      · rw [if_pos none] at taken' ⊢
        rw [Set.insert_comm]
        exact taken'
      · rw [if_neg none] at taken' ⊢
        exact taken'
    refine ⟨t, frame', mapped, ?_, ?_, ?_, ?_, fun i => ?_, by rw [tIs]; show u.frames.unused + _ = _; omega⟩
    · rw [tIs]
      show u.heapEnd = s.heapEnd
      rw [heapEnd, s₁Is]
    · rw [tIs]
      exact ⟨⟨pages.present, pages.leads⟩, pages.directory, pages.entered, pages.kept⟩
    · rw [tIs]
      exact ⟨taken''.used, taken''.clear, taken''.apart⟩
    · rw [tIs]
      exact hinted'
    · rw [← absent i, ← gone i, tIs]
      exact absent_withEntry separate (by omega) present (hi % 1024) (4096 * p + 3) i
  · rw [Frames.unused_eq_zero full] at enough
    omega

/-- The loop of `alloc_page`. -/
theorem Entered.allocPages (entered : Entered s₀ (grown s₀ lo hi) frame s)
    (taken : Taken s₀ (grown s₀ lo hi) frame s) (first : Separate s₀) (hinted : s.frames.Hinted)
    (order : lo ≤ hi) (top : s.heapEnd / 4096 = hi) (fits : s.heapEnd + 4096 * n ≤ 0xFFC00000)
    (enough : s.need hi n ≤ s.frames.unused) :
    ∃ t frame', PageState.allocPages n s = some t ∧ t.heapEnd = s.heapEnd + 4096 * n ∧
      Entered s₀ (grown s₀ lo (hi + n)) frame' t ∧ Taken s₀ (grown s₀ lo (hi + n)) frame' t := by
  induction n generalizing s hi frame with
  | zero => exact ⟨s, frame, rfl, rfl, entered, taken⟩
  | succ n ih =>
    have below : hi / 1024 < 1023 := by omega
    obtain ⟨t, frame', mapped, heapEnd, entered', taken', hinted', absent, spent⟩ :=
      entered.mapVirtualAddress taken first hinted order (by omega) top
        (Nat.le_trans (cost_le_need below n) enough)
    have rest := need_succ (n := n) below fun i _ => absent i
    have next : u32 (t.heapEnd + 4096) = s.heapEnd + 4096 := by
      rw [heapEnd, u32_of_lt (by omega)]
    have moved : Entered s₀ (grown s₀ lo (hi + 1)) frame' { t with heapEnd := s.heapEnd + 4096 } :=
      ⟨⟨entered'.present, entered'.leads⟩, entered'.directory, entered'.entered, entered'.kept⟩
    obtain ⟨w, frame'', done, final, entered'', taken''⟩ :=
      ih moved ⟨taken'.used, taken'.clear, taken'.apart⟩ hinted' (by omega) (by dsimp only; omega)
        (by dsimp only; omega) (by
          show t.need (hi + 1) n ≤ t.frames.unused
          omega)
    rw [show hi + 1 + n = hi + (n + 1) by omega] at entered'' taken''
    refine ⟨w, frame'', ?_, by rw [final]; dsimp only; omega, entered'', taken''⟩
    rw [allocPages_succ, mapped]
    show PageState.allocPages n { t with heapEnd := u32 (t.heapEnd + 4096) } = _
    rw [next]
    exact done

/-- The loop of `free_page`. -/
theorem Entered.freePages (entered : Entered s₀ (grown s₀ lo hi) frame s)
    (taken : Taken s₀ (grown s₀ lo hi) frame s) (first : Separate s₀) (tidy : Tidy s₀)
    (unmapped : ∀ v, lo ≤ v → v < hi → s₀.before v = 0) {address : Nat}
    (page : address / 4096 = lo) (count : lo + n = hi) (fits : address + 4096 * n ≤ 0xFFC00000)
    (fuel : Nat) :
    ∃ t, PageState.freePages (fuel + 2) n address s = some t ∧ t.heapEnd = s.heapEnd ∧
      Entered s₀ ∅ frame t ∧ Taken s₀ ∅ frame t := by
  induction n generalizing s lo address with
  | zero =>
    have none : grown s₀ lo hi = ∅ := by
      rw [← count]
      exact grown_self s₀ lo
    rw [none] at entered taken
    exact ⟨s, rfl, rfl, entered, taken⟩
  | succ n ih =>
    have bound : hi ≤ 1024 * 1023 := by omega
    have member : lo ∈ grown s₀ lo hi := Or.inl ⟨Nat.le_refl lo, by omega⟩
    obtain ⟨t, added', done, heapEnd, entered', taken', outcome⟩ :=
      unmap_page entered taken first tidy (show lo / 1024 < 1023 by omega) member
        (grown_before first.toSelfMapped tidy bound unmapped) (grown_bounded bound) page fuel
    have tail : added' = grown s₀ (lo + 1) hi := by
      rcases outcome with ⟨stays, rfl⟩ | ⟨goes, rfl⟩
      · exact grown_tail bound (by omega) stays
      · exact grown_tail_table bound (by omega) goes
    rw [tail] at entered' taken'
    have next : u32 (address + 4096) = address + 4096 := u32_of_lt (by omega)
    obtain ⟨w, rest, final, entered'', taken''⟩ := ih entered' taken'
      (fun v lower upper => unmapped v (by omega) upper) (show (address + 4096) / 4096 = lo + 1 by omega)
      (by omega) (by omega)
    refine ⟨w, ?_, final.trans heapEnd, entered'', taken''⟩
    show (unmapVirtualAddress (fuel + 2) address s).bind
      (PageState.freePages (fuel + 2) n (u32 (address + 4096))) = some w
    rw [done, next]
    exact rest

end Growing

section Undoing

variable {s₀ s u : PageState} {frame : Nat → Nat} {L : Layout}

/-- The bitmap, every entry of the directory and of a table, and the end of the heap. -/
structure Restored (L : Layout) (s u : PageState) : Prop where
  directory : u.directory = s.directory
  bitmap : u.frames.bitmap = s.frames.bitmap
  directoryEntries : ∀ c, c < 1024 → entry u.ram s.directory c = entry s.ram s.directory c
  tableEntries : ∀ c j, c < 1024 → j < 1024 → ¬ s.Absent c →
    entry u.ram (s.table c) j = entry s.ram (s.table c) j
  heapEnd : u.heapEnd = s.start L

theorem Taken.bitmap (taken : Taken s₀ ∅ frame s) : s.frames.bitmap = s₀.frames.bitmap := by
  funext block
  apply BitVec.eq_of_getLsbD_eq
  intro bit small
  have use := taken.used (32 * block + bit)
  simp only [Set.mem_empty_iff_false, false_and, exists_false, or_false] at use
  unfold Frames.used at use
  rw [show (32 * block + bit) / 32 = block by omega, show (32 * block + bit) % 32 = bit by omega] at use
  exact Bool.eq_iff_iff.mpr use

theorem Entered.directoryEntries (entered : Entered s₀ ∅ frame s) (first : SelfMapped s₀) {c : Nat}
    (inside : c < 1024) : entry s.ram s.directory c = entry s₀.ram s₀.directory c := by
  rcases entered.directoryEntry first inside with ⟨new, _⟩ | ⟨_, same⟩
  · exact absurd new (Set.notMem_empty _)
  · exact same

theorem Entered.tableEntries (entered : Entered s₀ ∅ frame s) (first : SelfMapped s₀) {c j : Nat}
    (inside : c < 1024) (within : j < 1024) (present : ¬ s₀.Absent c) :
    entry s.ram (s₀.table c) j = entry s₀.ram (s₀.table c) j := by
  have same := entered.directoryEntries first inside
  have there : ¬ s.Absent c := by
    unfold Absent
    rw [same]
    exact present
  have table : s.table c = s₀.table c := by
    unfold PageState.table
    rw [same]
  have page : (1024 * c + j) / 1024 = c ∧ (1024 * c + j) % 1024 = j := by omega
  have kept := entered.kept (1024 * c + j) (by omega) (Set.notMem_empty _) (by rwa [page.1])
  unfold before pageEntry pte at kept
  rw [page.1, page.2, if_neg present, table] at kept
  exact kept

/-- A page that is not mapped has an entry that is zero, or no table. -/
theorem Tidy.before_eq (tidy : Tidy s) {address : Nat} (below : address < 0xFFC00000)
    (unmapped : translate s.ram s.directory address = none) : s.before (address / 4096) = 0 := by
  have table : address / 2 ^ 22 = address / 4096 / 1024 := by omega
  rw [translate_eq, table] at unmapped
  unfold before pageEntry
  by_cases absent : s.Absent (address / 4096 / 1024)
  · rw [if_pos absent]
  · rw [if_neg absent] at unmapped ⊢
    apply tidy.entries _ _ (by omega) (Nat.mod_lt _ (by decide)) absent
    by_contra odd
    rw [if_neg odd] at unmapped
    cases unmapped

/-- `free_page` undoes `alloc_page`, down to the tables that it added. Two calls deep is
deep enough for the recursion. -/
theorem allocPage_undone (L : Layout) (s : PageState) (ordered : Ordered s) (tidy : Tidy s)
    (pages : Nat) (below : s.start L + 4096 * pages ≤ 0xFFC00000)
    (unmapped : ∀ i, i < pages → translate s.ram s.directory (s.start L + 4096 * i) = none)
    (enough : s.need (s.start L / 4096) pages ≤ s.frames.unused) (fuel : Nat) (deep : 2 ≤ fuel) :
    ∃ t u, s.allocPage L pages = some (s.start L, t) ∧
      t.freePage fuel (s.start L) pages = some u ∧ Restored L s u := by
  obtain ⟨k, rfl⟩ : ∃ k, fuel = k + 2 := ⟨fuel - 2, by omega⟩
  obtain ⟨start, startIs⟩ : ∃ start, start = s.start L := ⟨_, rfl⟩
  obtain ⟨v, vIs⟩ : ∃ v, v = start / 4096 := ⟨_, rfl⟩
  rw [← startIs] at below unmapped enough
  rw [← vIs] at enough
  have first : Separate { s with heapEnd := start } :=
    ⟨⟨ordered.present, ordered.leads⟩, ordered.apart, ordered.tables⟩
  have tidy' : Tidy { s with heapEnd := start } := ⟨tidy.directory, tidy.entries, tidy.inhabited⟩
  have nothing : grown { s with heapEnd := start } v v = ∅ := grown_self _ v
  have initial : Entered { s with heapEnd := start } (grown { s with heapEnd := start } v v)
      (fun _ => 0) { s with heapEnd := start } := by
    rw [nothing]
    exact .refl first.toSelfMapped _
  have untaken : Taken { s with heapEnd := start } (grown { s with heapEnd := start } v v)
      (fun _ => 0) { s with heapEnd := start } := by
    rw [nothing]
    exact .refl _ _
  obtain ⟨t, frame, allocated, heapEnd, entered, taken⟩ :=
    initial.allocPages untaken first ordered.hinted (Nat.le_refl v) vIs.symm below enough
  have zero : ∀ w, v ≤ w → w < v + pages → PageState.before { s with heapEnd := start } w = 0 := by
    intro w lower upper
    have page : (start + 4096 * (w - v)) / 4096 = w := by omega
    rw [← page]
    exact tidy'.before_eq (by omega) (unmapped (w - v) (by omega))
  obtain ⟨u, freed, kept, entered', taken'⟩ :=
    entered.freePages taken first tidy' zero vIs.symm rfl below k
  refine ⟨t, { u with heapEnd := start }, ?_, ?_, entered'.directory, taken'.bitmap, fun c inside => ?_,
    fun c j inside within present => ?_, startIs⟩
  · unfold allocPage
    rw [← startIs, allocated]
    rfl
  · have finish : sub32 u.heapEnd (u32 (pages * 4096)) = start := by
      rw [kept, heapEnd, u32_of_lt (by omega)]
      dsimp only
      rw [sub32_of_le (by omega) (by omega)]
      omega
    unfold freePage
    rw [← startIs, freed]
    show some { u with heapEnd := sub32 u.heapEnd (u32 (pages * 4096)) } = _
    rw [finish]
  · have same := entered'.directoryEntries first.toSelfMapped inside
    rw [entered'.directory] at same
    exact same
  · exact entered'.tableEntries first.toSelfMapped inside within present

/-- A directory with no entry but its own has nothing to tidy. -/
theorem Tidy.lone (entries : ∀ i, i < 1024 → entry s.ram s.directory i =
      if i = 1023 then 4096 * s.directory + 3 else 0) : Tidy s := by
  have zero : ∀ i, i < 1023 → entry s.ram s.directory i = 0 := by
    intro i below
    rw [entries i (by omega), if_neg (by omega)]
  have absent : ∀ i, i < 1023 → s.Absent i := by
    intro i below
    unfold Absent
    rw [zero i below]
  refine ⟨fun c inside even => ?_, fun c j below _ present => absurd (absent c below) present,
    fun c below present => absurd (absent c below) present⟩
  have different : c ≠ 1023 := by
    rintro rfl
    have self := entries 1023 inside
    unfold Absent at even
    rw [if_pos rfl] at self
    omega
  exact zero c (by omega)

theorem allocPage_undone_bare : ∃ t u,
    (bare fun block => if block = 0 then 3#32 else 0#32).allocPage imageLayout 1 = some (0xC0302000, t) ∧
      t.freePage 2 0xC0302000 1 = some u ∧
      Restored imageLayout (bare fun block => if block = 0 then 3#32 else 0#32) u := by
  have ordered : Ordered (bare fun block => if block = 0 then 3#32 else 0#32) :=
    (bare_lone (by decide)).1
  have tidy : Tidy (bare fun block => if block = 0 then 3#32 else 0#32) :=
    Tidy.lone fun i _ => bare_entry _ i
  have clear : 2 ≤ (Frames.boot fun block => if block = 0 then 3#32 else 0#32).unused :=
    Frames.two_le_unused (m := 2) (n := 3) (by decide) ⟨by decide, by decide⟩ ⟨by decide, by decide⟩
  have unmapped : ∀ i, i < 1 → translate (bare fun block => if block = 0 then 3#32 else 0#32).ram 1
      ((bare fun block => if block = 0 then 3#32 else 0#32).start imageLayout + 4096 * i) = none := by
    intro i inside
    rw [show i = 0 by omega]
    decide
  exact allocPage_undone imageLayout _ ordered tidy 1 (by decide) unmapped
    (Nat.le_trans (need_one_le _ _) clear) 2 (by decide)

/-- A directory whose frame is clear becomes the new table and is zeroed, and so does the one
in frame 0 when the search passes over the clear frames. Neither call returns. -/
theorem allocPage_over_directory :
    (SelfMapped (bare fun _ => 0#32) ∧ Tidy (bare fun _ => 0#32) ∧
      (bare fun _ => 0#32).frames.Hinted ∧
      translate (bare fun _ => 0#32).ram 1 ((bare fun _ => 0#32).start imageLayout) = none ∧
      (bare fun _ => 0#32).need ((bare fun _ => 0#32).start imageLayout / 4096) 1 ≤
        (bare fun _ => 0#32).frames.unused ∧
      (bare fun _ => 0#32).allocPage imageLayout 1 = none) ∧
    Separate stale ∧ Tidy stale ∧ translate stale.ram 0 (stale.start imageLayout) = none ∧
      stale.need (stale.start imageLayout / 4096) 1 ≤ stale.frames.unused ∧
      stale.allocPage imageLayout 1 = none := by
  have fault : ((bare fun _ => 0#32).allocPage imageLayout 1).isNone = true := by decide
  have staleFault : (stale.allocPage imageLayout 1).isNone = true := by decide
  have clear : 2 ≤ (bare fun _ => 0#32).frames.unused :=
    Frames.two_le_unused (m := 2) (n := 3) (by decide) ⟨by decide, by decide⟩ ⟨by decide, by decide⟩
  have staleClear : 2 ≤ stale.frames.unused :=
    Frames.two_le_unused (m := 2) (n := 3) (by decide) ⟨by decide, by decide⟩ ⟨by decide, by decide⟩
  refine ⟨⟨⟨by decide, by decide⟩, Tidy.lone fun i _ => bare_entry _ i, Frames.boot_hinted _, by decide,
    Nat.le_trans (need_one_le _ _) clear, Option.isNone_iff_eq_none.mp fault⟩, stale_separate.1,
    Tidy.lone fun i _ => stale_entry i, by decide, Nat.le_trans (need_one_le _ _) staleClear,
    Option.isNone_iff_eq_none.mp staleFault⟩

end Undoing

end Snfos.PageState
