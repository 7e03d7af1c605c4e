import Snfos.PageTables

set_option autoImplicit false

/- `alloc_page` on any bitmap, also one that runs out of frames: the calls of
`allocate_next_page` in `map_virtual_address` and `map_page` take its answer as it is. -/
namespace Snfos

open ByteMemory

namespace Frames

/-- The word at which `allocate_next_page` starts to search. -/
def searchStart (f : Frames) : Nat := if f.freed = false then f.lastAllocated.getD 0 else 0

/-- The frames that the search can still find. -/
def reachable (f : Frames) : Finset Nat :=
  (f.unusedBelow (2 ^ 20)).filter fun n => f.searchStart * 32 ≤ n

def available (f : Frames) : Nat := f.reachable.card

section Supply

variable {f : Frames}

theorem mem_reachable {n : Nat} :
    n ∈ f.reachable ↔ (n < 2 ^ 20 ∧ f.used n = false) ∧ f.searchStart * 32 ≤ n := by
  unfold reachable
  rw [Finset.mem_filter, mem_unusedBelow]

theorem reachable_take {n : Nat} (lower : f.searchStart * 32 ≤ n)
    (below : ∀ k, f.searchStart * 32 ≤ k → k < n → f.used k = true) :
    (f.take n).reachable = f.reachable.erase n := by
  have start : (f.take n).searchStart = n / 32 := rfl
  ext k
  rw [Finset.mem_erase, mem_reachable, mem_reachable, start, used_take, Bool.or_eq_false_iff,
    decide_eq_false_iff_not]
  constructor
  · rintro ⟨⟨inside, unset, other⟩, later⟩
    refine ⟨other, ⟨inside, unset⟩, ?_⟩
    by_contra before
    omega
  · rintro ⟨other, ⟨inside, unset⟩, later⟩
    refine ⟨⟨inside, unset, other⟩, ?_⟩
    by_contra before
    rw [below k later (by omega)] at unset
    cases unset

/-- Either a frame is handed out and one fewer is left, or none was left. -/
theorem allocateNextPage_cases (f : Frames) :
    (∃ n, n < 2 ^ 20 ∧ f.used n = false ∧ f.allocateNextPage = (4096 * n, f.take n) ∧
        (f.take n).available + 1 = f.available) ∨
      f.available = 0 ∧ f.allocateNextPage = (0, f) := by
  have unfolded : f.allocateNextPage = allocateFrom f (32768 - f.searchStart) f.searchStart := rfl
  rw [unfolded]
  by_cases inside : f.searchStart ≤ 32768
  · rcases allocateFrom_first f (32768 - f.searchStart) f.searchStart (by omega) with
      ⟨n, bound, lower, unset, below, result⟩ | ⟨full, result⟩
    · refine Or.inl ⟨n, bound, unset, result, ?_⟩
      unfold available
      rw [reachable_take lower below]
      exact Finset.card_erase_add_one (mem_reachable.mpr ⟨⟨bound, unset⟩, lower⟩)
    · refine Or.inr ⟨Finset.card_eq_zero.mpr (Finset.eq_empty_of_forall_notMem ?_), result⟩
      intro n member
      obtain ⟨⟨bound, unset⟩, lower⟩ := mem_reachable.mp member
      rw [full n lower bound] at unset
      cases unset
  · refine Or.inr ⟨Finset.card_eq_zero.mpr (Finset.eq_empty_of_forall_notMem ?_), ?_⟩
    · intro n member
      obtain ⟨⟨bound, _⟩, lower⟩ := mem_reachable.mp member
      omega
    · rw [show 32768 - f.searchStart = 0 by omega]
      rfl

end Supply

end Frames

namespace PageState

/-- The page tables are in order: the directory leads to itself, its tables lie in
frames of their own that are in use, and so does frame 0. -/
structure Sound (s : PageState) : Prop where
  self : entry s.ram s.directory 1023 = 4096 * s.directory + 3
  directory : s.frames.used s.directory = true
  low : s.frames.used 0 = true
  tables : ∀ c, c < 1023 → entry s.ram s.directory c % 2 ≠ 0 →
    s.frames.used (entry s.ram s.directory c / 4096) = true ∧
      entry s.ram s.directory c / 4096 ≠ s.directory
  apart : ∀ c c', c < 1023 → c' < 1023 → c ≠ c' → entry s.ram s.directory c % 2 ≠ 0 →
    entry s.ram s.directory c' % 2 ≠ 0 →
    entry s.ram s.directory c / 4096 ≠ entry s.ram s.directory c' / 4096
  aligned : s.heapEnd % 4096 = 0

/-- Each of the pages from `first` on lies in a frame that was clear in `f`. -/
def Backed (f : Frames) (first pages : Nat) (t : PageState) : Prop :=
  ∀ i, i < pages → ∃ frame, frame < 2 ^ 20 ∧ f.used frame = false ∧
    translate t.ram t.directory (first + 4096 * i) = some (frame, 0)

/-- The call backs the new pages, or returns null and leaves the mappings as they
are, and only frames that were clear become pages or tables. -/
def Handled (L : Layout) (pages : Nat) (s : PageState) : Prop :=
  ∃ first t, s.allocPage L pages = some (first, t) ∧
    (first ≠ 0 ∧ Backed s.frames first pages t ∨
      first = 0 ∧ ∀ address, translate t.ram t.directory address =
        translate s.ram s.directory address) ∧
    ∃ fresh, t.installed = fresh ++ s.installed ∧ ∀ frame ∈ fresh, s.frames.used frame = false

/-- The tables that are missing for `pages` pages from page `v` on. -/
def missing (s : PageState) (v pages : Nat) : Finset Nat :=
  (Finset.range 1024).filter fun c =>
    entry s.ram s.directory c % 2 = 0 ∧ ∃ i, i < pages ∧ (v + i) / 1024 = c

/-- The frames that the pages take with the tables for them. -/
def need (s : PageState) (v pages : Nat) : Nat := pages + (s.missing v pages).card

section Writes

variable {s : PageState} {c j q p : Nat}

/-- The state after frame `p` was entered as page `j` of table `c`. -/
def withPage (s : PageState) (c j p : Nat) : PageState :=
  { s with
    ram := Function.update s.ram (entry s.ram s.directory c / 4096)
      (store32 (s.ram (entry s.ram s.directory c / 4096)) (4 * j) (4096 * p + 3))
    installed := p :: s.installed }

theorem Sound.selfMapped (sound : Sound s) : SelfMapped s := by
  have self := sound.self
  refine ⟨?_, ?_⟩
  · unfold Absent
    omega
  · unfold table
    omega

/-- A frame that is clear is not the directory's. -/
theorem Sound.ne_directory (sound : Sound s) (unset : s.frames.used q = false) :
    q ≠ s.directory := by
  intro same
  rw [same, sound.directory] at unset
  cases unset

theorem Sound.separate (sound : Sound s) : Separate s := by
  have mapped := sound.selfMapped
  have other : ∀ c, c < 1024 → ¬ s.Absent c → s.table c = s.directory → c = 1023 := by
    intro c inside present same
    by_contra below
    exact (sound.tables c (by omega) present).2 same
  refine ⟨mapped, ?_, ?_⟩
  · intro c c' inside inside' present present' same
    by_cases first : c = 1023
    · rw [first] at same ⊢
      exact (other c' inside' present' (same.symm.trans mapped.leads)).symm
    · by_cases second : c' = 1023
      · rw [second] at same ⊢
        exact other c inside present (same.trans mapped.leads)
      · by_contra different
        exact sound.apart c c' (by omega) (by omega) different present present' same
  · intro c inside present
    by_cases last : c = 1023
    · rw [last, mapped.leads]
      exact sound.directory
    · exact (sound.tables c (by omega) present).1

theorem Separate.sound (separate : Separate s)
    (self : entry s.ram s.directory 1023 = 4096 * s.directory + 3) (low : s.frames.used 0 = true)
    (aligned : s.heapEnd % 4096 = 0) : Sound s := by
  refine ⟨self, separate.directory_used, low, ?_, ?_, aligned⟩
  · intro c below present
    exact ⟨separate.tables c (by omega) present, separate.table_ne below present⟩
  · intro c c' below below' different present present' same
    exact different (separate.apart c c' (by omega) (by omega) present present' same)

theorem Sound.withTable (sound : Sound s) (below : c < 1023) (bound : q < 2 ^ 20)
    (unset : s.frames.used q = false) : Sound (s.withTable c q) := by
  have self : entry (s.withTable c q).ram s.directory 1023 = 4096 * s.directory + 3 := by
    rw [directory_withTable sound.separate bound unset, if_neg (by omega)]
    exact sound.self
  have low := s.frames.take_keeps q sound.low
  exact (sound.separate.withTable below bound unset).sound self low sound.aligned

theorem Sound.take (sound : Sound s) (p : Nat) : Sound { s with frames := s.frames.take p } := by
  have low := s.frames.take_keeps p sound.low
  exact (sound.separate.take p).sound sound.self low sound.aligned

section Page

variable (sound : Sound s) (below : c < 1023) (present : entry s.ram s.directory c % 2 ≠ 0)
  (inside : j < 1024) (bound : p < 2 ^ 20)

theorem withPage_eq (s : PageState) (c j p : Nat) :
    s.withPage c j p = (s.withEntry c j (4096 * p + 3)).install p := rfl

include sound below present in
theorem absent_withPage (i : Nat) : (s.withPage c j p).Absent i ↔ s.Absent i := by
  rw [withPage_eq]
  exact absent_withEntry sound.separate below present j _ i

include sound below present in
theorem Sound.withPage : Sound (s.withPage c j p) := by
  rw [withPage_eq]
  have self := (directory_withEntry sound.separate below present j (4096 * p + 3) 1023).trans sound.self
  have separate := sound.separate.withEntry below present j (4096 * p + 3)
  exact (separate.install p).sound self sound.low sound.aligned

include sound below present inside bound in
/-- Only the page entered is mapped otherwise. -/
theorem translate_withPage {address : Nat} (under : address / 2 ^ 22 < 1023) :
    translate (s.withPage c j p).ram s.directory address =
      if address / 4096 = 1024 * c + j then some (p, address % 4096)
      else translate s.ram s.directory address := by
  have small : 4096 * p + 3 < 2 ^ 32 := by omega
  have frame : (4096 * p + 3) / 4096 = p := by omega
  have set : ¬ (4096 * p + 3) % 2 = 0 := by omega
  rw [withPage_eq]
  apply (translate_withEntry sound.separate below under inside present small).trans
  rw [if_neg set, frame]

include sound below present inside in
theorem enterPage :
    (s.writeWord (Kernel.tableEntry c j) (4096 * p ||| 0x03 % 4096 ||| 1)).map (install p) =
      some (s.withPage c j p) := by
  rw [sound.selfMapped.writeEntry (by omega) inside present, pageEntry_eq]
  rfl

end Page

end Writes

section Steps

variable {s t u : PageState} {c n : Nat}

/-- What a step leaves as it is: it takes clear frames, and every mapping below the
page tables but that of page `v` is kept. -/
structure Keeps (s t : PageState) (v : Nat) : Prop where
  directory : t.directory = s.directory
  heapEnd : t.heapEnd = s.heapEnd
  sound : Sound t
  used : ∀ frame, s.frames.used frame = true → t.frames.used frame = true
  mapped : ∀ address, address / 2 ^ 22 < 1023 → address / 4096 ≠ v →
    translate s.ram s.directory address ≠ none →
    translate t.ram t.directory address = translate s.ram s.directory address
  fresh : ∃ fresh, t.installed = fresh ++ s.installed ∧
    ∀ frame ∈ fresh, s.frames.used frame = false

theorem installTable_keeps (sound : Sound s) (below : c < 1023) (v : Nat)
    (enough : (if s.Absent c then 1 else 0) ≤ s.frames.available) :
    ∃ t, s.installTable c = some t ∧ Keeps s t v ∧ ¬ t.Absent c ∧
      (∀ i, i ≠ c → entry t.ram s.directory i = entry s.ram s.directory i) ∧
      t.frames.available + (if s.Absent c then 1 else 0) = s.frames.available := by
  by_cases absent : s.Absent c
  · rw [if_pos absent] at enough ⊢
    rcases s.frames.allocateNextPage_cases with ⟨q, bound, unset, taken, left⟩ | ⟨none, _⟩
    · have other := sound.ne_directory unset
      have entries := entry_withTable (c := c) bound other
      refine ⟨s.withTable c q, sound.selfMapped.installTable_missing below absent bound other taken,
        ⟨rfl, rfl, sound.withTable below bound unset, ?_, ?_, [q], rfl, ?_⟩, ?_, ?_, left⟩
      · intro frame before
        exact s.frames.take_keeps q before
      · intro address under _ mapped
        exact translate_emptyTable sound.separate under absent bound unset
      · intro frame member
        rw [List.mem_singleton.mp member]
        exact unset
      · show ¬ entry (s.withTable c q).ram s.directory c % 2 = 0
        rw [entries, if_pos rfl]
        omega
      · intro i different
        rw [entries, if_neg different]
    · omega
  · rw [if_neg absent]
    exact ⟨s, sound.selfMapped.installTable_present (by omega) absent, ⟨rfl, rfl, sound, fun _ used => used,
      fun _ _ _ _ => rfl, [], rfl, fun _ member => by cases member⟩, absent, fun _ _ => rfl,
      Nat.add_zero _⟩

/-- The frames that the next page takes. -/
def cost (s : PageState) (v : Nat) : Nat := if s.Absent (v / 1024) then 2 else 1

/-- With enough frames a page is mapped into one that was clear. -/
theorem mapVirtualAddress_keeps (sound : Sound s) {v : Nat} (below : v / 1024 < 1023)
    (enough : s.cost v ≤ s.frames.available) :
    ∃ t, s.mapVirtualAddress (4096 * v) 0x03 = some t ∧ Keeps s t v ∧
      (∀ i, i < 1024 → (t.Absent i ↔ s.Absent i ∧ i ≠ v / 1024)) ∧
      t.frames.available + s.cost v = s.frames.available ∧
      ∃ p, p < 2 ^ 20 ∧ s.frames.used p = false ∧
        translate t.ram t.directory (4096 * v) = some (p, 0) := by
  have page : 4096 * v / 4096 = v := Nat.mul_div_cancel_left v (by decide)
  unfold cost at enough ⊢
  rcases s.frames.allocateNextPage_cases with ⟨p, bound, unset, taken, left⟩ | ⟨none, _⟩
  · have first : s.allocateNextPage = (4096 * p, { s with frames := s.frames.take p }) := by
      unfold allocateNextPage
      rw [taken]
    have same : ∀ c, PageState.Absent { s with frames := s.frames.take p } c ↔ s.Absent c :=
      fun c => Iff.rfl
    have extra : (if s.Absent (v / 1024) then 2 else 1) = 1 + if s.Absent (v / 1024) then 1 else 0 := by
      split <;> rfl
    obtain ⟨t, installed, keeps, present, entries, rest⟩ :=
      installTable_keeps (sound.take p) below v (by rw [if_congr (same _) rfl rfl]; dsimp only; omega)
    rw [if_congr (same _) rfl rfl] at rest
    have used : ∀ frame, s.frames.used frame = true → (s.frames.take p).used frame = true :=
      fun _ before => s.frames.take_keeps p before
    have inside : v % 1024 < 1024 := Nat.mod_lt v (by decide)
    have shown := keeps.sound
    have mapped : s.mapVirtualAddress (4096 * v) 0x03 =
        some (t.withPage (v / 1024) (v % 1024) p) := by
      unfold mapVirtualAddress
      rw [first]
      dsimp only
      rw [mapPage_eq, page, installed, Nat.mul_div_cancel_left p (by decide)]
      exact enterPage shown below present inside
    obtain ⟨fresh, list, clear⟩ := keeps.fresh
    refine ⟨_, mapped, ⟨keeps.directory, keeps.heapEnd, shown.withPage below present, ?_, ?_, p :: fresh,
      ?_, ?_⟩, ?_, ?_, p, bound, unset, ?_⟩
    · intro frame before
      exact keeps.used frame (used frame before)
    · intro address under different before
      have away : address / 4096 ≠ 1024 * (v / 1024) + v % 1024 := by omega
      show translate (t.withPage _ _ p).ram t.directory address = _
      rw [translate_withPage shown below present inside bound under, if_neg away]
      exact keeps.mapped address under different before
    · show p :: t.installed = p :: fresh ++ s.installed
      rw [list]
      rfl
    · intro frame member
      cases List.mem_cons.mp member with
      | inl here =>
        rw [here]
        exact unset
      | inr earlier =>
        rw [Bool.eq_false_iff]
        intro before
        have after := clear frame earlier
        rw [used frame before] at after
        cases after
    · intro i within
      have directory : t.directory = s.directory := keeps.directory
      rw [absent_withPage shown below present]
      by_cases here : i = v / 1024
      · rw [here]
        exact ⟨fun absent => absurd absent present, fun both => absurd rfl both.2⟩
      · unfold Absent
        rw [directory, entries i here]
        exact ⟨fun absent => ⟨absent, here⟩, And.left⟩
    · show t.frames.available + _ = _
      dsimp only at rest
      omega
    · have under : 4096 * v / 2 ^ 22 < 1023 := by omega
      show translate (t.withPage (v / 1024) (v % 1024) p).ram t.directory (4096 * v) = some (p, 0)
      rw [translate_withPage shown below present inside bound under, if_pos (by omega),
        Nat.mul_mod_right]
  · rw [none] at enough
    split at enough <;> omega

theorem writeWord_installed {address value : Nat} (written : s.writeWord address value = some t) :
    t.installed = s.installed := by
  unfold writeWord at written
  cases found : translate s.ram s.directory address with
  | none =>
    rw [found] at written
    cases written
  | some place =>
    rw [found] at written
    cases written
    rfl

theorem clearPage_installed {address : Nat} (cleared : s.clearPage address = some t) :
    t.installed = s.installed := by
  unfold clearPage at cleared
  cases found : translate s.ram s.directory address with
  | none =>
    rw [found] at cleared
    cases cleared
  | some place =>
    rw [found] at cleared
    cases cleared
    rfl

/-- What a table that is missing is given, in any state. -/
theorem installTable_gives {pde : Nat} (read : s.readWord (Kernel.directoryEntry c) = some pde)
    (zero : pde % 2 = 0) (done : s.installTable c = some t) :
    t.installed = s.frames.allocateNextPage.1 / 4096 :: s.installed := by
  rw [installTable_absent read zero] at done
  obtain ⟨u, written, cleared⟩ := Option.bind_eq_some_iff.mp done
  rw [clearPage_installed cleared]
  exact congrArg _ (writeWord_installed written)

theorem installTable_installed (done : s.installTable c = some t) :
    ∃ fresh, t.installed = fresh ++ s.installed := by
  cases read : s.readWord (Kernel.directoryEntry c) with
  | none =>
    unfold installTable at done
    rw [read] at done
    cases done
  | some pde =>
    by_cases zero : pde % 2 = 0
    · exact ⟨[_], installTable_gives read zero done⟩
    · unfold installTable at done
      rw [read] at done
      have same : some s = some t := (if_neg zero).symm.trans done
      cases same
      exact ⟨[], rfl⟩

/-- The frame that `map_virtual_address` enters is the first that it asks for. -/
theorem mapVirtualAddress_installs {address flags : Nat}
    (done : s.mapVirtualAddress address flags = some t) :
    ∃ u, s.allocateNextPage.2.installTable (address / 4096 / 1024) = some u ∧
      t.installed = s.allocateNextPage.1 / 4096 :: u.installed := by
  unfold mapVirtualAddress at done
  rw [mapPage_eq] at done
  obtain ⟨u, installed, entered⟩ := Option.bind_eq_some_iff.mp done
  obtain ⟨w, written, rfl⟩ := Option.map_eq_some_iff.mp entered
  exact ⟨u, installed, congrArg _ (writeWord_installed written)⟩

theorem mapVirtualAddress_installed {address flags : Nat}
    (done : s.mapVirtualAddress address flags = some t) :
    ∃ fresh, t.installed = fresh ++ s.installed := by
  obtain ⟨u, installed, list⟩ := mapVirtualAddress_installs done
  obtain ⟨fresh, before⟩ := installTable_installed installed
  refine ⟨s.allocateNextPage.1 / 4096 :: fresh, ?_⟩
  rw [list, before]
  rfl

theorem allocPages_succ (n : Nat) (s : PageState) : allocPages (n + 1) s =
    (s.mapVirtualAddress s.heapEnd 0x03).bind fun t =>
      allocPages n { t with heapEnd := u32 (t.heapEnd + 4096) } := rfl

theorem allocPages_installed (done : allocPages n s = some t) :
    ∃ fresh, t.installed = fresh ++ s.installed := by
  induction n generalizing s with
  | zero =>
    cases done
    exact ⟨[], rfl⟩
  | succ n ih =>
    rw [allocPages_succ] at done
    obtain ⟨u, mapped, rest⟩ := Option.bind_eq_some_iff.mp done
    obtain ⟨early, first⟩ := mapVirtualAddress_installed mapped
    obtain ⟨late, second⟩ := ih rest
    refine ⟨late ++ early, ?_⟩
    rw [second, List.append_assoc]
    exact congrArg _ first

/-- A page that finds too few frames left is given frame 0, or its table is. -/
theorem mapVirtualAddress_starves (sound : Sound s) {v : Nat} (below : v / 1024 < 1023)
    (short : s.frames.available < s.cost v) (done : s.mapVirtualAddress (4096 * v) 0x03 = some t) :
    ∃ fresh, t.installed = fresh ++ s.installed ∧ 0 ∈ fresh := by
  obtain ⟨u, installed, list⟩ := mapVirtualAddress_installs done
  rw [Nat.mul_div_cancel_left v (by decide)] at installed
  rcases s.frames.allocateNextPage_cases with ⟨p, _, _, taken, left⟩ | ⟨_, result⟩
  · have absent : s.Absent (v / 1024) := by
      by_contra present
      unfold cost at short
      rw [if_neg present] at short
      omega
    have last : (s.frames.take p).available = 0 := by
      unfold cost at short
      rw [if_pos absent] at short
      omega
    have state : s.allocateNextPage.2 = { s with frames := s.frames.take p } := by
      unfold allocateNextPage
      rw [taken]
    rw [state] at installed
    have given := installTable_gives ((sound.take p).selfMapped.readWord_directoryEntry (by omega)) absent installed
    have none : (s.frames.take p).allocateNextPage.1 = 0 := by
      rcases (s.frames.take p).allocateNextPage_cases with ⟨_, _, _, _, more⟩ | ⟨_, result⟩
      · omega
      · rw [result]
    have zero : u.installed = 0 :: s.installed := by
      rw [given]
      show (s.frames.take p).allocateNextPage.1 / 4096 :: s.installed = _
      rw [none]
    refine ⟨[s.allocateNextPage.1 / 4096, 0], ?_, List.mem_cons_of_mem _ (List.mem_singleton_self 0)⟩
    rw [list, zero]
    rfl
  · have none : s.allocateNextPage.1 / 4096 = 0 := by
      show s.frames.allocateNextPage.1 / 4096 = 0
      rw [result]
      exact Nat.zero_div 4096
    obtain ⟨fresh, before⟩ := installTable_installed installed
    refine ⟨0 :: fresh, ?_, List.mem_cons_self ..⟩
    rw [list, none, before]
    rfl

theorem mem_missing {v : Nat} : c ∈ s.missing v n ↔
    c < 1024 ∧ s.Absent c ∧ ∃ i, i < n ∧ (v + i) / 1024 = c := by
  unfold missing
  rw [Finset.mem_filter, Finset.mem_range]
  rfl

theorem cost_le_need {v : Nat} (below : v / 1024 < 1023) (n : Nat) : s.cost v ≤ s.need v (n + 1) := by
  unfold need cost
  split
  · next absent =>
    have positive : 0 < (s.missing v (n + 1)).card :=
      Finset.card_pos.mpr ⟨v / 1024, mem_missing.mpr ⟨by omega, absent, 0, by omega, rfl⟩⟩
    omega
  · omega

theorem need_one_le (s : PageState) (v : Nat) : s.need v 1 ≤ 2 := by
  have single : s.missing v 1 ⊆ {v / 1024} := by
    intro c member
    obtain ⟨_, _, i, inside, same⟩ := mem_missing.mp member
    rw [Finset.mem_singleton, ← same, show i = 0 by omega, Nat.add_zero]
  have tables := Finset.card_le_card single
  rw [Finset.card_singleton] at tables
  unfold need
  omega

/-- The first page's share of what the pages need. -/
theorem need_succ {v : Nat} (below : v / 1024 < 1023)
    (entries : ∀ i, i < 1024 → (t.Absent i ↔ s.Absent i ∧ i ≠ v / 1024)) :
    s.need v (n + 1) = s.cost v + t.need (v + 1) n := by
  have later : ∀ i, i ≠ v / 1024 → (i ∈ s.missing v (n + 1) ↔ i ∈ t.missing (v + 1) n) := by
    intro i different
    rw [mem_missing, mem_missing]
    constructor
    · rintro ⟨inside, absent, k, within, same⟩
      exact ⟨inside, (entries i inside).mpr ⟨absent, different⟩, k - 1, by omega, by
        rw [show v + 1 + (k - 1) = v + k by omega, same]⟩
    · rintro ⟨inside, absent, k, within, same⟩
      exact ⟨inside, ((entries i inside).mp absent).1, k + 1, by omega, by
        rw [show v + (k + 1) = v + 1 + k by omega, same]⟩
  have gone : v / 1024 ∉ t.missing (v + 1) n := by
    intro member
    exact ((entries _ (by omega)).mp (mem_missing.mp member).2.1).2 rfl
  unfold need cost
  by_cases absent : s.Absent (v / 1024)
  · have split : s.missing v (n + 1) = insert (v / 1024) (t.missing (v + 1) n) := by
      ext i
      rw [Finset.mem_insert]
      by_cases here : i = v / 1024
      · rw [here]
        exact ⟨fun _ => Or.inl rfl, fun _ => mem_missing.mpr ⟨by omega, absent, 0, by omega, rfl⟩⟩
      · rw [later i here]
        exact ⟨Or.inr, fun either => either.resolve_left here⟩
    rw [split, Finset.card_insert_of_notMem gone, if_pos absent]
    omega
  · have same : s.missing v (n + 1) = t.missing (v + 1) n := by
      ext i
      by_cases here : i = v / 1024
      · rw [here]
        exact ⟨fun member => absurd (mem_missing.mp member).2.1 absent, fun member => absurd member gone⟩
      · exact later i here
    rw [same, if_neg absent]
    omega

theorem Sound.heapEnd (sound : Sound s) {top : Nat} (aligned : top % 4096 = 0) :
    Sound { s with heapEnd := top } :=
  ⟨sound.self, sound.directory, sound.low, sound.tables, sound.apart, aligned⟩

/-- With too few frames, frame 0 becomes a page or a table. -/
theorem allocPages_starves (sound : Sound s) {v : Nat} (top : s.heapEnd = 4096 * v)
    (fits : v + n ≤ 1023 * 1024) (short : s.frames.available < s.need v n)
    (done : allocPages n s = some t) :
    ∃ fresh, t.installed = fresh ++ s.installed ∧ 0 ∈ fresh := by
  induction n generalizing s v with
  | zero =>
    have none : s.missing v 0 = ∅ := by
      refine Finset.eq_empty_of_forall_notMem fun c member => ?_
      obtain ⟨_, _, i, inside, _⟩ := mem_missing.mp member
      omega
    unfold need at short
    rw [none, Finset.card_empty] at short
    omega
  | succ n ih =>
    have below : v / 1024 < 1023 := by omega
    rw [allocPages_succ, top] at done
    obtain ⟨u, mapped, rest⟩ := Option.bind_eq_some_iff.mp done
    by_cases first : s.cost v ≤ s.frames.available
    · obtain ⟨t', mapped', keeps, entries, spent, _⟩ := mapVirtualAddress_keeps sound below first
      obtain rfl : t' = u := Option.some.inj (mapped'.symm.trans mapped)
      have next : u32 (t'.heapEnd + 4096) = 4096 * (v + 1) := by
        rw [keeps.heapEnd, top, u32_of_lt (by omega)]
        omega
      have share := need_succ (n := n) below entries
      rw [next] at rest
      obtain ⟨fresh, list, zero⟩ := ih (s := { t' with heapEnd := 4096 * (v + 1) }) (v := v + 1)
        (keeps.sound.heapEnd (Nat.mul_mod_right 4096 (v + 1))) rfl (by omega) (by
          show t'.frames.available < t'.need (v + 1) n
          omega) rest
      obtain ⟨early, installed, _⟩ := keeps.fresh
      refine ⟨fresh ++ early, ?_, List.mem_append_left _ zero⟩
      rw [list, List.append_assoc]
      exact congrArg _ installed
    · obtain ⟨early, installed, zero⟩ := mapVirtualAddress_starves sound below (by omega) mapped
      obtain ⟨fresh, list⟩ := allocPages_installed rest
      refine ⟨fresh ++ early, ?_, List.mem_append_right _ zero⟩
      rw [list, List.append_assoc]
      exact congrArg _ installed

end Steps

section Handling

variable {L : Layout} {s : PageState} {pages : Nat}

theorem start_facts (sound : Sound s) (L : Layout) : s.start L = 4096 * (s.start L / 4096) ∧
    s.start L ≠ 0 ∧ Sound { s with heapEnd := s.start L } := by
  have facts := L.heapStart_facts
  have aligned : s.start L % 4096 = 0 ∧ s.start L ≠ 0 := by
    unfold start
    split
    · omega
    · next started => exact ⟨sound.aligned, started⟩
  exact ⟨by omega, aligned.2, sound.heapEnd aligned.1⟩

theorem Handled.enough (handled : s.Handled L pages) (sound : Sound s)
    (fits : s.start L + 4096 * pages ≤ 0xFFC00000) :
    s.need (s.start L / 4096) pages ≤ s.frames.available := by
  obtain ⟨whole, _, started⟩ := start_facts sound L
  obtain ⟨first, t, done, _, fresh, list, clear⟩ := handled
  by_contra short
  obtain ⟨u, run, same⟩ := Option.bind_eq_some_iff.mp done
  cases same
  obtain ⟨fresh', list', zero⟩ := allocPages_starves started whole (by omega)
    (show s.frames.available < s.need (s.start L / 4096) pages by omega) run
  have lists : fresh = fresh' := List.append_cancel_right (list.symm.trans list')
  have unset := clear 0 (lists ▸ zero)
  rw [sound.low] at unset
  cases unset

end Handling

/-- A kernel image of 2 MiB. -/
def imageLayout : Layout := ⟨0xC0300000, by decide, by decide⟩

/-- A directory in frame 1 that leads only to itself, with a bitmap. -/
def bare (bitmap : Nat → BitVec 32) : PageState where
  ram := Function.update (fun _ _ => 0) 1 (store32 (fun _ => 0) (4 * 1023) (4096 * 1 + 3))
  directory := 1
  frames := Frames.boot bitmap
  heapEnd := 0
  installed := []

theorem bare_entry (bitmap : Nat → BitVec 32) (c : Nat) :
    entry (bare bitmap).ram 1 c = if c = 1023 then 4096 * 1 + 3 else 0 :=
  @Kernel.entry_store (fun _ _ => 0) 1 1023 (4096 * 1 + 3) (by decide) c

end PageState

end Snfos
