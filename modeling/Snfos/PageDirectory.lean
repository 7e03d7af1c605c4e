import Snfos.FrameSupply

set_option autoImplicit false

/- `map_page` on any page directory whose tables lie in frames of their own. -/
namespace Snfos.PageState

open ByteMemory

def getPhysicalAddress (virtualAddress : Nat) (s : PageState) : Option Nat := do
  let page := virtualAddress / 4096
  let pte ← s.readWord (Kernel.tableEntry (page / 1024) (page % 1024))
  some (pte / 4096 * 4096 + virtualAddress % 4096)

/-- The tables are separate, and the search for a frame passes over none that is clear, as
every call that touches the bitmap leaves it. -/
structure Ordered (s : PageState) : Prop extends Separate s where
  hinted : s.frames.Hinted

section Mapping

variable {s : PageState} {c : Nat}

/-- The frames of mapped pages are in use. -/
def Marked (s : PageState) : Prop :=
  ∀ address frame offset, address < 0xFFC00000 →
    translate s.ram s.directory address = some (frame, offset) → s.frames.used frame = true

/-- What `map_page` owes for one page: its entry, its translation, every other page as it
was, and tables in order. It does not mark the frame of the page itself. -/
structure MapsPage (s t : PageState) (virtualAddress physicalAddress flags : Nat) : Prop where
  here : ∀ v, v / 4096 = virtualAddress / 4096 →
    t.getPhysicalAddress v = some (physicalAddress / 4096 * 4096 + v % 4096)
  entry : t.readWord
      (Kernel.tableEntry (virtualAddress / 4096 / 1024) (virtualAddress / 4096 % 1024)) =
    some (4096 * (physicalAddress / 4096) + (flags % 4096 ||| 1))
  elsewhere : ∀ v, v < 0xFFC00000 → v / 4096 ≠ virtualAddress / 4096 →
    translate t.ram t.directory v = translate s.ram s.directory v
  ordered : Ordered t
  marked : ∀ v frame offset, v < 0xFFC00000 →
    (v / 4096 = virtualAddress / 4096 → s.frames.used (physicalAddress / 4096) = true) →
    translate t.ram t.directory v = some (frame, offset) → t.frames.used frame = true

/-- The table that a page needs is there afterwards, and nothing is mapped otherwise. -/
theorem Ordered.installTable (ordered : Ordered s) (below : c < 1023)
    (clear : ∃ n, n < 2 ^ 20 ∧ s.frames.used n = false) :
    ∃ u, s.installTable c = some u ∧ Ordered u ∧ ¬ u.Absent c ∧ u.directory = s.directory ∧
      (∀ f, s.frames.used f = true → u.frames.used f = true) ∧
      ∀ address, address / 2 ^ 22 < 1023 →
        translate u.ram s.directory address = translate s.ram s.directory address := by
  by_cases missing : s.Absent c
  · rcases ordered.hinted.allocateNextPage with ⟨q, bound, unset, lowest, taken⟩ | ⟨full, _⟩
    · have other := (ne_clear unset ordered.directory_used).symm
      refine ⟨s.withTable c q, ordered.installTable_missing below missing bound other taken,
        ⟨ordered.toSeparate.withTable below bound unset, Frames.hinted_take bound lowest⟩, ?_, rfl, ?_, fun address under => ?_⟩
      · rw [absent_withTable ordered.toSeparate bound unset]
        exact fun both => both.2 rfl
      · intro f use
        exact s.frames.take_keeps q use
      · exact translate_emptyTable ordered.toSeparate under missing bound unset
    · obtain ⟨n, inside, unset⟩ := clear
      rw [full n inside] at unset
      cases unset
  · exact ⟨s, ordered.installTable_present (by omega) missing, ordered, missing, rfl,
      fun _ use => use, fun _ _ => rfl⟩

theorem Ordered.withEntry (ordered : Ordered s) (below : c < 1023) (present : ¬ s.Absent c)
    (j value : Nat) : Ordered (s.withEntry c j value) :=
  ⟨ordered.toSeparate.withEntry below present j value, ordered.hinted⟩

theorem Ordered.install (ordered : Ordered s) (frame : Nat) : Ordered (s.install frame) :=
  ⟨ordered.toSeparate.install frame, ordered.hinted⟩

theorem mapPage_maps (s : PageState) (ordered : Ordered s) (marked : Marked s)
    (clear : ∃ n, n < 2 ^ 20 ∧ s.frames.used n = false) (virtualAddress physicalAddress flags : Nat)
    (below : virtualAddress < 0xFFC00000) (word : physicalAddress < 2 ^ 32) :
    ∃ t, s.mapPage virtualAddress physicalAddress flags = some t ∧
      MapsPage s t virtualAddress physicalAddress flags := by
  obtain ⟨v, vIs⟩ : ∃ v, v = virtualAddress / 4096 := ⟨_, rfl⟩
  obtain ⟨p, pIs⟩ : ∃ p, p = physicalAddress / 4096 := ⟨_, rfl⟩
  obtain ⟨value, valueIs⟩ : ∃ value, value = 4096 * p + (flags % 4096 ||| 1) := ⟨_, rfl⟩
  have low : flags % 4096 ||| 1 < 4096 :=
    Nat.or_lt_two_pow (n := 12) (Nat.mod_lt flags (by decide)) (by decide)
  have odd : (flags % 4096 ||| 1) % 2 = 1 := Nat.or_mod_two_eq_one.mpr (Or.inr rfl)
  have small : value < 2 ^ 32 := by omega
  have inside : v % 1024 < 1024 := Nat.mod_lt v (by decide)
  have table : v / 1024 < 1023 := by omega
  obtain ⟨u, installed, tables, present, directory, used, same⟩ := ordered.installTable table clear
  have mapped : s.mapPage virtualAddress physicalAddress flags =
      some ((u.withEntry (v / 1024) (v % 1024) value).install p) := by
    rw [mapPage_eq, ← vIs, ← pIs, pageEntry_eq, ← valueIs, installed]
    exact congrArg (Option.map (install p)) (tables.writeEntry (by omega) inside present value)
  have translates : ∀ address, address < 0xFFC00000 →
      translate (u.withEntry (v / 1024) (v % 1024) value).ram s.directory address =
        if address / 4096 = v then some (p, address % 4096)
        else translate s.ram s.directory address := by
    intro address bound
    have entered : ¬ value % 2 = 0 := by omega
    rw [← directory, translate_withEntry tables.toSeparate table (by omega) inside present small, directory,
      same address (by omega), show 1024 * (v / 1024) + v % 1024 = v by omega, if_neg entered,
      show value / 4096 = p by omega]
  have after := (tables.withEntry table present (v % 1024) value).install p
  have there : ¬ ((u.withEntry (v / 1024) (v % 1024) value).install p).Absent (v / 1024) := by
    rw [← absent_withEntry tables.toSeparate table present (v % 1024) value] at present
    exact present
  have reads : ((u.withEntry (v / 1024) (v % 1024) value).install p).readWord
      (Kernel.tableEntry (v / 1024) (v % 1024)) = some value := by
    rw [after.readEntry (by omega) inside there]
    refine congrArg some ((pte_withEntry tables.toSeparate table present small (by omega) present _).trans ?_)
    exact if_pos ⟨rfl, rfl⟩
  refine ⟨_, mapped, ⟨fun a page => ?_, ?_, fun a bound away => ?_, after, fun a f o bound mine leads => ?_⟩⟩
  · unfold getPhysicalAddress
    rw [← vIs] at page
    rw [page]
    dsimp only
    rw [reads, ← pIs]
    show some (value / 4096 * 4096 + a % 4096) = _
    rw [show value / 4096 = p by omega]
  · rw [← vIs, ← pIs, reads, valueIs]
  · rw [← vIs] at away
    show translate (u.withEntry _ _ value).ram u.directory a = _
    rw [directory, translates a bound, if_neg away]
  · rw [← vIs, ← pIs] at mine
    have found : translate (u.withEntry (v / 1024) (v % 1024) value).ram s.directory a = some (f, o) := by
      rw [← directory]
      exact leads
    show u.frames.used f = true
    rw [translates a bound] at found
    by_cases page : a / 4096 = v
    · rw [if_pos page, Option.some.injEq, Prod.mk.injEq] at found
      rw [← found.1]
      exact used p (mine page)
    · rw [if_neg page] at found
      exact used f (marked a f o bound found)

/-- A directory with no entry but its own. -/
theorem Separate.lone (entries : ∀ i, i < 1024 → entry s.ram s.directory i =
      if i = 1023 then 4096 * s.directory + 3 else 0)
    (use : s.frames.used s.directory = true) : Separate s ∧ ∀ i, i < 1023 → s.Absent i := by
  have last := entries 1023 (by decide)
  rw [if_pos rfl] at last
  have leads : s.table 1023 = s.directory := by
    unfold table
    omega
  have absent : ∀ i, i < 1023 → s.Absent i := by
    intro i below
    unfold Absent
    rw [entries i (by omega), if_neg (by omega)]
  have only : ∀ i, i < 1024 → ¬ s.Absent i → i = 1023 := by
    intro i inside present
    by_contra below
    exact present (absent i (by omega))
  refine ⟨⟨⟨?_, leads⟩, fun i i' inside inside' there there' _ => ?_, fun i inside there => ?_⟩, absent⟩
  · unfold Absent
    omega
  · rw [only i inside there, only i' inside' there']
  · rw [only i inside there, leads]
    exact use

theorem Marked.lone (absent : ∀ i, i < 1023 → s.Absent i) : Marked s := by
  intro address frame offset below leads
  rw [translate_eq, if_pos (absent _ (by omega))] at leads
  cases leads

theorem bare_lone {bitmap : Nat → BitVec 32} (use : (Frames.boot bitmap).used 1 = true) :
    Ordered (bare bitmap) ∧ Marked (bare bitmap) := by
  obtain ⟨separate, absent⟩ := Separate.lone (s := bare bitmap)
    (fun i _ => bare_entry bitmap i) use
  exact ⟨⟨separate, Frames.boot_hinted bitmap⟩, Marked.lone absent⟩

theorem mapPage_maps_bare : ∃ t, (bare fun block => if block = 0 then 3#32 else 0#32).mapPage
    0x400000 0x1000 0x03 = some t ∧
    MapsPage (bare fun block => if block = 0 then 3#32 else 0#32) t 0x400000 0x1000 0x03 :=
  mapPage_maps (bare fun block => if block = 0 then 3#32 else 0#32) (bare_lone (by decide)).1
    (bare_lone (by decide)).2 ⟨2, by decide, by decide⟩ 0x400000 0x1000 0x03 (by decide) (by decide)

/-- `last_allocated` stands at the last word, which is full, before words that are not. The
directory is in frame 0. -/
def stale : PageState where
  ram := Function.update (fun _ _ => 0) 0 (store32 (fun _ => 0) (4 * 1023) (4096 * 0 + 3))
  directory := 0
  frames := ⟨fun block => if block = 0 then 1#32 else if block = 32767 then BitVec.allOnes 32 else 0#32,
    some 32767, false⟩
  heapEnd := 0
  installed := []

theorem stale_entry (c : Nat) : entry stale.ram 0 c = if c = 1023 then 4096 * 0 + 3 else 0 :=
  @Kernel.entry_store (fun _ _ => 0) 0 1023 (4096 * 0 + 3) (by decide) c

theorem stale_separate : Separate stale ∧ Marked stale := by
  obtain ⟨separate, absent⟩ := Separate.lone (s := stale) (fun i _ => stale_entry i) (by decide)
  exact ⟨separate, Marked.lone absent⟩

/-- A page on a frame that is not in use leaves that frame unmarked. And a search that
passes over the clear frames puts the table into frame 0, over the directory there. -/
theorem mapPage_leaves_unmarked :
    (Ordered (bare fun block => if block = 0 then 3#32 else 0#32) ∧
      Marked (bare fun block => if block = 0 then 3#32 else 0#32) ∧
      (∃ n, n < 2 ^ 20 ∧ (Frames.boot fun block => if block = 0 then 3#32 else 0#32).used n = false) ∧
      ∃ t, (bare fun block => if block = 0 then 3#32 else 0#32).mapPage 0x400000 0x5000 0x03 = some t ∧
        ¬ Marked t) ∧
    Separate stale ∧ Marked stale ∧ (∃ n, n < 2 ^ 20 ∧ stale.frames.used n = false) ∧
      stale.mapPage 0x400000 0x1000 0x03 = none := by
  refine ⟨⟨(bare_lone (by decide)).1, (bare_lone (by decide)).2, ⟨2, by decide, by decide⟩, ?_⟩,
    stale_separate.1, stale_separate.2, ⟨1, by decide, by decide⟩, ?_⟩
  · have mapped : ((bare fun block => if block = 0 then 3#32 else 0#32).mapPage 0x400000 0x5000 0x03).map
        (fun t => (translate t.ram t.directory 0x400000, t.frames.used 5)) = some (some (5, 0), false) := by
      decide
    obtain ⟨t, done, result⟩ := Option.map_eq_some_iff.mp mapped
    rw [Prod.mk.injEq] at result
    refine ⟨t, done, fun marked => ?_⟩
    have use := marked 0x400000 5 0 (by decide) result.1
    rw [result.2] at use
    cases use
  · have fault : (stale.mapPage 0x400000 0x1000 0x03).isNone = true := by decide
    exact Option.isNone_iff_eq_none.mp fault

end Mapping

end Snfos.PageState
