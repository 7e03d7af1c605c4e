import Snfos.Paging

set_option autoImplicit false

/- Mapping keeps the page tables in order: a new table, the next page of the heap,
and a page of the heap that is put on a frame of a boot module. -/
namespace Snfos.Kernel

open ByteMemory

variable {M : Machine}

/-- What mapping heap pages, up to `top'` then, leaves as it was. Only entries 769
to 1021 of the current directory change among the heap's own frames. The pages
`moved` may get another home, and frames of the modules `spent` become homes. -/
structure Maps (moved spent : Nat → Prop) (top top' : Nat) (k k' : Kernel M) : Prop where
  shape : k' = { k with
    ram := k'.ram, frames := k'.frames, home := k'.home, mapper := k'.mapper, uses := k'.uses }
  homes : ∀ v, HeapPage M top v → ¬ moved v → k'.home v = k.home v ∧ k'.mapper v = k.mapper v
  heapUse : ∀ f v, k.uses f = some (.heap v) → ¬ moved v → k'.uses f = some (.heap v)
  moduleUse : ∀ f i, k.uses f = some (.module i) → ¬ spent i → k'.uses f = some (.module i)
  bootUse : ∀ f, k.uses f = some .bootPageDirectory → k'.uses f = some .bootPageDirectory
  bytes : ∀ f v offset, k.uses f = some (.heap v) → ¬ moved v →
    (f = k.cr3 / 4096 → offset < 3076 ∨ 4088 ≤ offset) → k'.ram f offset = k.ram f offset
  moduleBytes : ∀ f i, k.uses f = some (.module i) → ¬ spent i → k'.ram f = k.ram f
  mapped : ∀ v, HeapPage M top v → Mapped k v → Mapped k' v
  fresh : ∀ v, top ≤ 4096 * v → 4096 * v < top' → Mapped k' v ∧ k'.mapper v = k.cr3 / 4096
  spaces : ∀ d, Space top k d → (∀ v, moved v → k.uses d ≠ some (.heap v)) → Space top' k' d

/-- The heap grows, and nothing else happens. -/
abbrev Grows (top top' : Nat) (k k' : Kernel M) : Prop :=
  Maps (fun _ => False) (fun _ => False) top top' k k'

/-- A frame that is marked, and is neither the heap's, a module's nor a page table: memory
that is nobody's to hand out. -/
def Reserved (k : Kernel M) (f : Nat) : Prop :=
  k.frames.used f = true ∧
    (k.uses f = none ∨ k.uses f = some .low ∨ k.uses f = some .bootPageDirectory)

/-- Such a frame stays so, and is not written to, but for the entries of the directory in
use in the range of the heap. -/
def Spares (k k' : Kernel M) : Prop :=
  ∀ f, Reserved k f → Reserved k' f ∧
    ∀ offset, (f = k.cr3 / 4096 → offset < 3076 ∨ 4088 ≤ offset) → k'.ram f offset = k.ram f offset

theorem Spares.refl (k : Kernel M) : Spares k k := fun _ reserved => ⟨reserved, fun _ _ => rfl⟩

theorem Spares.trans {k k' k'' : Kernel M} (first : Spares k k') (second : Spares k' k'')
    (cr3 : k'.cr3 = k.cr3) : Spares k k'' := by
  intro f reserved
  obtain ⟨reserved', bytes⟩ := first f reserved
  obtain ⟨reserved'', bytes'⟩ := second f reserved'
  rw [cr3] at bytes'
  exact ⟨reserved'', fun offset outside => (bytes' offset outside).trans (bytes offset outside)⟩

theorem Reserved.ne {k : Kernel M} {f g : Nat} {u : Use} (reserved : Reserved k f)
    (use : k.uses g = some u) (other : u ≠ .low ∧ u ≠ .bootPageDirectory) : f ≠ g := by
  rintro rfl
  rcases reserved.2 with free | low | boot
  · rw [use] at free
    cases free
  · rw [use] at low
    exact other.1 (Option.some.inj low)
  · rw [use] at boot
    exact other.2 (Option.some.inj boot)

section Growth

variable {covered enough : Prop} {spare top top' : Nat} {k k' : Kernel M} {moved spent : Nat → Prop}

theorem Maps.cr3 (maps : Maps moved spent top top' k k') : k'.cr3 = k.cr3 := by rw [maps.shape]

theorem Maps.blocks (maps : Maps moved spent top top' k k') : k'.blocks = k.blocks := by
  rw [maps.shape]

theorem Maps.refl (moved spent : Nat → Prop) (top : Nat) (k : Kernel M) :
    Maps moved spent top top k k where
  shape := rfl
  homes := fun _ _ _ => ⟨rfl, rfl⟩
  heapUse := fun _ _ use _ => use
  moduleUse := fun _ _ use _ => use
  bootUse := fun _ use => use
  bytes := fun _ _ _ _ _ _ => rfl
  moduleBytes := fun _ _ _ _ => rfl
  mapped := fun _ _ mapped => mapped
  fresh := fun _ lower upper => absurd upper (by omega)
  spaces := fun _ space _ => space

/-- Frames of further modules may become homes. -/
theorem Maps.spend (maps : Maps moved (fun _ => False) top top' k k') (spent : Nat → Prop) :
    Maps moved spent top top' k k' :=
  { maps with
    moduleUse := fun f i use _ => maps.moduleUse f i use id
    moduleBytes := fun f i use _ => maps.moduleBytes f i use id }

theorem Maps.trans {top'' : Nat} {k'' : Kernel M} (first : Maps moved spent top top' k k')
    (second : Maps moved spent top' top'' k' k'') (lower : M.layout.heapStart ≤ top)
    (order : top ≤ top') (stay : ∀ v, moved v → 4096 * v < top) :
    Maps moved spent top top'' k k'' where
  shape := by
    rw [second.shape, first.shape]
  homes := fun v page fixed => by
    have wider : HeapPage M top' v := ⟨page.1, Nat.lt_of_lt_of_le page.2 order⟩
    rw [(second.homes v wider fixed).1, (second.homes v wider fixed).2]
    exact first.homes v page fixed
  heapUse := fun f v use fixed => second.heapUse f v (first.heapUse f v use fixed) fixed
  moduleUse := fun f i use unspent => second.moduleUse f i (first.moduleUse f i use unspent) unspent
  bootUse := fun f use => second.bootUse f (first.bootUse f use)
  bytes := fun f v offset use fixed outside => by
    rw [second.bytes f v offset (first.heapUse f v use fixed) fixed (by rwa [first.cr3])]
    exact first.bytes f v offset use fixed outside
  moduleBytes := fun f i use unspent => by
    rw [second.moduleBytes f i (first.moduleUse f i use unspent) unspent]
    exact first.moduleBytes f i use unspent
  mapped := fun v page mapped =>
    second.mapped v ⟨page.1, Nat.lt_of_lt_of_le page.2 order⟩ (first.mapped v page mapped)
  fresh := fun v above below => by
    by_cases early : 4096 * v < top'
    · obtain ⟨mapped, mapper⟩ := first.fresh v above early
      have page : HeapPage M top' v := ⟨by omega, early⟩
      have fixed : ¬ moved v := fun so => absurd (stay v so) (by omega)
      exact ⟨second.mapped v page mapped, (second.homes v page fixed).2.trans mapper⟩
    · obtain ⟨mapped, mapper⟩ := second.fresh v (by omega) below
      exact ⟨mapped, by rw [mapper, first.cr3]⟩
  spaces := fun d space away => by
    refine second.spaces d (first.spaces d space away) fun v so use => ?_
    rcases space.place with place | ⟨w, place⟩
    · rw [first.bootUse d place] at use
      cases use
    · have fixed : ¬ moved w := fun so => away w so place
      rw [first.heapUse d w place fixed] at use
      cases use
      exact fixed so

theorem Paging.mapped_iff (paging : Paging covered enough spare top k) {v : Nat} (page : HeapPage M top v) :
    Mapped k v ↔ ∃ t, entry k.ram (k.cr3 / 4096) (v / 1024) = 4096 * t + 3 ∧
      entry k.ram t (v % 1024) ≠ 0 := by
  obtain ⟨lower, upper⟩ := page.bounds paging.upper
  have pde : 4096 * v / 2 ^ 22 = v / 1024 := by omega
  have pte : 4096 * v / 4096 % 1024 = v % 1024 := by omega
  have odd : ∀ t, (4096 * t + 3) % 2 ≠ 0 := fun t => by omega
  have frame : ∀ t, (4096 * t + 3) / 4096 = t := fun t => by omega
  rcases paging.current.table lower upper with ⟨absent, _⟩ | ⟨t, present, _⟩
  · constructor
    · intro mapped
      simp only [Mapped, translate, pde, absent, Nat.zero_mod, ↓reduceIte, Option.isSome_none,
        Bool.false_eq_true] at mapped
    · rintro ⟨t, present, _⟩
      omega
  · have unique : ∀ t', entry k.ram (k.cr3 / 4096) (v / 1024) = 4096 * t' + 3 → t' = t := by
      intro t' present'
      omega
    rcases paging.current.page_entry paging page present with ⟨zero, _⟩ | ⟨home, _⟩
    · constructor
      · intro mapped
        simp only [Mapped, translate, pde, pte, present, odd, frame, zero, Nat.zero_mod, ↓reduceIte,
          Option.isSome_none, Bool.false_eq_true] at mapped
      · rintro ⟨t', present', nonzero⟩
        rw [unique t' present'] at nonzero
        exact absurd zero nonzero
    · constructor
      · intro _
        exact ⟨t, present, by omega⟩
      · intro _
        simp only [Mapped, translate, pde, pte, present, odd, frame, home, ↓reduceIte,
          Option.isSome_some]

/-- Frames with different uses are different. -/
theorem frame_ne {f f' : Nat} {u u' : Option Use} (use : k.uses f = u) (use' : k.uses f' = u')
    (different : u ≠ u') : f ≠ f' := by
  rintro rfl
  exact different (use.symm.trans use')

theorem Space.ne_none (space : Space top k top') : k.uses top' ≠ none := by
  rcases space.place with place | ⟨v, place⟩ <;> simp [place]

theorem Paging.unused (paging : Paging covered enough spare top k) {f : Nat} (unset : k.frames.used f = false) :
    k.uses f = none := by
  cases use : k.uses f with
  | none => rfl
  | some u =>
      have set := (paging.used f u use).2
      rw [unset] at set
      cases set

/-- A frame that was not in use, and never frame 0. -/
theorem Paging.ensures_allocateNextPage (paging : Paging covered enough (spare + 1) top k) :
    Command.Ensures (Excused M covered enough) k allocateNextPage fun page k' =>
      ∃ f, page = 4096 * f ∧ f < 2 ^ 20 ∧ k.frames.used f = false ∧
        (∀ g, g < f → k.frames.used g = true) ∧ k' = { k with frames := k.frames.take f } ∧
        Paging covered enough spare top k' := by
  unfold allocateNextPage
  apply Command.ensures_get_bind
  rcases paging.hinted.allocateNextPage with ⟨f, inside, unset, below, result⟩ | ⟨full, result⟩
  · rw [result]
    have nonzero : 4096 * f ≠ 0 := by
      intro zero
      have low := (paging.used 0 _ paging.low).2
      obtain rfl : f = 0 := by omega
      rw [unset] at low
      cases low
    simp only [nonzero, ↓reduceIte]
    apply Command.ensures_set_bind
    refine Command.ensures_pure _ ⟨f, rfl, inside, unset, below, rfl, ?_⟩
    have kept : ∀ g u, k.uses g = some u → g < 2 ^ 20 ∧ (k.frames.take f).used g = true := by
      intro g u use
      obtain ⟨bound, set⟩ := paging.used g u use
      exact ⟨bound, k.frames.take_keeps f set⟩
    have count := Frames.unused_take inside unset
    exact { paging with hinted := Frames.hinted_take inside below, used := kept,
                        boot := { paging.boot with }, current := { paging.current with }
                        supply := fun so => by
                          have before := paging.supply so
                          rw [← count] at before
                          exact Nat.le_of_succ_le_succ before }
  · rw [result]
    refine Command.ensures_throw _ fun so => ?_
    have before := paging.supply so
    rw [Frames.unused_eq_zero full] at before
    omega

end Growth

section Mapping

variable {covered enough : Prop} {spare top : Nat} {k : Kernel M}

/-- The state after a new table in frame `t` was installed as entry `i`. -/
def installed (k : Kernel M) (t i : Nat) : Kernel M :=
  let d := k.cr3 / 4096
  let ram := Function.update k.ram d (store32 (k.ram d) (4 * i) (4096 * t + 3))
  { k with
    frames := k.frames.take t
    ram := Function.update ram t (fill (ram t) 0 4096 0)
    uses := Function.update k.uses t (some (.pageTable d i)) }

/-- An entry is a new table's, or the new entry, or as it was. -/
theorem entry_installed {t i : Nat} (bound : t < 2 ^ 20) (f j : Nat) (inside : j < 1024) :
    entry (installed k t i).ram f j =
      if f = t then 0
      else if f = k.cr3 / 4096 ∧ j = i then 4096 * t + 3 else entry k.ram f j := by
  unfold installed
  dsimp only
  by_cases new : f = t
  · rw [if_pos new, new]
    exact entry_clear inside
  · rw [if_neg new, entry_update_ne _ _ new]
    by_cases directory : f = k.cr3 / 4096
    · rw [directory, entry_store (by omega)]
      simp only [true_and]
    · rw [entry_update_ne _ _ directory, if_neg (fun both => directory both.1)]

theorem uses_installed (k : Kernel M) (t i f : Nat) :
    (installed k t i).uses f = if f = t then some (.pageTable (k.cr3 / 4096) i) else k.uses f := by
  unfold installed
  dsimp only
  by_cases here : f = t
  · rw [here, Function.update_self, if_pos rfl]
  · rw [Function.update_of_ne here, if_neg here]

/-- Nothing is written outside the new table but the entry that leads to it. -/
theorem ram_installed (k : Kernel M) {t i f offset : Nat} (new : f ≠ t)
    (outside : f = k.cr3 / 4096 → offset < 4 * i ∨ 4 * i + 4 ≤ offset) :
    (installed k t i).ram f offset = k.ram f offset := by
  unfold installed
  dsimp only
  rw [Function.update_of_ne new]
  by_cases directory : f = k.cr3 / 4096
  · rw [directory, Function.update_self, store32_ne]
    have region := outside directory
    omega
  · rw [Function.update_of_ne directory]

theorem Space.installed {t i d : Nat} (space : Space top k d) (bound : t < 2 ^ 20)
    (fresh : k.uses t = none) (current : Space top k (k.cr3 / 4096)) (lower : 769 ≤ i)
    (upper : i < 1022) : Space top (installed k t i) d := by
  have away : d ≠ t := by
    rintro rfl
    exact space.ne_none fresh
  have entries := fun f j inside => entry_installed (k := k) (i := i) bound f j inside
  have uses := uses_installed k t i
  refine ⟨?_, ?_, ?_, fun i' lower' upper' => ?_⟩
  · rw [uses, if_neg away]
    exact space.place
  · rw [entries _ _ (by omega), if_neg away, if_neg (by omega), space.self]
  · rw [entries _ _ (by omega), if_neg away, if_neg (by omega), space.shared]
  · by_cases here : d = k.cr3 / 4096 ∧ i' = i
    · obtain ⟨same, rfl⟩ := here
      refine Or.inr ⟨t, ?_, ?_, fun j inside => Or.inl ?_⟩
      · rw [entries _ _ (by omega), if_neg away, if_pos ⟨same, rfl⟩]
      · rw [uses, if_pos rfl, same]
      · rw [entries _ _ inside, if_pos rfl]
    · rcases space.own i' lower' upper' with absent | ⟨t', present, use, maps⟩
      · left
        rw [entries _ _ (by omega), if_neg away, if_neg here, absent]
      · have apart : t' ≠ t := by
          rintro rfl
          rw [fresh] at use
          cases use
        have table : t' ≠ k.cr3 / 4096 := by
          rintro rfl
          rcases current.place with place | ⟨v, place⟩ <;> rw [use] at place <;> cases place
        refine Or.inr ⟨t', ?_, ?_, fun j inside => ?_⟩
        · rw [entries _ _ (by omega), if_neg away, if_neg here, present]
        · rw [uses, if_neg apart, use]
        · rw [entries _ _ inside, if_neg apart, if_neg (fun both => table both.1)]
          exact maps j inside

/-- The frame of a table that a directory leads to is no directory and not unused. -/
theorem Paging.table_use (paging : Paging covered enough spare top k) {d i t : Nat}
    (table : i = 768 ∧ t = M.kernelPageTable ∨ i ≠ 768 ∧ k.uses t = some (.pageTable d i)) :
    k.uses t ≠ none ∧ t ≠ k.cr3 / 4096 := by
  have use : k.uses t = some .kernelPageTable ∨ k.uses t = some (.pageTable d i) := by
    rcases table with ⟨_, rfl⟩ | ⟨_, use⟩
    · exact Or.inl paging.kernelPageTable
    · exact Or.inr use
  refine ⟨by rcases use with use | use <;> simp [use], ?_⟩
  rintro rfl
  rcases paging.current.place with place | ⟨v, place⟩ <;> rcases use with use | use <;>
    rw [place] at use <;> cases use

/-- A new page table keeps everything. -/
theorem Paging.installed {t i : Nat} (paging : Paging covered enough (spare + 1) top k)
    (bound : t < 2 ^ 20)
    (unset : k.frames.used t = false) (below : ∀ f, f < t → k.frames.used f = true)
    (lower : 769 ≤ i) (upper : i < 1022) (absent : entry k.ram (k.cr3 / 4096) i = 0) :
    Paging covered enough spare top (installed k t i) ∧ Grows top top k (installed k t i) := by
  have fresh := paging.unused unset
  have away : ∀ f, k.uses f ≠ none → f ≠ t := by
    rintro f use rfl
    exact use fresh
  have entries := fun f j inside => entry_installed (k := k) (i := i) bound f j inside
  have uses := uses_installed k t i
  have keeps : ∀ f u, k.uses f = some u → (Kernel.installed k t i).uses f = some u := by
    intro f u use
    rw [uses, if_neg (away f (by simp [use])), use]
  have table := paging.table_use (d := 0) (i := 768) (Or.inl ⟨rfl, rfl⟩)
  have shared : ∀ j, j < 1024 →
      entry (Kernel.installed k t i).ram M.kernelPageTable j = entry k.ram M.kernelPageTable j := by
    intro j inside
    rw [entries _ _ inside, if_neg (away _ table.1), if_neg (fun both => table.2 both.1)]
  have spaces : ∀ d, Space top k d → Space top (Kernel.installed k t i) d :=
    fun d space => space.installed bound fresh paging.current lower upper
  have used : ∀ f u, (Kernel.installed k t i).uses f = some u →
      f < 2 ^ 20 ∧ (k.frames.take t).used f = true := by
    intro f u use
    rw [uses] at use
    rw [Frames.used_take]
    by_cases here : f = t
    · exact ⟨here ▸ bound, by simp [here]⟩
    · rw [if_neg here] at use
      obtain ⟨inside, set⟩ := paging.used f u use
      exact ⟨inside, by rw [set, Bool.true_or]⟩
  have partly : Paging False enough spare top (Kernel.installed k t i) := {
    aligned := paging.aligned, lower := paging.lower, upper := paging.upper
    hinted := Frames.hinted_take bound below
    used := used
    low := keeps _ _ paging.low
    kernelPageTable := keeps _ _ paging.kernelPageTable
    bootPageDirectory := keeps _ _ paging.bootPageDirectory
    homes := fun v page => keeps _ _ (paging.homes v page)
    shared := fun j inside page => (shared j inside).trans (paging.shared j inside page)
    beyond := fun j inside past => (shared j inside).trans (paging.beyond j inside past)
    boot := spaces _ paging.boot
    current := spaces _ paging.current
    covers := False.elim
    supply := fun so => by
      have before := paging.supply so
      rw [← Frames.unused_take bound unset] at before
      exact Nat.le_of_succ_le_succ before }
  have mapped : ∀ v, HeapPage M top v → Mapped k v → Mapped (Kernel.installed k t i) v := by
    intro v page mapped
    obtain ⟨t', present, nonzero⟩ := (paging.mapped_iff page).mp mapped
    obtain ⟨low, high⟩ := page.bounds paging.upper
    have known : k.uses t' ≠ none ∧ t' ≠ k.cr3 / 4096 := by
      rcases paging.current.table low high with ⟨zero, _⟩ | ⟨t'', present', leads⟩
      · omega
      · obtain rfl : t'' = t' := by omega
        exact paging.table_use leads
    refine (partly.mapped_iff page).mpr ⟨t', ?_, ?_⟩
    · have moved : (Kernel.installed k t i).cr3 = k.cr3 := rfl
      rw [moved, entries _ _ (by omega), if_neg (away _ paging.current.ne_none), if_neg ?_, present]
      rintro ⟨_, rfl⟩
      omega
    · rw [entries _ _ (by omega), if_neg (away _ known.1), if_neg (fun both => known.2 both.1)]
      exact nonzero
  refine ⟨{ partly with covers := fun so v page => mapped v page (paging.covers so v page) }, {
    shape := rfl
    homes := fun _ _ _ => ⟨rfl, rfl⟩
    heapUse := fun f v use _ => keeps _ _ use
    moduleUse := fun f j use _ => keeps _ _ use
    bootUse := fun f use => keeps _ _ use
    bytes := ?_
    moduleBytes := ?_
    mapped := mapped
    fresh := fun v above below => absurd below (by omega)
    spaces := fun d space _ => spaces d space }⟩
  · intro f v offset use _ outside
    refine ram_installed k (away f (by simp [use])) fun directory => ?_
    have region := outside directory
    omega
  · intro f j use _
    have directory : f ≠ k.cr3 / 4096 := by
      rintro rfl
      rcases paging.current.place with place | ⟨v, place⟩ <;> rw [use] at place <;> cases place
    funext offset
    exact ram_installed k (away f (by simp [use])) fun same => absurd same directory

/-- The new table's frame was free, and only its entry is written beside it. -/
theorem spares_installed {t i : Nat} (unset : k.frames.used t = false) (lower : 769 ≤ i)
    (upper : i < 1022) : Spares k (installed k t i) := by
  intro f reserved
  have new : f ≠ t := by
    rintro rfl
    exact Bool.false_ne_true (unset.symm.trans reserved.1)
  refine ⟨⟨Frames.take_keeps _ t reserved.1, ?_⟩, fun offset outside => ?_⟩
  · rw [uses_installed, if_neg new]
    exact reserved.2
  · refine ram_installed k new fun directory => ?_
    have region := outside directory
    omega

/-- `installTable` for a table in the heap's range. -/
theorem Paging.ensures_installTable (paging : Paging covered enough (spare + 1) top k) {i : Nat}
    (lower : 768 ≤ i) (upper : i < 1022) :
    Command.Ensures (Excused M covered enough) k (installTable i) fun _ k' =>
      Paging covered enough spare top k' ∧ Grows top top k k' ∧ Spares k k' ∧
        entry k'.ram (k'.cr3 / 4096) i ≠ 0 ∧
        ∀ f, k.frames.used f = true → k'.uses f = k.uses f ∧ k'.frames.used f = true := by
  have self := translate_directoryEntry paging.current.self (i := i) (by omega)
  unfold installTable
  refine Command.ensures_bind (ensures_readWord (Q := fun pde k' =>
      pde = entry k.ram (k.cr3 / 4096) i ∧ k' = k) ?_ fun none => ?_) ?_
  · intro f offset found
    rw [self] at found
    cases found
    exact ⟨rfl, rfl⟩
  · rw [self] at none
    cases none
  rintro _ k ⟨rfl, rfl⟩
  refine Command.ensures_ite (fun even => ?_) fun odd => Command.ensures_pure _
    ⟨paging.spend (Nat.le_succ _), .refl _ _ _ _, .refl k, fun zero => odd (by rw [zero]),
      fun f set => ⟨rfl, set⟩⟩
  obtain ⟨absent, private'⟩ : entry k.ram (k.cr3 / 4096) i = 0 ∧ i ≠ 768 := by
    rcases paging.current.table lower upper with absent | ⟨t, present, _⟩
    · exact absent
    · omega
  apply Command.ensures_bind paging.ensures_allocateNextPage
  rintro _ _ ⟨t, rfl, bound, unset, below, rfl, _⟩
  rw [or_flags t (by decide)]
  obtain ⟨paging', grows⟩ := paging.installed bound unset below (by omega) upper absent
  have other : k.cr3 / 4096 ≠ t := by
    rintro rfl
    exact paging.current.ne_none (paging.unused unset)
  refine Command.ensures_bind (ensures_editFrame (Q := fun _ k' =>
      k' = { k with
        frames := k.frames.take t
        ram := Function.update k.ram (k.cr3 / 4096)
          (store32 (k.ram (k.cr3 / 4096)) (4 * i) (4096 * t + 3)) }) ?_ fun none => ?_) ?_
  · intro f offset found
    simp only [self, Option.some.injEq, Prod.mk.injEq] at found
    obtain ⟨rfl, rfl⟩ := found
    rfl
  · simp only [self] at none
    cases none
  rintro _ _ rfl
  apply Command.ensures_modify_bind
  simp only [Nat.mul_div_cancel_left t (by decide : 0 < 4096)]
  have self' : entry (Function.update k.ram (k.cr3 / 4096)
      (store32 (k.ram (k.cr3 / 4096)) (4 * i) (4096 * t + 3))) (k.cr3 / 4096) 1023 =
      4096 * (k.cr3 / 4096) + 3 := by
    rw [entry_store (by omega), if_neg (by omega), paging.current.self]
  have leads : entry (Function.update k.ram (k.cr3 / 4096)
      (store32 (k.ram (k.cr3 / 4096)) (4 * i) (4096 * t + 3))) (k.cr3 / 4096) i =
      4096 * t + 3 := by
    rw [entry_store (by omega), if_pos rfl]
  have window := translate_tableEntry self' (i := i) (j := 0) (by omega) (by omega)
  rw [leads, if_neg (by omega), show (4096 * t + 3) / 4096 = t by omega] at window
  refine ensures_editFrame ?_ fun none => ?_
  · intro f offset found
    simp only [window, Option.some.injEq, Prod.mk.injEq] at found
    obtain ⟨rfl, _⟩ := found
    refine ⟨paging', grows, spares_installed unset (by omega) upper, ?_, ?_⟩
    · have present := entry_installed (k := k) (i := i) bound (k.cr3 / 4096) i (by omega)
      rw [if_neg other, if_pos ⟨rfl, rfl⟩] at present
      intro zero
      have same : entry (Kernel.installed k t i).ram (k.cr3 / 4096) i = 0 := zero
      omega
    · intro f set
      have apart : f ≠ t := by
        rintro rfl
        rw [unset] at set
        cases set
      have uses := uses_installed k t i f
      rw [if_neg apart] at uses
      exact ⟨uses, Frames.take_keeps _ t set⟩
  · simp only [window] at none
    cases none

/-- The state after page `v` was entered in table `t` with frame `g`. -/
def entered (k : Kernel M) (t v g : Nat) : Kernel M :=
  { k with
    ram := Function.update k.ram t (store32 (k.ram t) (4 * (v % 1024)) (4096 * g + 3))
    home := Function.update k.home v g
    mapper := Function.update k.mapper v (k.cr3 / 4096)
    uses := Function.update k.uses g (some (.heap v)) }

theorem entry_entered {t v g : Nat} (bound : g < 2 ^ 20) (f j : Nat) :
    entry (entered k t v g).ram f j =
      if f = t ∧ j = v % 1024 then 4096 * g + 3 else entry k.ram f j := by
  unfold entered
  dsimp only
  by_cases table : f = t
  · rw [table, entry_store (by omega)]
    simp only [true_and]
  · rw [entry_update_ne _ _ table, if_neg (fun both => table both.1)]

theorem ram_entered (k : Kernel M) {t f : Nat} (v g : Nat) (other : f ≠ t) :
    (entered k t v g).ram f = k.ram f := by
  unfold entered
  dsimp only
  rw [Function.update_of_ne other]

theorem home_entered (k : Kernel M) (t v g w : Nat) :
    (entered k t v g).home w = if w = v then g else k.home w := by
  unfold entered
  dsimp only
  by_cases here : w = v
  · rw [here, Function.update_self, if_pos rfl]
  · rw [Function.update_of_ne here, if_neg here]

theorem mapper_entered (k : Kernel M) (t v g w : Nat) :
    (entered k t v g).mapper w = if w = v then k.cr3 / 4096 else k.mapper w := by
  unfold entered
  dsimp only
  by_cases here : w = v
  · rw [here, Function.update_self, if_pos rfl]
  · rw [Function.update_of_ne here, if_neg here]

theorem uses_entered (k : Kernel M) (t v g f : Nat) :
    (entered k t v g).uses f = if f = g then some (.heap v) else k.uses f := by
  unfold entered
  dsimp only
  by_cases here : f = g
  · rw [here, Function.update_self, if_pos rfl]
  · rw [Function.update_of_ne here, if_neg here]

/-- Page `v` is the next one of the heap, or one that no directory but the current
one maps by itself; frame `g` is marked and serves for nothing but maybe a module. -/
structure Enters (covered enough : Prop) (spare top top' : Nat) (k : Kernel M) (t v g : Nat) :
    Prop where
  paging : Paging covered enough spare top k
  extent : top' = top ∧ HeapPage M top v ∨ top' = top + 4096 ∧ 4096 * v = top
  upper : top' ≤ 0xFF800000
  bound : g < 2 ^ 20
  set : k.frames.used g = true
  fresh : k.uses g = none ∨ ∃ i, k.uses g = some (.module i)
  alone : HeapPage M top v → v / 1024 = 768 ∨ k.mapper v = k.cr3 / 4096
  leads : entry k.ram (k.cr3 / 4096) (v / 1024) = 4096 * t + 3

theorem Enters.page {t v g top' : Nat} (enters : Enters covered enough spare top top' k t v g) (w : Nat) :
    HeapPage M top' w ↔ HeapPage M top w ∨ w = v := by
  have lower := enters.paging.lower
  unfold HeapPage
  rcases enters.extent with ⟨same, inside⟩ | ⟨more, here⟩
  · unfold HeapPage at inside
    rw [same]
    constructor
    · exact Or.inl
    · rintro (page | rfl)
      · exact page
      · exact inside
  · have aligned := enters.paging.aligned
    omega

theorem Enters.table {t v g top' : Nat} (enters : Enters covered enough spare top top' k t v g) :
    768 ≤ v / 1024 ∧ v / 1024 < 1022 ∧
      (v / 1024 = 768 ∧ t = M.kernelPageTable ∨
        v / 1024 ≠ 768 ∧ k.uses t = some (.pageTable (k.cr3 / 4096) (v / 1024))) := by
  have page : HeapPage M top' v := (enters.page v).mpr (Or.inr rfl)
  obtain ⟨lower, upper⟩ := page.bounds enters.upper
  refine ⟨lower, upper, ?_⟩
  have leads := enters.leads
  rcases enters.paging.current.table lower upper with ⟨absent, _⟩ | ⟨t', present, table⟩
  · omega
  · obtain rfl : t' = t := by omega
    exact table

theorem Enters.ne_frame {t v g top' f : Nat} {u : Use} (enters : Enters covered enough spare top top' k t v g)
    (use : k.uses f = some u) (notModule : ∀ i, u ≠ .module i) : f ≠ g := by
  rintro rfl
  rcases enters.fresh with fresh | ⟨i, fresh⟩
  · rw [fresh] at use
    cases use
  · rw [fresh] at use
    cases use
    exact notModule i rfl

theorem Enters.uses {t v g top' f : Nat} {u : Use} (enters : Enters covered enough spare top top' k t v g)
    (use : k.uses f = some u) (notModule : ∀ i, u ≠ .module i) : (entered k t v g).uses f = some u := by
  rw [uses_entered, if_neg (enters.ne_frame use notModule), use]

theorem Enters.table_use {t v g top' : Nat} (enters : Enters covered enough spare top top' k t v g) :
    k.uses t = some .kernelPageTable ∨ ∃ d i, k.uses t = some (.pageTable d i) := by
  rcases enters.table.2.2 with ⟨_, rfl⟩ | ⟨_, use⟩
  · exact Or.inl enters.paging.kernelPageTable
  · exact Or.inr ⟨_, _, use⟩

/-- The table written to serves for nothing else. -/
theorem Enters.ne_table {t v g top' f : Nat} {u : Use} (enters : Enters covered enough spare top top' k t v g)
    (use : k.uses f = some u) (notKernel : u ≠ .kernelPageTable) (notTable : ∀ d i, u ≠ .pageTable d i) :
    f ≠ t := by
  rintro rfl
  rcases enters.table_use with table | ⟨d, i, table⟩
  · exact notKernel (Option.some.inj (use.symm.trans table))
  · exact notTable d i (Option.some.inj (use.symm.trans table))

theorem Enters.ram_module {t v g top' f i : Nat}
    (enters : Enters covered enough spare top top' k t v g) (use : k.uses f = some (.module i)) :
    (entered k t v g).ram f = k.ram f :=
  ram_entered k v g (enters.ne_table use (by simp) (by simp))

theorem Enters.spares {t v g top' f : Nat} (enters : Enters covered enough spare top top' k t v g)
    (reserved : Reserved k f) (other : f ≠ g) :
    Reserved (entered k t v g) f ∧ (entered k t v g).ram f = k.ram f := by
  have table : f ≠ t := by
    rcases enters.table_use with table | ⟨d, i, table⟩
    · exact reserved.ne table (by simp)
    · exact reserved.ne table (by simp)
  refine ⟨⟨reserved.1, ?_⟩, ?_⟩
  · rw [uses_entered, if_neg other]
    exact reserved.2
  · exact ram_entered k v g table

theorem Space.entered {t v g d top' : Nat} (space : Space top k d)
    (enters : Enters covered enough spare top top' k t v g) : Space top' (entered k t v g) d := by
  obtain ⟨lower, upper, table⟩ := enters.table
  have entries := entry_entered (k := k) (t := t) (v := v) enters.bound
  have directory : d ≠ t := by
    rcases space.place with place | ⟨w, place⟩
    · exact enters.ne_table place (by simp) (by simp)
    · exact enters.ne_table place (by simp) (by simp)
  refine ⟨?_, ?_, ?_, fun i lower' upper' => ?_⟩
  · rcases space.place with place | ⟨w, place⟩
    · exact Or.inl (enters.uses place (by simp))
    · exact Or.inr ⟨w, enters.uses place (by simp)⟩
  · rw [entries, if_neg (fun both => directory both.1), space.self]
  · rw [entries, if_neg (fun both => directory both.1), space.shared]
  · rcases space.own i lower' upper' with absent | ⟨t', present, use, maps⟩
    · left
      rw [entries, if_neg (fun both => directory both.1), absent]
    · refine Or.inr ⟨t', ?_, enters.uses use (by simp), fun j inside => ?_⟩
      · rw [entries, if_neg (fun both => directory both.1), present]
      · rw [entries, home_entered, mapper_entered]
        by_cases here : 1024 * i + j = v
        · have index : j = v % 1024 ∧ i = v / 1024 := by omega
          rw [if_pos here, if_pos here]
          by_cases same : t' = t
          · rw [if_pos ⟨same, index.1⟩, here]
            have current : k.cr3 / 4096 = d := by
              rcases table with ⟨first, _⟩ | ⟨_, use'⟩
              · omega
              · rw [← same, use] at use'
                cases use'
                rfl
            exact Or.inr ⟨(enters.page v).mpr (Or.inr rfl), current, rfl⟩
          · rw [if_neg (fun both => same both.1)]
            rcases maps j inside with zero | ⟨page, mapper, home⟩
            · exact Or.inl zero
            · exfalso
              rw [here] at page mapper
              rcases enters.alone page with first | own
              · omega
              · have leads := enters.leads
                rw [← own, mapper, ← index.2, present] at leads
                omega
        · rw [if_neg here, if_neg here, if_neg (fun both => ?_)]
          · rcases maps j inside with zero | ⟨page, mapper, home⟩
            · exact Or.inl zero
            · exact Or.inr ⟨(enters.page _).mpr (Or.inl page), mapper, home⟩
          · obtain ⟨rfl, index⟩ := both
            rcases table with ⟨_, rfl⟩ | ⟨_, use'⟩
            · rw [enters.paging.kernelPageTable] at use
              cases use
            · rw [use] at use'
              cases use'
              omega

/-- Page tables stay in order, whatever is mapped. -/
theorem Enters.partly {t v g top' : Nat} (enters : Enters covered enough spare top top' k t v g) :
    Paging False enough spare top' (entered k t v g) := by
  have paging := enters.paging
  have entries := entry_entered (k := k) (t := t) (v := v) enters.bound
  have homes := home_entered k t v g
  have order : top ≤ top' ∧ top' % 4096 = 0 := by
    have aligned := paging.aligned
    rcases enters.extent with ⟨same, _⟩ | ⟨more, _⟩ <;> omega
  have kernel : t = M.kernelPageTable ↔ v / 1024 = 768 := by
    rcases enters.table.2.2 with ⟨first, same⟩ | ⟨later, use⟩
    · exact ⟨fun _ => first, fun _ => same⟩
    · refine ⟨fun same => ?_, fun first => absurd first later⟩
      rw [same, paging.kernelPageTable] at use
      cases use
  exact {
    aligned := order.2, lower := Nat.le_trans paging.lower order.1, upper := enters.upper
    hinted := paging.hinted
    used := by
      intro f u use
      rw [uses_entered] at use
      by_cases here : f = g
      · rw [here]
        exact ⟨enters.bound, enters.set⟩
      · rw [if_neg here] at use
        exact paging.used f u use
    low := enters.uses paging.low (by simp)
    kernelPageTable := enters.uses paging.kernelPageTable (by simp)
    bootPageDirectory := enters.uses paging.bootPageDirectory (by simp)
    homes := by
      intro w page
      rw [homes]
      by_cases here : w = v
      · rw [if_pos here, uses_entered, if_pos rfl, here]
      · rw [if_neg here]
        have old := ((enters.page w).mp page).resolve_right here
        exact enters.uses (paging.homes w old) (by simp)
    shared := by
      intro j inside page
      rw [entries, homes]
      by_cases here : 786432 + j = v
      · rw [if_pos here, if_pos ⟨(kernel.mpr (by omega)).symm, by omega⟩]
      · have old := ((enters.page _).mp page).resolve_right here
        rw [if_neg here, if_neg (fun both => ?_), paging.shared j inside old]
        have first := kernel.mp both.1.symm
        omega
    beyond := by
      intro j inside past
      rw [entries, if_neg (fun both => ?_), paging.beyond j inside (by omega)]
      have first := kernel.mp both.1.symm
      have page := (enters.page v).mpr (Or.inr rfl)
      unfold HeapPage at page
      omega
    boot := paging.boot.entered enters
    current := paging.current.entered enters
    covers := False.elim
    supply := paging.supply }

/-- The new page is mapped, and those that were are still. -/
theorem Enters.mapped {t v g top' w : Nat} (enters : Enters covered enough spare top top' k t v g)
    (page : w = v ∨ HeapPage M top w ∧ Mapped k w) : Mapped (entered k t v g) w := by
  have entries := entry_entered (k := k) (t := t) (v := v) enters.bound
  have directory : k.cr3 / 4096 ≠ t :=
    (enters.paging.table_use enters.table.2.2).2.symm
  have moved : (entered k t v g).cr3 = k.cr3 := rfl
  rcases page with rfl | ⟨page, mapped⟩
  · refine (enters.partly.mapped_iff ((enters.page w).mpr (Or.inr rfl))).mpr ⟨t, ?_, ?_⟩
    · rw [moved, entries, if_neg (fun both => directory both.1), enters.leads]
    · rw [entries, if_pos ⟨rfl, rfl⟩]
      omega
  · obtain ⟨t', present, nonzero⟩ := (enters.paging.mapped_iff page).mp mapped
    refine (enters.partly.mapped_iff ((enters.page w).mpr (Or.inl page))).mpr ⟨t', ?_, ?_⟩
    · rw [moved, entries, if_neg (fun both => directory both.1), present]
    · rw [entries]
      split
      · omega
      · exact nonzero

/-- Entering a page keeps the page tables in order. -/
theorem Enters.keeps {t v g top' : Nat} (enters : Enters covered enough spare top top' k t v g)
    (moved spent : Nat → Prop) (isMoved : HeapPage M top v → moved v)
    (isSpent : ∀ i, k.uses g = some (.module i) → spent i) :
    Paging covered enough spare top' (entered k t v g) ∧ Maps moved spent top top' k (entered k t v g) := by
  refine ⟨{ enters.partly with covers := fun so w page => ?_ }, {
    shape := rfl
    homes := ?_
    heapUse := fun f w use _ => enters.uses use (by simp)
    moduleUse := ?_
    bootUse := fun f use => enters.uses use (by simp)
    bytes := fun f w offset use _ _ => by
      rw [ram_entered k v g (enters.ne_table use (by simp) (by simp))]
    moduleBytes := fun _ _ use _ => enters.ram_module use
    mapped := fun w page mapped => enters.mapped (Or.inr ⟨page, mapped⟩)
    fresh := ?_
    spaces := fun d space _ => space.entered enters }⟩
  · rcases (enters.page w).mp page with old | rfl
    · exact enters.mapped (Or.inr ⟨old, enters.paging.covers so w old⟩)
    · exact enters.mapped (Or.inl rfl)
  · intro w page fixed
    have other : w ≠ v := by
      rintro rfl
      exact fixed (isMoved page)
    rw [home_entered, mapper_entered, if_neg other, if_neg other]
    exact ⟨rfl, rfl⟩
  · intro f i use unspent
    rw [uses_entered, if_neg ?_, use]
    rintro rfl
    exact unspent (isSpent i use)
  · intro w above below
    have here : w = v := by
      rcases enters.extent with ⟨same, _⟩ | ⟨more, here⟩ <;> omega
    rw [here, mapper_entered, if_pos rfl]
    exact ⟨enters.mapped (Or.inl rfl), rfl⟩

/-- The last write of `map_page`, once the table is there. -/
theorem ensures_enter {Q : Unit → Kernel M → Prop} {t v g : Nat} {excused : Fault → Prop}
    (self : entry k.ram (k.cr3 / 4096) 1023 = 4096 * (k.cr3 / 4096) + 3) (inside : v / 1024 < 1024)
    (leads : entry k.ram (k.cr3 / 4096) (v / 1024) = 4096 * t + 3)
    (holds : Q () (entered k t v g)) :
    Command.Ensures excused k (do
      writeWord (tableEntry (v / 1024) (v % 1024)) (4096 * g ||| 3 % 4096 ||| 1)
      modify fun k => { k with
        home := Function.update k.home v g
        mapper := Function.update k.mapper v (k.cr3 / 4096)
        uses := Function.update k.uses g (some (.heap v)) }) Q := by
  have window := translate_tableEntry self inside (Nat.mod_lt v (by decide : 0 < 1024))
  rw [leads, if_neg (by omega), show (4096 * t + 3) / 4096 = t by omega] at window
  have flags : 4096 * g ||| 3 % 4096 ||| 1 = 4096 * g + 3 := by
    rw [Nat.or_assoc]
    exact or_flags g (by decide)
  rw [flags]
  refine Command.ensures_bind (ensures_editFrame (Q := fun _ k' => k' = { k with
      ram := Function.update k.ram t (store32 (k.ram t) (4 * (v % 1024)) (4096 * g + 3)) })
    ?_ fun none => ?_) ?_
  · intro f offset found
    simp only [window, Option.some.injEq, Prod.mk.injEq] at found
    obtain ⟨rfl, rfl⟩ := found
    rfl
  · simp only [window] at none
    cases none
  · rintro _ _ rfl
    exact Command.ensures_modify _ holds

/-- `map_virtual_address` at the end of the heap. -/
theorem Paging.ensures_mapVirtualAddress (paging : Paging covered enough (spare + 2) top k)
    (room : top + 4096 ≤ 0xFF800000) :
    Command.Ensures (Excused M covered enough) k (mapVirtualAddress top 0x03) fun _ k' =>
      Paging covered enough spare (top + 4096) k' ∧ Grows top (top + 4096) k k' ∧ Spares k k' := by
  have low := M.layout.heapStart_facts
  have aligned := paging.aligned
  have lower := paging.lower
  unfold mapVirtualAddress mapPage
  apply Command.ensures_bind paging.ensures_allocateNextPage
  rintro _ k₁ ⟨g, rfl, bound, unset, below, shape, paging₁⟩
  have fresh : k₁.uses g = none := by
    rw [shape]
    exact paging.unused unset
  have set : k₁.frames.used g = true := by
    rw [shape, Frames.used_take]
    simp
  have first : Grows top top k k₁ := by
    rw [shape]
    exact { Maps.refl _ _ top k with
      spaces := fun d space _ => { space with }, shape := rfl }
  simp only [Nat.mul_div_cancel_left g (by decide : 0 < 4096)]
  refine Command.ensures_bind (paging₁.ensures_installTable (i := top / 4096 / 1024)
    (by omega) (by omega)) ?_
  rintro _ k₂ ⟨paging₂, second, spares₂, nonzero, kept⟩
  obtain ⟨fresh₂, set₂⟩ := kept g set
  obtain ⟨t, leads⟩ : ∃ t, entry k₂.ram (k₂.cr3 / 4096) (top / 4096 / 1024) = 4096 * t + 3 := by
    rcases paging₂.current.table (i := top / 4096 / 1024) (by omega) (by omega) with
      ⟨absent, _⟩ | ⟨t, present, _⟩
    · exact absurd absent nonzero
    · exact ⟨t, present⟩
  have enters : Enters covered enough spare top (top + 4096) k₂ t (top / 4096) g := {
    paging := paging₂, extent := Or.inr ⟨rfl, by omega⟩, upper := room, bound := bound
    set := set₂, fresh := Or.inl (fresh₂.trans fresh), leads := leads
    alone := fun page => by
      unfold HeapPage at page
      omega }
  obtain ⟨paging₃, third⟩ := enters.keeps (fun _ => False) (fun _ => False)
    (fun page => by
      unfold HeapPage at page
      omega)
    (fun i use => by
      rw [fresh₂, fresh] at use
      cases use)
  refine ensures_enter paging₂.current.self (by omega) leads ⟨paging₃, ?_, fun f reserved => ?_⟩
  · exact (first.trans second lower (Nat.le_refl _) (fun _ => False.elim)).trans third lower
      (Nat.le_refl _) (fun _ => False.elim)
  · have other : f ≠ g := by
      rintro rfl
      exact Bool.false_ne_true (unset.symm.trans reserved.1)
    have reserved₁ : Reserved k₁ f := by
      rw [shape]
      exact ⟨Frames.take_keeps _ g reserved.1, reserved.2⟩
    obtain ⟨reserved₂, bytes₂⟩ := spares₂ f reserved₁
    obtain ⟨reserved₃, bytes₃⟩ := enters.spares reserved₂ other
    refine ⟨reserved₃, fun offset outside => ?_⟩
    rw [bytes₃, bytes₂ offset (by rwa [first.cr3]), shape]

/-- `alloc_page` maps the pages that follow the heap's end. -/
theorem Paging.ensures_allocPage (pages : Nat)
    (paging : Paging covered enough (spare + 2 * pages) top k)
    (room : top + 4096 * pages ≤ 0xFF800000) :
    Command.Ensures (Excused M covered enough) k (allocPage top pages) fun _ k' =>
      Paging covered enough spare (top + 4096 * pages) k' ∧
        Grows top (top + 4096 * pages) k k' ∧ Spares k k' := by
  unfold allocPage
  refine Command.ensures_bind (Command.ensures_for (fun i k' =>
    Paging covered enough (spare + 2 * (pages - i)) (top + 4096 * i) k' ∧
      Grows top (top + 4096 * i) k k' ∧ Spares k k') ⟨paging, .refl _ _ _ _, .refl k⟩ ?_) ?_
  · rintro i k' inside ⟨paging', grows, spares⟩
    have split : spare + 2 * (pages - i) = spare + 2 * (pages - (i + 1)) + 2 := by omega
    rw [split] at paging'
    apply Command.ensures_bind (paging'.ensures_mapVirtualAddress (by omega))
    rintro _ k'' ⟨paging'', grows', spares'⟩
    apply Command.ensures_pure _
    have more : top + 4096 * (i + 1) = top + 4096 * i + 4096 := by omega
    simp only [Command.Pass, more]
    exact ⟨paging'', grows.trans grows' paging.lower (by omega) (fun _ => False.elim),
      spares.trans spares' grows.cr3⟩
  · rintro _ k' ⟨paging', grows, spares⟩
    rw [Nat.sub_self] at paging'
    exact Command.ensures_pure _ ⟨paging', grows, spares⟩

end Mapping

section Frames

variable {covered enough : Prop} {spare top : Nat} {k : Kernel M}

/-- `get_physical_address` of a heap address: zero, but for the offset, where the
table is there and the page is not mapped. -/
theorem Paging.ensures_getPhysicalAddress (paging : Paging covered enough spare top k) {a : Nat}
    (page : HeapPage M top (a / 4096)) :
    Command.Ensures (Excused M covered enough) k (getPhysicalAddress a) fun x k' => k' = k ∧
      (Mapped k (a / 4096) → x = 4096 * k.home (a / 4096) + a % 4096) ∧
      (¬ Mapped k (a / 4096) → x = a % 4096) := by
  obtain ⟨lower, upper⟩ := page.bounds paging.upper
  have window := translate_tableEntry paging.current.self (i := a / 4096 / 1024)
    (j := a / 4096 % 1024) (by omega) (Nat.mod_lt _ (by decide))
  unfold getPhysicalAddress
  refine Command.ensures_bind (ensures_readWord (Q := fun pte k' => k' = k ∧
    ∃ t, entry k.ram (k.cr3 / 4096) (a / 4096 / 1024) = 4096 * t + 3 ∧
      pte = entry k.ram t (a / 4096 % 1024)) ?_ ?_) ?_
  · intro f offset found
    rw [window] at found
    rcases paging.current.table lower upper with ⟨absent, _⟩ | ⟨t, present, _⟩
    · rw [absent] at found
      cases found
    · rw [present, if_neg (by omega), show (4096 * t + 3) / 4096 = t by omega] at found
      simp only [Option.some.injEq, Prod.mk.injEq] at found
      refine ⟨rfl, t, present, ?_⟩
      rw [← found.1, ← found.2]
      rfl
  · intro none so
    have mapped := (paging.mapped_iff page).mp (paging.covers so _ page)
    obtain ⟨t, present, _⟩ := mapped
    rw [window, present, if_neg (by omega)] at none
    cases none
  · rintro _ k ⟨rfl, t, present, rfl⟩
    refine Command.ensures_pure _ ⟨rfl, fun mapped => ?_, fun unmapped => ?_⟩
    · obtain ⟨t', present', nonzero⟩ := (paging.mapped_iff page).mp mapped
      obtain rfl : t' = t := by omega
      rcases paging.current.page_entry paging page present with ⟨zero, _⟩ | ⟨home, _⟩
      · exact absurd zero nonzero
      · rw [home]
        omega
    · have zero : entry k.ram t (a / 4096 % 1024) = 0 := by
        by_contra nonzero
        exact unmapped ((paging.mapped_iff page).mpr ⟨t, present, nonzero⟩)
      rw [zero]
      omega

/-- The state after frame `f` was given back. -/
def released (k : Kernel M) (f : Nat) : Kernel M :=
  { k with
    frames := k.frames.freePhysicalPage (4096 * f)
    uses := Function.update k.uses f none }

/-- A frame that is no page's home any more may be given back. -/
theorem Paging.released {v f : Nat} (paging : Paging covered enough spare top k)
    (stale : k.uses f = some (.heap v)) (moved : k.home v ≠ f)
    (current : k.uses (k.cr3 / 4096) ≠ some (.heap v)) :
    Paging covered enough spare top (released k f) ∧
      Maps (fun w => w = v) (fun _ => False) top top k (released k f) := by
  have inside := (paging.used f _ stale).1
  have keeps : ∀ g u, k.uses g = some u → u ≠ .heap v → (Kernel.released k f).uses g = some u := by
    intro g u use other
    have apart : g ≠ f := by
      rintro rfl
      rw [stale] at use
      cases use
      exact other rfl
    unfold Kernel.released
    dsimp only
    rw [Function.update_of_ne apart, use]
  have spaces : ∀ d, Space top k d → k.uses d ≠ some (.heap v) →
      Space top (Kernel.released k f) d := by
    intro d space away
    refine ⟨?_, space.self, space.shared, fun i lower upper => ?_⟩
    · rcases space.place with place | ⟨w, place⟩
      · exact Or.inl (keeps _ _ place (by simp))
      · refine Or.inr ⟨w, keeps _ _ place ?_⟩
        rintro same
        rw [place, same] at away
        exact away rfl
    · rcases space.own i lower upper with absent | ⟨t, present, use, maps⟩
      · exact Or.inl absent
      · exact Or.inr ⟨t, present, keeps _ _ use (by simp), maps⟩
  have boot : k.uses M.bootPageDirectory ≠ some (.heap v) := by
    rw [paging.bootPageDirectory]
    simp
  have uses : ∀ g u, (Kernel.released k f).uses g = some u → g ≠ f ∧ k.uses g = some u := by
    intro g u use
    unfold Kernel.released at use
    dsimp only at use
    by_cases here : g = f
    · rw [here, Function.update_self] at use
      cases use
    · rw [Function.update_of_ne here] at use
      exact ⟨here, use⟩
  refine ⟨{ paging with
    hinted := Frames.hinted_freePhysicalPage _
    supply := fun so => Nat.le_trans (paging.supply so) (Frames.unused_freePhysicalPage ?_)
    used := ?_
    low := keeps _ _ paging.low (by simp)
    kernelPageTable := keeps _ _ paging.kernelPageTable (by simp)
    bootPageDirectory := keeps _ _ paging.bootPageDirectory (by simp)
    homes := ?_
    boot := spaces _ paging.boot boot
    current := spaces _ paging.current current }, {
    shape := rfl
    homes := fun _ _ _ => ⟨rfl, rfl⟩
    heapUse := fun g w use fixed => keeps _ _ use (by simpa using fixed)
    moduleUse := fun g i use _ => keeps _ _ use (by simp)
    bootUse := fun g use => keeps _ _ use (by simp)
    bytes := fun _ _ _ _ _ _ => rfl
    moduleBytes := fun _ _ _ _ => rfl
    mapped := fun _ _ mapped => mapped
    fresh := fun _ above below => absurd below (by omega)
    spaces := fun d space away => spaces d space (away v rfl) }⟩
  · intro g u use
    obtain ⟨other, use'⟩ := uses g u use
    obtain ⟨bound, set⟩ := paging.used g u use'
    refine ⟨bound, ?_⟩
    unfold Kernel.released
    dsimp only
    rw [Frames.used_freePhysicalPage (by omega), set, Nat.mul_div_cancel_left f (by decide)]
    simpa using other
  · intro w page
    have use := paging.homes w page
    by_cases here : k.home w = f
    · rw [here, stale] at use
      cases use
      exact absurd here moved
    · unfold Kernel.released
      dsimp only
      rw [Function.update_of_ne here, use]
  · omega

theorem spares_released {v f : Nat} (bound : f < 2 ^ 20) (use : k.uses f = some (.heap v)) :
    Spares k (released k f) := by
  intro g reserved
  have other : g ≠ f := reserved.ne use (by simp)
  refine ⟨⟨?_, ?_⟩, fun _ _ => rfl⟩
  · unfold released
    dsimp only
    rw [Frames.used_freePhysicalPage (by omega), reserved.1, Nat.mul_div_cancel_left f (by decide)]
    simpa using other
  · unfold released
    dsimp only
    rw [Function.update_of_ne other]
    exact reserved.2

theorem ensures_freePhysicalPage {excused : Fault → Prop} {Q : Unit → Kernel M → Prop}
    (f : Nat) (holds : Q () (released k f)) :
    Command.Ensures excused k (freePhysicalPage (4096 * f)) Q := by
  unfold freePhysicalPage
  rw [Nat.mul_div_cancel_left f (by decide : 0 < 4096)]
  exact Command.ensures_modify _ holds

/-- `installTable` does nothing where the table is there. -/
theorem ensures_installTable_present {excused : Fault → Prop} {i t : Nat}
    (self : entry k.ram (k.cr3 / 4096) 1023 = 4096 * (k.cr3 / 4096) + 3) (inside : i < 1024)
    (present : entry k.ram (k.cr3 / 4096) i = 4096 * t + 3) :
    Command.Ensures excused k (installTable i) fun _ k' => k' = k := by
  have window := translate_directoryEntry self inside
  unfold installTable
  refine Command.ensures_bind (ensures_readWord (Q := fun pde k' =>
      pde = entry k.ram (k.cr3 / 4096) i ∧ k' = k) ?_ fun none => ?_) ?_
  · intro f offset found
    simp only [window, Option.some.injEq, Prod.mk.injEq] at found
    rw [← found.1, ← found.2]
    exact ⟨rfl, rfl⟩
  · rw [window] at none
    cases none
  · rintro _ k ⟨rfl, rfl⟩
    exact Command.ensures_ite (fun even => absurd even (by omega))
      fun _ => Command.ensures_pure _ rfl

/-- One page of `temp_pages` is put on a frame of a module; its own frame goes back. -/
theorem Paging.ensures_mapModulePage (paging : Paging covered enough spare top k) {v g i : Nat}
    (page : HeapPage M top v) (mapped : Mapped k v) (mapper : k.mapper v = k.cr3 / 4096)
    (current : k.uses (k.cr3 / 4096) ≠ some (.heap v)) (use : k.uses g = some (.module i)) :
    Command.Ensures (Excused M covered enough) k (do
      let physical ← getPhysicalAddress (4096 * v)
      freePhysicalPage physical
      mapPage (4096 * v) (4096 * g) 0x03) fun _ k' =>
      Paging covered enough spare top k' ∧ Maps (fun w => w = v) (fun j => j = i) top top k k' ∧
        k'.home v = g ∧ k'.mapper v = k'.cr3 / 4096 ∧
        (∀ f j, f ≠ g → k.uses f = some (.module j) → k'.uses f = some (.module j)) ∧
        (∀ f j, k.uses f = some (.module j) → k'.ram f = k.ram f) ∧ Spares k k' := by
  obtain ⟨lower, upper⟩ := page.bounds paging.upper
  have whole : 4096 * v / 4096 = v := Nat.mul_div_cancel_left v (by decide)
  obtain ⟨bound, set⟩ := paging.used g _ use
  obtain ⟨t, leads, _⟩ := (paging.mapped_iff page).mp mapped
  have homeUse := paging.homes v page
  have apart : g ≠ k.home v := frame_ne use homeUse (by simp)
  have enters : Enters covered enough spare top top k t v g := {
    paging := paging, extent := Or.inl ⟨rfl, page⟩, upper := paging.upper, bound := bound
    set := set, fresh := Or.inr ⟨i, use⟩, alone := fun _ => Or.inr mapper, leads := leads }
  obtain ⟨paging₁, maps₁⟩ := enters.keeps (fun w => w = v) (fun j => j = i)
    (fun _ => rfl) (fun j use' => by
      rw [use] at use'
      cases use'
      rfl)
  have stale : (entered k t v g).uses (k.home v) = some (.heap v) := by
    rw [uses_entered, if_neg apart.symm, homeUse]
  have away : (entered k t v g).uses ((entered k t v g).cr3 / 4096) ≠ some (.heap v) := by
    have same : (entered k t v g).cr3 = k.cr3 := rfl
    rw [same, uses_entered]
    split
    · next here =>
        rw [← here] at use
        exact absurd paging.current.place (by simp [use])
    · exact current
  obtain ⟨paging₂, maps₂⟩ := paging₁.released stale (by rw [home_entered, if_pos rfl]; exact apart)
    away
  have shape : entered (Kernel.released k (k.home v)) t v g =
      Kernel.released (entered k t v g) (k.home v) := by
    unfold entered Kernel.released
    dsimp only
    rw [Function.update_comm apart.symm]
  have page' : HeapPage M top (4096 * v / 4096) := by
    rw [whole]
    exact page
  apply Command.ensures_bind (paging.ensures_getPhysicalAddress page')
  rintro physical k₁ ⟨shape₁, so, _⟩
  subst shape₁
  rw [whole] at so
  rw [so mapped, Nat.mul_mod_right, Nat.add_zero]
  refine Command.ensures_bind (ensures_freePhysicalPage (Q := fun _ k₂ =>
    k₂ = Kernel.released k₁ (k₁.home v)) (k₁.home v) rfl) ?_
  rintro _ k₂ is
  have frame : k₂.ram = k₁.ram ∧ k₂.cr3 = k₁.cr3 := by
    rw [is]
    exact ⟨rfl, rfl⟩
  have directory : entry k₂.ram (k₂.cr3 / 4096) (v / 1024) = 4096 * t + 3 := by
    rw [frame.1, frame.2, leads]
  have self : entry k₂.ram (k₂.cr3 / 4096) 1023 = 4096 * (k₂.cr3 / 4096) + 3 := by
    rw [frame.1, frame.2, paging.current.self]
  unfold mapPage
  simp only [whole, Nat.mul_div_cancel_left g (by decide : 0 < 4096)]
  apply Command.ensures_bind (ensures_installTable_present self (by omega) directory)
  rintro _ k₃ rfl
  apply ensures_enter self (by omega) directory
  rw [is, shape]
  have spares₁ : Spares k₁ (entered k₁ t v g) := fun f reserved => by
    obtain ⟨reserved', bytes⟩ := enters.spares reserved (reserved.ne use (by simp))
    exact ⟨reserved', fun offset _ => congrFun bytes offset⟩
  have spares₂ := spares_released (paging.used _ _ homeUse).1 stale
  refine ⟨paging₂, ?_, ?_, ?_, ?_, fun f j use' => enters.ram_module use', spares₁.trans spares₂ rfl⟩
  · refine (maps₁.trans (maps₂.spend _) paging.lower (Nat.le_refl _) ?_)
    rintro w rfl
    exact page.2
  · exact (home_entered k₁ t v g v).trans (if_pos rfl)
  · rw [maps₂.cr3]
    exact (mapper_entered k₁ t v g v).trans (if_pos rfl)
  · intro f j other use'
    have away : f ≠ k₁.home v := frame_ne use' homeUse (by simp)
    have kept := uses_entered k₁ t v g f
    rw [if_neg other, use'] at kept
    unfold Kernel.released
    dsimp only
    rw [Function.update_of_ne away, kept]

end Frames

end Snfos.Kernel
