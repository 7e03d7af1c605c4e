import Snfos.Estates

set_option autoImplicit false

/- How the estates follow the kernel: one lemma for each kind of change, and from
them what the commands on memory ensure. -/
namespace Snfos.Kernel

open ByteMemory

variable {M : Machine}

section Edits

variable {covered enough : Prop} {spare top : Nat} {k : Kernel M} {f v d : Nat} {bytes : Memory}

/-- New bytes for frame `f`. -/
def edited (k : Kernel M) (f : Nat) (bytes : Memory) : Kernel M :=
  { k with ram := Function.update k.ram f bytes }

theorem Space.edited (space : Space top k d) (use : k.uses f = some (.heap v))
    (keeps : f = d → ∀ offset, 3072 ≤ offset → offset < 4096 → bytes offset = k.ram f offset) :
    Space top (edited k f bytes) d := by
  have directory : ∀ i, 768 ≤ i → i < 1024 →
      entry (Kernel.edited k f bytes).ram d i = entry k.ram d i := by
    intro i lower upper
    unfold Kernel.edited
    dsimp only
    by_cases here : d = f
    · subst here
      refine entry_congr fun offset above below => ?_
      rw [Function.update_self]
      exact keeps rfl offset (by omega) (by omega)
    · exact entry_update_ne _ _ here
  refine ⟨space.place, ?_, ?_, fun i lower upper => ?_⟩
  · rw [directory _ (by decide) (by decide), space.self]
  · rw [directory _ (by decide) (by decide), space.shared]
  · unfold OwnTable
    rw [directory _ (by omega) (by omega)]
    rcases space.own i lower upper with absent | ⟨t, present, table, maps⟩
    · exact Or.inl absent
    · have other : t ≠ f := frame_ne table use (by simp)
      refine Or.inr ⟨t, present, table, fun j inside => ?_⟩
      unfold Kernel.edited
      dsimp only
      rw [entry_update_ne _ _ other]
      exact maps j inside

/-- What is written to pages of the heap does not change what is mapped. -/
theorem Paging.edited (paging : Paging covered enough spare top k)
    (use : k.uses f = some (.heap v))
    (keeps : f = k.cr3 / 4096 → ∀ offset, 3072 ≤ offset → offset < 4096 →
      bytes offset = k.ram f offset) :
    Paging covered enough spare top (edited k f bytes) ∧
      ∀ v, HeapPage M top v → Mapped k v → Mapped (edited k f bytes) v := by
  have kernel : M.kernelPageTable ≠ f := frame_ne paging.kernelPageTable use (by simp)
  have boot : M.bootPageDirectory ≠ f := frame_ne paging.bootPageDirectory use (by simp)
  have shared : ∀ j, entry (Kernel.edited k f bytes).ram M.kernelPageTable j =
      entry k.ram M.kernelPageTable j := fun j => entry_update_ne _ _ kernel
  have current := paging.current.edited use keeps
  have partly : Paging False enough spare top (Kernel.edited k f bytes) := { paging with
    shared := fun j inside page => (shared j).trans (paging.shared j inside page)
    beyond := fun j inside past => (shared j).trans (paging.beyond j inside past)
    boot := paging.boot.edited use fun here => absurd here.symm boot
    current := current
    covers := False.elim }
  have mapped : ∀ v, HeapPage M top v → Mapped k v → Mapped (Kernel.edited k f bytes) v := by
    intro v page mapped
    obtain ⟨t, present, nonzero⟩ := (paging.mapped_iff page).mp mapped
    obtain ⟨lower, upper⟩ := page.bounds paging.upper
    refine (partly.mapped_iff page).mpr ⟨t, ?_, ?_⟩
    · have same : entry (Kernel.edited k f bytes).ram (k.cr3 / 4096) (v / 1024) =
          entry k.ram (k.cr3 / 4096) (v / 1024) := by
        unfold Kernel.edited
        dsimp only
        by_cases here : k.cr3 / 4096 = f
        · refine entry_congr fun offset above below => ?_
          rw [here, Function.update_self]
          exact keeps here.symm offset (by omega) (by omega)
        · exact entry_update_ne _ _ here
      exact same.trans present
    · have other : t ≠ f := by
        rcases paging.current.table lower upper with ⟨absent, _⟩ | ⟨t', present', table⟩
        · omega
        · obtain rfl : t' = t := by omega
          rcases table with ⟨_, rfl⟩ | ⟨_, table⟩
          · exact kernel
          · exact frame_ne table use (by simp)
      have same : entry (Kernel.edited k f bytes).ram t (v % 1024) = entry k.ram t (v % 1024) :=
        entry_update_ne _ _ other
      rwa [same]
  exact ⟨{ partly with covers := fun so v page => mapped v page (paging.covers so v page) }, mapped⟩

end Edits

section Changes

variable {covered enough : Prop} {spare : M.Budget} {k : Kernel M} {w : Estates} {o : Nat}
  {role : Role} {p count i : Nat} {body : Body}

/-- Changes of a page that leave equal bytes where they found equal bytes. -/
def Alike (change change' : Memory → Memory) : Prop :=
  ∀ m m' offset, offset < 4096 → m offset = m' offset → change m offset = change' m' offset

theorem alike_store32 (a value : Nat) : Alike (store32 · a value) (store32 · a value) := by
  intro m m' offset _ same
  simp only [store32, same]

theorem alike_fill (a n : Nat) (value : UInt8) : Alike (fill · a n value) (fill · a n value) := by
  intro m m' offset _ same
  simp only [fill, same]

theorem alike_copy {source source' : Memory} (n : Nat)
    (same : ∀ offset, offset < 4096 → source offset = source' offset) :
    Alike (copy · 0 source 0 n) (copy · 0 source' 0 n) := by
  intro m m' offset _ before
  simp only [copy, before]
  split
  · exact same _ (by omega)
  · rfl

theorem alike_storeBytes (bytes : List UInt8) (a : Nat) :
    Alike (storeBytes · a bytes) (storeBytes · a bytes) := by
  induction bytes generalizing a with
  | nil => exact fun _ _ _ _ same => same
  | cons value rest ih =>
      intro m m' offset small same
      apply ih (a + 1) _ _ offset small
      simp only [store8, same]

theorem Accounts.edited (accounts : Accounts covered enough spare k w) (owner : o ≠ 0)
    (held : (w o).block role = some (p, .pages count)) (inside : i < count)
    {change change' : Memory → Memory} (alike : Alike change change')
    (tables : role = .directory → (w o).draft ∨
      ∀ m offset, 3072 ≤ offset → offset < 4096 → change m offset = m offset) :
    Accounts covered enough spare
        (edited k ((w o).frame role i) (change (k.ram ((w o).frame role i))))
        (Function.update w o ((w o).edit role i change')) ∧
      Steady o k (edited k ((w o).frame role i) (change (k.ram ((w o).frame role i)))) := by
  obtain ⟨_, _, _, use⟩ := accounts.page owner held inside
  have finished : role = .directory → ¬ (w o).draft → ∀ offset, 3072 ≤ offset → offset < 4096 →
      change (k.ram ((w o).frame role i)) offset = k.ram ((w o).frame role i) offset := by
    intro directory finished offset lower upper
    rcases tables directory with draft | same
    · exact absurd draft finished
    · exact same _ offset lower upper
  obtain ⟨paging, mapped⟩ := accounts.paging.edited use fun current => by
    obtain ⟨directory, final⟩ := accounts.current_page owner held inside current
    exact finished directory final
  have block : ∀ o', (Function.update w o ((w o).edit role i change') o').block = (w o').block :=
    Estates.update_same Estate.block Estate.edit_block
  have frame : ∀ o', (Function.update w o ((w o).edit role i change') o').frame = (w o').frame :=
    Estates.update_same Estate.frame Estate.edit_frame
  have draft : ∀ o', (Function.update w o ((w o).edit role i change') o').draft = (w o').draft :=
    Estates.update_same Estate.draft Estate.edit_draft
  refine ⟨{
    heap := accounts.heap, paging := paging, bounded := accounts.bounded, ample := accounts.ample
    owners := accounts.owners, blocks := accounts.blocks
    owned := fun o' owner' role' p' body' => by
      rw [block]
      exact accounts.owned o' owner' role' p' body'
    pages := ?_
    drafts := fun o' owner' p' body' held' => by
      rw [draft, frame]
      rw [block] at held'
      exact accounts.drafts o' owner' p' body' held'
    directories := ?_
    running := ?_ }, {
      calm := ⟨rfl, rfl, rfl, rfl, rfl, rfl, Nat.le_refl _, mapped⟩
      modules := fun _ _ use => use
      contents := fun f j use' => Function.update_of_ne (frame_ne use' use (by simp)) _ _
      spares := fun f reserved => ⟨reserved, fun _ _ =>
        congrFun (Function.update_of_ne (reserved.ne use (by simp)) _ _) _⟩
      aside := fun p' b live other => ⟨live, fun n whole j inside' => ⟨rfl, fun offset _ => ?_⟩⟩ }⟩
  · intro o' owner' role' p' count' held' i' inside'
    rw [block] at held'
    obtain ⟨home, same⟩ := accounts.pages o' owner' role' p' count' held' i' inside'
    rw [frame, draft]
    refine ⟨home, fun offset small outside => ?_⟩
    have before := same offset small outside
    by_cases here : (w o').frame role' i' = (w o).frame role i
    · obtain ⟨rfl, rfl, rfl⟩ := accounts.frame_injective owner' owner held' inside' held inside here
      unfold Kernel.edited
      dsimp only
      rw [Function.update_self, Function.update_self, Estate.edit_bytes, if_pos ⟨rfl, rfl⟩]
      exact alike _ _ offset small before
    · unfold Kernel.edited
      dsimp only
      rw [Function.update_of_ne here, before]
      by_cases mine : o' = o
      · subst mine
        rw [Function.update_self, Estate.edit_bytes, if_neg]
        rintro ⟨rfl, rfl⟩
        exact here rfl
      · rw [Function.update_of_ne mine]
  · intro o' owner' p' body' held' final
    rw [block] at held'
    rw [draft] at final
    rw [frame]
    refine (accounts.directories o' owner' p' body' held' final).edited use fun here => ?_
    obtain rfl := accounts.directory_pages owner' held'
    obtain ⟨rfl, rfl, rfl⟩ := accounts.frame_injective owner owner' held inside held'
      (by decide : 0 < 1) here
    exact finished rfl final
  · rcases accounts.running with boot | ⟨o', owner', final, ⟨p', body', held'⟩, current⟩
    · exact Or.inl boot
    · refine Or.inr ⟨o', owner', ?_, ⟨p', body', ?_⟩, ?_⟩
      · rwa [draft]
      · rwa [block]
      · rwa [frame]
  · unfold Kernel.edited
    dsimp only
    rw [Function.update_of_ne (accounts.page_aside owner held inside live other whole inside')]

/-- A block listed by the estates is the new one or of another role. -/
theorem listed_iff {E : Estate} {x : Option Body} {o' p' : Nat} {role' : Role} {body' : Body}
    (listed : E.block = Function.update (w o).block role (x.map (p, ·))) :
    (Function.update w o E o').block role' = some (p', body') ↔
      (o' = o ∧ role' = role ∧ p' = p ∧ x = some body') ∨
        ¬ (o' = o ∧ role' = role) ∧ (w o').block role' = some (p', body') := by
  by_cases owner : o' = o
  · subst owner
    rw [Function.update_self, listed]
    by_cases here : role' = role
    · subst here
      rw [Function.update_self]
      cases x <;> simp [eq_comm]
    · rw [Function.update_of_ne here]
      simp [here]
  · rw [Function.update_of_ne owner]
    simp [owner]

/-- A block that is live is the new one or lies elsewhere. -/
theorem replaced_iff {blocks : Nat → Option Block} {x : Option Body} {o' p' : Nat} {role' : Role}
    {body' : Body} : Function.update blocks p (x.map (⟨·, role, o⟩)) p' = some ⟨body', role', o'⟩ ↔
      (o' = o ∧ role' = role ∧ p' = p ∧ x = some body') ∨
        p' ≠ p ∧ blocks p' = some ⟨body', role', o'⟩ := by
  by_cases here : p' = p
  · subst here
    rw [Function.update_self]
    cases x <;> simp [eq_comm, and_comm, and_left_comm]
  · rw [Function.update_of_ne here]
    simp [here]

/-- The blocks stay listed when the block at `p` becomes `x`. -/
theorem owned_update {blocks : Nat → Option Block} {E : Estate} {x : Option Body}
    (owned : ∀ o, o ≠ 0 → ∀ role p body,
      (w o).block role = some (p, body) ↔ blocks p = some ⟨body, role, o⟩)
    (listed : E.block = Function.update (w o).block role (x.map (p, ·)))
    (mine : o ≠ 0 → ∀ q c, (w o).block role = some (q, c) → q = p)
    (only : ∀ b, blocks p = some b → b.role = role ∧ b.owner = o) :
    ∀ o', o' ≠ 0 → ∀ role' p' body', (Function.update w o E o').block role' = some (p', body') ↔
      Function.update blocks p (x.map (⟨·, role, o⟩)) p' = some ⟨body', role', o'⟩ := by
  intro o' owner' role' p' body'
  rw [listed_iff listed, replaced_iff, owned o' owner']
  refine or_congr_right (and_congr_left fun live => not_congr ⟨?_, ?_⟩)
  · rintro ⟨rfl, rfl⟩
    exact mine owner' p' body' ((owned o' owner' role' p' body').mpr live)
  · rintro rfl
    obtain ⟨sameRole, sameOwner⟩ := only _ live
    exact ⟨sameOwner, sameRole⟩

/-- The state after the heap grew to `k₁`, with the block at `p` replaced by `x`. -/
def rebooked (k₁ : Kernel M) (heap : M.allocator.Heap) (p : Nat) (x : Option Block) : Kernel M :=
  { k₁ with
    heap := heap
    blocks := Function.update k₁.blocks p x }

theorem sizes_update {k k' : Kernel M} {x : Option Block}
    (blocks : k'.blocks = Function.update k.blocks p x) :
    k'.sizes = Function.update k.sizes p (x.map fun b => b.body.size) := by
  funext q
  unfold sizes
  rw [blocks]
  by_cases here : q = p
  · subst here
    rw [Function.update_self, Function.update_self]
  · rw [Function.update_of_ne here, Function.update_of_ne here]

theorem sizes_replaced {k k' : Kernel M} {x : Option Body}
    (blocks : k'.blocks = Function.update k.blocks p (x.map (⟨·, role, o⟩))) :
    k'.sizes = Function.update k.sizes p (x.map Body.size) := by
  rw [sizes_update blocks, Option.map_map]
  rfl

/-- What a new list of blocks has to meet: the block of a role at `p` becomes `x`,
whose owner's estate becomes `E`. -/
structure Rebooks (k k₁ : Kernel M) (heap : M.allocator.Heap) (w : Estates) (o p : Nat) (role : Role)
    (x : Option Body) (E : Estate) : Prop where
  holds : M.allocator.Holds heap (Function.update k.sizes p (x.map Body.size))
  bounded : M.allocator.heapEnd heap ≤ M.limit
  listed : E.block = Function.update (w o).block role (x.map (p, ·))
  draft : E.draft = (w o).draft
  others : ∀ role', role' ≠ role → E.frame role' = (w o).frame role' ∧
    E.bytes role' = (w o).bytes role'
  fits : ∀ body, x = some body → p ≠ 0 ∧ role.Fits body ∧ (o = 0 → role = .raw) ∧ o < k.owners ∧
    ∀ n, body = .pages n → p % 4096 = 0
  mine : o ≠ 0 → ∀ q c, (w o).block role = some (q, c) → q = p
  only : ∀ b, k.blocks p = some b → b.role = role ∧ b.owner = o
  pages : ∀ n, x = some (.pages n) → ∀ i, i < n → k₁.home (p / 4096 + i) = E.frame role i ∧
    ∀ offset, offset < 4096 → k₁.ram (E.frame role i) offset = E.bytes role i offset
  building : role = .directory → x ≠ none → E.draft ∧ E.frame role 0 ≠ k.cr3 / 4096
  away : role = .directory → (w o).block role ≠ none → (w o).frame role 0 ≠ k.cr3 / 4096

/-- A page of a block is an old page, or belongs to the new block. -/
theorem Rebooks.block_cases {k₁ : Kernel M} {heap : M.allocator.Heap} {x : Option Body} {E : Estate}
    (rebooks : Rebooks k k₁ heap w o p role x E) {o' p' : Nat} {role' : Role} {body' : Body}
    (held : (Function.update w o E o').block role' = some (p', body')) :
    (o' = o ∧ role' = role ∧ p' = p ∧ x = some body') ∨
      (w o').block role' = some (p', body') ∧
        (Function.update w o E o').frame role' = (w o').frame role' ∧
        (Function.update w o E o').bytes role' = (w o').bytes role' := by
  rcases (listed_iff rebooks.listed).mp held with new | ⟨other, held⟩
  · exact Or.inl new
  · refine Or.inr ⟨held, ?_⟩
    by_cases owner : o' = o
    · subst owner
      rw [Function.update_self]
      exact rebooks.others role' fun here => other ⟨rfl, here⟩
    · rw [Function.update_of_ne owner]
      exact ⟨rfl, rfl⟩

/-- Only a block of `o` is replaced. -/
theorem Accounts.rebooked_steady {top : Nat} {k₁ : Kernel M} {heap : M.allocator.Heap}
    {x : Option Block} (accounts : Accounts covered enough spare k w)
    (calm : Calm k (Kernel.rebooked k₁ heap p x)) (grows : Grows k.mappedEnd top k k₁)
    (spares : Spares k k₁) (mine : ∀ b, k.blocks p = some b → b.owner = o) : Steady o k (Kernel.rebooked k₁ heap p x) where
  calm := calm
  modules := fun f i use => grows.moduleUse f i use id
  contents := fun f i use => grows.moduleBytes f i use id
  spares := spares
  aside := by
    intro p' b live other
    have apart : p' ≠ p := by
      rintro rfl
      exact other (mine b live)
    refine ⟨?_, fun count whole i inside => ?_⟩
    · unfold Kernel.rebooked
      dsimp only
      rw [Function.update_of_ne apart, grows.blocks, live]
    · obtain ⟨_, page, use⟩ := accounts.page_of_block live whole inside
      exact ⟨(grows.homes _ page id).1, fun offset outside => grows.bytes _ _ offset use id outside⟩

theorem Accounts.rebooked {spare' : M.Budget} {k₁ : Kernel M} {heap : M.allocator.Heap} {x : Option Body}
    {E : Estate} (accounts : Accounts covered enough spare k w)
    (rebooks : Rebooks k k₁ heap w o p role x E)
    (grows : Grows k.mappedEnd (M.allocator.mappedEnd heap) k k₁) (spares : Spares k k₁)
    (paging : Paging covered enough 0 (M.allocator.mappedEnd heap) k₁)
    (order : k.mappedEnd ≤ M.allocator.mappedEnd heap)
    (ample : enough → ∃ frames, frames ≤ k₁.frames.unused ∧ spare' heap frames) :
    Accounts covered enough spare' (rebooked k₁ heap p (x.map (⟨·, role, o⟩)))
        (Function.update w o E) ∧
      Steady o k (rebooked k₁ heap p (x.map (⟨·, role, o⟩))) := by
  have blocks : (Kernel.rebooked k₁ heap p (x.map (⟨·, role, o⟩))).blocks =
      Function.update k.blocks p (x.map (⟨·, role, o⟩)) := by
    unfold Kernel.rebooked
    dsimp only
    rw [grows.blocks]
  have owned := owned_update accounts.owned rebooks.listed rebooks.mine rebooks.only
  have shape := grows.shape
  have owners : k₁.owners = k.owners := by rw [shape]
  have draft : ∀ o', (Function.update w o E o').draft = (w o').draft :=
    Estates.update_same Estate.draft rebooks.draft
  refine ⟨{
    heap := ?_, paging := { paging with
      boot := { paging.boot with }, current := { paging.current with } }
    bounded := rebooks.bounded, ample := ample
    owners := owners ▸ accounts.owners
    blocks := ?_
    owned := fun o' owner' role' p' body' => by
      rw [blocks]
      exact owned o' owner' role' p' body'
    pages := ?_
    drafts := ?_
    directories := ?_
    running := ?_ }, ?_⟩
  · rw [sizes_replaced blocks]
    exact rebooks.holds
  · intro q b live
    rw [blocks] at live
    have bound : (Kernel.rebooked k₁ heap p (x.map (⟨·, role, o⟩))).owners = k.owners := owners
    rw [bound]
    by_cases here : q = p
    · subst here
      rw [Function.update_self] at live
      cases x with
      | none => cases live
      | some body =>
          simp only [Option.map_some, Option.some.injEq] at live
          subst live
          obtain ⟨nonzero, fits, raw, below, whole⟩ := rebooks.fits body rfl
          exact ⟨nonzero, fits, below, raw, whole⟩
    · rw [Function.update_of_ne here] at live
      exact accounts.blocks q b live
  · intro o' owner' role' p' count' held i' inside'
    rw [draft]
    rcases rebooks.block_cases held with ⟨rfl, rfl, rfl, new⟩ | ⟨held', frame, bytes⟩
    · rw [Function.update_self]
      obtain ⟨home, same⟩ := rebooks.pages count' new i' inside'
      exact ⟨home, fun offset small _ => same offset small⟩
    · obtain ⟨_, page, home, use⟩ := accounts.page owner' held' inside'
      obtain ⟨_, same⟩ := accounts.pages o' owner' role' p' count' held' i' inside'
      rw [frame, bytes]
      refine ⟨(grows.homes _ page id).1.trans home, fun offset small outside => ?_⟩
      refine Eq.trans (grows.bytes _ _ offset use id fun current => ?_) (same offset small outside)
      obtain ⟨directory, final⟩ := accounts.current_page owner' held' inside' current
      exact outside directory final
  · intro o' owner' p' body' held drafted
    have cr3 : (Kernel.rebooked k₁ heap p (x.map (⟨·, role, o⟩))).cr3 = k.cr3 := grows.cr3
    rw [cr3]
    rw [draft] at drafted
    rcases rebooks.block_cases held with ⟨rfl, rfl, rfl, new⟩ | ⟨held', frame, _⟩
    · rw [Function.update_self]
      exact (rebooks.building rfl (by simp [new])).2
    · rw [frame]
      exact accounts.drafts o' owner' p' body' held' drafted
  · intro o' owner' p' body' held final
    have ends : (Kernel.rebooked k₁ heap p (x.map (⟨·, role, o⟩))).mappedEnd =
        M.allocator.mappedEnd heap := rfl
    rw [ends]
    rw [draft] at final
    rcases rebooks.block_cases held with ⟨rfl, rfl, rfl, new⟩ | ⟨held', frame, _⟩
    · have drafted := (rebooks.building rfl (by simp [new])).1
      rw [rebooks.draft] at drafted
      exact absurd drafted final
    · rw [frame]
      have space := grows.spaces _ (accounts.directories o' owner' p' body' held' final)
        fun _ => False.elim
      exact { space with }
  · have cr3 : (Kernel.rebooked k₁ heap p (x.map (⟨·, role, o⟩))).cr3 = k.cr3 := grows.cr3
    rw [cr3]
    rcases accounts.running with boot | ⟨o', owner', final, ⟨p', body', held'⟩, current⟩
    · exact Or.inl boot
    · refine Or.inr ⟨o', owner', ?_, ?_⟩
      · rwa [draft]
      · by_cases owner : o' = o
        · subst owner
          have other : Role.directory ≠ role := by
            rintro rfl
            exact rebooks.away rfl (by simp [held']) current
          refine ⟨⟨p', body', ?_⟩, ?_⟩
          · rw [Function.update_self, rebooks.listed, Function.update_of_ne other, held']
          · rw [Function.update_self, (rebooks.others _ other).1, current]
        · rw [Function.update_of_ne owner]
          exact ⟨⟨p', body', held'⟩, current⟩
  · refine accounts.rebooked_steady ⟨grows.cr3, ?_, ?_, ?_, ?_, owners, order, grows.mapped⟩ grows
      spares fun b live => (rebooks.only b live).2 <;> (unfold Kernel.rebooked; rw [shape])

/-- The frames that what is there is reckoned with. -/
theorem Accounts.supplied (accounts : Accounts covered enough spare k w) :
    ∃ frames, Paging covered enough frames k.mappedEnd k ∧ (enough → spare k.heap frames) := by
  by_cases so : enough
  · obtain ⟨frames, unused, served⟩ := accounts.ample so
    exact ⟨frames, { accounts.paging with supply := fun _ => unused }, fun _ => served⟩
  · exact ⟨0, accounts.paging, fun yes => absurd yes so⟩

/-- A call of the heap, with the pages it maps. -/
theorem ensures_allocate {F : Fault → Prop} {Q : Nat → Kernel M → Prop} {block : Block}
    {call : M.allocator.Heap → Option (Nat × M.allocator.Heap)}
    (refused : (∀ p heap, call k.heap = some (p, heap) → M.limit < M.allocator.heapEnd heap) →
      F .exhausted)
    (served : ∀ p heap, call k.heap = some (p, heap) → M.allocator.heapEnd heap ≤ M.limit →
      Command.Ensures F k (allocPage k.mappedEnd ((M.allocator.heapEnd heap - k.mappedEnd) / 4096))
        fun _ k₁ => Q p { k₁ with
          heap := heap
          blocks := if p = 0 then k₁.blocks else Function.update k₁.blocks p (some block) }) :
    Command.Ensures F k (allocate call block) Q := by
  unfold allocate
  apply Command.ensures_get_bind
  cases result : call k.heap with
  | none =>
      refine Command.ensures_throw _ (refused fun p heap found => ?_)
      rw [result] at found
      cases found
  | some pair =>
      obtain ⟨p, heap⟩ := pair
      refine Command.ensures_ite (fun past => ?_) fun inside => ?_
      · refine Command.ensures_throw _ (refused fun p' heap' found => ?_)
        rw [result] at found
        cases found
        exact past
      · exact Command.ensures_bind (served p heap result (Nat.not_lt.mp inside)) fun _ _ holds =>
          Command.ensures_modify_bind (Command.ensures_pure _ holds)

/-- What is asked for next is served, and there is the rest. -/
theorem Accounts.ensures_allocate {r : Request} {rest : Nat → M.Budget} {block : Block}
    (accounts : Accounts covered enough (M.asks r rest) k w)
    (contract : ∀ p heap, M.allocator.serve r k.heap = some (p, heap) →
      M.allocator.heapEnd k.heap ≤ M.allocator.heapEnd heap ∧
        M.allocator.Holds heap (Function.update k.sizes p (some block.body.size))) :
    Command.Ensures (Excused M covered enough) k (allocate (M.allocator.serve r) block) fun p k' =>
      ∃ k₁ heap, M.allocator.serve r k.heap = some (p, heap) ∧
        k' = Kernel.rebooked k₁ heap p (some block) ∧
        Grows k.mappedEnd (M.allocator.mappedEnd heap) k k₁ ∧ Spares k k₁ ∧
        Paging covered enough 0 (M.allocator.mappedEnd heap) k₁ ∧
        k.mappedEnd ≤ M.allocator.mappedEnd heap ∧
        (enough → ∃ frames, frames ≤ k₁.frames.unused ∧ rest p heap frames) ∧
        M.allocator.heapEnd heap ≤ M.limit ∧ M.layout.heapStart ≤ p ∧
        p + block.body.size ≤ M.allocator.mappedEnd heap := by
  have low := M.layout.heapStart_facts
  obtain ⟨frames, supplied, asked⟩ := accounts.supplied
  refine Kernel.ensures_allocate (fun past so => ?_) fun p heap result fits => ?_
  · obtain ⟨p, heap, served, inside, _⟩ := asked so
    exact absurd (past p heap served) (Nat.not_lt.mpr inside)
  obtain ⟨grown, holds⟩ := contract p heap result
  have served : enough → M.allocator.frames k.heap heap ≤ frames ∧
      rest p heap (frames - M.allocator.frames k.heap heap) := by
    intro so
    obtain ⟨p', heap', served, _, left⟩ := asked so
    rw [result] at served
    cases served
    exact left
  obtain ⟨lower, upper⟩ := M.allocator.inside holds (Function.update_self ..)
  have ends : M.allocator.mappedEnd heap = M.allocator.heapEnd heap := by
    unfold Allocator.mappedEnd
    rw [if_neg (by omega)]
  have order : k.mappedEnd ≤ M.allocator.heapEnd heap := by
    unfold mappedEnd
    split <;> omega
  have aligned := M.allocator.end_aligned holds
  have whole := accounts.paging.aligned
  have exact' : k.mappedEnd + 4096 * ((M.allocator.heapEnd heap - k.mappedEnd) / 4096) =
      M.allocator.heapEnd heap := by omega
  have cost : M.allocator.frames k.heap heap =
      2 * ((M.allocator.heapEnd heap - k.mappedEnd) / 4096) := rfl
  have split : Paging covered enough (frames - M.allocator.frames k.heap heap +
      2 * ((M.allocator.heapEnd heap - k.mappedEnd) / 4096)) k.mappedEnd k :=
    { supplied with
      supply := fun so => by
        have few := (served so).1
        have before := supplied.supply so
        omega }
  have limit := M.limit_le
  apply (split.ensures_allocPage _ (by omega)).mono
  rintro _ k₁ ⟨paging, grows, spares⟩
  rw [exact'] at paging grows
  have nonzero : p ≠ 0 := by omega
  refine ⟨k₁, heap, result, ?_, ?_⟩
  · unfold Kernel.rebooked
    simp only [nonzero, ↓reduceIte]
  · rw [ends]
    exact ⟨grows, spares, paging.spend (Nat.zero_le _), order,
      fun so => ⟨_, paging.supply so, (served so).2⟩, fits, lower, upper⟩

theorem unused_block (unused : k.sizes p = none) : k.blocks p = none := by
  unfold sizes at unused
  rwa [Option.map_eq_none_iff] at unused

/-- Structures are put into a block of their own. -/
theorem Accounts.ensures_malloc {rest : Nat → M.Budget}
    (accounts : Accounts covered enough (M.asks (.bytes body.size) rest) k w)
    (drawn : o < k.owners) (unowned : o = 0 → role = .raw) (new : o ≠ 0 → (w o).block role = none)
    (fits : role.Fits body) (structured : ∀ n, body ≠ .pages n) :
    Command.Ensures (Excused M covered enough) k (malloc body role o) fun p k' =>
      p ≠ 0 ∧ Accounts covered enough (rest p) k' (Function.update w o ((w o).put role p body)) ∧
        Steady o k k' := by
  have low := M.layout.heapStart_facts
  have positive := fits.positive
  refine (accounts.ensures_allocate fun p heap result => ?_).mono ?_
  · obtain ⟨_, grown, holds⟩ := M.allocator.malloc_holds accounts.heap positive result
    exact ⟨grown, holds⟩
  · rintro p k' ⟨k₁, heap, result, rfl, grows, spares, paging, order, ample, bounded, lower, upper⟩
    obtain ⟨unused, _, holds⟩ := M.allocator.malloc_holds accounts.heap positive result
    have pages : role ≠ .directory := by
      rintro rfl
      cases body with
      | pages n => exact structured n rfl
      | _ => exact fits
    have rebooks : Rebooks k k₁ heap w o p role (some body) ((w o).put role p body) := {
      holds := holds, bounded := bounded
      listed := rfl
      draft := rfl
      others := fun _ _ => ⟨rfl, rfl⟩
      fits := fun body' same => by
        cases same
        exact ⟨by omega, fits, unowned, drawn, fun n is => absurd is (structured n)⟩
      mine := fun owner q c held => by
        rw [new owner] at held
        cases held
      only := fun b live => by
        rw [unused_block unused] at live
        cases live
      pages := fun n is => absurd (Option.some.inj is) (structured n)
      building := fun directory => absurd directory pages
      away := fun directory => absurd directory pages }
    obtain ⟨accounts', steady⟩ := accounts.rebooked rebooks grows spares paging order ample
    exact ⟨by omega, accounts', steady⟩

/-- Whole pages come from the heap's end, mapped under the directory in use. -/
theorem Accounts.ensures_mallocPages {rest : Nat → M.Budget} {count : Nat}
    (accounts : Accounts covered enough (M.asks (.pages count) rest) k w)
    (drawn : o < k.owners) (unowned : o = 0 → role = .raw) (new : o ≠ 0 → (w o).block role = none)
    (fits : role.Fits (.pages count)) (building : role = .directory → (w o).draft) :
    Command.Ensures (Excused M covered enough) k (mallocPages count role o) fun p k' =>
      p ≠ 0 ∧ p % 4096 = 0 ∧ (∃ frames bytes, Accounts covered enough (rest p) k'
          (Function.update w o ((w o).place role p count frames bytes))) ∧ Steady o k k' ∧
        ∀ i, i < count → Mapped k' (p / 4096 + i) ∧ k'.mapper (p / 4096 + i) = k'.cr3 / 4096 := by
  have low := M.layout.heapStart_facts
  have positive : 0 < count := by
    have size := fits.positive
    simp only [Body.size] at size
    omega
  refine (accounts.ensures_allocate fun p heap result => ?_).mono ?_
  · obtain ⟨_, _, _, grown, holds⟩ := M.allocator.mallocPages_holds accounts.heap positive result
    exact ⟨grown, holds⟩
  · rintro p k' ⟨k₁, heap, result, rfl, grows, spares, paging, order, ample, bounded, lower, upper⟩
    obtain ⟨aligned, above, unused, _, holds⟩ :=
      M.allocator.mallocPages_holds accounts.heap positive result
    simp only [Body.size] at upper
    have past : k.mappedEnd ≤ p := by
      unfold mappedEnd
      split <;> omega
    have fresh : ∀ i, i < count → k.mappedEnd ≤ 4096 * (p / 4096 + i) ∧
        4096 * (p / 4096 + i) < M.allocator.mappedEnd heap := by
      intro i inside
      omega
    have use : ∀ i, i < count → k₁.uses (k₁.home (p / 4096 + i)) = some (.heap (p / 4096 + i)) :=
      fun i inside => paging.homes _ ⟨by omega, (fresh i inside).2⟩
    -- the directory in use lies in an older page
    have other : k₁.home (p / 4096) ≠ k.cr3 / 4096 := by
      intro here
      have use' := use 0 positive
      rw [Nat.add_zero, here] at use'
      rcases accounts.running with boot | ⟨o', owner', _, ⟨q, body', held'⟩, current⟩
      · rw [boot, paging.bootPageDirectory] at use'
        cases use'
      · obtain rfl := accounts.directory_pages owner' held'
        obtain ⟨_, page, _, old⟩ := accounts.page owner' held' (by decide : 0 < 1)
        have kept := grows.heapUse _ _ old id
        rw [current, use'] at kept
        simp only [Option.some.injEq, Use.heap.injEq] at kept
        unfold HeapPage at page
        omega
    have rebooks : Rebooks k k₁ heap w o p role (some (.pages count))
        ((w o).place role p count (fun i => k₁.home (p / 4096 + i))
          (fun i => k₁.ram (k₁.home (p / 4096 + i)))) := {
      holds := holds, bounded := bounded
      listed := rfl
      draft := rfl
      others := fun role' different => by
        rw [Estate.place_frame, Estate.place_bytes, if_neg different, if_neg different]
        exact ⟨rfl, rfl⟩
      fits := fun body' same => by
        cases same
        exact ⟨by omega, fits, unowned, drawn, fun _ _ => aligned⟩
      mine := fun owner q c held => by
        rw [new owner] at held
        cases held
      only := fun b live => by
        rw [unused_block unused] at live
        cases live
      pages := fun n is i inside => by
        cases is
        rw [Estate.place_frame, Estate.place_bytes, if_pos rfl, if_pos rfl]
        exact ⟨rfl, fun _ _ => rfl⟩
      building := fun directory _ => by
        rw [Estate.place_frame, if_pos rfl]
        exact ⟨building directory, other⟩
      away := fun directory held => by
        have owner : o ≠ 0 := by
          rintro rfl
          rw [unowned rfl] at directory
          cases directory
        exact absurd (new owner) held }
    obtain ⟨accounts', steady⟩ := accounts.rebooked rebooks grows spares paging order ample
    refine ⟨by omega, aligned, ⟨_, _, accounts'⟩, steady, fun i inside => ?_⟩
    obtain ⟨lower', upper'⟩ := fresh i inside
    obtain ⟨mapped, mapper⟩ := grows.fresh _ lower' upper'
    refine ⟨mapped, ?_⟩
    have same : (Kernel.rebooked k₁ heap p (some ⟨.pages count, role, o⟩)).cr3 = k.cr3 := grows.cr3
    rw [same]
    exact mapper

/-- For no pages at all nothing happens. -/
theorem Accounts.ensures_mallocPages_zero (accounts : Accounts covered enough spare k w) :
    Command.Ensures (Excused M covered enough) k (mallocPages 0 role o) fun p k' =>
      p = 0 ∧ k' = k := by
  unfold mallocPages allocate
  apply Command.ensures_get_bind
  have past : ¬ M.limit < M.allocator.heapEnd k.heap := Nat.not_lt.mpr accounts.bounded
  have none : (M.allocator.heapEnd k.heap - k.mappedEnd) / 4096 = 0 := by
    unfold mappedEnd
    split <;> omega
  simp only [M.allocator.mallocPages_zero, past, none, ↓reduceIte]
  refine Command.ensures_bind (Q := fun _ k' => k' = k) ?_ ?_
  · exact Command.ensures_bind (Command.ensures_for (fun _ k' => k' = k) rfl
      fun i s inside => absurd inside (Nat.not_lt_zero i)) fun _ _ h => Command.ensures_pure _ h
  · rintro _ _ rfl
    exact Command.ensures_modify_bind (Command.ensures_pure _ ⟨rfl, rfl⟩)

/-- A block goes back to the heap; not the directory in use. -/
theorem Accounts.ensures_release (accounts : Accounts covered enough (M.frees p spare) k w)
    (live : k.blocks p = some ⟨body, role, o⟩)
    (mine : o ≠ 0 → ∀ q c, (w o).block role = some (q, c) → q = p)
    (away : role = .directory → (w o).frame role 0 ≠ k.cr3 / 4096) :
    Command.Ensures (Excused M covered enough) k (free p) fun _ k' =>
      Accounts covered enough spare k' (Function.update w o ((w o).drop role)) ∧ Steady o k k' := by
  have nonzero := (accounts.blocks _ _ live).1
  have size : k.sizes p = some body.size := by
    unfold sizes
    rw [live, Option.map_some]
  obtain ⟨same, holds⟩ := M.allocator.free_holds accounts.heap size
  have ends : M.allocator.mappedEnd (M.allocator.free p k.heap) = k.mappedEnd := by
    unfold Allocator.mappedEnd mappedEnd
    rw [same]
  unfold free
  apply Command.ensures_get_bind
  simp only [nonzero, live, ↓reduceIte]
  apply Command.ensures_set _
  have rebooks : Rebooks k k (M.allocator.free p k.heap) w o p role none ((w o).drop role) := {
    holds := holds, bounded := by rw [same]; exact accounts.bounded
    listed := rfl
    draft := rfl
    others := fun _ _ => ⟨rfl, rfl⟩
    fits := fun _ is => by cases is
    mine := mine
    only := fun b live' => by
      rw [live] at live'
      cases live'
      exact ⟨rfl, rfl⟩
    pages := fun _ is => by cases is
    building := fun _ some => absurd rfl some
    away := fun directory _ => away directory }
  have ample := accounts.ample
  rw [M.frees_of_ne nonzero] at ample
  exact accounts.rebooked rebooks (ends ▸ Maps.refl _ _ _ k) (.refl k) (ends ▸ accounts.paging)
    (Nat.le_of_eq ends.symm) ample

theorem Accounts.ensures_free (accounts : Accounts covered enough (M.frees p spare) k w) (owner : o ≠ 0)
    (held : (w o).block role = some (p, body))
    (away : role = .directory → (w o).frame role 0 ≠ k.cr3 / 4096) :
    Command.Ensures (Excused M covered enough) k (free p) fun _ k' =>
      Accounts covered enough spare k' (Function.update w o ((w o).drop role)) ∧ Steady o k k' := by
  refine accounts.ensures_release (accounts.live owner held) (fun _ q c held' => ?_) away
  rw [held] at held'
  simp only [Option.some.injEq, Prod.mk.injEq] at held'
  exact held'.1.symm

/-- Where nothing is asked for any more. -/
theorem Accounts.ensures_discard (accounts : Accounts covered enough M.nothing k w) (owner : o ≠ 0)
    (held : (w o).block role = some (p, body))
    (away : role = .directory → (w o).frame role 0 ≠ k.cr3 / 4096) :
    Command.Ensures (Excused M covered enough) k (free p) fun _ k' =>
      Accounts covered enough M.nothing k' (Function.update w o ((w o).drop role)) ∧
        Steady o k k' := by
  rw [← M.frees_nothing p] at accounts
  exact accounts.ensures_free owner held away

/-- The heap keeps its own books; no byte of memory changes. -/
theorem ensures_free_ram : Command.Ensures (fun _ => True) k (free p) fun _ k' => k'.ram = k.ram := by
  unfold free
  refine Command.ensures_get_bind (Command.ensures_ite (fun _ => Command.ensures_pure _ rfl)
    fun _ => ?_)
  cases k.blocks p with
  | none => exact Command.ensures_throw _ trivial
  | some b => exact Command.ensures_set _ rfl

theorem ensures_free_null {excused : Fault → Prop} :
    Command.Ensures excused k (free 0) fun _ k' => k' = k :=
  Command.ensures_get_bind (Command.ensures_pure _ rfl)

/-- What a structure holds is replaced. -/
theorem Accounts.ensures_putBody {excused : Fault → Prop} {body' : Body}
    (accounts : Accounts covered enough spare k w) (owner : o ≠ 0)
    (held : (w o).block role = some (p, body)) (fits : role.Fits body')
    (size : body'.size = body.size) (structured : ∀ n, body' ≠ .pages n) :
    Command.Ensures excused k (putBody p body') fun _ k' =>
      Accounts covered enough spare k' (Function.update w o ((w o).put role p body')) ∧
        Steady o k k' := by
  have live := accounts.live owner held
  obtain ⟨nonzero, _, drawn, unowned, _⟩ := accounts.blocks _ _ live
  have pages : role ≠ .directory := by
    rintro rfl
    cases body' with
    | pages n => exact structured n rfl
    | _ => exact fits
  have sizes : Function.update k.sizes p (some body'.size) = k.sizes := by
    rw [Function.update_eq_self_iff]
    unfold Kernel.sizes
    rw [live, Option.map_some, size]
  unfold putBody
  apply Command.ensures_modify _
  rw [live, Option.map_some]
  have rebooks : Rebooks k k k.heap w o p role (some body') ((w o).put role p body') := {
    holds := by
      rw [Option.map_some, sizes]
      exact accounts.heap
    bounded := accounts.bounded
    listed := rfl
    draft := rfl
    others := fun _ _ => ⟨rfl, rfl⟩
    fits := fun body'' same => by
      cases same
      exact ⟨nonzero, fits, unowned, drawn, fun n is => absurd is (structured n)⟩
    mine := fun _ q c held' => by
      rw [held] at held'
      simp only [Option.some.injEq, Prod.mk.injEq] at held'
      exact held'.1.symm
    only := fun b live' => by
      rw [live] at live'
      cases live'
      exact ⟨rfl, rfl⟩
    pages := fun n is => absurd (Option.some.inj is) (structured n)
    building := fun directory => absurd directory pages
    away := fun directory => absurd directory pages }
  exact accounts.rebooked rebooks (Maps.refl _ _ _ k) (.refl k) accounts.paging (Nat.le_refl _)
    accounts.ample

theorem Accounts.ensures_newOwner {excused : Fault → Prop}
    (accounts : Accounts covered enough spare k w) :
    Command.Ensures excused k newOwner fun o k' => o = k.owners ∧ o ≠ 0 ∧
      k' = { k with owners := k.owners + 1 } ∧
      Accounts covered enough spare k' (Function.update w o Estate.new) := by
  have positive := accounts.owners
  unfold newOwner
  refine Command.ensures_get_bind (Command.ensures_set_bind (Command.ensures_pure _
    ⟨rfl, by omega, rfl, ?_⟩))
  have block : ∀ o, o ≠ 0 → (Function.update w k.owners Estate.new o).block = (w o).block := by
    intro o owner
    by_cases here : o = k.owners
    · subst here
      rw [Function.update_self]
      funext role
      exact (accounts.fresh_owner owner (Nat.le_refl _) role).symm
    · rw [Function.update_of_ne here]
  have old : ∀ o, o ≠ 0 → ∀ role q, (w o).block role = some q →
      Function.update w k.owners Estate.new o = w o := by
    intro o owner role q held
    refine Function.update_of_ne ?_ _ _
    rintro rfl
    rw [accounts.fresh_owner owner (Nat.le_refl _) role] at held
    cases held
  exact { accounts with
    paging := { accounts.paging with
      boot := { accounts.paging.boot with }, current := { accounts.paging.current with } }
    owners := Nat.succ_pos _
    blocks := fun p b live => by
      obtain ⟨nonzero, fits, drawn, rest⟩ := accounts.blocks p b live
      exact ⟨nonzero, fits, Nat.lt_succ_of_lt drawn, rest⟩
    owned := fun o owner role p body => by
      rw [block o owner]
      exact accounts.owned o owner role p body
    pages := fun o owner role p count held => by
      rw [block o owner] at held
      rw [old o owner _ _ held]
      exact accounts.pages o owner role p count held
    drafts := fun o owner p body held => by
      rw [block o owner] at held
      rw [old o owner _ _ held]
      exact accounts.drafts o owner p body held
    directories := fun o owner p body held final => by
      rw [block o owner] at held
      rw [old o owner _ _ held] at final ⊢
      exact { accounts.directories o owner p body held final with }
    running := by
      rcases accounts.running with boot | ⟨o, owner, final, ⟨p, body, held⟩, current⟩
      · exact Or.inl boot
      · refine Or.inr ⟨o, owner, ?_⟩
        rw [old o owner _ _ held]
        exact ⟨final, ⟨p, body, held⟩, current⟩ }

/-- The entries of a table as the processor reads them; not those of a directory in
the range of the heap, which follow the heap. -/
theorem Accounts.entry (accounts : Accounts covered enough spare k w) (owner : o ≠ 0)
    (held : (w o).block role = some (p, .pages count)) (positive : 0 < count) (inside : i < 1024)
    (tables : role = .directory → (w o).draft ∨ i < 769 ∨ 1022 ≤ i) :
    Snfos.entry k.ram ((w o).frame role 0) i = (w o).word role i := by
  have same := (accounts.pages o owner role p count held 0 positive).2
  refine load32_congr fun offset lower upper => same offset (by omega) fun directory final => ?_
  rcases tables directory with draft | range
  · exact absurd draft final
  · omega

/-- A directory that has its last entries can be run on. -/
theorem Accounts.finish (accounts : Accounts covered enough spare k w) (owner : o ≠ 0)
    (held : (w o).block .directory = some (p, body)) (draft : (w o).draft)
    (self : (w o).word .directory 1023 = 4096 * (w o).frame .directory 0 + 3)
    (shared : (w o).word .directory 768 = 4096 * M.kernelPageTable + 3)
    (own : ∀ i, 769 ≤ i → i < 1022 → (w o).word .directory i = 0) :
    Accounts covered enough spare k (Function.update w o (w o).finish) := by
  obtain rfl := accounts.directory_pages owner held
  have block : ∀ o', (Function.update w o (w o).finish o').block = (w o').block :=
    Estates.update_same Estate.block Estate.finish_block
  have frame : ∀ o', (Function.update w o (w o).finish o').frame = (w o').frame :=
    Estates.update_same Estate.frame Estate.finish_frame
  have bytes : ∀ o', (Function.update w o (w o).finish o').bytes = (w o').bytes :=
    Estates.update_same Estate.bytes Estate.finish_bytes
  have final : ∀ o', (Function.update w o (w o).finish o').draft → (w o').draft := by
    intro o'
    by_cases here : o' = o
    · rw [here, Function.update_self]
      exact False.elim
    · rw [Function.update_of_ne here]
      exact id
  obtain ⟨_, _, _, use⟩ := accounts.page owner held (by decide : 0 < 1)
  have entries : ∀ i, i < 1024 →
      Snfos.entry k.ram ((w o).frame .directory 0) i = (w o).word .directory i :=
    fun i inside => accounts.entry owner held (by decide) inside fun _ => Or.inl draft
  have space : Space k.mappedEnd k ((w o).frame .directory 0) := {
    place := Or.inr ⟨_, use⟩
    self := (entries 1023 (by decide)).trans self
    shared := (entries 768 (by decide)).trans shared
    own := fun i lower upper => Or.inl ((entries i (by omega)).trans (own i lower upper)) }
  exact { accounts with
    owned := fun o' owner' role' p' body' => by
      rw [block]
      exact accounts.owned o' owner' role' p' body'
    pages := fun o' owner' role' p' count' held' i inside => by
      rw [block] at held'
      rw [frame, bytes]
      obtain ⟨home, same⟩ := accounts.pages o' owner' role' p' count' held' i inside
      exact ⟨home, fun offset small outside => same offset small fun directory old =>
        outside directory fun now => old (final o' now)⟩
    drafts := fun o' owner' p' body' held' now => by
      rw [block] at held'
      rw [frame]
      exact accounts.drafts o' owner' p' body' held' (final o' now)
    directories := fun o' owner' p' body' held' _ => by
      rw [block] at held'
      rw [frame]
      by_cases here : o' = o
      · rw [here]
        exact space
      · refine accounts.directories o' owner' p' body' held' fun old => ?_
        have same : (Function.update w o (w o).finish o').draft = (w o').draft := by
          rw [Function.update_of_ne here]
        rename_i now
        rw [same] at now
        exact now old
    running := by
      rcases accounts.running with boot | ⟨o', owner', old, ⟨p', body', held'⟩, current⟩
      · exact Or.inl boot
      · refine Or.inr ⟨o', owner', fun now => old (final o' now), ⟨p', body', ?_⟩, ?_⟩
        · rwa [block]
        · rwa [frame] }

/-- The processor goes over to a finished directory. -/
theorem Accounts.loaded (accounts : Accounts covered enough spare k w) (owner : o ≠ 0)
    (held : (w o).block .directory = some (p, body)) (final : ¬ (w o).draft)
    (window : covered → M.allocator.heapEnd k.heap ≤ 0xC0400000) {x : Nat}
    (address : x / 4096 = (w o).frame .directory 0) :
    Accounts covered enough spare { k with cr3 := x } w := by
  have space := accounts.directories o owner p body held final
  obtain rfl := accounts.directory_pages owner held
  exact { accounts with
    paging := { accounts.paging with
      boot := { accounts.paging.boot with }
      current := by
        simp only [address]
        exact { space with }
      covers := fun so v page => by
        have here := space.translate_page accounts.paging page (page.inside_window (window so))
        have there : Mapped { k with cr3 := x } v := by
          unfold Mapped
          simp only [address, here, Option.isSome_some]
        exact there }
    pages := accounts.pages
    drafts := fun o' owner' p' body' held' draft same => by
      simp only [address] at same
      obtain rfl := accounts.directory_pages owner' held'
      obtain ⟨rfl, _⟩ := accounts.frame_injective owner' owner held' (by decide : 0 < 1) held
        (by decide : 0 < 1) same
      exact final draft
    directories := fun o' owner' p' body' held' final' =>
      { accounts.directories o' owner' p' body' held' final' with }
    running := Or.inr ⟨o, owner, final, ⟨p, _, held⟩, address.symm⟩ }

end Changes

end Snfos.Kernel
