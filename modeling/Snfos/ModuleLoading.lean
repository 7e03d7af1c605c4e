import Snfos.SpaceSteps

set_option autoImplicit false

/- `load_module`: the pages of a boot module are reached through heap pages that are
put on its frames, and copied into pages of the new process. -/
namespace Snfos.Kernel

open ByteMemory

variable {M : Machine}

section Moving

variable {covered enough : Prop} {spare : M.Budget} {k k' : Kernel M} {w : Estates} {o p count i g : Nat}
  {role : Role}

/-- Page `i` of a block goes over to frame `g`. -/
theorem Accounts.moved {top : Nat} {spent : Nat → Prop}
    (accounts : Accounts covered enough spare k w) (owner : o ≠ 0)
    (held : (w o).block role = some (p, .pages count)) (inside : i < count)
    (page : role ≠ .directory) (ends : k.mappedEnd = top)
    (maps : Maps (fun v => v = p / 4096 + i) spent top top k k')
    {frames : Nat} (paging : Paging covered enough frames top k')
    (left : enough → spare k.heap frames) (home : k'.home (p / 4096 + i) = g) :
    Accounts covered enough spare k'
        (Function.update w o ((w o).place role p count (Function.update ((w o).frame role) i g)
          (Function.update ((w o).bytes role) i (k'.ram g)))) ∧ Calm k k' ∧ Aside o k k' := by
  subst ends
  have shape := maps.shape
  have heap : k'.heap = k.heap := by rw [shape]
  have blocks : k'.blocks = k.blocks := maps.blocks
  have owners : k'.owners = k.owners := by rw [shape]
  have ends : k'.mappedEnd = k.mappedEnd := by
    unfold mappedEnd
    rw [heap]
  have cr3 : k'.cr3 = k.cr3 := maps.cr3
  obtain ⟨aligned, _, old, _⟩ := accounts.page owner held inside
  rw [Estate.place_held held]
  have block : ∀ o', (Function.update w o ((w o).rehome role i g (k'.ram g)) o').block = (w o').block :=
    Estates.update_same Estate.block Estate.rehome_block
  have draft : ∀ o', (Function.update w o ((w o).rehome role i g (k'.ram g)) o').draft = (w o').draft :=
    Estates.update_same Estate.draft Estate.rehome_draft
  have directory : ∀ o', (Function.update w o ((w o).rehome role i g (k'.ram g)) o').frame .directory =
      (w o').frame .directory := by
    refine Estates.update_same (Estate.frame · .directory) (funext fun j => ?_)
    rw [Estate.rehome_frame, if_neg fun both => page both.1.symm]
  -- two pages of blocks at one address are one page
  have apart : ∀ o', o' ≠ 0 → ∀ role' p' count' i', (w o').block role' = some (p', .pages count') →
      i' < count' → p' / 4096 + i' = p / 4096 + i → o' = o ∧ role' = role ∧ i' = i := by
    intro o' owner' role' p' count' i' held' inside' same
    apply accounts.frame_injective owner' owner held' inside' held inside
    obtain ⟨_, _, home', _⟩ := accounts.page owner' held' inside'
    obtain ⟨_, _, home, _⟩ := accounts.page owner held inside
    rw [← home', ← home, same]
  refine ⟨{
    heap := by
      have sizes : k'.sizes = k.sizes := by
        unfold sizes
        rw [blocks]
      rw [heap, sizes]
      exact accounts.heap
    paging := ends ▸ paging.spend (Nat.zero_le _)
    bounded := heap ▸ accounts.bounded
    ample := fun so => ⟨frames, paging.supply so, by
      rw [heap]
      exact left so⟩
    owners := owners ▸ accounts.owners
    blocks := by
      rw [blocks, owners]
      exact accounts.blocks
    owned := fun o' owner' role' p' body' => by
      rw [block, blocks]
      exact accounts.owned o' owner' role' p' body'
    pages := ?_
    drafts := fun o' owner' p' body' held' drafted => by
      rw [block] at held'
      rw [draft] at drafted
      rw [directory, cr3]
      exact accounts.drafts o' owner' p' body' held' drafted
    directories := ?_
    running := ?_ }, ?_, fun p' b live mine => ⟨blocks ▸ live, fun n whole j inside' => ?_⟩⟩
  · intro o' owner' role' p' count' held' i' inside'
    rw [block] at held'
    rw [draft]
    by_cases here : o' = o ∧ role' = role ∧ i' = i
    · obtain ⟨rfl, rfl, rfl⟩ := here
      have pointer : p' = p := by
        rw [held'] at held
        simp only [Option.some.injEq, Prod.mk.injEq] at held
        exact held.1
      subst pointer
      rw [Function.update_self, Estate.rehome_frame, Estate.rehome_bytes, if_pos ⟨rfl, rfl⟩,
        if_pos ⟨rfl, rfl⟩]
      exact ⟨home, fun _ _ _ => rfl⟩
    · obtain ⟨_, page', home', use⟩ := accounts.page owner' held' inside'
      obtain ⟨_, bytes⟩ := accounts.pages o' owner' role' p' count' held' i' inside'
      have other : p' / 4096 + i' ≠ p / 4096 + i :=
        fun same => here (apart o' owner' role' p' count' i' held' inside' same)
      have kept : (Function.update w o ((w o).rehome role i g (k'.ram g)) o').frame role' i' =
          (w o').frame role' i' ∧ (Function.update w o ((w o).rehome role i g (k'.ram g)) o').bytes
            role' i' = (w o').bytes role' i' := by
        by_cases mine : o' = o
        · subst mine
          have elsewhere : ¬ (role' = role ∧ i' = i) := fun both => here ⟨rfl, both.1, both.2⟩
          rw [Function.update_self, Estate.rehome_frame, Estate.rehome_bytes, if_neg elsewhere,
            if_neg elsewhere]
          exact ⟨rfl, rfl⟩
        · rw [Function.update_of_ne mine]
          exact ⟨rfl, rfl⟩
      rw [kept.1, kept.2]
      refine ⟨(maps.homes _ page' other).1.trans home', fun offset small outside => ?_⟩
      refine (maps.bytes _ _ offset use other fun current => ?_).trans (bytes offset small outside)
      obtain ⟨isDirectory, final⟩ := accounts.current_page owner' held' inside' current
      exact outside isDirectory final
  · intro o' owner' p' body' held' final
    rw [block] at held'
    rw [draft] at final
    rw [directory, ends]
    apply maps.spaces _ (accounts.directories o' owner' p' body' held' final)
    rintro v rfl use
    obtain rfl := accounts.directory_pages owner' held'
    obtain ⟨_, _, _, use'⟩ := accounts.page owner' held' (Nat.succ_pos 0)
    rw [use] at use'
    simp only [Option.some.injEq, Use.heap.injEq] at use'
    exact page (apart o' owner' _ p' 1 0 held' (Nat.succ_pos 0) use'.symm).2.1.symm
  · rw [cr3]
    rcases accounts.running with boot | ⟨o', owner', final, ⟨p', body', held'⟩, current⟩
    · exact Or.inl boot
    · refine Or.inr ⟨o', owner', ?_, ⟨p', body', ?_⟩, ?_⟩
      · rwa [draft]
      · rwa [block]
      · rwa [directory]
  · exact ⟨cr3, by rw [shape], by rw [shape], by rw [shape], by rw [shape], owners,
      Nat.le_of_eq ends.symm, maps.mapped⟩
  · obtain ⟨_, page', use⟩ := accounts.page_of_block live whole inside'
    have other : p' / 4096 + j ≠ p / 4096 + i := by
      intro same
      rw [← same] at old
      exact accounts.page_aside owner held inside live mine whole inside' old
    exact ⟨(maps.homes _ page' other).1, fun offset => maps.bytes _ _ offset use other⟩

end Moving

section Loading

variable {covered enough : Prop} {spare : M.Budget} {k : Kernel M} {w : Estates} {o p i : Nat}

theorem numCodePages_eq (module : Module) : (module.modEnd - module.modStart + 4095) / 4096 =
    module.numCodePages := by
  have aligned := module.aligned
  have order := module.order
  have bound := module.bound
  unfold Module.numCodePages numPages
  rw [sub32_of_le (by omega) (by omega)]
  split <;> rw [u32_of_lt (by omega)] <;> omega

/-- The pages at `tempPages` go over to the frames of module `i`, one by one, and show what
the module's memory holds. -/
theorem Accounts.ensures_mapModule {E : Estate} {module : Module} {tempPages : Nat}
    {frames : Nat → Nat} {bytes : Nat → Memory}
    (accounts : Accounts covered enough spare k (Function.update w o
      (E.place .temp tempPages module.numCodePages frames bytes))) (owner : o ≠ 0)
    (aligned : tempPages % 4096 = 0)
    (fresh : ∀ c, c < module.numCodePages → Mapped k (tempPages / 4096 + c) ∧
      k.mapper (tempPages / 4096 + c) = k.cr3 / 4096)
    (uses : ∀ frame, module.Covers frame → k.uses frame = some (.module i)) :
    Command.Ensures (Excused M covered enough) k (mapModule module tempPages) fun _ k' =>
      (∃ frames bytes, Accounts covered enough spare k' (Function.update w o
        (E.place .temp tempPages module.numCodePages frames bytes)) ∧
        ∀ c, c < module.numCodePages → frames c = module.modStart / 4096 + c ∧
          bytes c = k.ram (module.modStart / 4096 + c)) ∧ Calm k k' ∧ Aside o k k' ∧
        Spares k k' ∧ ∀ f j, k.uses f = some (.module j) → module.Covers f ∨
          k'.uses f = some (.module j) ∧ k'.ram f = k.ram f := by
  have held : ∀ G frames bytes, (Function.update w o
      (Estate.place G .temp tempPages module.numCodePages frames bytes) o).block .temp =
      some (tempPages, .pages module.numCodePages) := by
    intro G frames bytes
    rw [Function.update_self, Estate.place_block, if_pos rfl]
  have start := module.aligned
  unfold mapModule
  -- after page `c` the first `c` frames of the module are homes, and the others are as before
  refine Command.ensures_bind (Command.ensures_for (fun c k' =>
    (∃ frames bytes, Accounts covered enough spare k' (Function.update w o
      (E.place .temp tempPages module.numCodePages frames bytes)) ∧
      ∀ c', c' < c → frames c' = module.modStart / 4096 + c' ∧
        bytes c' = k.ram (module.modStart / 4096 + c')) ∧ Calm k k' ∧ Aside o k k' ∧
      Spares k k' ∧ (∀ c, c < module.numCodePages → k'.mapper (tempPages / 4096 + c) = k'.cr3 / 4096) ∧
      ∀ f j, k.uses f = some (.module j) →
        (module.modStart / 4096 ≤ f ∧ f < module.modStart / 4096 + c) ∨
          k'.uses f = some (.module j) ∧ k'.ram f = k.ram f) ?_ ?_) ?_
  · exact ⟨⟨_, _, accounts, fun c' none => absurd none (Nat.not_lt_zero c')⟩, .refl k, .refl k,
      .refl k, fun c inside => (fresh c inside).2, fun _ _ use => Or.inr ⟨use, rfl⟩⟩
  · rintro c k₁ inside ⟨⟨frames₁, bytes₁, accounts₁, shown⟩, calm, aside, spares, mapper, left⟩
    obtain ⟨_, page, _, _⟩ := accounts₁.page owner (held _ _ _) inside
    have mapped := calm.mapped _ (accounts.page owner (held _ _ _) inside).2.1 (fresh c inside).1
    have away : k₁.uses (k₁.cr3 / 4096) ≠ some (.heap (tempPages / 4096 + c)) := by
      intro use
      obtain ⟨_, _, _, use'⟩ := accounts₁.page owner (held _ _ _) inside
      rcases accounts₁.running with boot | ⟨o', owner', final, ⟨p', body', held'⟩, current⟩
      · rw [boot, accounts₁.paging.bootPageDirectory] at use
        cases use
      · obtain rfl := accounts₁.directory_pages owner' held'
        obtain ⟨_, page', home', use''⟩ := accounts₁.page owner' held' (Nat.succ_pos 0)
        obtain ⟨_, _, home, _⟩ := accounts₁.page owner (held _ _ _) inside
        rw [current, use] at use''
        simp only [Option.some.injEq, Use.heap.injEq] at use''
        have same := home'.symm.trans ((congrArg k₁.home use''.symm).trans home)
        have apart := accounts₁.frame_injective owner' owner held' (Nat.succ_pos 0)
          (held _ _ _) inside same
        cases apart.2.1
    have target : tempPages + 4096 * c = 4096 * (tempPages / 4096 + c) := by omega
    have source : module.modStart + 4096 * c = 4096 * (module.modStart / 4096 + c) := by omega
    have next := (left (module.modStart / 4096 + c) i (uses _ ⟨by omega, by omega⟩)).resolve_left
      (by omega)
    unfold movePage
    rw [target, source]
    obtain ⟨supply, paging₁, unspent⟩ := accounts₁.supplied
    refine Command.ensures_bind (paging₁.ensures_mapModulePage page mapped (mapper c inside) away
      next.1) ?_
    rintro _ k₂ ⟨paging₂, maps, home, mapper₂, kept, contents, spares₂⟩
    obtain ⟨accounts₂, calm₂, aside₂⟩ := accounts₁.moved owner (held _ _ _) inside (by decide) rfl
      maps paging₂ unspent home
    have same : ∀ fr by', (E.place .temp tempPages module.numCodePages frames₁ bytes₁).place .temp
        tempPages module.numCodePages fr by' =
        E.place .temp tempPages module.numCodePages fr by' := by
      intro fr by'
      simp only [Estate.place, Function.update_idem]
    rw [Function.update_idem, Function.update_self, same, Estate.place_frame, if_pos rfl,
      Estate.place_bytes, if_pos rfl] at accounts₂
    refine Command.ensures_pure _ ⟨⟨_, _, accounts₂, fun c' before => ?_⟩, calm.trans calm₂,
      aside.trans aside₂ calm.cr3, spares.trans spares₂ calm.cr3, fun c' inside' => ?_, fun f j use' => ?_⟩
    · by_cases here : c' = c
      · subst here
        rw [Function.update_self, Function.update_self, contents _ i next.1]
        exact ⟨rfl, next.2⟩
      · rw [Function.update_of_ne here, Function.update_of_ne here]
        exact shown c' (by omega)
    · by_cases here : c' = c
      · subst here
        exact mapper₂
      · obtain ⟨_, page', _, _⟩ := accounts₁.page owner (held _ _ _) inside'
        rw [(maps.homes _ page' (by omega)).2, maps.cr3]
        exact mapper c' inside'
    · rcases left f j use' with before | ⟨use₁, bytes'⟩
      · exact Or.inl (by omega)
      · by_cases here : f = module.modStart / 4096 + c
        · exact Or.inl (by omega)
        · exact Or.inr ⟨kept f j here use₁, (contents f j use₁).trans bytes'⟩
  · rintro _ k' ⟨shown, calm, aside, spares, _, left⟩
    exact Command.ensures_pure _ ⟨shown, calm, aside, spares, left⟩

theorem Accounts.ensures_enterCode {E : Estate} {module : Module} {table pageTable page : Nat}
    (accounts : Accounts covered enough spare k (Function.update w o E)) (owner : o ≠ 0)
    (known : module ∈ M.modules) (begun : E.Entered E table pageTable page 0)
    (held : E.block (.pageTable 0) = some (pageTable, .pages 1))
    (code : 0 < module.numCodePages →
      E.block (.page 0 0) = some (page, .pages module.numCodePages))
    (reaches : Reaches k page module.numCodePages) :
    Command.Ensures (Excused M covered enough) k (enterCode module table pageTable page)
      fun _ k' => ∃ E', Accounts covered enough spare k' (Function.update w o E') ∧ Steady o k k' ∧
        E.Entered E' table pageTable page module.numCodePages ∧ module.numCodePages ≤ 1024 := by
  unfold enterCode
  refine Command.ensures_bind (Command.ensures_for (fun c k' => ∃ E',
    Accounts covered enough spare k' (Function.update w o E') ∧ Steady o k k' ∧
      E.Entered E' table pageTable page c ∧ c ≤ 1024)
    ⟨E, accounts, .refl k, begun, Nat.zero_le _⟩ ?_) ?_
  · rintro c k₁ inside ⟨E₁, accounts₁, steady₁, entered, _⟩
    by_cases small : c < 1024
    · refine Command.ensures_bind (accounts₁.ensures_setPage owner (i := 0) (by
        rw [Function.update_self, entered.table]) small) ?_
      rintro _ k₂ ⟨accounts₂, steady₂⟩
      simp only [Function.update_self, Function.update_idem] at accounts₂
      have steady := steady₁.trans steady₂
      have held₂ : (Function.update w o (E₁.put (.table 0) table (.table ⟨pageTable,
          Function.update (fun j => if j < c then page + 4096 * j else 0) c
            (page + 4096 * c)⟩)) o).block (.pageTable 0) = some (pageTable, .pages 1) := by
        rw [Function.update_self, Estate.put_block, if_neg (by simp), entered.block _ (by simp), held]
      have code₂ : (Function.update w o (E₁.put (.table 0) table (.table ⟨pageTable,
          Function.update (fun j => if j < c then page + 4096 * j else 0) c
            (page + 4096 * c)⟩)) o).block (.page 0 0) =
            some (page, .pages module.numCodePages) := by
        rw [Function.update_self, Estate.put_block, if_neg (by simp), entered.block _ (by simp),
          code (by omega)]
      refine Command.ensures_bind (accounts₂.ensures_enterPage (.pageTable 0) (.page 0 0) owner
        held₂ small nofun code₂ (reaches.calm steady.calm) inside (by decide)) ?_
      rintro _ k₃ ⟨accounts₃, steady₃⟩
      have low := accounts₂.frame_lt owner code₂ inside
      simp only [Function.update_self, Function.update_idem, Estate.put_frame] at accounts₃ low
      refine Command.ensures_pure _ ⟨_, accounts₃, steady.trans steady₃, ?_, small⟩
      refine ⟨fun role other => ?_, entered.frame, entered.draft, fun role other => ?_, ?_,
        fun j inside' => ?_⟩
      · rw [Estate.setWord_block, Estate.put_block, if_neg other, entered.block role other]
      · funext c'
        unfold Estate.setWord
        rw [Estate.edit_bytes, if_neg fun both => other both.1, Estate.put_bytes,
          entered.bytes role other]
      · rw [Estate.setWord_block, Estate.put_block, if_pos rfl]
        congr 4
        funext j
        by_cases here : j = c
        · subst here
          rw [Function.update_self, if_pos (Nat.lt_succ_self j)]
        · rw [Function.update_of_ne here]
          by_cases before : j < c
          · rw [if_pos before, if_pos (by omega)]
          · rw [if_neg before, if_neg (by omega)]
      · rw [Estate.setWord_word (by omega), Estate.put_word, entered.word j inside', entered.frame]
        by_cases here : j = c
        · subst here
          rw [if_pos ⟨rfl, rfl⟩, if_pos (Nat.lt_succ_self j)]
        · rw [if_neg fun both => here both.2]
          by_cases before : j < c
          · rw [if_pos before, if_pos (by omega)]
          · rw [if_neg before, if_neg (by omega)]
    · unfold setPage
      rw [if_neg small]
      exact Command.ensures_bind (Q := fun _ _ => False)
        (Command.ensures_throw _ ⟨module, known, by omega⟩) fun _ _ => False.elim
  · rintro _ k' ⟨E', accounts', steady, entered, few⟩
    exact Command.ensures_pure _ ⟨E', accounts', steady, entered, few⟩

/-- Bytes of the pages of one block are written over those of another, up to the `count`-th. -/
theorem Accounts.ensures_copyBytes {E : Estate} {role role' : Role} {target source n count : Nat}
    (accounts : Accounts covered enough spare k (Function.update w o E)) (owner : o ≠ 0)
    (held : E.block role = some (target, .pages n)) (held' : E.block role' = some (source, .pages n))
    (page : role ≠ .directory) (page' : role' ≠ .directory) (apart : role' ≠ role)
    (fits : (count + 4095) / 4096 = n) :
    Command.Ensures (Excused M covered enough) k (copyBytes target source count) fun _ k' =>
      ∃ bytes, Accounts covered enough spare k' (Function.update w o (E.setBytes role bytes)) ∧
        Steady o k k' ∧ ∀ c offset, offset < 4096 → 4096 * c + offset < count →
          bytes c offset = E.bytes role' c offset := by
  unfold copyBytes
  rw [fits]
  refine Command.ensures_bind (Command.ensures_for (fun c k' => ∃ bytes,
    Accounts covered enough spare k' (Function.update w o (E.setBytes role bytes)) ∧ Steady o k k' ∧
      ∀ c' offset, c' < c → offset < 4096 → 4096 * c' + offset < count →
        bytes c' offset = E.bytes role' c' offset)
    ⟨E.bytes role, ?_, .refl k, fun c' _ none => absurd none (Nat.not_lt_zero c')⟩ ?_) ?_
  · unfold Estate.setBytes
    rw [Function.update_eq_self]
    exact accounts
  · rintro c k₁ inside ⟨bytes, accounts₁, steady, copied⟩
    have own : (Function.update w o (E.setBytes role bytes)) o = E.setBytes role bytes :=
      Function.update_self ..
    refine Command.ensures_bind (accounts₁.ensures_copyPage owner (by
        rw [own, Estate.setBytes_block, held]) inside owner (by
        rw [own, Estate.setBytes_block, held']) inside page page') ?_
    rintro _ k₂ ⟨accounts₂, steady₂⟩
    rw [own, Function.update_idem, Estate.setBytes_edit] at accounts₂
    refine Command.ensures_pure _ ⟨_, accounts₂, steady.trans steady₂, fun c' offset before small
      within => ?_⟩
    have source' : (E.setBytes role bytes).bytes role' = E.bytes role' :=
      Function.update_of_ne apart ..
    by_cases here : c' = c
    · subst here
      rw [Function.update_self, source']
      unfold copy
      rw [if_pos ⟨Nat.zero_le _, by omega⟩, Nat.sub_zero, Nat.zero_add]
    · rw [Function.update_of_ne here]
      exact copied c' offset (by omega) small within
  · rintro _ k' ⟨bytes, accounts', steady, copied⟩
    exact Command.ensures_pure _ ⟨bytes, accounts', steady, fun c offset small within =>
      copied c offset (by omega) small within⟩

/-- `mallocPages` of the pages of a module without any. -/
theorem ensures_loadCode_empty {module : Module} {table pageTable : Nat}
    (accounts : Accounts covered enough spare k w) (empty : module.numCodePages = 0) :
    Command.Ensures (Excused M covered enough) k (loadCode module table pageTable o)
      fun _ k' => k' = k := by
  have none : module.modEnd - module.modStart + 4095 < 4096 := by
    have pages := numCodePages_eq module
    omega
  have nothing : ∀ body : Nat → PUnit → Action M (ForInStep PUnit),
      Command.Ensures (Excused M covered enough) k (do
        forIn (List.range 0) PUnit.unit body
        pure ()) fun _ k' => k' = k := fun body =>
    Command.ensures_bind (Command.ensures_for (fun _ k' => k' = k) rfl
      fun i _ inside => absurd inside (Nat.not_lt_zero i)) fun _ _ same => Command.ensures_pure _ same
  unfold loadCode mapModule enterCode copyBytes
  rw [empty, show (module.modEnd - module.modStart + 4095) / 4096 = 0 by omega]
  apply Command.ensures_bind accounts.ensures_mallocPages_zero
  rintro _ k ⟨rfl, rfl⟩
  apply Command.ensures_bind (nothing _)
  rintro _ k rfl
  apply Command.ensures_bind accounts.ensures_mallocPages_zero
  rintro _ k ⟨rfl, rfl⟩
  apply Command.ensures_bind (nothing _)
  rintro _ k rfl
  apply Command.ensures_bind (nothing _)
  rintro _ k rfl
  exact ensures_free_null

/-- The code is one block, which lies outside the module's memory and holds its bytes. That
memory stays as it was, like every other module's and the blocks of everyone but `o`. -/
structure Copied (module : Module) (o : Nat) (E : Estate) (k k' : Kernel M) : Prop where
  block : 0 < module.numCodePages →
    ∃ page, E.block (.page 0 0) = some (page, .pages module.numCodePages)
  alone : ∀ j, 0 < j → E.block (.page 0 j) = none
  outside : ∀ c, c < module.numCodePages → ¬ module.Covers (E.frame (.page 0 0) c)
  code : ∀ c offset, offset < 4096 → 4096 * c + offset < module.modEnd - module.modStart →
    E.bytes (.page 0 0) c offset = k.ram (module.modStart / 4096 + c) offset
  contents : ∀ f j, k.uses f = some (.module j) → ∀ offset, offset < 4096 →
    k'.ram f offset = k.ram f offset
  spares : Spares k k'
  aside : Aside o k k'

/-- What was copied was there before steady steps. -/
theorem Copied.after {E : Estate} {module : Module} {k₁ k' : Kernel M} (copied : Copied module o E k₁ k')
    (steady : Steady o k k₁) (uses : ∀ frame, module.Covers frame → k.uses frame = some (.module i)) :
    Copied module o E k k' where
  block := copied.block
  alone := copied.alone
  outside := copied.outside
  code := fun c offset small within => by
    have pages := numCodePages_eq module
    rw [copied.code c offset small within, steady.contents _ i (uses _ ⟨by omega, by omega⟩)]
  contents := fun f j use offset small => by
    rw [copied.contents f j (steady.modules f j use) offset small, steady.contents f j use]
  spares := steady.spares.trans copied.spares steady.calm.cr3
  aside := steady.aside.trans copied.aside steady.calm.cr3

theorem Accounts.ensures_loadCode {E : Estate} {m : ProcessMemory} {module : Module}
    {table pageTable : Nat}
    (accounts : Accounts covered enough (M.codeAsks spare module) k (Function.update w o E))
    (owner : o ≠ 0) (drawn : o < k.owners) (known : module ∈ M.modules)
    (uses : ∀ frame, module.Covers frame → k.uses frame = some (.module i))
    (laid : E.Laid none p m) (ready : E.TableReady 0 table ⟨pageTable, fun _ => 0⟩)
    (linked : m.pageTables 0 = table) (temp : E.block .temp = none) :
    Command.Ensures (Excused M covered enough) k (loadCode module table pageTable o)
      fun _ k' => ∃ E' : Estate, ∃ page, Accounts covered enough spare k' (Function.update w o E') ∧
        Calm k k' ∧ (∀ f j, j ≠ i → k.uses f = some (.module j) → k'.uses f = some (.module j)) ∧
        E'.Laid none p m ∧ E'.TableReady 0 table
          ⟨pageTable, fun j => if j < module.numCodePages then page + 4096 * j else 0⟩ ∧
        (0 < module.numCodePages → page ≠ 0) ∧ module.numCodePages ≤ 1024 ∧
        (E'.draft = E.draft) ∧ (∀ role, role.slot ≠ some 0 → E'.block role = E.block role) ∧
        Copied module o E' k k' := by
  have own : ∀ G, (Function.update w o G) o = G := fun G => Function.update_self ..
  have bare : ∀ j, j < 1024 → E.block (.page 0 j) = none ∧ E.word (.pageTable 0) j = 0 := by
    intro j inside
    have none := accounts.absent owner (i := 0) (j := j) (by rw [own]; exact ready.pages j inside) rfl
    rwa [own] at none
  have absent : ∀ j, E.block (.page 0 j) = none := by
    intro j
    by_cases inside : j < 1024
    · exact (bare j inside).1
    · exact ready.beyond j (by omega)
  by_cases empty : module.numCodePages = 0
  · apply (ensures_loadCode_empty accounts empty).mono
    rintro _ k rfl
    have left := accounts.spend fun _ _ asked => ((M.codeAsks_empty spare empty).mp asked).2
    refine ⟨E, 0, left, .refl k, fun _ _ _ use => use, laid, ?_,
      fun some => absurd empty (by omega), by omega, rfl, fun _ _ => rfl, {
        block := fun some => absurd empty (by omega)
        alone := fun j _ => absent j
        outside := fun c inside => absurd inside (by omega)
        code := fun c offset _ within => ?_
        contents := fun _ _ _ _ _ => rfl, spares := .refl k, aside := .refl k }⟩
    · simp only [empty, Nat.not_lt_zero, ↓reduceIte]
      exact ready
    · have pages := numCodePages_eq module
      omega
  have positive : 0 < module.numCodePages := by omega
  unfold loadCode
  refine Command.ensures_bind (accounts.ensures_mallocPages drawn
    (fun zero => absurd zero owner) (fun _ => by rw [own, temp]) positive nofun) ?_
  rintro tempPages k₁ ⟨_, aligned, ⟨frames₁, bytes₁, accounts₁⟩, steady₁, fresh⟩
  rw [own, Function.update_idem] at accounts₁
  refine Command.ensures_bind (accounts₁.ensures_mapModule (i := i) owner aligned fresh
    fun frame covers => steady₁.modules _ _ (uses frame covers)) ?_
  rintro _ k₂ ⟨⟨frames₂, bytes₂, accounts₂, shown⟩, calm₂, aside₂, spares₂, left⟩
  have calm := steady₁.calm.trans calm₂
  refine Command.ensures_bind (accounts₂.ensures_mallocPages
    (by rw [calm.owners]; exact drawn) (fun zero => absurd zero owner)
    (fun _ => by rw [own, Estate.place_block, if_neg (by simp), absent 0]) positive nofun) ?_
  rintro page k₃ ⟨nonzero, aligned₃, ⟨frames₃, bytes₃, accounts₃⟩, steady₃, fresh₃⟩
  have reaches := accounts₃.reaches owner aligned₃ fresh₃
  rw [own, Function.update_idem] at accounts₃
  replace calm := calm.trans steady₃.calm
  have loading : E.Loading ((E.place .temp tempPages module.numCodePages frames₂ bytes₂).place
      (.page 0 0) page module.numCodePages frames₃ bytes₃) page tempPages module.numCodePages frames₂
      bytes₂ := Estate.loading_place
  generalize Estate.place _ (.page 0 0) _ _ _ _ = F at accounts₃ loading
  have begun := loading.begun ready fun j inside => (bare j inside).2
  have tables := (loading.block (.pageTable 0) (by simp) (by simp)).trans ready.pageTable
  refine Command.ensures_bind (accounts₃.ensures_enterCode owner known begun tables
    (fun _ => loading.code) reaches) ?_
  rintro _ k₄ ⟨G, accounts₄, steady₄, entered, few⟩
  refine Command.ensures_bind (accounts₄.ensures_copyBytes owner
    ((entered.block _ (by simp)).trans loading.code) ((entered.block _ (by simp)).trans loading.temp)
    (by decide) (by decide) (by decide) (numCodePages_eq module)) ?_
  rintro _ k₅ ⟨bytes₅, accounts₅, steady₅, copied⟩
  have temp₅ : (Function.update w o (G.setBytes (.page 0 0) bytes₅) o).block .temp =
      some (tempPages, .pages module.numCodePages) := by
    rw [own, Estate.setBytes_block, entered.block _ (by simp), loading.temp]
  have copied' : ∀ c offset, offset < 4096 → 4096 * c + offset < module.modEnd - module.modStart →
      bytes₅ c offset = k₁.ram (module.modStart / 4096 + c) offset := by
    intro c offset small within
    have pages := numCodePages_eq module
    rw [copied c offset small within, entered.bytes _ (by simp), loading.tempBytes,
      (shown c (by omega)).2]
  -- the module's own memory is what the temporary pages show, to the end
  have covered' : ∀ f, module.Covers f → ∀ offset, offset < 4096 →
      k₅.ram f offset = k₁.ram f offset := by
    intro f covers offset small
    have inside : f - module.modStart / 4096 < module.numCodePages := by
      have upper := covers.2
      omega
    have there : module.modStart / 4096 + (f - module.modStart / 4096) = f := by
      have lower := covers.1
      omega
    have bytes := (accounts₅.pages o owner .temp _ _ temp₅ _ inside).2 offset small nofun
    have shown := shown _ inside
    rw [there] at shown
    have same : (G.setBytes (.page 0 0) bytes₅).bytes .temp = bytes₂ := by
      unfold Estate.setBytes
      dsimp only
      rw [Function.update_of_ne (by simp), entered.bytes _ (by simp), loading.tempBytes]
    rw [own, Estate.setBytes_frame, entered.frame, loading.tempFrame, same, shown.1, shown.2] at bytes
    exact bytes
  apply ((accounts₅.ensures_free owner temp₅ nofun).and ensures_free_ram).excuse
    (fun _ => And.left) |>.mono
  rintro _ k₆ ⟨⟨accounts₆, steady₆⟩, ram⟩
  rw [own, Function.update_idem] at accounts₆
  have null := (accounts.fits owner (by rw [own]; exact ready.table)).2
  have done := loading.tableReady entered ready.pageTable absent positive few
  have whole := (entered.laid (loading.laid laid)).close (Or.inl (by decide))
    (by rw [linked]; exact done) (loading.leads entered laid linked null)
  have code₅ : (Function.update w o (G.setBytes (.page 0 0) bytes₅) o).block (.page 0 0) =
      some (page, .pages module.numCodePages) := by
    rw [own, Estate.setBytes_block, entered.block _ (by simp), loading.code]
  have later := ((steady₃.trans steady₄).trans steady₅).trans steady₆
  refine ⟨_, page, accounts₆, ((calm.trans steady₄.calm).trans steady₅.calm).trans steady₆.calm,
    fun f j other use => ?_, whole.copied, done.copied, fun _ => nonzero, few, ?_,
    fun role => loading.block_after entered temp, Copied.after {
      block := fun _ => ⟨page, ?_⟩
      alone := fun j positive => ?_
      outside := fun c inside covers => ?_
      code := fun c offset small within => ?_
      contents := fun f j use offset small => ?_
      spares := spares₂.trans later.spares calm₂.cr3
      aside := aside₂.trans later.aside calm₂.cr3 } steady₁ uses⟩
  · rcases left f j (steady₁.modules _ _ use) with covers | ⟨use₂, _⟩
    · rw [uses f covers] at use
      cases use
      exact absurd rfl other
    · exact later.modules _ _ use₂
  · rw [Estate.drop_draft, Estate.setBytes_draft, entered.draft, loading.draft]
  · rw [Estate.drop_block, if_neg (by simp), Estate.setBytes_block, entered.block _ (by simp),
      loading.code]
  · have other : Role.page 0 j ≠ .page 0 0 := by
      simp only [ne_eq, Role.page.injEq, true_and]
      omega
    rw [Estate.drop_block, if_neg (by simp), Estate.setBytes_block, entered.block _ (by simp),
      loading.block _ other (by simp), absent j]
  · -- the pages that show the module's memory are others
    obtain ⟨lower, upper⟩ := covers
    rw [Estate.drop_frame, Estate.setBytes_frame] at lower upper
    have there : G.frame (.page 0 0) c - module.modStart / 4096 < module.numCodePages := by omega
    have same := accounts₅.frame_injective owner owner code₅ inside temp₅ there (by
      rw [own, Estate.setBytes_frame, entered.frame, loading.tempFrame, (shown _ (by
        rw [← entered.frame]
        exact there)).1, ← entered.frame]
      omega)
    cases same.2.1
  · rw [Estate.drop_bytes, Estate.setBytes_bytes, if_pos rfl]
    exact copied' c offset small within
  · rcases left f j use with covers | ⟨use₂, bytes⟩
    · rw [ram]
      exact covered' f covers offset small
    · rw [later.contents f j use₂, bytes]

/-- What `load_module` makes: an address space with the module's code, a stack and a
kernel stack, in step with its shadow. -/
theorem Accounts.ensures_loadModule {module : Module}
    (accounts : Accounts covered enough (M.loadAsks spare module) k w)
    (known : module ∈ M.modules)
    (uses : ∀ frame, module.Covers frame → k.uses frame = some (.module i)) :
    Command.Ensures (Excused M covered enough) k (loadModule module) fun p k' =>
      ∃ E : Estate, ∃ m, Accounts covered enough spare k' (Function.update w k.owners E) ∧
        Calm { k with owners := k.owners + 1 } k' ∧
        (∀ f j, j ≠ i → k.uses f = some (.module j) → k'.uses f = some (.module j)) ∧
        E.Ready p m ∧ E.block .process = none ∧ m.pageTables 1 = 0 ∧
        (∀ i, m.pageTables i ≠ 0 → i = 0 ∨ i = 767 ∨ i = 1022) ∧
        (∀ i j, E.Has i j ↔ i = 0 ∧ j < module.numCodePages ∨ (i = 767 ∨ i = 1022) ∧ j = 1023) ∧
        module.numCodePages ≤ 1024 ∧ Copied module k.owners E k k' := by
  have owner : k.owners ≠ 0 := by
    have positive := accounts.owners
    omega
  have own : ∀ G, (Function.update w k.owners G) k.owners = G := fun G => Function.update_self ..
  unfold loadModule
  apply Command.ensures_bind accounts.ensures_newOwner
  rintro o k₁ ⟨rfl, _, shape, accounts₁⟩
  have drawn : k.owners < k₁.owners := by
    rw [shape]
    exact Nat.lt_succ_self _
  have moduleUse : ∀ f j, k.uses f = some (.module j) → k₁.uses f = some (.module j) := by
    rw [shape]
    exact fun _ _ use => use
  have old : ∀ {o E k'}, Copied module o E k₁ k' → Copied module o E k k' := by
    rw [shape]
    exact fun copied => { copied with }
  rw [← shape]
  clear shape
  apply Command.ensures_bind (accounts₁.ensures_newSpace owner drawn (own _))
  rintro ⟨process, code, stack, kernelStack⟩ k₂
    ⟨E, m, accounts₂, steady₂, laid, final, others, tables, code', stack', kernelStack'⟩
  dsimp only at laid tables code' stack' kernelStack' ⊢
  rw [Function.update_idem] at accounts₂
  have linked : m.pageTables 767 = stack.1 ∧ m.pageTables 1022 = kernelStack.1 ∧
      m.pageTables 0 = code.1 ∧ m.pageTables 1 = 0 := by
    rw [tables]
    simp
  have growStack := accounts₂.ensures_growPage (j := 1023) owner
    (by rw [steady₂.calm.owners]; exact drawn) laid stack' linked.1 (by decide) (by decide) rfl rfl
  apply Command.ensures_bind growStack
  rintro page₃ k₃ ⟨nonzero₃, steady₃, E₃, accounts₃, laid₃, stack₃, _, draft₃, ready₃, block₃⟩
  have kernelStack₃ := ready₃ _ _ _ (by decide) kernelStack'
  have code₃ := ready₃ _ _ _ (by decide) code'
  have steady := steady₂.trans steady₃
  have growKernelStack := accounts₃.ensures_growPage (j := 1023) owner
    (by rw [steady.calm.owners]; exact drawn) laid₃ kernelStack₃ linked.2.1 (by decide) (by decide)
    rfl rfl
  apply Command.ensures_bind growKernelStack
  rintro page₄ k₄ ⟨nonzero₄, steady₄, E₄, accounts₄, laid₄, kernelStack₄, _, draft₄, ready₄, block₄⟩
  have stack₄ := ready₄ _ _ _ (by decide) stack₃
  have code₄ := ready₄ _ _ _ (by decide) code₃
  replace steady := steady.trans steady₄
  have roles : ∀ role, role = .process ∨ role = .temp ∨ role = .raw → E₄.block role = none := by
    intro role which
    rw [block₄ role (by rcases which with rfl | rfl | rfl <;> simp [Role.slot]),
      block₃ role (by rcases which with rfl | rfl | rfl <;> simp [Role.slot]), others role which]
  refine Command.ensures_bind (accounts₄.ensures_loadCode (i := i) owner
    (by rw [steady.calm.owners]; exact drawn) known
    (fun frame covers => steady.modules _ _ (moduleUse _ _ (uses frame covers))) laid₄ code₄
    linked.2.2.1 (roles _ (by simp))) ?_
  rintro _ k₅ ⟨E₅, page₅, accounts₅, calm₅, kept, laid₅, code₅, nonzero₅, few, draft₅, block₅, copied⟩
  refine Command.ensures_pure _ ⟨E₅, m, accounts₅, steady.calm.trans calm₅, fun f j other use =>
    kept f j other (steady.modules _ _ (moduleUse _ _ use)), ⟨laid₅, ?_, ?_, ?_⟩, ?_, ?_, ?_, ?_, few,
    old (copied.after steady fun frame covers => moduleUse _ _ (uses frame covers))⟩
  · rw [draft₅, draft₄, draft₃]
    exact final
  · rw [block₅ _ (by simp [Role.slot]), roles _ (by simp)]
  · rw [block₅ _ (by simp [Role.slot]), roles _ (by simp)]
  · rw [block₅ _ (by simp [Role.slot]), roles _ (by simp)]
  · exact linked.2.2.2
  · intro i listed
    by_contra other
    rw [tables, Function.update_of_ne (by omega), Function.update_of_ne (by omega),
      Function.update_of_ne (by omega)] at listed
    exact listed rfl
  · intro i j
    by_cases isCode : i = 0
    · subst isCode
      rw [Estate.has_iff code₅.table]
      by_cases inside : j < module.numCodePages
      · simp [inside, nonzero₅ (by omega)]
      · simp [inside]
    · by_cases isStack : i = 767
      · subst isStack
        rw [Estate.has_iff ((block₅ _ (by simp [Role.slot])).trans stack₄.table)]
        by_cases top : j = 1023 <;> simp [top, nonzero₃]
      · by_cases isKernelStack : i = 1022
        · subst isKernelStack
          rw [Estate.has_iff ((block₅ _ (by simp [Role.slot])).trans kernelStack₄.table)]
          by_cases top : j = 1023 <;> simp [top, nonzero₄]
        · simp only [isCode, isStack, isKernelStack, false_and, or_self, iff_false]
          rintro ⟨q, t, held, _⟩
          have zero : m.pageTables i = 0 := by
            rw [tables, Function.update_of_ne isKernelStack, Function.update_of_ne isStack,
              Function.update_of_ne isCode]
          have vacant : E₅.block (.table i) = none := by
            by_cases inside : i < 1024
            · rcases laid₅.slotReady i inside with ⟨_, vacant, _⟩ | ⟨_, ⟨t', ready⟩, _⟩
              · exact vacant _ rfl
              · have null := (accounts₅.fits owner (by rw [own]; exact ready.table)).2
                exact absurd zero null
            · exact laid₅.beyond i (by omega) _ rfl
          rw [vacant] at held
          cases held

end Loading

end Snfos.Kernel
