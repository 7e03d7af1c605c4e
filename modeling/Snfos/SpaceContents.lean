import Snfos.LoadedImage
import Snfos.Undisturbed

set_option autoImplicit false

/- The memory that new processes start with: a loaded module's, with the page for the arguments,
or a copy of the parent's. -/
namespace Snfos

open ByteMemory Command

/-- The memory of an address space with a module loaded in it: the module's bytes, whatever is
behind them on the last page, and one page for the stack. -/
structure LoadedMemory (module : Module) (ram : Nat → Memory) (memory : UInt32 → Option UInt8) :
    Prop where
  code : ∀ a, a.toNat < module.modEnd - module.modStart →
    memory a = some (ram ((module.modStart + a.toNat) / 4096) ((module.modStart + a.toNat) % 4096))
  mapped : ∀ a, (memory a).isSome = true ↔
    a.toNat < 4096 * module.numCodePages ∨ 0xBFFFF000 ≤ a.toNat ∧ a.toNat < 0xC0000000

/-- A memory with the page of the arguments in place of all that was from 4 MiB to 8 MiB. -/
def argumentsMemory (text : List UInt8) (old : Memory) (memory : UInt32 → Option UInt8)
    (a : UInt32) : Option UInt8 :=
  if a.toNat / 2 ^ 22 = 1 then
    if a.toNat < 0x401000 then some (Kernel.withText text old (a.toNat % 4096)) else none
  else memory a

namespace Kernel

variable {M : Machine}

section Loaded

variable {covered enough : Prop} {spare : M.Budget} {k k' : Kernel M} {w : Estates} {E : Estate}
  {module : Module} {o p i j f : Nat} {m : ProcessMemory}

/-- User mode reaches the pages that the shadow lists below 3 GiB. -/
theorem Accounts.opens_iff (accounts : Accounts covered enough spare k w) (owner : o ≠ 0)
    (ready : (w o).Ready p m) :
    (∃ f, Opens (w o) m i j f) ↔ i < 768 ∧ j < 1024 ∧ (w o).Has i j := by
  constructor
  · rintro ⟨f, opens⟩
    obtain ⟨t, table⟩ := opens.table
    refine ⟨opens.slot, opens.index, m.pageTables i, t, table.table, ?_⟩
    rcases table.pages j opens.index with ⟨_, _, absent⟩ | ⟨j', c, q, place, pointer, _⟩
    · have odd := opens.page.odd
      omega
    · obtain ⟨count, held, _⟩ := place.block
      have nonzero := (accounts.fits owner held).2
      omega
  · rintro ⟨slot, index, q, t, held, listed⟩
    rcases ready.laid.slotReady i (by omega) with ⟨_, vacant, _⟩ | ⟨_, ⟨t', table⟩, leads⟩
    · rw [vacant (.table i) rfl] at held
      cases held
    have same := table.table
    rw [held] at same
    cases same
    rcases table.pages j index with ⟨zero, _⟩ | ⟨j', c, q', place, _, entered⟩
    · exact absurd zero listed
    · obtain ⟨count, block, within, _⟩ := place.block
      exact ⟨_, slot, index, ⟨t, table⟩, leads, entered, j', c, q', count, place.index, block, within, rfl⟩

theorem Accounts.spaceMemory_isSome (accounts : Accounts covered enough spare k w) (owner : o ≠ 0)
    (ready : (w o).Ready p m) (a : UInt32) : (k.spaceMemory p a).isSome = true ↔
      a.toNat / 2 ^ 22 < 768 ∧ (w o).Has (a.toNat / 2 ^ 22) (a.toNat / 4096 % 1024) := by
  have inside : a.toNat / 4096 % 1024 < 1024 := Nat.mod_lt _ (by decide)
  have opens := accounts.opens_iff (i := a.toNat / 2 ^ 22) (j := a.toNat / 4096 % 1024) owner ready
  rw [accounts.spaceMemory_ready owner ready, Option.isSome_iff_exists]
  constructor
  · rintro ⟨byte, found⟩
    obtain ⟨f, user, _⟩ := userByte_eq_some.mp found
    obtain ⟨slot, _, has⟩ := opens.mp ⟨f, (accounts.user_opens owner ready).mp user⟩
    exact ⟨slot, has⟩
  · rintro ⟨slot, has⟩
    obtain ⟨f, open'⟩ := opens.mpr ⟨slot, inside, has⟩
    exact ⟨_, userByte_eq_some.mpr ⟨f, (accounts.user_opens owner ready).mpr open', rfl⟩⟩

theorem Accounts.loadedMemory
    (accounts : Accounts covered enough spare k' (Function.update w k.owners E)) (owner : k.owners ≠ 0)
    (ready : E.Ready p m)
    (has : ∀ i j, E.Has i j ↔
      i = 0 ∧ j < module.numCodePages ∨ (i = 767 ∨ i = 1022) ∧ j = 1023)
    (few : module.numCodePages ≤ 1024) (copied : Copied module k.owners E k k') :
    LoadedMemory module k.ram (k'.spaceMemory p) := by
  have own : Function.update w k.owners E k.owners = E := Function.update_self ..
  have ready' : (Function.update w k.owners E k.owners).Ready p m := by rwa [own]
  have mapped : ∀ a : UInt32, (k'.spaceMemory p a).isSome = true ↔
      a.toNat < 4096 * module.numCodePages ∨ 0xBFFFF000 ≤ a.toNat ∧ a.toNat < 0xC0000000 := by
    intro a
    have bound := a.toNat_lt
    rw [accounts.spaceMemory_isSome owner ready', own, has]
    omega
  refine ⟨fun a inside => ?_, mapped⟩
  have pages := numCodePages_eq module
  obtain ⟨f, found, byte⟩ := (accounts.image owner ready has few copied).bytes a.toNat inside
  obtain ⟨value, here⟩ := Option.isSome_iff_exists.mp ((mapped a).mpr (Or.inl (by omega)))
  have read := here
  rw [accounts.spaceMemory_ready owner ready', own] at read
  obtain ⟨f', user, rfl⟩ := userByte_eq_some.mp read
  rw [user.translate rfl rfl, Option.some.injEq, Prod.mk.injEq] at found
  rw [here, found.1, byte]

end Loaded

section Arguments

variable {covered enough covered' enough' : Prop} {spare spare' : M.Budget} {k k' : Kernel M}
  {w w' : Estates} {o p : Nat} {m m' m'' : ProcessMemory} {E E' E'' : Estate}

theorem Opens.elsewhere {i j f : Nat} (opens : Opens E m i j f) (same : Elsewhere E E' m m')
    (other : i ≠ 1) : Opens E' m' i j f := by
  have slot : ∀ j, (Role.page i j).slot ≠ some 1 := fun j => by simpa [Role.slot] using other
  have table : (Role.pageTable i).slot ≠ some 1 := by simpa [Role.slot] using other
  have words : E'.word (.pageTable i) = E.word (.pageTable i) := by
    unfold Estate.word
    rw [same.bytes _ table (by simp)]
  refine ⟨opens.slot, opens.index, ?_, ?_, ?_, ?_⟩
  · obtain ⟨t, ready⟩ := opens.table
    refine ⟨t, ?_⟩
    rw [same.tables i other]
    refine ready.congr (fun role which => ?_) words
    have away : role.slot ≠ some 1 := by
      rw [which]
      simpa using other
    refine ⟨same.blocks role away ?_ ?_, by rw [same.frame role away]⟩
    · rintro rfl
      cases which
    · rintro rfl
      cases which
  · rw [same.frame _ table, same.word i other]
    exact opens.directory
  · rw [words]
    exact opens.page
  · obtain ⟨j', c, q, count, index, held, within, rfl⟩ := opens.place
    refine ⟨j', c, q, count, index, ?_, within, by rw [same.frame _ (slot j')]⟩
    rw [same.blocks _ (slot j') (by simp) (by simp)]
    exact held

/-- The memory outside the slot of the arguments. -/
theorem Accounts.spaceMemory_elsewhere (accounts : Accounts covered enough spare k w)
    (accounts' : Accounts covered' enough' spare' k' w') (owner : o ≠ 0) (ready : (w o).Ready p m)
    (ready' : (w' o).Ready p m') (same : Elsewhere (w o) (w' o) m m') {a : UInt32}
    (other : a.toNat / 2 ^ 22 ≠ 1) : k'.spaceMemory p a = k.spaceMemory p a := by
  rw [accounts.spaceMemory_ready owner ready, accounts'.spaceMemory_ready owner ready']
  refine userByte_congr (fun f user => ?_) fun f user => ?_
  · have opens := (accounts.user_opens owner ready).mp user
    have opens' := opens.elsewhere same other
    refine ⟨f, (accounts'.user_opens owner ready').mpr opens', ?_⟩
    obtain ⟨j', c, q, count, index, held, within, rfl⟩ := opens.place
    have slot : (Role.page (a.toNat / 2 ^ 22) j').slot ≠ some 1 := by simpa [Role.slot] using other
    have held' := (same.blocks _ slot (by simp) (by simp)).trans held
    have small := Nat.mod_lt a.toNat (by decide : 0 < 4096)
    have page : Role.page (a.toNat / 2 ^ 22) j' ≠ .directory := by simp
    have before := (accounts.pages o owner _ _ _ held c within).2 _ small fun is => absurd is page
    have after := (accounts'.pages o owner _ _ _ held' c within).2 _ small fun is => absurd is page
    rw [same.frame _ slot, same.bytes _ slot (by simp)] at after
    rw [before, after]
  · have opens := (accounts'.user_opens owner ready').mp user
    exact ⟨f, (accounts.user_opens owner ready).mpr (opens.elsewhere same.symm other)⟩

theorem elsewhere_edit {change : Memory → Memory} :
    Elsewhere E (E.edit (.page 1 0) 0 change) m m where
  tables := fun _ _ => rfl
  blocks := fun _ _ _ _ => rfl
  frame := fun _ _ => rfl
  bytes := fun role away _ => by
    have other : role ≠ .page 1 0 := by
      rintro rfl
      exact away rfl
    exact Function.update_of_ne other ..
  word := fun i _ => by rw [Estate.edit_word (Or.inl (by simp))]

/-- The memory in the slot of the arguments is that of its one page. -/
theorem Accounts.spaceMemory_arguments {page : Nat} {a : UInt32}
    (accounts : Accounts covered enough spare k w) (owner : o ≠ 0) (ready : (w o).Ready p m)
    (has : ∀ j, (w o).Has 1 j ↔ j = 0) (held : (w o).block (.page 1 0) = some (page, .pages 1))
    (here : a.toNat / 2 ^ 22 = 1) : k.spaceMemory p a =
      if a.toNat < 0x401000 then some ((w o).bytes (.page 1 0) 0 (a.toNat % 4096)) else none := by
  have mapped := accounts.spaceMemory_isSome owner ready a
  rw [here, has] at mapped
  have small := Nat.mod_lt a.toNat (by decide : 0 < 4096)
  split
  · next first =>
    obtain ⟨byte, found⟩ := Option.isSome_iff_exists.mp (mapped.mpr ⟨by decide, by omega⟩)
    have read := found
    rw [accounts.spaceMemory_ready owner ready] at read
    obtain ⟨f, user, rfl⟩ := userByte_eq_some.mp read
    rw [here] at user
    obtain ⟨j', c, q, count, index, block, within, rfl⟩ := ((accounts.user_opens owner ready).mp user).place
    obtain rfl : j' = 0 := by omega
    obtain rfl : c = 0 := by omega
    rw [found, (accounts.pages o owner _ _ _ held 0 (Nat.succ_pos 0)).2 _ small nofun]
  · next past =>
    rw [← Option.not_isSome_iff_eq_none, mapped]
    omega

theorem Accounts.ensures_addProcess_memory {arguments : Arguments} {before : Process} {order : List Nat}
    (accounts : Accounts covered enough (M.addAsks spare) k w) (owner : o ≠ 0) (drawn : o < k.owners)
    (ready : (w o).Ready p m) (zero : m.pageTables 1 = 0) (new : (w o).block .process = none)
    (linked : Linked k order) :
    Ensures (Excused M covered enough) k (addProcess p arguments before) fun _ k' =>
      Leaves k k' w o ∧ (∀ i j, i ≠ 1 → k.HasPage o i j → k'.HasPage o i j) ∧ ∃ old, ∀ a,
        k'.spaceMemory p a = argumentsMemory arguments.argv0 old (k.spaceMemory p) a := by
  have accounts₀ := accounts
  unfold addProcess
  apply ensures_bind (accounts.ensures_ownerOf owner ready.laid.memory)
  rintro o k ⟨rfl, rfl⟩
  have links : Ensures (Excused M covered enough) k (linkProcess p o before) _ :=
    accounts.ensures_linkProcess owner drawn new linked
  have both := links.and (accounts.ensures_linkProcess_spared owner drawn new)
  apply ensures_bind (both.excuse fun _ => And.left)
  rintro q k₁ ⟨⟨⟨w₁, accounts₁, beside₁⟩, kept₁, _, _, _, detail₁⟩, spared₁⟩
  have ready₁ := ready.beside beside₁
  rw [addArguments_eq, bind_assoc]
  apply ensures_bind (accounts₁.ensures_argumentsPage owner (by rw [kept₁.owners]; exact drawn)
    ready₁ zero)
  rintro page k₂ ⟨steady₂, E, m', accounts₂, ready₂, process₂, elsewhere₂, has₂, held₂⟩
  have own : ∀ G, (Function.update w₁ o G) o = G := fun G => Function.update_self ..
  have page₂ : (Function.update w₁ o E o).block (.page 1 0) = some (page, .pages 1) := by
    rw [own]
    exact held₂
  have write := accounts₂.ensures_editFrame (fun bytes _ => withText arguments.argv0 bytes) 0 owner
    page₂ (Nat.succ_pos 0) (by decide) (alike_argument _ _) nofun
  rw [Nat.mul_zero, Nat.add_zero, own, Function.update_idem] at write
  apply ensures_bind write
  rintro _ k₃ ⟨accounts₃, steady₃⟩
  have same : k₃.processOf = k₁.processOf := accounts₁.processOf_same accounts₃ fun o' _ => by
    by_cases here : o' = o
    · rw [here, own, Estate.edit_block, process₂]
    · rw [Function.update_of_ne here]
  have known : k₃.detail q = some (o, linkedProcess p k.pidInc before) := by
    unfold detail
    rw [same]
    show k₁.detail q = _
    rw [detail₁, Function.update_self]
  have changes := (accounts₃.ensures_setDetail (withArguments arguments) known (by decide : 0 < 68)
    fun _ => ⟨rfl, rfl, rfl⟩).and ((books_frozen k₃).keeps_setProcess (withArguments arguments) _ (frozen_self k₃))
  apply ensures_bind (changes.excuse fun _ => And.left)
  rintro _ k₄ ⟨⟨⟨w₄, accounts₄, beside₄⟩, _⟩, frozen⟩
  have ready₄ : (w₄ o).Ready p m' := Estate.Ready.beside (by rw [own]; exact ready_edit ready₂) beside₄
  have block₄ : ∀ role, role ≠ .process → (w₄ o).block role = E.block role := by
    intro role other
    rw [beside₄.block other, own, Estate.edit_block]
  have bytes₄ : (w₄ o).bytes (.page 1 0) 0 = withText arguments.argv0 (E.bytes (.page 1 0) 0) := by
    rw [beside₄.bytes, own, Estate.edit_bytes, if_pos ⟨rfl, rfl⟩]
    rfl
  have has₄ : ∀ j, (w₄ o).Has 1 j ↔ j = 0 := by
    intro j
    rw [← has₂ j]
    unfold Estate.Has
    rw [block₄ _ (by simp)]
  have elsewhere : Elsewhere (w o) (w₄ o) m m' := by
    have dropped := beside₄ o
    rw [own] at dropped
    exact ((elsewhere_drop (beside₁ o)).trans elsewhere₂).trans
      (elsewhere_edit.trans (elsewhere_drop dropped))
  refine ensures_pure _ ⟨accounts₀.leaves accounts₄ (fun o' _ other => ?_)
    (((spared₁.trans (accounts₁.spared steady₂)).trans (accounts₂.spared steady₃)).trans
      (.of_frozen frozen)),
    fun i j other has => ?_, E.bytes (.page 1 0) 0, fun a => ?_⟩
  · rw [beside₄ o', Function.update_of_ne other, beside₁ o']
  · obtain ⟨q, t, held, listed⟩ := (accounts₀.hasPage_iff owner).mp has
    have same := elsewhere.blocks (.table i) (by simpa [Role.slot] using other) (by simp) (by simp)
    exact (accounts₄.hasPage_iff owner).mpr ⟨q, t, same.trans held, listed⟩
  · unfold argumentsMemory
    split
    · next here =>
      rw [accounts₄.spaceMemory_arguments owner ready₄ has₄ (by rw [block₄ _ (by simp)]; exact held₂) here,
        bytes₄]
    · next other =>
      exact accounts₀.spaceMemory_elsewhere accounts₄ owner ready ready₄ elsewhere other

end Arguments

section Forks

variable {covered enough : Prop} {spare : M.Budget} {k k' : Kernel M} {w w' : Estates} {o o' p p' : Nat}
  {m m' : ProcessMemory}

/-- What is the same for the processor is the same for user mode. -/
theorem SameAt.user {ram ram' : Nat → Memory} {d d' f : Nat} {a : UInt32}
    (same : SameAt ram ram' d d' a.toNat)
    (user : UserPage ram d (a.toNat / 2 ^ 22) (a.toNat / 4096 % 1024) f) :
    ∃ f', UserPage ram' d' (a.toNat / 2 ^ 22) (a.toNat / 4096 % 1024) f' ∧
      ram' f' (a.toNat % 4096) = ram f (a.toNat % 4096) := by
  have directory := user.directory
  have table := user.table
  obtain ⟨f', found, first, second, bytes⟩ := same.present f _ (user.translate rfl rfl)
  unfold Snfos.translate at found
  dsimp only at found
  rw [if_neg (by omega), if_neg (by omega), Option.some.injEq, Prod.mk.injEq] at found
  exact ⟨f', ⟨user.slot, user.index, by omega, by omega, found.1⟩,
    bytes _ (Nat.mod_lt _ (by decide))⟩

theorem SameAt.user_back {ram ram' : Nat → Memory} {d d' f' : Nat} {a : UInt32}
    (same : SameAt ram ram' d d' a.toNat)
    (user : UserPage ram' d' (a.toNat / 2 ^ 22) (a.toNat / 4096 % 1024) f') :
    ∃ f, UserPage ram d (a.toNat / 2 ^ 22) (a.toNat / 4096 % 1024) f := by
  have directory := user.directory
  have table := user.table
  have there := user.translate (a := a.toNat) rfl rfl
  cases found : Snfos.translate ram d a.toNat with
  | none =>
    rw [same.absent found] at there
    cases there
  | some place =>
    obtain ⟨f, x⟩ := place
    obtain ⟨f₁, _, first, second, _⟩ := same.present f x found
    have frame := found
    unfold Snfos.translate at frame
    dsimp only at frame
    rw [if_neg (by omega), if_neg (by omega), Option.some.injEq, Prod.mk.injEq] at frame
    exact ⟨f, user.slot, user.index, by omega, by omega, frame.1⟩

/-- The child of a fork starts with its parent's memory. -/
theorem Accounts.spaceMemory_cloned (accounts : Accounts covered enough spare k w)
    (accounts' : Accounts covered enough spare k' w') (owner : o ≠ 0) (owner' : o' ≠ 0)
    (ready : (w o).Ready p m) (cloned : Cloned (w o) m (w' o') p' m') :
    k'.spaceMemory p' = k.spaceMemory p := by
  funext a
  rw [accounts.spaceMemory_ready owner ready, accounts'.spaceMemory_ready owner' cloned.ready]
  by_cases kernel : a.toNat < 0xC0000000
  · have same := accounts.copied_at accounts' owner owner' ready cloned kernel
    exact userByte_congr (fun f user => same.user user) fun f' user => same.user_back user
  · refine userByte_congr (fun f user => ?_) fun f' user => ?_
    · have slot := accounts.user_slot owner ready user
      omega
    · have slot := accounts'.user_slot owner' cloned.ready user
      omega

end Forks

end Kernel

end Snfos
