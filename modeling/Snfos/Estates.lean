import Snfos.PageMapping
import Snfos.Budget

set_option autoImplicit false

/- Who owns what on the kernel heap. An estate lists the blocks of one process by
the role they were allocated for, with the frames and bytes of whole pages; a
family of estates, one for each owner, abstracts the kernel's memory. -/
namespace Snfos

open ByteMemory

/-- The blocks of one owner. `draft` says that its page directory is being built. -/
structure Estate where
  block : Role → Option (Nat × Body)
  frame : Role → Nat → Nat
  bytes : Role → Nat → Memory
  draft : Prop

abbrev Estates := Nat → Estate

/-- The bodies a block of a role may have. -/
def Role.Fits : Role → Body → Prop
  | .process, .process _ => True
  | .memory, .memory _ => True
  | .table _, .table _ => True
  | .directory, .pages count => count = 1
  | .pageTable _, .pages count => count = 1
  | .page _ _, .pages count => 0 < count
  | .temp, .pages count => 0 < count
  | .raw, .pages count => 0 < count
  | .raw, .raw size => 0 < size
  | _, _ => False

theorem Role.Fits.positive {role : Role} {body : Body} (fits : role.Fits body) : 0 < body.size := by
  cases role <;> cases body <;> simp_all [Role.Fits, Body.size]

namespace Estate

variable {E : Estate}

/-- Nothing yet. -/
def new : Estate := ⟨fun _ => none, fun _ _ => 0, fun _ _ _ => 0, True⟩

/-- A structure in a block of its own. -/
def put (E : Estate) (role : Role) (p : Nat) (body : Body) : Estate :=
  { E with block := Function.update E.block role (some (p, body)) }

/-- Whole pages, in given frames and with given bytes. -/
def place (E : Estate) (role : Role) (p count : Nat) (frames : Nat → Nat) (bytes : Nat → Memory) :
    Estate where
  block := Function.update E.block role (some (p, .pages count))
  frame := Function.update E.frame role frames
  bytes := Function.update E.bytes role bytes
  draft := E.draft

def drop (E : Estate) (role : Role) : Estate :=
  { E with block := Function.update E.block role none }

/-- New bytes for page `i` of the block with a role. -/
def edit (E : Estate) (role : Role) (i : Nat) (change : Memory → Memory) : Estate :=
  { E with
    bytes := Function.update E.bytes role
      (Function.update (E.bytes role) i (change (E.bytes role i))) }

/-- Page `i` of the block with a role lies in another frame. -/
def rehome (E : Estate) (role : Role) (i frame : Nat) (bytes : Memory) : Estate :=
  { E with
    frame := Function.update E.frame role (Function.update (E.frame role) i frame)
    bytes := Function.update E.bytes role (Function.update (E.bytes role) i bytes) }

/-- New bytes for all pages of the block with a role. -/
def setBytes (E : Estate) (role : Role) (bytes : Nat → Memory) : Estate :=
  { E with bytes := Function.update E.bytes role bytes }

/-- Entry `i` of a page table or directory. -/
def word (E : Estate) (role : Role) (i : Nat) : Nat := load32 (E.bytes role 0) (4 * i)

def setWord (E : Estate) (role : Role) (i value : Nat) : Estate :=
  E.edit role 0 (store32 · (4 * i) value)

def zero (E : Estate) (role : Role) : Estate := E.edit role 0 (fill · 0 4096 0)

/-- The page directory is complete. -/
def finish (E : Estate) : Estate := { E with draft := False }

section Simp

variable {role role' : Role} {p i j count value : Nat} {body : Body} {frames : Nat → Nat}
  {bytes : Nat → Memory} {change : Memory → Memory}

@[simp] theorem put_block : (E.put role p body).block role' =
    if role' = role then some (p, body) else E.block role' := by
  simp only [put, Function.update_apply]

@[simp] theorem put_frame : (E.put role p body).frame = E.frame := rfl

@[simp] theorem put_bytes : (E.put role p body).bytes = E.bytes := rfl

@[simp] theorem put_draft : (E.put role p body).draft = E.draft := rfl

@[simp] theorem put_word : (E.put role p body).word = E.word := rfl

@[simp] theorem place_block : (E.place role p count frames bytes).block role' =
    if role' = role then some (p, .pages count) else E.block role' := by
  simp only [place, Function.update_apply]

@[simp] theorem place_frame : (E.place role p count frames bytes).frame role' =
    if role' = role then frames else E.frame role' := by
  simp only [place, Function.update_apply]

@[simp] theorem place_bytes : (E.place role p count frames bytes).bytes role' =
    if role' = role then bytes else E.bytes role' := by
  simp only [place, Function.update_apply]

@[simp] theorem place_draft : (E.place role p count frames bytes).draft = E.draft := rfl

theorem place_word (other : role' ≠ role) :
    (E.place role p count frames bytes).word role' = E.word role' := by
  funext i
  simp only [word, place_bytes, other, ↓reduceIte]

@[simp] theorem drop_block : (E.drop role).block role' =
    if role' = role then none else E.block role' := by
  simp only [drop, Function.update_apply]

@[simp] theorem drop_frame : (E.drop role).frame = E.frame := rfl

@[simp] theorem drop_bytes : (E.drop role).bytes = E.bytes := rfl

@[simp] theorem drop_draft : (E.drop role).draft = E.draft := rfl

@[simp] theorem drop_word : (E.drop role).word = E.word := rfl

@[simp] theorem edit_block : (E.edit role i change).block = E.block := rfl

@[simp] theorem edit_frame : (E.edit role i change).frame = E.frame := rfl

@[simp] theorem edit_draft : (E.edit role i change).draft = E.draft := rfl

theorem edit_bytes : (E.edit role i change).bytes role' j =
    if role' = role ∧ j = i then change (E.bytes role i) else E.bytes role' j := by
  unfold edit
  by_cases here : role' = role
  · subst here
    by_cases page : j = i
    · subst page
      simp
    · simp [page]
  · simp [here]

theorem edit_word (other : role' ≠ role ∨ i ≠ 0) : (E.edit role i change).word role' = E.word role' := by
  funext j
  unfold word
  rw [edit_bytes, if_neg (by tauto)]

@[simp] theorem setBytes_block : (E.setBytes role bytes).block = E.block := rfl

@[simp] theorem setBytes_frame : (E.setBytes role bytes).frame = E.frame := rfl

@[simp] theorem setBytes_draft : (E.setBytes role bytes).draft = E.draft := rfl

theorem setBytes_bytes : (E.setBytes role bytes).bytes role' =
    if role' = role then bytes else E.bytes role' := by
  simp only [setBytes, Function.update_apply]

theorem setBytes_word (other : role' ≠ role) : (E.setBytes role bytes).word role' = E.word role' := by
  funext j
  unfold word setBytes
  dsimp only
  rw [Function.update_of_ne other]

theorem setBytes_edit : (E.setBytes role bytes).edit role i change =
    E.setBytes role (Function.update bytes i (change (bytes i))) := by
  simp only [edit, setBytes, Function.update_self, Function.update_idem]

@[simp] theorem setWord_block : (E.setWord role i value).block = E.block := rfl

@[simp] theorem setWord_frame : (E.setWord role i value).frame = E.frame := rfl

@[simp] theorem setWord_draft : (E.setWord role i value).draft = E.draft := rfl

theorem setWord_word (bound : value < 2 ^ 32) : (E.setWord role i value).word role' j =
    if role' = role ∧ j = i then value else E.word role' j := by
  unfold word setWord
  rw [edit_bytes]
  by_cases here : role' = role
  · subst here
    by_cases index : j = i
    · subst index
      rw [if_pos ⟨rfl, rfl⟩, if_pos ⟨rfl, rfl⟩, load32_store32_of_lt _ _ _ bound]
    · rw [if_pos ⟨rfl, rfl⟩, if_neg (fun both => index both.2),
        load32_store32_ne _ _ _ _ (by omega)]
  · rw [if_neg (fun both => here both.1), if_neg (fun both => here both.1)]

@[simp] theorem zero_block : (E.zero role).block = E.block := rfl

@[simp] theorem zero_frame : (E.zero role).frame = E.frame := rfl

@[simp] theorem zero_draft : (E.zero role).draft = E.draft := rfl

theorem zero_word (inside : j < 1024) : (E.zero role).word role' j =
    if role' = role then 0 else E.word role' j := by
  unfold word zero
  rw [edit_bytes]
  by_cases here : role' = role
  · rw [if_pos ⟨here, rfl⟩, if_pos here]
    exact load32_fill_zero _ _ _ _ (by omega) (by omega)
  · rw [if_neg (fun both => here both.1), if_neg here]

@[simp] theorem rehome_block {g : Nat} {page : Memory} : (E.rehome role i g page).block = E.block := rfl

@[simp] theorem rehome_draft {g : Nat} {page : Memory} : (E.rehome role i g page).draft = E.draft := rfl

theorem rehome_frame {g : Nat} {page : Memory} : (E.rehome role i g page).frame role' j =
    if role' = role ∧ j = i then g else E.frame role' j := by
  unfold rehome
  by_cases here : role' = role
  · subst here
    by_cases same : j = i <;> simp [same]
  · simp [here]

theorem rehome_bytes {g : Nat} {page : Memory} : (E.rehome role i g page).bytes role' j =
    if role' = role ∧ j = i then page else E.bytes role' j := by
  unfold rehome
  by_cases here : role' = role
  · subst here
    by_cases same : j = i <;> simp [same]
  · simp [here]

/-- A block that is there is placed where it is. -/
theorem place_held {g : Nat} {page : Memory} (held : E.block role = some (p, .pages count)) :
    E.place role p count (Function.update (E.frame role) i g)
      (Function.update (E.bytes role) i page) = E.rehome role i g page := by
  unfold place rehome
  rw [← held, Function.update_eq_self]

@[simp] theorem finish_block : E.finish.block = E.block := rfl

@[simp] theorem finish_frame : E.finish.frame = E.frame := rfl

@[simp] theorem finish_bytes : E.finish.bytes = E.bytes := rfl

@[simp] theorem finish_draft : E.finish.draft = False := rfl

@[simp] theorem finish_word : E.finish.word = E.word := rfl

end Simp

end Estate

/-- What the new estate of one owner has in common with its old one is as it was for all. -/
theorem Estates.update_same {α : Type} {w : Estates} {o : Nat} {E : Estate} (part : Estate → α)
    (same : part E = part (w o)) (o' : Nat) : part (Function.update w o E o') = part (w o') := by
  by_cases here : o' = o
  · rw [here, Function.update_self, same]
  · rw [Function.update_of_ne here]

namespace Kernel

variable {M : Machine}

/-- The live sizes as the heap knows them. -/
def sizes (k : Kernel M) (p : Nat) : Option Nat := (k.blocks p).map (·.body.size)

/-- The estates `w` account for every block of the kernel and for what its pages
hold. The directory in use is the first one or a finished one. With `enough` there
is `spare` in the heap, with the frames for it. -/
structure Accounts (covered enough : Prop) (spare : M.Budget) (k : Kernel M) (w : Estates) : Prop where
  heap : M.allocator.Holds k.heap k.sizes
  paging : Paging covered enough 0 k.mappedEnd k
  bounded : M.allocator.heapEnd k.heap ≤ M.limit
  ample : enough → ∃ frames, frames ≤ k.frames.unused ∧ spare k.heap frames
  owners : 0 < k.owners
  blocks : ∀ p b, k.blocks p = some b → p ≠ 0 ∧ b.role.Fits b.body ∧ b.owner < k.owners ∧
    (b.owner = 0 → b.role = .raw) ∧ ∀ count, b.body = .pages count → p % 4096 = 0
  owned : ∀ o, o ≠ 0 → ∀ role p body,
    (w o).block role = some (p, body) ↔ k.blocks p = some ⟨body, role, o⟩
  pages : ∀ o, o ≠ 0 → ∀ role p count, (w o).block role = some (p, .pages count) →
    ∀ i, i < count → k.home (p / 4096 + i) = (w o).frame role i ∧
      ∀ offset, offset < 4096 →
        (role = .directory → ¬ (w o).draft → offset < 3076 ∨ 4088 ≤ offset) →
        k.ram ((w o).frame role i) offset = (w o).bytes role i offset
  drafts : ∀ o, o ≠ 0 → ∀ p body, (w o).block .directory = some (p, body) → (w o).draft →
    (w o).frame .directory 0 ≠ k.cr3 / 4096
  directories : ∀ o, o ≠ 0 → ∀ p body, (w o).block .directory = some (p, body) → ¬ (w o).draft →
    Space k.mappedEnd k ((w o).frame .directory 0)
  running : k.cr3 / 4096 = M.bootPageDirectory ∨ ∃ o, o ≠ 0 ∧ ¬ (w o).draft ∧
    (∃ p body, (w o).block .directory = some (p, body)) ∧
    (w o).frame .directory 0 = k.cr3 / 4096

/-- The registers stay, and what is mapped stays mapped. -/
structure Calm (k k' : Kernel M) : Prop where
  cr3 : k'.cr3 = k.cr3
  first : k'.first = k.first
  last : k'.last = k.last
  current : k'.current = k.current
  pidInc : k'.pidInc = k.pidInc
  owners : k'.owners = k.owners
  grows : k.mappedEnd ≤ k'.mappedEnd
  mapped : ∀ v, HeapPage M k.mappedEnd v → Mapped k v → Mapped k' v

theorem Calm.refl (k : Kernel M) : Calm k k :=
  ⟨rfl, rfl, rfl, rfl, rfl, rfl, Nat.le_refl _, fun _ _ mapped => mapped⟩

theorem Calm.trans {k k' k'' : Kernel M} (first : Calm k k') (second : Calm k' k'') :
    Calm k k'' where
  cr3 := second.cr3.trans first.cr3
  first := second.first.trans first.first
  last := second.last.trans first.last
  current := second.current.trans first.current
  pidInc := second.pidInc.trans first.pidInc
  owners := second.owners.trans first.owners
  grows := Nat.le_trans first.grows second.grows
  mapped := fun v page mapped => second.mapped v ⟨page.1, Nat.lt_of_lt_of_le page.2 first.grows⟩
    (first.mapped v page mapped)

/-- The blocks of everyone but `o` stay, each page where it is and as it is, but for the
entries of the directory in use in the range of the heap. -/
def Aside (o : Nat) (k k' : Kernel M) : Prop :=
  ∀ p b, k.blocks p = some b → b.owner ≠ o → k'.blocks p = some b ∧
    ∀ count, b.body = .pages count → ∀ i, i < count →
      k'.home (p / 4096 + i) = k.home (p / 4096 + i) ∧
        ∀ offset, (k.home (p / 4096 + i) = k.cr3 / 4096 → offset < 3076 ∨ 4088 ≤ offset) →
          k'.ram (k.home (p / 4096 + i)) offset = k.ram (k.home (p / 4096 + i)) offset

theorem Aside.refl {o : Nat} (k : Kernel M) : Aside o k k :=
  fun _ _ live _ => ⟨live, fun _ _ _ _ => ⟨rfl, fun _ _ => rfl⟩⟩

theorem Aside.trans {o : Nat} {k k' k'' : Kernel M} (first : Aside o k k') (second : Aside o k' k'')
    (cr3 : k'.cr3 = k.cr3) : Aside o k k'' := by
  intro p b live other
  obtain ⟨live', pages⟩ := first p b live other
  obtain ⟨live'', pages'⟩ := second p b live' other
  refine ⟨live'', fun count whole i inside => ?_⟩
  obtain ⟨home, bytes⟩ := pages count whole i inside
  obtain ⟨home', bytes'⟩ := pages' count whole i inside
  rw [home, cr3] at bytes'
  exact ⟨home'.trans home, fun offset outside =>
    (bytes' offset outside).trans (bytes offset outside)⟩

/-- Besides, no module's frames are taken or written to, no reserved memory, and no blocks but
those of `o`. -/
structure Steady (o : Nat) (k k' : Kernel M) : Prop where
  calm : Calm k k'
  modules : ∀ f i, k.uses f = some (.module i) → k'.uses f = some (.module i)
  contents : ∀ f i, k.uses f = some (.module i) → k'.ram f = k.ram f
  spares : Spares k k'
  aside : Aside o k k'

theorem Steady.refl {o : Nat} (k : Kernel M) : Steady o k k :=
  ⟨.refl k, fun _ _ use => use, fun _ _ _ => rfl, .refl k, .refl k⟩

theorem Steady.trans {o : Nat} {k k' k'' : Kernel M} (first : Steady o k k')
    (second : Steady o k' k'') : Steady o k k'' where
  calm := first.calm.trans second.calm
  modules := fun f i use => second.modules f i (first.modules f i use)
  contents := fun f i use =>
    (second.contents f i (first.modules f i use)).trans (first.contents f i use)
  spares := first.spares.trans second.spares first.calm.cr3
  aside := first.aside.trans second.aside first.calm.cr3

section Facts

variable {covered enough : Prop} {spare : M.Budget} {k : Kernel M} {w : Estates} {o o' : Nat}
  {role role' : Role} {p p' count count' i i' : Nat} {body : Body}

theorem Accounts.spend {spare' : M.Budget} (accounts : Accounts covered enough spare k w)
    (fewer : ∀ heap frames, spare heap frames → spare' heap frames) :
    Accounts covered enough spare' k w :=
  { accounts with
    ample := fun so => by
      obtain ⟨frames, unused, served⟩ := accounts.ample so
      exact ⟨frames, unused, fewer _ _ served⟩ }

theorem Accounts.live (accounts : Accounts covered enough spare k w) (owner : o ≠ 0)
    (held : (w o).block role = some (p, body)) : k.blocks p = some ⟨body, role, o⟩ :=
  (accounts.owned o owner role p body).mp held

theorem Accounts.fits (accounts : Accounts covered enough spare k w) (owner : o ≠ 0)
    (held : (w o).block role = some (p, body)) : role.Fits body ∧ p ≠ 0 := by
  obtain ⟨nonzero, fits, _⟩ := accounts.blocks _ _ (accounts.live owner held)
  exact ⟨fits, nonzero⟩

theorem Accounts.directory_pages (accounts : Accounts covered enough spare k w) (owner : o ≠ 0)
    (held : (w o).block .directory = some (p, body)) : body = .pages 1 := by
  have fits := (accounts.fits owner held).1
  cases body with
  | pages n => exact congrArg Body.pages fits
  | _ => exact fits.elim

/-- No two roles of an owner, and no two owners, share a block. -/
theorem Accounts.unique {body' : Body} (accounts : Accounts covered enough spare k w)
    (role role' : Role) (owner : o ≠ 0) (owner' : o' ≠ 0)
    (held : (w o).block role = some (p, body)) (held' : (w o').block role' = some (p, body')) : o = o' ∧ role = role' ∧ body = body' := by
  have same := (accounts.live owner held).symm.trans (accounts.live owner' held')
  simp only [Option.some.injEq, Block.mk.injEq] at same
  exact ⟨same.2.2, same.2.1, same.1⟩

theorem Accounts.inside (accounts : Accounts covered enough spare k w) {b : Block}
    (live : k.blocks p = some b) : M.layout.heapStart ≤ p ∧ p + b.body.size ≤ k.mappedEnd := by
  have size : k.sizes p = some b.body.size := by
    unfold sizes
    rw [live, Option.map_some]
  obtain ⟨lower, upper⟩ := M.allocator.inside accounts.heap size
  unfold mappedEnd
  split <;> omega

theorem Accounts.apart (accounts : Accounts covered enough spare k w) {b b' : Block}
    (live : k.blocks p = some b) (live' : k.blocks p' = some b') (other : p ≠ p') :
    p + b.body.size ≤ p' ∨ p' + b'.body.size ≤ p := by
  have size : k.sizes p = some b.body.size := by
    unfold sizes
    rw [live, Option.map_some]
  have size' : k.sizes p' = some b'.body.size := by
    unfold sizes
    rw [live', Option.map_some]
  exact M.allocator.apart accounts.heap size size' other

/-- A page of a block, whoever it belongs to. -/
theorem Accounts.page_of_block (accounts : Accounts covered enough spare k w) {b : Block}
    (live : k.blocks p = some b) (whole : b.body = .pages count) (inside : i < count) :
    p % 4096 = 0 ∧ HeapPage M k.mappedEnd (p / 4096 + i) ∧
      k.uses (k.home (p / 4096 + i)) = some (.heap (p / 4096 + i)) := by
  obtain ⟨_, _, _, _, aligned⟩ := accounts.blocks _ _ live
  replace aligned := aligned count whole
  obtain ⟨lower, upper⟩ := accounts.inside live
  have page : HeapPage M k.mappedEnd (p / 4096 + i) := by
    rw [whole, Body.size] at upper
    unfold HeapPage
    omega
  exact ⟨aligned, page, accounts.paging.homes _ page⟩

/-- Pages of different blocks are different. -/
theorem Accounts.block_apart (accounts : Accounts covered enough spare k w) {b b' : Block}
    (live : k.blocks p = some b) (live' : k.blocks p' = some b') (whole : b.body = .pages count)
    (whole' : b'.body = .pages count') (inside : i < count) (inside' : i' < count')
    (same : p / 4096 + i = p' / 4096 + i') : p = p' := by
  obtain ⟨aligned, _, _⟩ := accounts.page_of_block live whole inside
  obtain ⟨aligned', _, _⟩ := accounts.page_of_block live' whole' inside'
  by_contra other
  rcases accounts.apart live live' other with h | h <;>
    simp only [whole, whole', Body.size] at h <;> omega

/-- A page of a block of whole pages. -/
theorem Accounts.page (accounts : Accounts covered enough spare k w) (owner : o ≠ 0)
    (held : (w o).block role = some (p, .pages count)) (inside : i < count) :
    p % 4096 = 0 ∧ HeapPage M k.mappedEnd (p / 4096 + i) ∧
      k.home (p / 4096 + i) = (w o).frame role i ∧
      k.uses ((w o).frame role i) = some (.heap (p / 4096 + i)) := by
  obtain ⟨aligned, page, use⟩ := accounts.page_of_block (accounts.live owner held) rfl inside
  have home := (accounts.pages o owner role p count held i inside).1
  exact ⟨aligned, page, home, home ▸ use⟩

/-- Different pages of blocks lie in different frames. -/
theorem Accounts.frame_injective (accounts : Accounts covered enough spare k w) (owner : o ≠ 0)
    (owner' : o' ≠ 0) (held : (w o).block role = some (p, .pages count)) (inside : i < count)
    (held' : (w o').block role' = some (p', .pages count')) (inside' : i' < count')
    (same : (w o).frame role i = (w o').frame role' i') : o = o' ∧ role = role' ∧ i = i' := by
  obtain ⟨_, _, _, use⟩ := accounts.page owner held inside
  obtain ⟨_, _, _, use'⟩ := accounts.page owner' held' inside'
  rw [same, use'] at use
  have page : p' / 4096 + i' = p / 4096 + i := by simpa using use
  obtain rfl : p = p' := accounts.block_apart (accounts.live owner held)
    (accounts.live owner' held') rfl rfl inside inside' page.symm
  obtain ⟨rfl, rfl, _⟩ := accounts.unique role role' owner owner' held held'
  exact ⟨rfl, rfl, by omega⟩

/-- The frame in `cr3` is no page of a block but for a finished directory. -/
theorem Accounts.current_page (accounts : Accounts covered enough spare k w) (owner : o ≠ 0)
    (held : (w o).block role = some (p, .pages count)) (inside : i < count)
    (current : (w o).frame role i = k.cr3 / 4096) : role = .directory ∧ ¬ (w o).draft := by
  obtain ⟨_, _, _, use⟩ := accounts.page owner held inside
  rcases accounts.running with boot | ⟨o', owner', finished, ⟨q, body, held'⟩, frame⟩
  · rw [current, boot, accounts.paging.bootPageDirectory] at use
    cases use
  · obtain rfl := accounts.directory_pages owner' held'
    obtain ⟨rfl, rfl, _⟩ := accounts.frame_injective owner owner' held inside held'
      (by decide : 0 < 1) (current.trans frame.symm)
    exact ⟨rfl, finished⟩

/-- A page of someone else's block is no page of one of `o`. -/
theorem Accounts.page_aside (accounts : Accounts covered enough spare k w) {b : Block}
    (owner : o ≠ 0) (held : (w o).block role = some (p, .pages count)) (inside : i < count)
    (live : k.blocks p' = some b) (other : b.owner ≠ o) (whole : b.body = .pages count')
    (inside' : i' < count') : k.home (p' / 4096 + i') ≠ (w o).frame role i := by
  intro same
  obtain ⟨_, _, _, use⟩ := accounts.page owner held inside
  obtain ⟨_, _, use'⟩ := accounts.page_of_block live whole inside'
  rw [same, use] at use'
  have live' := accounts.live owner held
  obtain rfl : p' = p :=
    accounts.block_apart live live' whole rfl inside' inside (by simpa using use'.symm)
  rw [live] at live'
  cases live'
  exact other rfl

theorem Accounts.fresh_owner (accounts : Accounts covered enough spare k w) (owner : o ≠ 0)
    (new : k.owners ≤ o) (role : Role) : (w o).block role = none := by
  cases held : (w o).block role with
  | none => rfl
  | some pair =>
      have bound := (accounts.blocks _ _ (accounts.live owner held)).2.2.1
      simp only at bound
      omega

end Facts

end Kernel

end Snfos
