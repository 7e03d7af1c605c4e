import Snfos.ForkCopies

set_option autoImplicit false

/- The memory a process has in user mode: the bytes it reads and writes between two system
calls, by address. -/
namespace Snfos

open ByteMemory

/-- The place the processor finds for user mode. Bit 2 of an entry opens it to user mode, and
bit 1 to writes. Both entries must have them. -/
def userTranslate (ram : Nat → Memory) (directory address : Nat) (write : Bool) : Option (Nat × Nat) :=
  let pde := entry ram directory (address / 2 ^ 22)
  let pte := entry ram (pde / 4096) (address / 4096 % 1024)
  if pde / 4 % 2 = 0 ∨ pte / 4 % 2 = 0 then none
  else if write = true ∧ (pde / 2 % 2 = 0 ∨ pte / 2 % 2 = 0) then none
  else translate ram directory address

/-- The byte user mode reads. -/
def userByte (ram : Nat → Memory) (directory : Nat) (address : UInt32) : Option UInt8 :=
  (userTranslate ram directory address.toNat false).map fun place => ram place.1 place.2

namespace Kernel

variable {M : Machine}

/-- The memory of the address space whose structure is at `memory`. -/
def spaceMemory (k : Kernel M) (memory : Nat) (address : UInt32) : Option UInt8 :=
  match k.blocks memory with
  | some ⟨.memory m, _, _⟩ => userByte k.ram (k.home (m.pageDirectory / 4096)) address
  | _ => none

section Reading

variable {ram ram' : Nat → Memory} {d d' f x a : Nat} {address : UInt32}

theorem userTranslate_read (bound : a < 2 ^ 32) : userTranslate ram d a false = some (f, x) ↔
    UserPage ram d (a / 2 ^ 22) (a / 4096 % 1024) f ∧ x = a % 4096 := by
  constructor
  · intro found
    unfold userTranslate translate at found
    dsimp only at found
    split at found
    · cases found
    next user =>
      rw [if_neg (by simp)] at found
      split at found
      · cases found
      split at found
      · cases found
      · simp only [Option.some.injEq, Prod.mk.injEq] at found
        exact ⟨⟨by omega, by omega, by omega, by omega, found.1⟩, found.2.symm⟩
  · rintro ⟨user, rfl⟩
    have directory := user.directory
    have table := user.table
    unfold userTranslate
    dsimp only
    rw [if_neg (by omega), if_neg (by simp), user.translate rfl rfl]

/-- A page that is open to reads is at the same place for writes, if it is open to them. -/
theorem userTranslate_write (user : UserPage ram d (a / 2 ^ 22) (a / 4096 % 1024) f)
    (directory : Snfos.entry ram d (a / 2 ^ 22) / 2 % 2 = 1)
    (table : Snfos.entry ram (Snfos.entry ram d (a / 2 ^ 22) / 4096) (a / 4096 % 1024) / 2 % 2 = 1) :
    userTranslate ram d a true = some (f, a % 4096) := by
  have first := user.directory
  have second := user.table
  unfold userTranslate
  dsimp only
  rw [if_neg (by omega), if_neg (by omega), user.translate rfl rfl]

/-- What may be written may be read. -/
theorem userTranslate_of_write (found : userTranslate ram d a true = some (f, x)) :
    userTranslate ram d a false = some (f, x) := by
  unfold userTranslate at found ⊢
  dsimp only at found ⊢
  split at found
  · cases found
  next user =>
    split at found
    · cases found
    rw [if_neg user, if_neg (by simp)]
    exact found

theorem userByte_eq_some {byte : UInt8} : userByte ram d address = some byte ↔
    ∃ f, UserPage ram d (address.toNat / 2 ^ 22) (address.toNat / 4096 % 1024) f ∧
      ram f (address.toNat % 4096) = byte := by
  unfold userByte
  rw [Option.map_eq_some_iff]
  constructor
  · rintro ⟨⟨f, x⟩, found, rfl⟩
    obtain ⟨user, rfl⟩ := (userTranslate_read address.toNat_lt).mp found
    exact ⟨f, user, rfl⟩
  · rintro ⟨f, user, rfl⟩
    exact ⟨(f, _), (userTranslate_read address.toNat_lt).mpr ⟨user, rfl⟩, rfl⟩

/-- Two memories are one where each byte of either is in the other. -/
theorem userByte_congr (forward : ∀ f, UserPage ram d (address.toNat / 2 ^ 22)
      (address.toNat / 4096 % 1024) f → ∃ f', UserPage ram' d' (address.toNat / 2 ^ 22)
        (address.toNat / 4096 % 1024) f' ∧ ram' f' (address.toNat % 4096) = ram f (address.toNat % 4096))
    (back : ∀ f', UserPage ram' d' (address.toNat / 2 ^ 22) (address.toNat / 4096 % 1024) f' →
      ∃ f, UserPage ram d (address.toNat / 2 ^ 22) (address.toNat / 4096 % 1024) f) :
    userByte ram' d' address = userByte ram d address := by
  cases byte : userByte ram d address with
  | some value =>
    obtain ⟨f, user, rfl⟩ := userByte_eq_some.mp byte
    obtain ⟨f', user', same⟩ := forward f user
    exact userByte_eq_some.mpr ⟨f', user', same⟩
  | none =>
    cases byte' : userByte ram' d' address with
    | none => rfl
    | some value =>
      obtain ⟨f', user', _⟩ := userByte_eq_some.mp byte'
      obtain ⟨f, user⟩ := back f' user'
      have some := userByte_eq_some.mpr ⟨f, user, rfl⟩
      rw [byte] at some
      cases some

end Reading

section Spaces

variable {covered enough covered' enough' : Prop} {spare spare' : M.Budget} {k k' : Kernel M}
  {w w' : Estates} {o p i j f : Nat} {m m' : ProcessMemory}

theorem Accounts.spaceMemory_ready (accounts : Accounts covered enough spare k w) (owner : o ≠ 0)
    (ready : (w o).Ready p m) :
    k.spaceMemory p = userByte k.ram ((w o).frame .directory 0) := by
  have block : k.blocks p = some ⟨.memory m, .memory, o⟩ := accounts.live owner ready.laid.memory
  have home := (accounts.page owner ready.laid.directory (Nat.succ_pos 0)).2.2.1
  rw [Nat.add_zero] at home
  funext address
  unfold spaceMemory
  simp only [block, home]

/-- The entries that open a page are those of the owner's estate, in frames that it has. -/
structure Opens (E : Estate) (m : ProcessMemory) (i j f : Nat) : Prop where
  slot : i < 768
  index : j < 1024
  table : ∃ t, E.TableReady i (m.pageTables i) t
  directory : Leads i (E.frame (.pageTable i) 0) (E.word .directory i)
  page : Leads i f (E.word (.pageTable i) j)
  place : ∃ j' c q count, j' + c = j ∧ E.block (.page i j') = some (q, .pages count) ∧ c < count ∧
    f = E.frame (.page i j') c

theorem Accounts.user_opens (accounts : Accounts covered enough spare k w) (owner : o ≠ 0)
    (ready : (w o).Ready p m) :
    UserPage k.ram ((w o).frame .directory 0) i j f ↔ Opens (w o) m i j f := by
  constructor
  · intro user
    have slot := accounts.user_slot owner ready user
    have directory := accounts.entry owner ready.laid.directory (Nat.succ_pos 0) user.slot
      fun _ => Or.inr (Or.inl (by omega))
    obtain ⟨t, table, leads⟩ := accounts.open_slot owner ready (Or.inl slot) user.directory.1
    have entry := accounts.entry owner table.pageTable (Nat.succ_pos 0) user.index nofun
    have present := user.table.1
    have frame := user.frame
    rw [leads.frame] at present frame
    obtain ⟨j', c, q, place, _, entered⟩ := accounts.open_page owner table user.index present
    obtain ⟨count, held, within, _⟩ := place.block
    have same := entered.frame
    rw [frame] at same
    rw [directory] at leads
    rw [← same, entry] at entered
    exact ⟨slot, user.index, ⟨t, table⟩, leads, entered, j', c, q, count, place.index, held, within, same⟩
  · intro opens
    obtain ⟨t, table⟩ := opens.table
    have slot := opens.slot
    have directory := accounts.entry owner ready.laid.directory (Nat.succ_pos 0)
      (by omega : i < 1024) fun _ => Or.inr (Or.inl (by omega))
    have entry := accounts.entry owner table.pageTable (Nat.succ_pos 0) opens.index nofun
    refine userPage_of_leads (t := (w o).frame (.pageTable i) 0) slot opens.index ?_ ?_
    · rw [directory]
      exact opens.directory
    · rw [entry]
      exact opens.page

/-- What is open to user mode is open to its writes. -/
theorem Opens.writable {a : Nat} (accounts : Accounts covered enough spare k w) (owner : o ≠ 0)
    (ready : (w o).Ready p m) (opens : Opens (w o) m (a / 2 ^ 22) (a / 4096 % 1024) f) :
    userTranslate k.ram ((w o).frame .directory 0) a true = some (f, a % 4096) := by
  obtain ⟨t, table⟩ := opens.table
  have slot := opens.slot
  have directory := accounts.entry owner ready.laid.directory (Nat.succ_pos 0)
    (by omega : a / 2 ^ 22 < 1024) fun _ => Or.inr (Or.inl (by omega))
  have entry := accounts.entry owner table.pageTable (Nat.succ_pos 0) opens.index nofun
  have first := opens.directory
  have second := opens.page
  have flags : pageFlags (a / 2 ^ 22) = 7 := if_pos slot
  unfold Leads at first second
  rw [flags] at first second
  refine userTranslate_write ((accounts.user_opens owner ready).mpr opens) ?_ ?_
  · rw [directory]
    omega
  · rw [directory, opens.directory.frame, entry]
    omega

theorem Opens.of_drop {E E' : Estate} (opens : Opens E m i j f)
    (same : E'.drop .process = E.drop .process) : Opens E' m i j f where
  slot := opens.slot
  index := opens.index
  table := by
    obtain ⟨t, table⟩ := opens.table
    refine ⟨t, table.congr (fun role which => ⟨Estate.block_of_drop same ?_, ?_⟩) ?_⟩
    · rintro rfl
      simp [Role.slot] at which
    · rw [Estate.frame_of_drop same]
    · rw [Estate.word_of_drop same]
  directory := by
    rw [Estate.frame_of_drop same, Estate.word_of_drop same]
    exact opens.directory
  page := by
    rw [Estate.word_of_drop same]
    exact opens.page
  place := by
    obtain ⟨j', c, q, count, index, held, within, rfl⟩ := opens.place
    refine ⟨j', c, q, count, index, ?_, within, ?_⟩
    · rw [Estate.block_of_drop same (by simp), held]
    · rw [Estate.frame_of_drop same]

/-- An address space keeps its memory as long as its owner's blocks are the same. -/
theorem Accounts.spaceMemory_same (accounts : Accounts covered enough spare k w)
    (accounts' : Accounts covered' enough' spare' k' w') (owner : o ≠ 0) (ready : (w o).Ready p m)
    (same : (w' o).drop .process = (w o).drop .process) : k'.spaceMemory p = k.spaceMemory p := by
  have ready' := ready.of_drop same
  have frames : (w' o).frame = (w o).frame := Estate.frame_of_drop same
  funext address
  rw [accounts.spaceMemory_ready owner ready, accounts'.spaceMemory_ready owner ready']
  refine userByte_congr (fun f user => ?_) fun f user => ?_
  · have opens := (accounts.user_opens owner ready).mp user
    obtain ⟨j', c, q, count, _, held, within, rfl⟩ := opens.place
    refine ⟨_, (accounts'.user_opens owner ready').mpr (opens.of_drop same), ?_⟩
    have held' := (Estate.block_of_drop same (by simp)).trans held
    have small := Nat.mod_lt address.toNat (by decide : 0 < 4096)
    have before := (accounts.pages o owner _ _ _ held c within).2 _ small nofun
    have after := (accounts'.pages o owner _ _ _ held' c within).2 _ small nofun
    rw [frames, Estate.bytes_of_drop same] at after
    rw [before, after]
  · have opens := (accounts'.user_opens owner ready').mp user
    exact ⟨f, (accounts.user_opens owner ready).mpr (opens.of_drop same.symm)⟩

end Spaces

section Stores

variable {covered enough : Prop} {spare : M.Budget} {k : Kernel M} {w : Estates} {E : Estate}
  {o o' p p' i j j' c f : Nat} {m m' : ProcessMemory} {change : Memory → Memory} {a : UInt32}

theorem edit_page_word {role : Role} (other : ∀ j, role ≠ .page i j) :
    (E.edit (.page i j') c change).word role = E.word role :=
  Estate.edit_word (Or.inl (other j'))

/-- A store to a page leaves the address space as it is laid out. -/
theorem ready_editPage (ready : E.Ready p m) : (E.edit (.page i j') c change).Ready p m where
  laid := by
    refine ready.laid.congr (fun _ _ => ⟨rfl, rfl⟩) (fun _ _ => ?_) (by simp)
    rw [edit_page_word (by simp), edit_page_word (by simp)]
    exact ⟨rfl, rfl⟩
  final := ready.final
  temp := ready.temp
  raw := ready.raw

theorem Opens.editPage {i' : Nat} (opens : Opens E m i j f) :
    Opens (E.edit (.page i' j') c change) m i j f where
  slot := opens.slot
  index := opens.index
  table := by
    obtain ⟨t, table⟩ := opens.table
    exact ⟨t, table.congr (fun _ _ => ⟨rfl, rfl⟩) (edit_page_word (by simp))⟩
  directory := by
    rw [edit_page_word (by simp)]
    exact opens.directory
  page := by
    rw [edit_page_word (by simp)]
    exact opens.page
  place := opens.place

theorem Opens.of_editPage {i' : Nat} (opens : Opens (E.edit (.page i' j') c change) m i j f) :
    Opens E m i j f where
  slot := opens.slot
  index := opens.index
  table := by
    obtain ⟨t, table⟩ := opens.table
    exact ⟨t, table.congr (fun _ _ => ⟨rfl, rfl⟩) (edit_page_word (by simp)).symm⟩
  directory := by
    have directory := opens.directory
    rw [edit_page_word (by simp)] at directory
    exact directory
  page := by
    have page := opens.page
    rw [edit_page_word (by simp)] at page
    exact page
  place := opens.place

/-- One frame is open at one place. -/
theorem Opens.unique {i' j' : Nat} (opens : Opens (w o) m i j f) (opens' : Opens (w o) m i' j' f)
    (accounts : Accounts covered enough spare k w) (owner : o ≠ 0) : i = i' ∧ j = j' := by
  obtain ⟨j₁, c, q, count, index, held, within, frame⟩ := opens.place
  obtain ⟨j₂, c', q', count', index', held', within', frame'⟩ := opens'.place
  obtain ⟨_, same, rfl⟩ :=
    accounts.frame_injective owner owner held within held' within' (frame.symm.trans frame')
  rw [Role.page.injEq] at same
  exact ⟨same.1, by omega⟩

/-- The kernel after a store of user mode's. -/
def stored (k : Kernel M) (f offset : Nat) (byte : UInt8) : Kernel M :=
  edited k f (Function.update (k.ram f) offset byte)

theorem alike_byte (offset : Nat) (byte : UInt8) :
    Alike (Function.update · offset byte) (Function.update · offset byte) := by
  intro bytes bytes' x _ same
  dsimp only
  by_cases here : x = offset
  · rw [here, Function.update_self, Function.update_self]
  · rw [Function.update_of_ne here, Function.update_of_ne here, same]

theorem stored_ram (x y offset : Nat) (byte : UInt8) : (k.stored f offset byte).ram x y =
    if x = f ∧ y = offset then byte else k.ram x y := by
  unfold stored edited
  dsimp only
  by_cases here : x = f
  · rw [here, Function.update_self]
    by_cases there : y = offset
    · rw [there, Function.update_self, if_pos ⟨rfl, rfl⟩]
    · rw [Function.update_of_ne there, if_neg fun both => there both.2]
  · rw [Function.update_of_ne here, if_neg fun both => here both.1]

/-- A store to an open page changes that byte of the one address space, and no other byte
of any. -/
theorem Accounts.stored (accounts : Accounts covered enough spare k w) (owner : o ≠ 0)
    (ready : (w o).Ready p m) (opens : Opens (w o) m (a.toNat / 2 ^ 22) (a.toNat / 4096 % 1024) f)
    (byte : UInt8) : ∃ E, Accounts covered enough spare (k.stored f (a.toNat % 4096) byte)
        (Function.update w o E) ∧ Steady o k (k.stored f (a.toNat % 4096) byte) ∧
      (∀ p m, (w o).Ready p m → E.Ready p m) ∧ E.frame = (w o).frame ∧ E.block = (w o).block ∧
      (k.stored f (a.toNat % 4096) byte).spaceMemory p =
        Function.update (k.spaceMemory p) a (some byte) := by
  obtain ⟨j', c, q, count, _, held, within, rfl⟩ := opens.place
  obtain ⟨accounts', steady⟩ := accounts.edited owner held within
    (alike_byte (a.toNat % 4096) byte) nofun
  refine ⟨_, accounts', steady, fun _ _ ready => ready_editPage ready, rfl, rfl, ?_⟩
  have ready' : (Function.update w o ((w o).edit (.page (a.toNat / 2 ^ 22) j') c
      (Function.update · (a.toNat % 4096) byte)) o).Ready p m := by
    rw [Function.update_self]
    exact ready_editPage ready
  have accounts₁ : Accounts covered enough spare
      (k.stored ((w o).frame (.page (a.toNat / 2 ^ 22) j') c) (a.toNat % 4096) byte) _ := accounts'
  funext b
  rw [accounts₁.spaceMemory_ready owner ready', Function.update_self, Estate.edit_frame]
  have opens_iff : ∀ g, UserPage
      (k.stored ((w o).frame (.page (a.toNat / 2 ^ 22) j') c) (a.toNat % 4096) byte).ram
        ((w o).frame .directory 0) (b.toNat / 2 ^ 22) (b.toNat / 4096 % 1024) g ↔
      UserPage k.ram ((w o).frame .directory 0) (b.toNat / 2 ^ 22) (b.toNat / 4096 % 1024) g := by
    intro g
    have there := accounts₁.user_opens (i := b.toNat / 2 ^ 22) (j := b.toNat / 4096 % 1024) (f := g)
      owner ready'
    rw [Function.update_self, Estate.edit_frame] at there
    rw [there, accounts.user_opens owner ready]
    exact ⟨Opens.of_editPage, Opens.editPage⟩
  by_cases here : b = a
  · rw [here, Function.update_self]
    refine userByte_eq_some.mpr ⟨_, (here ▸ opens_iff _).mpr
      ((accounts.user_opens owner ready).mpr opens), ?_⟩
    rw [stored_ram, if_pos ⟨rfl, rfl⟩]
  · rw [Function.update_of_ne here, accounts.spaceMemory_ready owner ready]
    refine userByte_congr (fun g user => ⟨g, (opens_iff g).mpr user, ?_⟩) fun g user =>
      ⟨g, (opens_iff g).mp user⟩
    rw [stored_ram, if_neg]
    rintro ⟨rfl, offset⟩
    have place := ((accounts.user_opens owner ready).mp user).unique opens accounts owner
    exact here (UInt32.toNat_inj.mp (by omega))

end Stores

end Kernel

end Snfos
