import Snfos.ModuleLoading
import Snfos.ProcessRing

set_option autoImplicit false

/- `add_process`: a loaded address space becomes a process of the ring, with a page
for its arguments. -/
namespace Snfos.Kernel

open ByteMemory

variable {M : Machine}

section Adding

variable {covered enough : Prop} {spare : M.Budget} {k k' : Kernel M} {w : Estates} {o p q : Nat}
  {order : List Nat} {m m' m'' : ProcessMemory} {E E' E'' : Estate} {before : Process}

theorem Linked.congr (linked : Linked k order) (next : k'.nextOf = k.nextOf)
    (prev : k'.prevOf = k.prevOf) (live : ∀ p, (k'.detail p).isSome = (k.detail p).isSome)
    (first : k'.first = k.first) (last : k'.last = k.last) (current : k'.current = k.current) :
    Linked k' order where
  ring := by rw [next, prev]; exact linked.ring
  live := fun p => by rw [live]; exact linked.live p
  first := first.trans linked.first
  last := last.trans linked.last
  current := by rw [current]; exact linked.current

/-- What does not touch the process structures leaves them linked. -/
theorem Linked.steady (linked : Linked k order) (steady : Steady o k k')
    (same : k'.processOf = k.processOf) : Linked k' order := by
  refine linked.congr ?_ ?_ (fun p => ?_) steady.calm.first steady.calm.last steady.calm.current
  · unfold nextOf
    rw [same]
  · unfold prevOf
    rw [same]
  · unfold detail
    rw [same]

theorem alike_argument (text : List UInt8) (address : Nat) :
    Alike (fun bytes => store32 (storeBytes bytes 4 text) 0 address)
      (fun bytes => store32 (storeBytes bytes 4 text) 0 address) :=
  fun m m' offset small same => alike_store32 0 address _ _ offset small
    (alike_storeBytes text 4 m m' offset small same)

/-- A slot without a table in the shadow has none at all. -/
theorem Accounts.vacant {i : Nat} (accounts : Accounts covered enough spare k w) (owner : o ≠ 0)
    (laid : (w o).Laid none p m) (inside : i < 1024) (zero : m.pageTables i = 0) :
    (w o).Vacant i := by
  rcases laid.slotReady i inside with ⟨_, vacant, _⟩ | ⟨_, ⟨t, ready⟩, _⟩
  · exact vacant
  · exact absurd zero (accounts.fits owner ready.table).2

/-- A table in a vacant slot, which the page directory does not lead to yet. -/
theorem Accounts.ensures_clearedTable {E : Estate} {i : Nat}
    (accounts : Accounts covered enough (M.tableAsks spare) k (Function.update w o E)) (owner : o ≠ 0)
    (drawn : o < k.owners) (laid : E.Laid none p m) (vacant : E.Vacant i) (inside : i < 1024) :
    Command.Ensures (Excused M covered enough) k (clearedTable p i o) fun tables k' =>
      tables.1 ≠ 0 ∧ Reaches k' tables.2 1 ∧ Steady o k k' ∧ ∃ E' : Estate,
        Accounts covered enough spare k' (Function.update w o E') ∧
        E'.Laid (some i) p { m with pageTables := Function.update m.pageTables i tables.1 } ∧
        E'.TableReady i tables.1 ⟨tables.2, fun _ => 0⟩ ∧ E'.draft = E.draft ∧
        (∀ role, role.slot ≠ some i → role ≠ .memory → E'.block role = E.block role) ∧
        ∀ role, role ≠ .pageTable i → E'.frame role = E.frame role ∧ E'.bytes role = E.bytes role := by
  have own : ∀ G, (Function.update w o G) o = G := fun G => Function.update_self ..
  unfold clearedTable
  refine Command.ensures_bind (accounts.ensures_newTable owner drawn (by rw [own]; exact laid.memory)
    (by rw [own]; exact vacant) inside) ?_
  rintro ⟨table, pageTable⟩ k₁ ⟨nonzero, ⟨frames, bytes, accounts₁⟩, reaches, steady₁⟩
  dsimp only at nonzero accounts₁ reaches ⊢
  rw [own, Function.update_idem] at accounts₁
  refine Command.ensures_bind (accounts₁.ensures_zeroPage (.pageTable i) owner ?_ nofun) ?_
  · rw [own, Estate.addTable_block, if_neg (by simp), if_pos rfl]
  rintro _ k₂ ⟨accounts₂, steady₂⟩
  rw [own, Function.update_idem] at accounts₂
  refine Command.ensures_pure _ ⟨nonzero, reaches.calm steady₂.calm, steady₁.trans steady₂, _,
    accounts₂, laid.addTable inside, Estate.tableReady_addTable vacant, rfl, ?_, ?_⟩
  · intro role slot notMemory
    rw [Estate.zero_block, Estate.addTable_block, if_neg (by rintro rfl; exact slot rfl),
      if_neg (by rintro rfl; exact slot rfl), if_neg notMemory]
  · intro role other
    refine ⟨?_, ?_⟩
    · rw [Estate.zero_frame, Estate.addTable_frame other]
    · unfold Estate.zero Estate.edit Estate.addTable
      dsimp only
      rw [Function.update_of_ne other, Estate.put_bytes, Estate.place_bytes, if_neg other]
      rfl

/-- Only the slot of the arguments is new, and it has one page. -/
structure Argued (P E : Estate) (m m' : ProcessMemory) : Prop where
  tables : ∀ i, i ≠ 1 → m'.pageTables i = m.pageTables i
  blocks : ∀ role, role.slot ≠ some 1 → role ≠ .memory → role ≠ .process → E.block role = P.block role
  page : ∀ j, E.Has 1 j → j = 0

theorem Argued.congr {P P' E E' : Estate} {m m' : ProcessMemory} (argued : Argued P E m m')
    (parent : P'.block = P.block) (child : E'.block = E.block) : Argued P' E' m m' where
  tables := argued.tables
  blocks := by rw [parent, child]; exact argued.blocks
  page := by
    unfold Estate.Has
    rw [child]
    exact argued.page

/-- Outside the slot of the arguments pages are where they were and hold what they held. -/
structure Elsewhere (E E' : Estate) (m m' : ProcessMemory) : Prop where
  tables : ∀ i, i ≠ 1 → m'.pageTables i = m.pageTables i
  blocks : ∀ role, role.slot ≠ some 1 → role ≠ .memory → role ≠ .process →
    E'.block role = E.block role
  frame : ∀ role, role.slot ≠ some 1 → E'.frame role = E.frame role
  bytes : ∀ role, role.slot ≠ some 1 → role ≠ .directory → E'.bytes role = E.bytes role
  word : ∀ i, i ≠ 1 → E'.word .directory i = E.word .directory i

theorem Elsewhere.symm (elsewhere : Elsewhere E E' m m') : Elsewhere E' E m' m where
  tables := fun i other => (elsewhere.tables i other).symm
  blocks := fun role away memory process => (elsewhere.blocks role away memory process).symm
  frame := fun role away => (elsewhere.frame role away).symm
  bytes := fun role away directory => (elsewhere.bytes role away directory).symm
  word := fun i other => (elsewhere.word i other).symm

theorem Elsewhere.trans (first : Elsewhere E E' m m') (second : Elsewhere E' E'' m' m'') :
    Elsewhere E E'' m m'' where
  tables := fun i other => (second.tables i other).trans (first.tables i other)
  blocks := fun role away memory process =>
    (second.blocks role away memory process).trans (first.blocks role away memory process)
  frame := fun role away => (second.frame role away).trans (first.frame role away)
  bytes := fun role away directory =>
    (second.bytes role away directory).trans (first.bytes role away directory)
  word := fun i other => (second.word i other).trans (first.word i other)

theorem elsewhere_drop (same : E'.drop .process = E.drop .process) : Elsewhere E E' m m where
  tables := fun _ _ => rfl
  blocks := fun _ _ _ process => Estate.block_of_drop same process
  frame := fun _ _ => by rw [Estate.frame_of_drop same]
  bytes := fun _ _ _ => by rw [Estate.bytes_of_drop same]
  word := fun _ _ => by rw [Estate.word_of_drop same]

theorem Elsewhere.argued (elsewhere : Elsewhere E E' m m') (has : ∀ j, E'.Has 1 j ↔ j = 0) :
    Argued E E' m m' where
  tables := elsewhere.tables
  blocks := elsewhere.blocks
  page := fun j => (has j).mp

/-- `page_tables[1]` with its one page, as `malloc_pages` hands it out. -/
def argumentsPage (processMemory owner : Nat) : Action M Nat := do
  let (table, pageTable) ← clearedTable processMemory 1 owner
  let directory ← pageDirectoryOf processMemory
  enterPage directory 1 pageTable 0x07
  newPage table pageTable 1 0 0x07 owner

/-- The first argument's text and address in a page that held `bytes`. -/
def withText (text : List UInt8) (bytes : Memory) : Memory := store32 (storeBytes bytes 4 text) 0 0x400004

theorem addArguments_eq (processMemory owner : Nat) (arguments : Arguments) :
    (addArguments processMemory owner arguments : Action M Unit) =
      argumentsPage processMemory owner >>= fun page =>
        editFrame page fun bytes _ => withText arguments.argv0 bytes := by
  unfold addArguments argumentsPage
  simp only [bind_assoc]
  rfl

/-- `page_tables[1]` with its one page leaves the rest of the space as it was. -/
theorem Accounts.ensures_argumentsPage
    (accounts : Accounts covered enough (M.argumentsAsks spare) k w)
    (owner : o ≠ 0) (drawn : o < k.owners) (ready : (w o).Ready p m) (zero : m.pageTables 1 = 0) :
    Command.Ensures (Excused M covered enough) k (argumentsPage p o) fun page k' =>
      Steady o k k' ∧ ∃ E m', Accounts covered enough spare k' (Function.update w o E) ∧
        E.Ready p m' ∧ E.block .process = (w o).block .process ∧ Elsewhere (w o) E m m' ∧
        (∀ j, E.Has 1 j ↔ j = 0) ∧ E.block (.page 1 0) = some (page, .pages 1) := by
  have own : ∀ G, (Function.update w o G) o = G := fun G => Function.update_self ..
  have vacant := accounts.vacant owner ready.laid (by decide) zero
  rw [← Function.update_eq_self o w] at accounts
  unfold argumentsPage
  refine Command.ensures_bind (accounts.ensures_clearedTable owner drawn ready.laid vacant (by decide)) ?_
  rintro ⟨table, pageTable⟩ k₁ ⟨nonzero, reaches, steady₁, E, accounts₁, laid₁, table₁, draft₁,
    block₁, frame₁⟩
  dsimp only at nonzero accounts₁ reaches laid₁ table₁ ⊢
  refine Command.ensures_bind (accounts₁.ensures_pageDirectoryOf owner (by rw [own]; exact laid₁.memory)) ?_
  rintro _ k₁ ⟨rfl, rfl⟩
  refine Command.ensures_bind (accounts₁.ensures_enterBlock .directory (.pageTable 1) owner
    (by rw [own]; exact laid₁.directory) (by decide) (fun _ => Or.inr (by decide))
    (by rw [own]; exact table₁.pageTable) reaches (by decide)) ?_
  rintro _ k₂ ⟨accounts₂, steady₂⟩
  have low := accounts₁.frame_lt owner (by rw [own]; exact table₁.pageTable) (Nat.succ_pos 0)
  rw [own, Function.update_idem] at accounts₂
  rw [own] at low
  have linked : Function.update m.pageTables 1 table 1 = table := Function.update_self ..
  have bound : 4096 * E.frame (.pageTable 1) 0 + 7 < 2 ^ 32 := (leads_pageFlags 1 _).bound low
  have laid₂ := laid₁.enter (by decide) (Or.inl (by decide))
    (by dsimp only; rw [linked]; exact table₁) (leads_pageFlags 1 _) bound
  have table₂ : (E.setWord .directory 1 (4096 * E.frame (.pageTable 1) 0 + 7)).TableReady 1 table
      ⟨pageTable, fun _ => 0⟩ := table₁.enter
  have drawn₂ : o < k₂.owners := by
    rw [steady₂.calm.owners, steady₁.calm.owners]
    exact drawn
  have absent := (accounts₂.absent owner (by rw [own]; exact table₂.pages 0 (by decide)) rfl).1
  have grow := accounts₂.ensures_newPage (i := 1) (j := 0) owner drawn₂
    (by rw [own]; exact table₂.table) (by rw [own]; exact table₂.pageTable) absent (by decide)
    (by decide : 0x07 < 4096)
  rw [own] at absent
  apply grow.mono
  rintro page k₃ ⟨pageNonzero, ⟨frames, bytes, small, accounts₃⟩, steady₃⟩
  rw [own, Function.update_idem] at accounts₃
  have entered : 4096 * frames 0 + 0x07 < 2 ^ 32 := by omega
  have leads : Leads 1 (frames 0) (4096 * frames 0 + 0x07) := leads_pageFlags 1 _
  have table₃ : ((E.setWord .directory 1 (4096 * E.frame (.pageTable 1) 0 + 7)).addPage 1 0 table
      ⟨pageTable, fun _ => 0⟩ page frames bytes (4096 * frames 0 + 7)).TableReady 1 table
        ⟨pageTable, Function.update (fun _ => 0) 0 page⟩ :=
    table₂.addPage (by decide) absent leads entered
  have block : ∀ role, role.slot ≠ some 1 → role ≠ .memory →
      ((E.setWord .directory 1 (4096 * E.frame (.pageTable 1) 0 + 7)).addPage 1 0 table
        ⟨pageTable, fun _ => 0⟩ page frames bytes (4096 * frames 0 + 7)).block role =
          (w o).block role := by
    intro role away memory
    rw [Estate.addPage_block, if_neg (by rintro rfl; exact away rfl),
      if_neg (by rintro rfl; exact away rfl), Estate.setWord_block, block₁ role away memory]
  refine ⟨(steady₁.trans steady₂).trans steady₃, _, _, accounts₃,
    ⟨laid₂.growPage table₂ linked nonzero (by decide) (by decide) absent leads entered, ?_, ?_, ?_⟩,
    block _ (by simp [Role.slot]) (by simp), ⟨?_, fun role away memory _ => block role away memory,
      fun role away => ?_, fun role away directory => ?_, fun i other => ?_⟩, fun j => ?_, ?_⟩
  · rw [Estate.addPage_draft, Estate.setWord_draft, draft₁]
    exact ready.final
  · rw [block _ (by simp [Role.slot]) (by simp)]
    exact ready.temp
  · rw [block _ (by simp [Role.slot]) (by simp)]
    exact ready.raw
  · intro i other
    exact Function.update_of_ne other ..
  · have other : role ≠ .page 1 0 ∧ role ≠ .pageTable 1 := by
      refine ⟨?_, ?_⟩ <;> rintro rfl <;> exact away rfl
    rw [Estate.addPage_frame, if_neg other.1, Estate.setWord_frame, (frame₁ role other.2).1]
  · have other : role ≠ .page 1 0 ∧ role ≠ .pageTable 1 := by
      refine ⟨?_, ?_⟩ <;> rintro rfl <;> exact away rfl
    rw [Estate.addPage_bytes other.1 other.2, ← (frame₁ role other.2).2]
    exact Function.update_of_ne directory ..
  · rw [Estate.addPage_word entered (by simp), if_neg (by simp)]
    rw [Estate.setWord_word bound, if_neg (by simpa using other)]
    unfold Estate.word
    rw [(frame₁ .directory (by simp)).2]
  · rw [Estate.has_iff table₃.table]
    by_cases first : j = 0
    · simp [first, pageNonzero]
    · simp [first]
  · rw [Estate.addPage_block, if_neg (by simp), if_pos rfl]

/-- The bytes of pages are no part of what makes an address space complete. -/
theorem ready_edit {E : Estate} {change : Memory → Memory} (ready : E.Ready p m) :
    (E.edit (.page 1 0) 0 change).Ready p m where
  laid := by
    refine ready.laid.congr (fun _ _ => ⟨rfl, rfl⟩) (fun i _ => ?_) (by simp)
    rw [Estate.edit_word (Or.inl (by simp)), Estate.edit_word (Or.inl (by simp))]
    exact ⟨rfl, rfl⟩
  final := ready.final
  temp := ready.temp
  raw := ready.raw

theorem Accounts.ensures_addArguments {arguments : Arguments}
    (accounts : Accounts covered enough (M.argumentsAsks spare) k w) (owner : o ≠ 0) (drawn : o < k.owners)
    (ready : (w o).Ready p m) (zero : m.pageTables 1 = 0) :
    Command.Ensures (Excused M covered enough) k (addArguments p o arguments) fun _ k' =>
      Steady o k k' ∧ ∃ E m', Accounts covered enough spare k' (Function.update w o E) ∧
        E.Ready p m' ∧ E.block .process = (w o).block .process ∧ Argued (w o) E m m' := by
  rw [addArguments_eq]
  apply Command.ensures_bind (accounts.ensures_argumentsPage owner drawn ready zero)
  rintro page k₁ ⟨steady₁, E, m', accounts₁, ready₁, process₁, elsewhere, has, held⟩
  have page₁ : (Function.update w o E o).block (.page 1 0) = some (page, .pages 1) := by
    rw [Function.update_self]
    exact held
  have write := accounts₁.ensures_editFrame (fun bytes _ => withText arguments.argv0 bytes) 0 owner
    page₁ (Nat.succ_pos 0) (by decide) (alike_argument _ _) nofun
  rw [Nat.mul_zero, Nat.add_zero] at write
  apply Command.Ensures.mono write
  rintro _ k₂ ⟨accounts₂, steady₂⟩
  rw [Function.update_self, Function.update_idem] at accounts₂
  exact ⟨steady₁.trans steady₂, _, m', accounts₂, ready_edit ready₁, process₁,
    (elsewhere.argued has).congr rfl Estate.edit_block⟩

/-- What the rest of `add_process` does to the new process. -/
def withArguments (arguments : Arguments) (p : Process) : Process :=
  { p with processState := { p.processState with cpu := { p.processState.cpu with
      edx := arguments.envp, ecx := arguments.envc, ebx := 0x400000, eax := arguments.argc } } }

theorem Accounts.ensures_ownerOf {body : Body} {role : Role}
    (accounts : Accounts covered enough spare k w) (owner : o ≠ 0)
    (held : (w o).block role = some (p, body)) :
    Command.Ensures (Excused M covered enough) k (ownerOf p) fun x k' => k' = k ∧ x = o := by
  unfold ownerOf
  apply Command.ensures_get_bind
  rw [accounts.live owner held]
  exact Command.ensures_pure _ ⟨rfl, rfl⟩

theorem Accounts.ensures_addProcess {arguments : Arguments}
    (accounts : Accounts covered enough (M.addAsks spare) k w) (owner : o ≠ 0) (drawn : o < k.owners)
    (ready : (w o).Ready p m) (zero : m.pageTables 1 = 0) (new : (w o).block .process = none)
    (linked : Linked k order) :
    Command.Ensures (Excused M covered enough) k (addProcess p arguments before) fun q k' =>
      (∃ w', Accounts covered enough spare k' w' ∧ (∃ m', (w' o).Ready p m' ∧ Argued (w o) (w' o) m m') ∧
        ∀ o', o' ≠ o → (w' o').drop .process = (w o').drop .process) ∧
      Kept k k' ∧ q ∉ order ∧ Linked k' (order ++ [q]) ∧ k'.pidInc = u32 (k.pidInc + 1) ∧
      k'.detail = Function.update k.detail q
        (some (o, withArguments arguments (linkedProcess p k.pidInc before))) := by
  unfold addProcess
  apply Command.ensures_bind (accounts.ensures_ownerOf owner ready.laid.memory)
  rintro o k ⟨rfl, rfl⟩
  apply Command.ensures_bind (accounts.ensures_linkProcess owner drawn new linked)
  rintro q k₁ ⟨⟨w₁, accounts₁, beside₁⟩, kept₁, absent, linked₁, pid₁, detail₁⟩
  refine Command.ensures_bind (accounts₁.ensures_addArguments owner (by rw [kept₁.owners]; exact drawn)
    (ready.beside beside₁) zero) ?_
  rintro _ k₂ ⟨steady₂, E, m', accounts₂, ready₂, process₂, argued⟩
  have same : k₂.processOf = k₁.processOf := accounts₁.processOf_same accounts₂ fun o' _ => by
    by_cases here : o' = o
    · rw [here, Function.update_self, process₂]
    · rw [Function.update_of_ne here]
  have detail₂ : k₂.detail = k₁.detail := by
    unfold detail
    rw [same]
  have known : k₂.detail q = some (o, linkedProcess p k.pidInc before) := by
    rw [detail₂, detail₁, Function.update_self]
  refine Command.ensures_bind (accounts₂.ensures_setDetail (withArguments arguments) known
    (by decide : 0 < 68) fun _ => ⟨rfl, rfl, rfl⟩) ?_
  rintro _ k₃ ⟨⟨w₃, accounts₃, beside₃⟩, steady₃, next₃, prev₃, detail₃⟩
  refine Command.ensures_pure _ ⟨⟨w₃, accounts₃, ⟨m', ?_, argued.tables, ?_, ?_⟩, fun o' other => ?_⟩,
    (kept₁.trans steady₂.kept).trans steady₃.kept, absent, ?_, ?_, ?_⟩
  · exact Estate.Ready.beside (by rw [Function.update_self]; exact ready₂) beside₃
  · intro role slot notMemory notProcess
    rw [beside₃.block notProcess, Function.update_self, argued.blocks role slot notMemory notProcess,
      beside₁.block notProcess]
  · rintro j ⟨q, t, held, listed⟩
    rw [beside₃.block (by simp), Function.update_self] at held
    exact argued.page j ⟨q, t, held, listed⟩
  · rw [beside₃ o', Function.update_of_ne other, beside₁ o']
  · refine (linked₁.steady steady₂ same).congr next₃ prev₃ (fun p => ?_) steady₃.calm.first
      steady₃.calm.last steady₃.calm.current
    rw [detail₃]
    by_cases here : p = q
    · subst here
      rw [Function.update_self, known, Option.isSome_some, Option.isSome_some]
    · rw [Function.update_of_ne here]
  · rw [steady₃.calm.pidInc, steady₂.calm.pidInc, pid₁]
  · rw [detail₃, detail₂, detail₁, Function.update_idem]

end Adding

end Snfos.Kernel
