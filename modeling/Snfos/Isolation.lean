import Snfos.SystemSteps

set_option autoImplicit false

/- What user mode reaches under the page directory of each process, and the frames
that the heap's pages lie in. -/
namespace Snfos

open ByteMemory

namespace Kernel

variable {M : Machine}

/-- The structure that `process_memory` of a live process points to. -/
def memoryOf (k : Kernel M) (p : Nat) : Option ProcessMemory :=
  (k.processOf p).bind fun found =>
    match k.blocks found.2.processMemory with
    | some ⟨.memory m, _, _⟩ => some m
    | _ => none

/-- The frame in which the page directory of a live process lies. -/
def spaceOf (k : Kernel M) (p : Nat) : Option Nat :=
  (k.memoryOf p).map fun m => k.home (m.pageDirectory / 4096)

/-- User mode reaches frame `f` as page `j` of slot `i` under directory `d`: both entries
are present and have the user bit. -/
structure UserPage (ram : Nat → Memory) (d i j f : Nat) : Prop where
  slot : i < 1024
  index : j < 1024
  directory : Snfos.entry ram d i % 2 = 1 ∧ Snfos.entry ram d i / 4 % 2 = 1
  table : Snfos.entry ram (Snfos.entry ram d i / 4096) j % 2 = 1 ∧
    Snfos.entry ram (Snfos.entry ram d i / 4096) j / 4 % 2 = 1
  frame : Snfos.entry ram (Snfos.entry ram d i / 4096) j / 4096 = f

/-- Below 3 GiB entries with the flags of the slot open a page to user mode. -/
theorem userPage_of_leads {ram : Nat → Memory} {d t i j f : Nat} (slot : i < 768) (index : j < 1024)
    (directory : Leads i t (Snfos.entry ram d i)) (table : Leads i f (Snfos.entry ram t j)) :
    UserPage ram d i j f := by
  have address := directory.frame
  have frame := table.frame
  obtain ⟨flags, _, mode, value⟩ := directory
  obtain ⟨flags', _, mode', value'⟩ := table
  unfold pageFlags at mode mode'
  rw [if_pos slot] at mode mode'
  refine ⟨by omega, index, by omega, ?_, ?_⟩
  · rw [address]
    omega
  · rw [address]
    exact frame

/-- The processor finds what is open. -/
theorem UserPage.translate {ram : Nat → Memory} {d i j f a : Nat} (user : UserPage ram d i j f)
    (slot : a / 2 ^ 22 = i) (index : a / 4096 % 1024 = j) :
    Snfos.translate ram d a = some (f, a % 4096) := by
  have present := user.directory.1
  have entered := user.table.1
  unfold Snfos.translate
  simp only [slot, index, present, entered, Nat.one_ne_zero, ↓reduceIte, user.frame]

section Frames

variable {covered enough : Prop} {spare : M.Budget} {k : Kernel M} {w : Estates} {o o' p i j f : Nat}
  {m : ProcessMemory}

/-- A slot of the process's own that is open leads to the page table its shadow lists. -/
theorem Accounts.open_slot (accounts : Accounts covered enough spare k w) (owner : o ≠ 0)
    (ready : (w o).Ready p m) (slot : ProcessSlot i)
    (present : Snfos.entry k.ram ((w o).frame .directory 0) i % 2 = 1) :
    ∃ t, (w o).TableReady i (m.pageTables i) t ∧
      Leads i ((w o).frame (.pageTable i) 0) (Snfos.entry k.ram ((w o).frame .directory 0) i) := by
  have inside : i < 1024 ∧ (i < 769 ∨ 1022 ≤ i) := by
    unfold ProcessSlot at slot
    omega
  have word := accounts.entry owner ready.laid.directory (Nat.succ_pos 0) inside.1 fun _ =>
    Or.inr inside.2
  rcases ready.laid.slotReady i inside.1 with ⟨_, _, zero⟩ | ⟨_, ⟨t, table⟩, leads⟩
  · have absent := word.trans (zero slot)
    omega
  · rw [← word] at leads
    exact ⟨t, table, leads⟩

/-- Where the shadow lists no page there is none, and where it lists one it is there. -/
theorem Accounts.page_present (accounts : Accounts covered enough spare k w) (owner : o ≠ 0)
    {t : ProcessPageTable} (table : (w o).TableReady i p t) (inside : j < 1024) :
    t.pages j = 0 ∧ Snfos.entry k.ram ((w o).frame (.pageTable i) 0) j = 0 ∨
      ∃ j' c q, (w o).PageAt i j j' c q ∧ t.pages j = q + 4096 * c ∧ t.pages j ≠ 0 ∧
        Leads i ((w o).frame (.page i j') c) (Snfos.entry k.ram ((w o).frame (.pageTable i) 0) j) := by
  have word := accounts.entry owner table.pageTable (Nat.succ_pos 0) inside nofun
  rw [word]
  rcases table.pages j inside with ⟨zero, _, absent⟩ | ⟨j', c, q, place, pointer, leads⟩
  · exact Or.inl ⟨zero, absent⟩
  · obtain ⟨count, held, _⟩ := place.block
    have nonzero := (accounts.fits owner held).2
    exact Or.inr ⟨j', c, q, place, pointer, by omega, leads⟩

/-- A page that is open lies in the frame of the page its shadow lists. -/
theorem Accounts.open_page (accounts : Accounts covered enough spare k w) (owner : o ≠ 0)
    {t : ProcessPageTable} (table : (w o).TableReady i p t) (inside : j < 1024)
    (present : Snfos.entry k.ram ((w o).frame (.pageTable i) 0) j % 2 = 1) :
    ∃ j' c q, (w o).PageAt i j j' c q ∧ t.pages j = q + 4096 * c ∧
      Leads i ((w o).frame (.page i j') c) (Snfos.entry k.ram ((w o).frame (.pageTable i) 0) j) := by
  rcases accounts.page_present owner table inside with ⟨_, zero⟩ | ⟨j', c, q, place, pointer, _, leads⟩
  · omega
  · exact ⟨j', c, q, place, pointer, leads⟩

/-- The slots of the kernel's own and the one of the kernel stack are closed to user mode. -/
theorem Accounts.user_slot (accounts : Accounts covered enough spare k w) (owner : o ≠ 0)
    (ready : (w o).Ready p m) (user : UserPage k.ram ((w o).frame .directory 0) i j f) : i < 768 := by
  have space := accounts.directories o owner _ _ ready.laid.directory ready.final
  obtain ⟨present, bit⟩ := user.directory
  have inside := user.slot
  by_cases grown : 769 ≤ i ∧ i < 1022
  · rcases space.own i grown.1 grown.2 with absent | ⟨t, leads, _⟩ <;> omega
  by_cases shared : i = 768
  · have leads := space.shared
    rw [← shared] at leads
    omega
  by_cases self : i = 1023
  · have leads := space.self
    rw [← self] at leads
    omega
  have slot : ProcessSlot i := by
    unfold ProcessSlot
    omega
  obtain ⟨_, _, flags, low, bits, leads⟩ := accounts.open_slot owner ready slot present
  unfold pageFlags at bits
  split at bits
  · next below => exact below
  · omega

/-- What user mode reaches is a page that the shadow lists. -/
theorem Accounts.user_page (accounts : Accounts covered enough spare k w) (owner : o ≠ 0)
    (ready : (w o).Ready p m) (user : UserPage k.ram ((w o).frame .directory 0) i j f) :
    i < 768 ∧ ∃ t j' c q count, (w o).block (.table i) = some (m.pageTables i, .table t) ∧
      (w o).block (.page i j') = some (q, .pages count) ∧ c < count ∧
      t.pages j = q + 4096 * c ∧ f = (w o).frame (.page i j') c := by
  have below := accounts.user_slot owner ready user
  obtain ⟨t, table, leads⟩ := accounts.open_slot owner ready (Or.inl below) user.directory.1
  have present := user.table.1
  have frame := user.frame
  rw [leads.frame] at present frame
  obtain ⟨j', c, q, place, pointer, entered⟩ := accounts.open_page owner table user.index present
  obtain ⟨count, held, within, _⟩ := place.block
  exact ⟨below, t, j', c, q, count, table.table, held, within, pointer, frame.symm.trans entered.frame⟩

/-- A byte of a live block lies in the frame of a page of whole pages only if it is that page's. -/
theorem Accounts.frame_block (accounts : Accounts covered enough spare k w) {role : Role}
    {q count c q' x : Nat} {b : Block} (owner : o ≠ 0)
    (held : (w o).block role = some (q, .pages count)) (within : c < count)
    (live : k.blocks q' = some b) (lower : q' ≤ x) (upper : x < q' + b.body.size)
    (same : k.home (x / 4096) = (w o).frame role c) : q' = q ∧ b.role = role ∧ b.owner = o := by
  obtain ⟨aligned, page, home, use⟩ := accounts.page owner held within
  obtain ⟨start, finish⟩ := accounts.inside live
  have heap := M.layout.heapStart_facts
  have there : HeapPage M k.mappedEnd (x / 4096) := by
    unfold HeapPage
    omega
  have use' := accounts.paging.homes _ there
  rw [same, use, Option.some.injEq, Use.heap.injEq] at use'
  have here := accounts.live owner held
  by_cases pointer : q' = q
  · subst pointer
    rw [here] at live
    cases live
    exact ⟨rfl, rfl, rfl⟩
  · have size : (Block.mk (.pages count) role o).body.size = 4096 * count := rfl
    rcases accounts.apart live here pointer with before | after
    · omega
    · rw [size] at after
      omega

theorem Accounts.memoryOf_ready (accounts : Accounts covered enough spare k w) {b : Process}
    (known : k.detail p = some (o, b)) (ready : (w o).Ready b.processMemory m) :
    k.memoryOf p = some m := by
  obtain ⟨pr, process, rfl, _⟩ := processOf_of_detail known
  have owner := accounts.detail_owner known
  have block : k.blocks pr.processMemory = some ⟨.memory m, .memory, o⟩ :=
    accounts.live owner ready.laid.memory
  unfold Kernel.memoryOf
  simp only [process, Option.bind_some, block]

/-- The directory of a live process lies in the frame its owner's estate has it in. -/
theorem Accounts.spaceOf_ready (accounts : Accounts covered enough spare k w) {b : Process}
    (known : k.detail p = some (o, b)) (ready : (w o).Ready b.processMemory m) :
    k.spaceOf p = some ((w o).frame .directory 0) := by
  have owner := accounts.detail_owner known
  have home := (accounts.page owner ready.laid.directory (Nat.succ_pos 0)).2.2.1
  rw [Nat.add_zero] at home
  unfold Kernel.spaceOf
  rw [accounts.memoryOf_ready known ready, Option.map_some, home]

end Frames

end Kernel

namespace System

open Kernel

variable {M : Machine} {s : System M} {w : Estates} {order : List Nat}

/-- The directory of a live process is that of its owner's blocks. -/
theorem Sound.space (sound : Sound s w order) {p d : Nat} (live : s.kernel.spaceOf p = some d) :
    ∃ o b m, s.kernel.detail p = some (o, b) ∧ o ≠ 0 ∧ (w o).Ready b.processMemory m ∧
      s.kernel.memoryOf p = some m ∧ d = (w o).frame .directory 0 := by
  obtain ⟨m, found, address⟩ := Option.map_eq_some_iff.mp live
  obtain ⟨⟨o, pr⟩, process, memory⟩ := Option.bind_eq_some_iff.mp found
  have known := detail_of_processOf process
  obtain ⟨m', ready⟩ := sound.processes p o _ known
  have owner := sound.accounts.detail_owner known
  have block := sound.accounts.live owner ready.laid.memory
  have block : s.kernel.blocks pr.processMemory = some ⟨.memory m', .memory, o⟩ := block
  simp only [block, Option.some.injEq] at memory
  subst memory
  have home := (sound.accounts.page owner ready.laid.directory (Nat.succ_pos 0)).2.2.1
  rw [Nat.add_zero] at home
  exact ⟨o, pr.bare, m', known, owner, ready, found, address.symm.trans home⟩

theorem Sound.spaceOf_ready (sound : Sound s w order) {p o : Nat} {b : Process} {m : ProcessMemory}
    (known : s.kernel.detail p = some (o, b)) (ready : (w o).Ready b.processMemory m) :
    s.kernel.spaceOf p = some ((w o).frame .directory 0) := sound.accounts.spaceOf_ready known ready

theorem Sound.has_space (sound : Sound s w order) {p : Nat}
    (live : (s.kernel.processOf p).isSome = true) : (s.kernel.spaceOf p).isSome = true := by
  obtain ⟨⟨o, pr⟩, process⟩ := Option.isSome_iff_exists.mp live
  have known := detail_of_processOf process
  obtain ⟨m, ready⟩ := sound.processes p o _ known
  rw [sound.spaceOf_ready known ready]
  rfl

theorem Sound.current_space (sound : Sound s w order) (running : s.kernel.current ≠ 0) :
    s.kernel.spaceOf s.kernel.current = some (s.kernel.cr3 / 4096) := by
  obtain ⟨o, b, m, known, _, ready, address⟩ := sound.current_known running
  rw [address]
  exact sound.spaceOf_ready known ready

/-- Two processes that run on one directory are one. -/
theorem Sound.space_injective (sound : Sound s w order) {p p' d : Nat}
    (live : s.kernel.spaceOf p = some d) (live' : s.kernel.spaceOf p' = some d) : p = p' := by
  obtain ⟨o, b, m, known, owner, ready, _, rfl⟩ := sound.space live
  obtain ⟨o', b', m', known', owner', ready', _, same⟩ := sound.space live'
  obtain ⟨rfl, _⟩ := sound.accounts.frame_injective owner owner' ready.laid.directory
    (Nat.succ_pos 0) ready'.laid.directory (Nat.succ_pos 0) same
  exact sound.accounts.detail_unique known known'

/-- After any calls, what user mode reaches under the directory of a live process are pages
that its own shadow lists, in whole pages of its own; no frame is reached under two
directories; and no block but those pages has a byte in such a frame. -/
theorem run_isolated (calls : List Call) :
    Command.Ensures (Stops M) (boot M) (run calls) fun _ s =>
      (∀ p, (s.kernel.processOf p).isSome = true → (s.kernel.spaceOf p).isSome = true) ∧
      (∀ p d, s.kernel.spaceOf p = some d → ∀ i j f, UserPage s.kernel.ram d i j f →
        ∃ o m t j' q count, i < 768 ∧ (s.kernel.processOf p).map Prod.fst = some o ∧
          s.kernel.memoryOf p = some m ∧ s.kernel.blocks (m.pageTables i) = some ⟨.table t, .table i, o⟩ ∧
          s.kernel.blocks q = some ⟨.pages count, .page i j', o⟩ ∧
          q ≤ t.pages j ∧ t.pages j + 4096 ≤ q + 4096 * count ∧
          f = s.kernel.home (t.pages j / 4096) ∧
          ∀ q' b x, s.kernel.blocks q' = some b → q' ≤ x → x < q' + b.body.size →
            s.kernel.home (x / 4096) = f → q' = q) ∧
      (∀ p d, s.kernel.spaceOf p = some d → ∀ i j f, UserPage s.kernel.ram d i j f →
        f ≠ 0 ∧ f ≠ M.kernelPageTable ∧ f ≠ M.bootPageDirectory ∧
          ∀ d' i', s.kernel.uses f ≠ some (.pageTable d' i')) ∧
      ∀ p p' d d', s.kernel.spaceOf p = some d → s.kernel.spaceOf p' = some d' → p ≠ p' →
        ∀ i j i' j' f, UserPage s.kernel.ram d i j f → ¬ UserPage s.kernel.ram d' i' j' f := by
  apply (boot_sound.run calls).mono
  rintro _ s ⟨w, order, sound⟩
  refine ⟨fun p live => sound.has_space live, ?_, ?_, ?_⟩
  · intro p d live i j f user
    obtain ⟨o, b, m, known, owner, ready, memory, rfl⟩ := sound.space live
    obtain ⟨below, t, j', c, q, count, table, held, within, pointer, rfl⟩ :=
      sound.accounts.user_page owner ready user
    obtain ⟨pr, process, _⟩ := processOf_of_detail known
    obtain ⟨aligned, _, home, _⟩ := sound.accounts.page owner held within
    refine ⟨o, m, t, j', q, count, below, ?_, memory, sound.accounts.live owner table,
      sound.accounts.live owner held, by omega, by omega, ?_, ?_⟩
    · rw [process]
      rfl
    · rw [← home, pointer]
      congr 1
      omega
    · intro q' b' x live' lower upper same
      exact (sound.accounts.frame_block owner held within live' lower upper same).1
  · intro p d live i j f user
    obtain ⟨o, b, m, known, owner, ready, memory, rfl⟩ := sound.space live
    obtain ⟨below, t, j', c, q, count, table, held, within, pointer, rfl⟩ :=
      sound.accounts.user_page owner ready user
    obtain ⟨_, _, _, use⟩ := sound.accounts.page owner held within
    have paging := sound.accounts.paging
    refine ⟨frame_ne use paging.low (by simp), frame_ne use paging.kernelPageTable (by simp),
      frame_ne use paging.bootPageDirectory (by simp), fun d' i' other => ?_⟩
    rw [use] at other
    cases other
  · intro p p' d d' live live' different i j i' j' f user user'
    obtain ⟨o, b, m, known, owner, ready, _, rfl⟩ := sound.space live
    obtain ⟨o', b', m', known', owner', ready', _, rfl⟩ := sound.space live'
    obtain ⟨_, t, j₁, c, q, count, _, held, within, _, rfl⟩ := sound.accounts.user_page owner ready user
    obtain ⟨_, t', j₂, c', q', count', _, held', within', _, same⟩ :=
      sound.accounts.user_page owner' ready' user'
    obtain ⟨rfl, _⟩ := sound.accounts.frame_injective owner owner' held within held' within' same
    exact different (sound.accounts.detail_unique known known')

/-- The frames that serve as page tables past the shared one, under the first directory,
the current one and those of the live processes. -/
def TableFrame (k : Kernel M) (t : Nat) : Prop :=
  ∃ d i, (d = M.bootPageDirectory ∨ d = k.cr3 / 4096 ∨ ∃ p, k.spaceOf p = some d) ∧
    769 ≤ i ∧ i < 1022 ∧ Snfos.entry k.ram d i % 2 = 1 ∧ Snfos.entry k.ram d i / 4096 = t

theorem Sound.table_frame (sound : Sound s w order) {t : Nat} (serves : TableFrame s.kernel t) :
    ∃ d i, s.kernel.uses t = some (.pageTable d i) := by
  obtain ⟨d, i, which, lower, upper, present, rfl⟩ := serves
  have space : Space s.kernel.mappedEnd s.kernel d := by
    rcases which with rfl | rfl | ⟨p, live⟩
    · exact sound.accounts.paging.boot
    · exact sound.accounts.paging.current
    · obtain ⟨o, b, m, _, owner, ready, _, rfl⟩ := sound.space live
      exact sound.accounts.directories o owner _ _ ready.laid.directory ready.final
  rcases space.own i lower upper with absent | ⟨t, leads, use, _⟩
  · omega
  · refine ⟨d, i, ?_⟩
    rw [leads, show (4096 * t + 3) / 4096 = t by omega]
    exact use

/-- After any calls, the heap's pages in the shared table are mapped, each in a frame that
is marked, that no other of them lies in, and that serves as no page table. -/
theorem run_private (calls : List Call) :
    Command.Ensures (Stops M) (boot M) (run calls) fun _ s => ∀ v,
      HeapPage M s.kernel.mappedEnd v → v / 1024 = 768 →
        ∃ f, translate s.kernel.ram (s.kernel.cr3 / 4096) (4096 * v) = some (f, 0) ∧
          s.kernel.frames.used f = true ∧
          (∀ v', HeapPage M s.kernel.mappedEnd v' → v' / 1024 = 768 → v' ≠ v →
            translate s.kernel.ram (s.kernel.cr3 / 4096) (4096 * v') ≠ some (f, 0)) ∧
          (∀ d i, s.kernel.uses f ≠ some (.pageTable d i)) ∧ ¬ TableFrame s.kernel f ∧
          f ≠ M.kernelPageTable := by
  apply (boot_sound.run calls).mono
  rintro _ s ⟨w, order, sound⟩ v page shared
  have paging := sound.accounts.paging
  have place : ∀ v, HeapPage M s.kernel.mappedEnd v → v / 1024 = 768 →
      translate s.kernel.ram (s.kernel.cr3 / 4096) (4096 * v) = some (s.kernel.home v, 0) := by
    intro v page shared
    exact paging.current.translate_page paging page (by omega)
  have use := paging.homes v page
  have alone : ∀ d i, s.kernel.uses (s.kernel.home v) ≠ some (.pageTable d i) := by
    intro d i other
    rw [use] at other
    cases other
  refine ⟨s.kernel.home v, place v page shared, (paging.used _ _ use).2, ?_, alone, ?_,
    frame_ne use paging.kernelPageTable (by simp)⟩
  · intro v' page' shared' other same
    rw [place v' page' shared', Option.some.injEq, Prod.mk.injEq] at same
    have use' := paging.homes v' page'
    rw [same.1, use, Option.some.injEq, Use.heap.injEq] at use'
    exact other use'.symm
  · intro serves
    obtain ⟨d, i, table⟩ := sound.table_frame serves
    exact alone d i table

end System

end Snfos
