import Snfos.Refinement

set_option autoImplicit false

/- The stack that the processor switches to when user mode is interrupted: the page below
`KERNEL_STACK_START`, which every process has in its own address space. -/
namespace Snfos

open ByteMemory Command

/-- `KERNEL_STACK_START` of `boot.S`, which `load_gdt` puts in `tss`. -/
def kernelStackStart : Nat := (1023 <<< 22) - 4

namespace Kernel

variable {M : Machine}

section Pages

variable {covered enough : Prop} {spare : M.Budget} {k k' : Kernel M} {w : Estates} {o o₁ p i j : Nat}
  {m : ProcessMemory}

/-- A page that an address space has a block for is listed. -/
theorem Accounts.has_block (accounts : Accounts covered enough spare k w) (owner : o ≠ 0)
    (ready : (w o).Ready p m) (slot : i < 1024) (index : j < 1024)
    (held : (w o).block (.page i j) ≠ none) : (w o).Has i j := by
  rcases ready.laid.slotReady i slot with ⟨_, vacant, _⟩ | ⟨_, ⟨t, table⟩, _⟩
  · exact absurd (vacant (.page i j) rfl) held
  rcases table.pages j index with ⟨_, absent, _⟩ | ⟨j', c, q, place, pointer, _⟩
  · exact absurd absent held
  · obtain ⟨count, block, _⟩ := place.block
    have nonzero := (accounts.fits owner block).2
    exact ⟨_, t, table.table, by omega⟩

/-- The child of a fork has the pages of its parent. -/
theorem Accounts.has_cloned {k' : Kernel M} {w' : Estates} {o' p' : Nat} {m' : ProcessMemory}
    (accounts : Accounts covered enough spare k w) (accounts' : Accounts covered enough spare k' w')
    (owner : o ≠ 0) (owner' : o' ≠ 0) (ready : (w o).Ready p m) (cloned : Cloned (w o) m (w' o') p' m')
    (slot : i < 1024) (index : j < 1024) (has : (w o).Has i j) : (w' o').Has i j := by
  obtain ⟨q, t, held, listed⟩ := has
  rcases cloned.copied i slot with ⟨zero, _⟩ | ⟨t', held', _, _, _, pages⟩
  · rcases ready.laid.slotReady i slot with ⟨_, vacant, _⟩ | ⟨_, ⟨t', table⟩, _⟩
    · rw [vacant (.table i) rfl] at held
      cases held
    · exact absurd zero (accounts.fits owner table.table).2
  · rw [held] at held'
    cases held'
    rcases pages j index with ⟨absent, _⟩ | ⟨_, _, _, _, _, _, block, _⟩
    · exact absurd absent listed
    · exact accounts'.has_block owner' cloned.ready slot index (by rw [block]; simp)

/-- The page below `KERNEL_STACK_START`, under the directory of an address space that has it. -/
theorem Accounts.stack_translate (accounts : Accounts covered enough spare k w) (owner : o ≠ 0)
    (ready : (w o).Ready p m) (has : (w o).Has 1022 1023) :
    ∃ j' c q count, (w o).block (.page 1022 j') = some (q, .pages count) ∧ c < count ∧
      ∀ a, a / 4096 = kernelStackStart / 4096 → Snfos.translate k.ram ((w o).frame .directory 0) a =
        some ((w o).frame (.page 1022 j') c, a % 4096) := by
  obtain ⟨q, t, held, listed⟩ := has
  rcases ready.laid.slotReady 1022 (by decide) with ⟨_, vacant, _⟩ | ⟨_, ⟨t', table⟩, leads⟩
  · rw [vacant (.table 1022) rfl] at held
    cases held
  have same := table.table
  rw [held] at same
  cases same
  rcases accounts.page_present owner table (by decide : 1023 < 1024) with ⟨zero, _⟩ |
    ⟨j', c, q', place, _, _, entered⟩
  · exact absurd zero listed
  obtain ⟨count, block, within, _⟩ := place.block
  refine ⟨j', c, q', count, block, within, fun a inside => ?_⟩
  have start : kernelStackStart / 4096 = 1022 * 1024 + 1023 := by decide
  rw [start] at inside
  have entry := accounts.entry owner ready.laid.directory (Nat.succ_pos 0) (i := 1022) (by decide)
    fun _ => Or.inr (Or.inr (by decide))
  rw [← entry] at leads
  have odd := leads.odd
  have odd' := entered.odd
  have slot : a / 2 ^ 22 = 1022 := by omega
  have index : a / 4096 % 1024 = 1023 := by omega
  rw [translate_entries (by rw [slot]; omega), slot, index, leads.frame, if_neg (by omega),
    entered.frame]

end Pages

end Kernel

namespace System

open Kernel

variable {M : Machine}

/-- Every process, and every space that waits for one, has the page of its kernel stack. -/
structure Stacked (s : System M) : Prop where
  processes : ∀ p o b, s.kernel.detail p = some (o, b) → s.kernel.HasPage o 1022 1023
  spaces : ∀ p ∈ s.spaces, ∀ o m, o ≠ 0 → s.kernel.blocks p = some ⟨.memory m, .memory, o⟩ →
    s.kernel.HasPage o 1022 1023

section Calls

variable {s s' : System M} {w w' : Estates} {order order' : List Nat} {o o₁ p : Nat} {b : Process}

theorem Stacked.carry (stacked : Stacked s) (sound : Sound s w order)
    (leaves : Leaves s.kernel s'.kernel w o₁)
    (details : ∀ p o b, s'.kernel.detail p = some (o, b) →
      (o ≠ o₁ ∧ ∃ b', s.kernel.detail p = some (o, b')) ∨ s'.kernel.HasPage o 1022 1023)
    (spaces : ∀ p ∈ s'.spaces,
      (p ∈ s.spaces ∧ ∀ m, (w o₁).block .memory = some (p, .memory m) → o₁ = 0) ∨
        ∃ o m, s'.kernel.blocks p = some ⟨.memory m, .memory, o⟩ ∧ s'.kernel.HasPage o 1022 1023) :
    Stacked s' where
  processes := fun p o b known => by
    rcases details p o b known with ⟨other, b', before⟩ | has
    · exact leaves.hasPage (sound.accounts.detail_owner before) other (stacked.processes p o b' before)
    · exact has
  spaces := fun p member o m owner live => by
    rcases spaces p member with ⟨earlier, apart⟩ | ⟨o', m', live', has⟩
    · obtain ⟨o', m', owner', ready, _⟩ := sound.spaces p earlier
      have other : o' ≠ o₁ := by
        rintro rfl
        exact owner' (apart m' ready.laid.memory)
      have held := sound.accounts.live owner' ready.laid.memory
      have stays := leaves.blocks o' owner' other _ (by simp) p _ held
      rw [live] at stays
      cases stays
      exact leaves.hasPage owner other (stacked.spaces p earlier o m owner held)
    · rw [live] at live'
      cases live'
      exact has

/-- Nobody's processes or spaces change. -/
theorem Stacked.still (stacked : Stacked s) (sound : Sound s w order)
    (leaves : Leaves s.kernel s'.kernel w 0) (spaces : s'.spaces = s.spaces)
    (known : ∀ p o b, s'.kernel.detail p = some (o, b) → ∃ b', s.kernel.detail p = some (o, b')) :
    Stacked s' := by
  refine stacked.carry sound leaves (fun p o b here => ?_) fun p member => ?_
  · obtain ⟨b', before⟩ := known p o b here
    exact Or.inl ⟨sound.accounts.detail_owner before, b', before⟩
  · rw [spaces] at member
    exact Or.inl ⟨member, fun _ _ => rfl⟩

/-- A call keeps the kernel stacks. -/
abbrev KeepsStacks (s : System M) (call : Call) : Prop :=
  Ensures (Stops M) s (step call) fun _ s' => Stacked s'

theorem Sound.stacks_quiet {call : Call} (sound : Sound s w order) (stacked : Stacked s)
    (leaves : LeavesOthers s w 0 call)
    (effect : ∀ k' order' r, Effect s.kernel k' order order' r call →
      ∀ p o b, k'.detail p = some (o, b) → ∃ b', s.kernel.detail p = some (o, b'))
    (lists : ∀ s', Lists s s' call → s'.spaces = s.spaces) : KeepsStacks s call := by
  apply (sound.called leaves).mono
  rintro r s' ⟨⟨w', order', _, effects⟩, leaves, listed⟩
  exact stacked.still sound leaves (lists s' listed) (effect _ _ _ effects)

theorem Sound.stacks_handleExit (sound : Sound s w order) (stacked : Stacked s)
    (state : ProcessState) : KeepsStacks s (.handleExit state) := by
  apply ensures_running
  intro running
  obtain ⟨o, b, m, known, _⟩ := sound.current_known running
  apply (sound.called (sound.leaves_handleExit state known)).mono
  rintro r s' ⟨⟨w', _, _, _, _, _, detail, _⟩, leaves, lists⟩
  refine stacked.carry sound leaves (fun p o' b' here => ?_) fun p member => ?_
  · rw [detail] at here
    by_cases mine : p = s.kernel.current
    · rw [mine, Function.update_self] at here
      cases here
    · rw [Function.update_of_ne mine] at here
      refine Or.inl ⟨?_, b', here⟩
      rintro rfl
      exact mine (sound.accounts.detail_unique here known)
  · rw [lists.2] at member
    exact Or.inl ⟨member, fun _ held => (sound.space_apart known member held).elim⟩

theorem Sound.stacks_fork (sound : Sound s w order) (stacked : Stacked s) (state : ProcessState)
    (before : Process) : KeepsStacks s (.fork state before) := by
  have facts := (sound.ensures_fork state before).and
    ((sound.leaves_fork state before).and (ensures_lists s (.fork state before)))
  apply (facts.excuse fun _ => And.left).mono
  rintro r s' ⟨⟨w', order', sound', ⟨_, o₂, memory, joins⟩, o, b, m, m', p, forked⟩, leaves, lists⟩
  obtain ⟨q, absent, rfl, detail⟩ := joins.ring
  have last := sound'.linked.last_concat
  have child := forked.child
  rw [last, detail, Function.update_self, Option.some.injEq] at child
  rw [child] at detail
  have owner : s.kernel.owners ≠ 0 := Nat.ne_of_gt sound.accounts.owners
  have parent := (sound.accounts.hasPage_iff forked.owner).mp
    (stacked.processes _ _ _ forked.parent)
  have copied : s'.kernel.HasPage s.kernel.owners 1022 1023 :=
    (sound'.accounts.hasPage_iff owner).mpr (sound.accounts.has_cloned sound'.accounts forked.owner
      owner forked.ready forked.cloned (by decide) (by decide) parent)
  refine stacked.carry sound leaves (fun p o b here => ?_) fun p member => ?_
  · rcases known_joined detail sound.newcomer here with ⟨rfl, _⟩ | ⟨other, before⟩
    · exact Or.inr copied
    · exact Or.inl ⟨other, b, before⟩
  · rw [lists.2] at member
    exact Or.inl ⟨member, fun _ held => sound.newcomer_memory held⟩

theorem Sound.stacks_loadModule (sound : Sound s w order) (stacked : Stacked s) (i : Nat) :
    KeepsStacks s (.loadModule i) := by
  have facts := (sound.step (.loadModule i)).and (sound.memory_loadModule i)
  apply (facts.excuse fun _ => And.left).mono
  rintro r s' ⟨⟨w', _, _, _, _, still⟩, module, p, _, spaces, leaves, _, ⟨m, live⟩, has⟩
  refine stacked.carry sound leaves (fun q o b here => ?_) fun q member => ?_
  · rw [still.detail] at here
    refine Or.inl ⟨?_, b, here⟩
    rintro rfl
    exact sound.newcomer q b here
  · rw [spaces] at member
    rcases List.mem_cons.mp member with rfl | earlier
    · exact Or.inr ⟨_, m, live, has⟩
    · exact Or.inl ⟨earlier, fun _ held => sound.newcomer_memory held⟩

theorem Sound.stacks_addProcess (sound : Sound s w order) (stacked : Stacked s) (p : Nat)
    (arguments : Arguments) (before : Process) : KeepsStacks s (.addProcess p arguments before) := by
  refine ensures_waiting fun member => ?_
  obtain ⟨o, m, owner, ready, zero, alone⟩ := sound.spaces p member
  have facts := (sound.memory_addProcess arguments before owner ready zero alone).and
    (ensures_lists s (.addProcess p arguments before))
  apply (facts.excuse fun _ => And.left).mono
  rintro r s' ⟨⟨⟨q, _, detail⟩, leaves, keeps, _⟩, _, _, spaces⟩
  have had := stacked.spaces p member o m owner (sound.accounts.live owner ready.laid.memory)
  refine stacked.carry sound leaves (fun p' o' b' here => ?_) fun p' listed => ?_
  · rcases known_joined detail alone here with ⟨rfl, _⟩ | ⟨other, before⟩
    · exact Or.inr (keeps 1022 1023 (by decide) had)
    · exact Or.inl ⟨other, b', before⟩
  · rw [spaces] at listed
    have both := (List.Nodup.mem_erase_iff sound.once).mp listed
    refine Or.inl ⟨both.2, fun m₂ held => ?_⟩
    have same := ready.laid.memory.symm.trans held
    exact absurd (Prod.mk.inj (Option.some.inj same)).1.symm both.1

theorem Sound.stacks_step (sound : Sound s w order) (stacked : Stacked s) (call : Call) :
    KeepsStacks s call := by
  have still : ∀ {k' : Kernel M}, Still s.kernel k' →
      ∀ p o b, k'.detail p = some (o, b) → ∃ b', s.kernel.detail p = some (o, b') := by
    intro k' still p o b known
    rw [still.detail] at known
    exact ⟨b, known⟩
  cases call with
  | loadModule i => exact sound.stacks_loadModule stacked i
  | addProcess p arguments before => exact sound.stacks_addProcess stacked p arguments before
  | handleExit state => exact sound.stacks_handleExit stacked state
  | fork state before => exact sound.stacks_fork stacked state before
  | runProcess p =>
    refine sound.stacks_quiet stacked (sound.leaves_runProcess p) ?_ fun _ lists => lists.2
    rintro k' order' r ⟨_, _, detail, _⟩ q o b known
    rw [detail] at known
    exact ⟨b, known⟩
  | yield state =>
    refine sound.stacks_quiet stacked (sound.leaves_yield state) ?_ fun _ lists => lists.2
    rintro k' order' r ⟨_, _, _, ⟨o, b, before, detail⟩, _⟩ q o' b' known
    rw [detail] at known
    by_cases here : q = s.kernel.current
    · rw [here, Function.update_self] at known
      cases known
      exact ⟨b, here ▸ before⟩
    · rw [Function.update_of_ne here] at known
      exact ⟨b', known⟩
  | print state =>
    exact sound.stacks_quiet stacked (sound.leaves_print state) (fun _ _ _ effect => still effect.2.1)
      fun _ lists => lists.2
  | getPid state =>
    exact sound.stacks_quiet stacked (sound.leaves_getPid state) (fun _ _ _ effect => still effect.2.1)
      fun _ lists => lists.2
  | malloc size =>
    exact sound.stacks_quiet stacked (sound.leaves_malloc size) (fun _ _ _ effect => still effect.2.2)
      fun _ lists => lists.2
  | mallocPages pages =>
    exact sound.stacks_quiet stacked (sound.leaves_mallocPages pages)
      (fun _ _ _ effect => still effect.2.2) fun _ lists => lists.2
  | free pointer =>
    exact sound.stacks_quiet stacked (sound.leaves_free pointer) (fun _ _ _ effect => still effect.2.2)
      fun _ lists => lists.2

end Calls

section Runs

variable {s : System M}

/-- What is the same after a load or a store. -/
theorem ensures_act_stacks {event : Event} (represents : ∃ A, Represents s A) (stacked : Stacked s) :
    Ensures (Stops M) s (act event) fun _ s' => (∃ A, Represents s' A) ∧ Stacked s' := by
  obtain ⟨A, represents⟩ := represents
  have follows := simulates s A event represents
  obtain ⟨_, w, order, sound, _⟩ := represents
  refine ((follows.and (?_ : Ensures (Stops M) s (act event) fun _ s' => Stacked s')).excuse
    fun _ => And.left).mono fun _ _ both => ⟨both.1.imp fun _ => And.right, both.2⟩
  cases event with
  | call call =>
    apply ensures_get_bind
    apply ensures_bind (sound.stacks_step stacked call)
    intro _ s' stays
    exact ensures_pure _ stays
  | load a =>
    apply ensures_bind ensures_reach
    rintro place s ⟨rfl, _⟩
    exact ensures_get_bind (ensures_pure _ stacked)
  | store a byte =>
    apply ensures_bind ensures_reach
    rintro place s ⟨rfl, _⟩
    exact ensures_modify_bind (ensures_pure _ ⟨stacked.processes, stacked.spaces⟩)

theorem boot_stacked : Stacked (boot M) := ⟨nofun, nofun⟩

/-- Whatever has happened, the page below `KERNEL_STACK_START` is mapped under the directory of
every live process, in a frame that user mode reaches nowhere and that is no other process's. -/
theorem run_kernelStacks (events : List Event) :
    Ensures (Stops M) (boot M) (play events) fun _ s => ∀ p d, s.kernel.spaceOf p = some d →
      ∃ f, (∀ a, a / 4096 = kernelStackStart / 4096 →
          translate s.kernel.ram d a = some (f, a % 4096)) ∧
        (∀ p' d' i j, s.kernel.spaceOf p' = some d' → ¬ UserPage s.kernel.ram d' i j f) ∧
        ∀ p' d' a, s.kernel.spaceOf p' = some d' → p' ≠ p → a / 4096 = kernelStackStart / 4096 →
          translate s.kernel.ram d' a ≠ some (f, a % 4096) := by
  have start : (∃ A, Represents (boot M) A) ∧ Stacked (boot M) :=
    ⟨⟨_, boot_represents⟩, boot_stacked⟩
  refine (ensures_sequence (fun s i both => ensures_act_stacks both.1 both.2) start events).mono ?_
  rintro _ s ⟨⟨A, _, w, order, sound, _⟩, stacked⟩ p d live
  obtain ⟨o, b, m, known, owner, ready, _, rfl⟩ := sound.space live
  have has := (sound.accounts.hasPage_iff owner).mp (stacked.processes p o b known)
  obtain ⟨j, c, q, count, held, within, mapped⟩ := sound.accounts.stack_translate owner ready has
  refine ⟨_, mapped, fun p' d' i j' live' user => ?_, fun p' d' a live' other inside same => ?_⟩
  · obtain ⟨o', b', m', known', owner', ready', _, rfl⟩ := sound.space live'
    obtain ⟨slot, t, j₁, c', q', count', _, held', within', _, same⟩ :=
      sound.accounts.user_page owner' ready' user
    obtain ⟨_, role, _⟩ := sound.accounts.frame_injective owner owner' held within held' within' same
    rw [Role.page.injEq] at role
    omega
  · obtain ⟨o', b', m', known', owner', ready', _, rfl⟩ := sound.space live'
    have has' := (sound.accounts.hasPage_iff owner').mp (stacked.processes p' o' b' known')
    obtain ⟨j', c', q', count', held', within', mapped'⟩ :=
      sound.accounts.stack_translate owner' ready' has'
    rw [mapped' a inside, Option.some.injEq, Prod.mk.injEq] at same
    obtain ⟨rfl, _⟩ := sound.accounts.frame_injective owner' owner held' within' held within same.1
    exact other (sound.accounts.detail_unique known' known)

end Runs

end System

end Snfos
