import Snfos.Isolation

set_option autoImplicit false

/- Calls that return: where the heap has addresses left and the frames last, no call
stops at a fault. -/
namespace Snfos

/-- No module has more pages than a table has entries. -/
def Machine.Short (M : Machine) : Prop := ∀ m ∈ M.modules, m.numCodePages ≤ 1024

namespace Kernel

variable {M : Machine}

/-- The current directory maps the whole heap, and there is `spare` in it, with the frames for it. -/
structure Funded (spare : M.Budget) (k : Kernel M) : Prop where
  covers : ∀ v, HeapPage M k.mappedEnd v → Mapped k v
  supply : ∃ frames, frames ≤ k.frames.unused ∧ spare k.heap frames

section Funding

variable {covered enough : Prop} {spare spare' : M.Budget} {k : Kernel M} {w w' : Estates}

/-- What holds where the heap serves the code, and what may stop it where the heap does not. -/
theorem Accounts.supposing {F : Prop} (accounts : Accounts False False spare' k w)
    (funded : F → Funded spare k) : Accounts F F spare k w :=
  { accounts with
    paging := { accounts.paging with
      covers := fun so => (funded so).covers
      supply := fun _ => Nat.zero_le _ }
    ample := fun so => (funded so).supply }

theorem Accounts.fund (accounts : Accounts False False spare' k w) (funded : Funded spare k) :
    Accounts True True spare k w :=
  accounts.supposing fun _ => funded

theorem Accounts.suppose (accounts : Accounts False False spare' k w) (spare : M.Budget) :
    Accounts (Funded spare k) (Funded spare k) spare k w :=
  accounts.supposing id

theorem Accounts.funded_of {F : Prop} (accounts : Accounts F F spare k w) (so : F) : Funded spare k where
  covers := accounts.paging.covers so
  supply := accounts.ample so

theorem Accounts.funded (accounts : Accounts True True spare k w) : Funded spare k :=
  accounts.funded_of trivial

theorem Funded.spend (funded : Funded spare k)
    (fewer : ∀ heap frames, spare heap frames → spare' heap frames) : Funded spare' k where
  covers := funded.covers
  supply := by
    obtain ⟨frames, unused, served⟩ := funded.supply
    exact ⟨frames, unused, fewer _ _ served⟩

/-- The blocks of the kernel leave no choice of estates. -/
theorem Accounts.block_unique {covered' enough' : Prop} (accounts : Accounts covered enough spare k w)
    (accounts' : Accounts covered' enough' spare' k w') {o : Nat} (owner : o ≠ 0) :
    (w' o).block = (w o).block := by
  funext role
  have same : ∀ p body, (w' o).block role = some (p, body) ↔ (w o).block role = some (p, body) :=
    fun p body => (accounts'.owned o owner role p body).trans (accounts.owned o owner role p body).symm
  cases held : (w o).block role with
  | some pair => exact (same pair.1 pair.2).mpr held
  | none =>
    cases held' : (w' o).block role with
    | none => rfl
    | some pair =>
      have both := (same pair.1 pair.2).mp held'
      rw [held] at both
      cases both

theorem not_excused (short : M.Short) (fault : Fault) : ¬ Excused M True True fault := by
  intro excused
  cases fault with
  | overrun =>
    obtain ⟨m, member, long⟩ := excused
    exact absurd (short m member) (by omega)
  | refused => exact excused
  | undefined => exact excused
  | _ => exact excused trivial

end Funding

end Kernel

namespace System

open Kernel

variable {M : Machine} {s : System M} {w : Estates} {order : List Nat} {spare : M.Budget}

/-- A module that is there and was not loaded yet is passed on to the kernel. -/
theorem step_loadModule_eq {i : Nat} {module : Module} (found : M.modules[i]? = some module)
    (new : i ∉ s.loaded) : step (.loadModule i) s = (Kernel.loadModule module s.kernel).map
      fun pair => (none, ⟨pair.2, i :: s.loaded, pair.1 :: s.spaces⟩) := by
  show loadModule i s = _
  unfold loadModule onKernel
  cases result : Kernel.loadModule module s.kernel with
  | error fault =>
    simp only [bind, StateT.bind, get, getThe, MonadStateOf.get, StateT.get, pure, Except.pure,
      Except.bind, found, new, ↓reduceIte, result, Except.map]
  | ok made =>
    simp only [bind, StateT.bind, get, getThe, MonadStateOf.get, StateT.get, pure, Except.pure,
      Except.bind, found, new, ↓reduceIte, result, modify, modifyGet, MonadStateOf.modifyGet,
      StateT.modifyGet, Except.map]
    rfl

theorem loadModule_ok {i p : Nat} {module : Module} {k : Kernel M} (found : M.modules[i]? = some module)
    (new : i ∉ s.loaded) (result : Kernel.loadModule module s.kernel = .ok (p, k)) :
    step (.loadModule i) s = .ok (none, ⟨k, i :: s.loaded, p :: s.spaces⟩) := by
  rw [step_loadModule_eq found new, result]
  rfl

theorem addProcess_ok {memory q : Nat} {arguments : Arguments} {before : Process} {k : Kernel M}
    (member : memory ∈ s.spaces)
    (result : Kernel.addProcess memory arguments before s.kernel = .ok (q, k)) :
    step (.addProcess memory arguments before) s =
      .ok (none, ⟨k, s.loaded, s.spaces.erase memory⟩) := by
  show addProcess memory arguments before s = _
  unfold addProcess onKernel
  simp only [bind, StateT.bind, get, getThe, MonadStateOf.get, StateT.get, pure, Except.pure,
    Except.bind, member, ↓reduceIte, result, modify, modifyGet, MonadStateOf.modifyGet,
    StateT.modifyGet]
  rfl

theorem runProcess_ok {p : Nat} {state : ProcessState} {k : Kernel M}
    (allowed : s.kernel.current = 0 ∧ (s.kernel.processOf p).isSome = true)
    (result : Kernel.runProcess p s.kernel = .ok (state, k)) :
    step (.runProcess p) s = .ok (some ⟨k.current, state⟩, { s with kernel := k }) := by
  show runProcess p s = _
  unfold runProcess returning onKernel
  simp only [bind, StateT.bind, get, getThe, MonadStateOf.get, StateT.get, pure, Except.pure,
    Except.bind, allowed, and_self, ↓reduceIte, result]
  rfl

theorem mallocPages_ok {pages p : Nat} {k : Kernel M}
    (result : Kernel.mallocPages pages .raw 0 s.kernel = .ok (p, k)) :
    step (.mallocPages pages) s = .ok (none, { s with kernel := k }) := by
  show mallocPages pages s = _
  unfold mallocPages onKernel
  simp only [bind, StateT.bind, Except.bind, result]
  rfl

/-- A run of one call more. -/
theorem run_snoc {calls : List Call} {call : Call} {s₁ s₂ s₃ : System M}
    {returns : List (Option Resumed)} {r : Option Resumed} (ran : run calls s₁ = .ok (returns, s₂))
    (stepped : step call s₂ = .ok (r, s₃)) : run (calls ++ [call]) s₁ = .ok (returns ++ [r], s₃) := by
  induction calls generalizing s₁ returns with
  | nil =>
    cases ran
    rw [List.nil_append, run_cons, stepped]
    rfl
  | cons first rest ih =>
    rw [run_cons] at ran
    rw [List.cons_append, run_cons]
    cases head : step first s₁ with
    | error fault =>
      rw [head] at ran
      cases ran
    | ok pair =>
      rw [head] at ran
      simp only [Except.bind] at ran ⊢
      cases tail : run rest pair.2 with
      | error fault =>
        rw [tail] at ran
        cases ran
      | ok others =>
        rw [tail] at ran
        cases ran
        rw [ih tail]
        rfl

section Returning

variable {i p o : Nat} {m : ProcessMemory} {module : Module}

theorem Sound.loadModule_returns (sound : Sound s w order) (short : M.Short)
    (found : M.modules[i]? = some module) (new : i ∉ s.loaded)
    (funded : Funded (M.loadAsks spare module) s.kernel) :
    ∃ p m s' w', System.step (.loadModule i) s = .ok (none, s') ∧ Sound s' w' order ∧
      Still s.kernel s'.kernel ∧ Funded spare s'.kernel ∧
      s'.loaded = i :: s.loaded ∧ s'.spaces = p :: s.spaces ∧
      (w' s.kernel.owners).block .memory = some (p, .memory m) ∧
      (∀ i, m.pageTables i ≠ 0 → i = 0 ∨ i = 767 ∨ i = 1022) ∧
      ∀ i j, (w' s.kernel.owners).Has i j ↔
        i = 0 ∧ j < module.numCodePages ∨ (i = 767 ∨ i = 1022) ∧ j = 1023 := by
  have owner : s.kernel.owners ≠ 0 := Nat.ne_of_gt sound.accounts.owners
  have ensures := (sound.accounts.fund funded).ensures_loadModule (List.mem_of_getElem? found)
    (sound.modules i module found new)
  obtain ⟨p, k', result, E, m, accounts', _, _, ready, _, _, listed, has, _⟩ :=
    ensures.returns (not_excused short)
  have stepped := loadModule_ok found new result
  obtain ⟨w', order', sound', _, same, still⟩ := (sound.step (.loadModule i)).result stepped
  have blocks := accounts'.block_unique sound'.accounts owner
  rw [Function.update_self] at blocks
  refine ⟨p, m, _, w', stepped, same ▸ sound', still, accounts'.funded, rfl, rfl, ?_, listed, ?_⟩
  · rw [blocks]
    exact ready.laid.memory
  · intro i j
    unfold Estate.Has
    rw [blocks]
    exact has i j

theorem Sound.addProcess_returns (sound : Sound s w order) (short : M.Short) (owner : o ≠ 0)
    (member : p ∈ s.spaces) (held : (w o).block .memory = some (p, .memory m))
    (funded : Funded (M.addAsks spare) s.kernel) (arguments : Arguments) (before : Process) :
    ∃ s' w' q b m', System.step (.addProcess p arguments before) s = .ok (none, s') ∧
      q ∉ order ∧ Sound s' w' (order ++ [q]) ∧ s'.kernel.current = s.kernel.current ∧
      s'.kernel.detail = Function.update s.kernel.detail q (some (o, b)) ∧ Funded spare s'.kernel ∧
      s'.loaded = s.loaded ∧ s'.spaces = s.spaces.erase p ∧
      (w' o).block .memory = some (b.processMemory, .memory m') ∧ Argued (w o) (w' o) m m' ∧
      s'.kernel.owners = s.kernel.owners := by
  obtain ⟨o', m₁, owner', ready, zero, alone⟩ := sound.spaces p member
  obtain ⟨rfl, _, same⟩ := sound.accounts.unique .memory .memory owner owner' held ready.laid.memory
  rw [Body.memory.injEq] at same
  subst same
  have drawn : o < s.kernel.owners :=
    (sound.accounts.blocks _ _ (sound.accounts.live owner ready.laid.memory)).2.2.1
  have ensures : Command.Ensures _ s.kernel (Kernel.addProcess p arguments before) _ :=
    (sound.accounts.fund funded).ensures_addProcess owner drawn ready zero
      (sound.accounts.no_process owner alone) sound.linked
  obtain ⟨q, k', result, ⟨w₁, accounts', ⟨m', ready', argued⟩, _⟩, kept, absent, linked', pid,
    detail⟩ := ensures.returns (not_excused short)
  have stepped := addProcess_ok member result
  obtain ⟨w', order', sound', _, o₁, joins⟩ :=
    (sound.step (.addProcess p arguments before)).result stepped
  have blocks := accounts'.block_unique sound'.accounts owner
  obtain ⟨q', absent', rfl, detail'⟩ := joins.ring
  obtain rfl : q = q' := by
    exact linked'.last_concat.symm.trans sound'.linked.last_concat
  refine ⟨_, w', q, _, m', stepped, absent, sound', kept.current, detail, accounts'.funded, rfl, rfl,
    ?_, argued.congr rfl blocks, kept.owners⟩
  rw [blocks]
  exact ready'.laid.memory

theorem Sound.runProcess_returns (sound : Sound s w order) (short : M.Short) {b : Process}
    (idle : s.kernel.current = 0) (known : s.kernel.detail p = some (o, b))
    (funded : Funded spare s.kernel)
    (window : ∀ heap frames, spare heap frames → M.allocator.mappedEnd heap ≤ 0xC0400000) :
    ∃ s' w' r, System.step (.runProcess p) s = .ok (r, s') ∧ Sound s' w' order ∧
      s'.kernel.current = p ∧ s'.kernel.detail = s.kernel.detail ∧
      (∀ o, o ≠ 0 → (w' o).block = (w o).block) ∧ Funded spare s'.kernel ∧
      s'.kernel.mappedEnd ≤ 0xC0400000 ∧ s'.kernel.owners = s.kernel.owners := by
  obtain ⟨m, ready⟩ := sound.processes p o b known
  have room : s.kernel.mappedEnd ≤ 0xC0400000 := by
    obtain ⟨frames, _, served⟩ := funded.supply
    exact window _ _ served
  have below : M.allocator.heapEnd s.kernel.heap ≤ 0xC0400000 := by
    unfold mappedEnd at room
    split at room <;> omega
  have ensures := (sound.accounts.fund funded).ensures_runProcess known ready fun _ => below
  obtain ⟨state, k', result, _, x, rfl, address, accounts'⟩ := ensures.returns (not_excused short)
  have live : (s.kernel.processOf p).isSome = true := by
    obtain ⟨pr, found, _⟩ := processOf_of_detail known
    rw [found]
    rfl
  have stepped := runProcess_ok ⟨idle, live⟩ result
  obtain ⟨w', order', sound', _, rfl, _⟩ := (sound.step (.runProcess p)).result stepped
  exact ⟨_, w', _, stepped, sound', rfl, rfl, fun o owner => accounts'.block_unique sound'.accounts owner,
    accounts'.funded, room, rfl⟩

theorem Sound.fork_returns (sound : Sound s w order) (short : M.Short) {b : Process}
    (known : s.kernel.detail s.kernel.current = some (o, b)) (ready : (w o).Ready b.processMemory m)
    (funded : Funded (M.forkAsks spare (w o) m) s.kernel) (state : ProcessState)
    (before : Process) : ∃ r s', System.step (.fork state before) s = .ok (r, s') ∧
      Funded spare s'.kernel := by
  have ensures : Command.Ensures _ s.kernel (Kernel.fork state before) _ :=
    (sound.accounts.fund funded).ensures_fork known ready sound.linked
  obtain ⟨r, k', result, _, w', q, p, m', accounts', _⟩ := ensures.returns (not_excused short)
  exact ⟨_, _, systemCall_ok (sound.accounts.detail_ne_zero known) result, accounts'.funded⟩

theorem Sound.yield_funded (sound : Sound s w order) (short : M.Short) (running : s.kernel.current ≠ 0)
    (funded : Funded spare s.kernel) (window : M.limit ≤ 0xC0400000) (state : ProcessState) :
    ∃ r s' w', System.step (.yield state) s = .ok (r, s') ∧ Sound s' w' order ∧
      s'.kernel.current = s.kernel.nextOf s.kernel.current ∧
      (∀ p, p ≠ s.kernel.current → s'.kernel.detail p = s.kernel.detail p) ∧
      Funded spare s'.kernel ∧
      ∀ o role, o ≠ 0 → role ≠ .process → (w' o).block role = (w o).block role := by
  obtain ⟨o, b, m, known, _⟩ := sound.current_known running
  have ensures := (sound.accounts.fund funded).ensures_yield (s := state) sound.linked known
    sound.processes fun _ => Nat.le_trans sound.accounts.bounded window
  obtain ⟨r, k', result, ⟨w₁, accounts₁, beside⟩, _, ⟨current, _⟩, _, _, _, detail, _⟩ :=
    ensures.returns (not_excused short)
  have stepped : System.step (.yield state) s = _ := systemCall_ok running result
  obtain ⟨w', order', sound', rfl, _⟩ := (sound.step (.yield state)).result stepped
  refine ⟨_, _, w', stepped, sound', current, fun p other => ?_, accounts₁.funded,
    fun o role owner other => ?_⟩
  · show k'.detail p = _
    rw [detail, Function.update_of_ne other]
  · rw [accounts₁.block_unique sound'.accounts owner]
    exact Estate.block_of_drop (beside o) other

theorem Sound.exit_returns (sound : Sound s w order) (short : M.Short) (running : s.kernel.current ≠ 0)
    {p : Nat} (member : p ∈ order) (other : p ≠ s.kernel.current) (funded : Funded spare s.kernel)
    (window : M.limit ≤ 0xC0400000) (state : ProcessState) :
    ∃ r s', System.step (.handleExit state) s = .ok (r, s') := by
  obtain ⟨o, b, m, known, _, ready, _⟩ := sound.current_known running
  have here : s.kernel.current ∈ order := (sound.linked.live _).mpr (by rw [known]; rfl)
  obtain ⟨o', b', known'⟩ := sound.linked.known (sound.linked.ring.next_mem here).1
  obtain ⟨m', ready'⟩ := sound.processes _ _ _ known'
  obtain ⟨l₁, l₂, rfl⟩ := List.append_of_mem here
  have more : l₁ ++ l₂ ≠ [] := by
    intro alone
    obtain ⟨rfl, rfl⟩ := List.append_eq_nil_iff.mp alone
    exact other (List.mem_singleton.mp member)
  have nothing : Funded M.nothing s.kernel := funded.spend fun _ _ _ => trivial
  have ensures := (sound.accounts.fund nothing).ensures_handleExit (s := state) sound.linked more known
    ready known' ready' fun _ => window
  obtain ⟨r, k', result, _⟩ := ensures.returns (not_excused short)
  exact ⟨_, _, systemCall_ok running result⟩

theorem ensures_allocate_heap {k : Kernel M} {call : M.allocator.Heap → Option (Nat × M.allocator.Heap)}
    {block : Block} : Command.Ensures (fun _ => True) k (allocate call block) fun p k' =>
      call k.heap = some (p, k'.heap) := by
  refine Kernel.ensures_allocate (fun _ => trivial) fun p heap result _ => ?_
  unfold Command.Ensures
  split
  · exact result
  · trivial

theorem Sound.mallocPages_returns (sound : Sound s w order) (short : M.Short) {count : Nat}
    {rest : Nat → M.Budget} (positive : 0 < count)
    (funded : Funded (M.asks (.pages count) rest) s.kernel) :
    ∃ p s' w', System.step (.mallocPages count) s = .ok (none, s') ∧ Sound s' w' order ∧
      Still s.kernel s'.kernel ∧ s'.kernel.cr3 = s.kernel.cr3 ∧ M.layout.heapStart ≤ p ∧
      p % 4096 = 0 ∧ p + 4096 * count ≤ s'.kernel.mappedEnd ∧
      ∀ i, i < count → Mapped s'.kernel (p / 4096 + i) ∧
        s'.kernel.mapper (p / 4096 + i) = s'.kernel.cr3 / 4096 := by
  have ensures := (sound.accounts.fund funded).ensures_mallocPages
    (show 0 < s.kernel.owners from sound.accounts.owners) (fun _ => (rfl : Role.raw = .raw))
    (fun nonzero => absurd rfl nonzero) positive nofun
  obtain ⟨p, k', result, ⟨_, aligned, _, steady, mapped⟩, heap⟩ :=
    (ensures.and ensures_allocate_heap).returns fun fault both => not_excused short fault both.1
  have stepped := mallocPages_ok result
  obtain ⟨w', order', sound', _, same, still⟩ := (sound.step (.mallocPages count)).result stepped
  obtain ⟨_, _, _, _, holds⟩ := M.allocator.mallocPages_holds sound.accounts.heap positive heap
  obtain ⟨lower, upper⟩ := M.allocator.inside holds (Function.update_self ..)
  refine ⟨p, _, w', stepped, same ▸ sound', still, steady.calm.cr3, lower, aligned, ?_, mapped⟩
  show _ ≤ k'.mappedEnd
  unfold mappedEnd
  rw [if_neg (by omega)]
  exact upper

end Returning

end System

end Snfos
