import Snfos.System

set_option autoImplicit false

/- The invariant of the running kernel, and what each call does to the processes. -/
namespace Snfos

open ByteMemory

section Boot

variable {M : Machine}

theorem Machine.moduleOf_eq {i f : Nat} {m : Module} (known : M.modules[i]? = some m)
    (covers : m.Covers f) : M.moduleOf f = some i := by
  obtain ⟨inside, rfl⟩ := List.getElem?_eq_some_iff.mp known
  unfold Machine.moduleOf
  rw [List.findIdx?_eq_some_iff_getElem]
  refine ⟨inside, decide_eq_true covers, fun j before => ?_⟩
  have apart := List.pairwise_iff_getElem.mp M.modules_apart j i (by omega) inside before
  have other : ¬ (M.modules[j]).Covers f := fun both => apart f both covers
  rw [decide_eq_true_eq]
  exact other

theorem Machine.bootUse_module {i f : Nat} {m : Module} (known : M.modules[i]? = some m)
    (covers : m.Covers f) : M.bootUse f = some (.module i) := by
  obtain ⟨notLow, notKernel, notBoot⟩ := M.modules_outside m (List.mem_of_getElem? known)
  unfold Machine.bootUse
  rw [if_neg (by rintro rfl; exact notLow covers), if_neg (by rintro rfl; exact notKernel covers),
    if_neg (by rintro rfl; exact notBoot covers), M.moduleOf_eq known covers]
  rfl

theorem Module.covers_lt {m : Module} {f : Nat} (covers : m.Covers f) : f < 2 ^ 20 := by
  have pages := numPages_eq m.order m.bound
  have bound := m.bound
  obtain ⟨_, upper⟩ := covers
  unfold Module.numCodePages at upper
  rw [pages] at upper
  omega

/-- A frame that serves for something before the first call is marked. -/
theorem Machine.bootUse_used {f : Nat} {u : Use} (use : M.bootUse f = some u) :
    f < 2 ^ 20 ∧ (Frames.boot M.bitmap).used f = true := by
  unfold Machine.bootUse at use
  split at use
  · next low =>
      rw [low]
      exact ⟨by decide, M.low_used⟩
  split at use
  · next kernel =>
      rw [kernel]
      exact M.kernelPageTable_used
  split at use
  · next boot =>
      rw [boot]
      exact M.bootPageDirectory_used
  · obtain ⟨i, found, _⟩ := Option.map_eq_some_iff.mp use
    obtain ⟨inside, covers, _⟩ := List.findIdx?_eq_some_iff_getElem.mp found
    have covers := of_decide_eq_true covers
    exact ⟨Module.covers_lt covers, M.modules_used _ (List.getElem_mem inside) f covers⟩

namespace Kernel

theorem boot_mappedEnd : (boot M).mappedEnd = M.layout.heapStart := by
  unfold mappedEnd
  exact if_pos M.allocator.boot_end

theorem boot_space : Space M.layout.heapStart (boot M) M.bootPageDirectory where
  place := by
    left
    obtain ⟨other, _, nonzero⟩ := M.tables_apart
    show M.bootUse _ = _
    unfold Machine.bootUse
    rw [if_neg nonzero, if_neg other.symm, if_pos rfl]
  self := by
    have entries := M.boot_entries 1023 (by decide)
    exact entries
  shared := M.boot_entries 768 (by decide)
  own := fun i lower upper => by
    left
    have entries := M.boot_entries i (by omega)
    rw [if_neg (by omega), if_neg (by omega)] at entries
    exact entries

/-- Before the first call nobody owns anything. -/
theorem boot_accounts : Accounts False False M.nothing (boot M) fun _ => Estate.new := by
  have facts := M.layout.heapStart_facts
  have current : (boot M).cr3 / 4096 = M.bootPageDirectory := Nat.mul_div_cancel_left _ (by decide)
  have none : ∀ v, ¬ HeapPage M M.layout.heapStart v := by
    intro v page
    unfold HeapPage at page
    omega
  obtain ⟨other, kernelNonzero, bootNonzero⟩ := M.tables_apart
  refine {
    heap := M.allocator.boot_holds
    paging := ?_
    bounded := ?_
    ample := False.elim
    owners := Nat.succ_pos 0
    blocks := nofun
    owned := fun _ _ _ _ _ => ⟨nofun, nofun⟩
    pages := nofun
    drafts := nofun
    directories := nofun
    running := Or.inl current }
  · rw [boot_mappedEnd]
    exact {
      aligned := facts.2.2
      lower := Nat.le_refl _
      upper := by omega
      hinted := Frames.boot_hinted _
      used := fun f u use => M.bootUse_used use
      low := by
        show M.bootUse 0 = _
        exact if_pos rfl
      kernelPageTable := by
        show M.bootUse _ = _
        unfold Machine.bootUse
        rw [if_neg kernelNonzero, if_pos rfl]
      bootPageDirectory := by
        show M.bootUse _ = _
        unfold Machine.bootUse
        rw [if_neg bootNonzero, if_neg other.symm, if_pos rfl]
      homes := fun v page => absurd page (none v)
      shared := fun j _ page => absurd page (none _)
      beyond := fun j inside past => M.heap_unmapped j inside (by omega)
      boot := boot_space
      current := by rw [current]; exact boot_space
      covers := False.elim
      supply := False.elim }
  · show M.allocator.heapEnd M.allocator.boot ≤ _
    rw [M.allocator.boot_end]
    exact Nat.zero_le _

end Kernel

end Boot

namespace Kernel

variable {M : Machine}

section Calls

variable {covered : Prop} {spare : M.Budget} {k : Kernel M} {w : Estates} {o o' : Nat} {order : List Nat}
  {b b' : Process} {m : ProcessMemory}

/-- Where nothing is promised to last, anything may be asked for. -/
theorem Accounts.unbounded (accounts : Accounts covered False spare k w) (spare' : M.Budget) :
    Accounts covered False spare' k w :=
  { accounts with
    paging := { accounts.paging with supply := False.elim }
    ample := False.elim }

theorem Accounts.detail_owner {enough : Prop} {p : Nat} (accounts : Accounts covered enough spare k w)
    (known : k.detail p = some (o, b)) : o ≠ 0 := by
  obtain ⟨_, held, _⟩ := processOf_of_detail known
  exact (accounts.processOf_iff.mp held).1

/-- Two processes of one owner are one. -/
theorem Accounts.detail_unique {enough : Prop} {p p' : Nat}
    (accounts : Accounts covered enough spare k w) (known : k.detail p = some (o, b))
    (known' : k.detail p' = some (o, b')) : p = p' := by
  obtain ⟨pr, found, _⟩ := processOf_of_detail known
  obtain ⟨pr', found', _⟩ := processOf_of_detail known'
  have held := (accounts.processOf_iff.mp found).2
  rw [(accounts.processOf_iff.mp found').2] at held
  exact (Prod.mk.inj (Option.some.inj held)).1.symm

/-- The structure of a process is the block of its owner's for that. -/
theorem Accounts.process_iff {enough : Prop} {p : Nat} (accounts : Accounts covered enough spare k w)
    (owner : o ≠ 0) :
    (∃ body, (w o).block .process = some (p, body)) ↔ ∃ b, k.detail p = some (o, b) := by
  constructor
  · rintro ⟨body, held⟩
    have fits := (accounts.fits owner held).1
    cases body with
    | process pr => exact ⟨_, detail_of_processOf (accounts.processOf_iff.mpr ⟨owner, held⟩)⟩
    | _ => exact fits.elim
  · rintro ⟨b, known⟩
    obtain ⟨pr, found, _⟩ := processOf_of_detail known
    exact ⟨_, (accounts.processOf_iff.mp found).2⟩

/-- No process of an owner means no structure of one. -/
theorem Accounts.no_process {enough : Prop} (accounts : Accounts covered enough spare k w)
    (owner : o ≠ 0) (none : ∀ p b, k.detail p ≠ some (o, b)) : (w o).block .process = .none := by
  cases held : (w o).block .process with
  | none => rfl
  | some pair =>
    obtain ⟨b, known⟩ := (accounts.process_iff owner).mp ⟨pair.2, held⟩
    exact absurd known (none pair.1 b)

theorem Accounts.ensures_yield {enough : Prop} {s : ProcessState}
    (accounts : Accounts covered enough spare k w)
    (linked : Linked k order) (known : k.detail k.current = some (o, b))
    (others : ∀ p o b, k.detail p = some (o, b) → ∃ m, (w o).Ready b.processMemory m)
    (window : covered → M.allocator.heapEnd k.heap ≤ 0xC0400000) :
    Command.Ensures (Excused M covered enough) k (yield s) fun r k' =>
      (∃ w', Accounts covered enough spare k' w' ∧ Beside w w') ∧ Linked k' order ∧
        (k'.current = k.nextOf k.current ∧ k'.nextOf = k.nextOf) ∧ k'.pidInc = k.pidInc ∧ k'.owners = k.owners ∧
        (∀ f i, k.uses f = some (.module i) → k'.uses f = some (.module i)) ∧
        k'.detail = Function.update k.detail k.current (some (o, { b with processState := s })) ∧
        ∃ o' b', k'.detail k'.current = some (o', b') ∧ r = b'.processState ∧
          k'.cr3 / 4096 = (w o').frame .directory 0 := by
  have member : k.current ∈ order := (linked.live _).mpr (by rw [known]; rfl)
  have onward := (linked.ring.next_mem member).1
  unfold yield
  apply Command.ensures_get_bind
  have first : 0 < 68 := by decide
  have saved := accounts.ensures_setDetail ({ · with processState := s }) known first fun _ =>
    ⟨rfl, rfl, rfl⟩
  refine Command.ensures_bind ((saved.and switch_setProcess).excuse fun _ => And.left) ?_
  rintro _ k₁ ⟨⟨⟨w₁, accounts₁, beside⟩, steady, next, prev, detail⟩, heap⟩
  have linked₁ : Linked k₁ order := by
    refine linked.congr next prev (fun p => ?_) steady.calm.first steady.calm.last steady.calm.current
    rw [detail]
    by_cases here : p = k.current
    · rw [here, Function.update_self, known, Option.isSome_some, Option.isSome_some]
    · rw [Function.update_of_ne here]
  have known₁ : k₁.detail k.current = some (o, { b with processState := s }) := by
    rw [detail, Function.update_self]
  apply Command.ensures_bind (accounts₁.ensures_nextField known₁)
  rintro _ k₁ ⟨rfl, rfl⟩
  rw [next]
  obtain ⟨o', b', known'⟩ := linked₁.known onward
  have ready : ∃ m, (w₁ o').Ready b'.processMemory m := by
    rw [detail] at known'
    by_cases here : k.nextOf k.current = k.current
    · rw [here, Function.update_self] at known'
      cases known'
      obtain ⟨m, ready⟩ := others _ _ _ known
      exact ⟨m, ready.beside beside⟩
    · rw [Function.update_of_ne here] at known'
      obtain ⟨m, ready⟩ := others _ _ _ known'
      exact ⟨m, ready.beside beside⟩
  obtain ⟨m, ready⟩ := ready
  apply (accounts₁.ensures_runProcess known' ready (by rw [heap]; exact window)).mono
  rintro r _ ⟨rfl, x, rfl, address, accounts₂⟩
  refine ⟨⟨w₁, accounts₂, beside⟩, ?_, ⟨rfl, next⟩, steady.calm.pidInc, steady.calm.owners,
    fun f i use => steady.modules f i use, detail, o', b', known', rfl, ?_⟩
  · exact ⟨linked₁.ring, linked₁.live, linked₁.first, linked₁.last, Or.inr onward⟩
  · rw [← beside.frame]
    exact address

theorem Accounts.ensures_getPid {enough : Prop} {s : ProcessState}
    (accounts : Accounts covered enough spare k w) (known : k.detail k.current = some (o, b)) :
    Command.Ensures (Excused M covered enough) k (getPid s) fun r k' =>
      k' = k ∧ r = withEax s b.pid := by
  unfold getPid
  apply Command.ensures_get_bind
  apply Command.ensures_bind (accounts.ensures_readProcess known (by decide))
  rintro p k ⟨rfl, rfl, _⟩
  exact Command.ensures_pure _ ⟨rfl, rfl⟩

theorem ensures_sysPrint {excused : Fault → Prop} {s : ProcessState} (stops : excused .halted) :
    Command.Ensures excused k (sysPrint s) fun r k' => k' = k ∧ r = withEax s 1 := by
  unfold sysPrint
  refine Command.ensures_get_bind (Command.ensures_ite (fun _ => ?_) fun _ => ?_)
  · exact Command.ensures_pure _ ⟨rfl, rfl⟩
  · exact Command.ensures_throw _ stops

end Calls

end Kernel

namespace System

open Kernel

variable {M : Machine}

/-- What holds between two calls. `w` lists everybody's blocks, `order` the processes
as they stand in the ring. -/
structure Sound (s : System M) (w : Estates) (order : List Nat) : Prop where
  accounts : Accounts False False M.nothing s.kernel w
  linked : Linked s.kernel order
  processes : ∀ p o b, s.kernel.detail p = some (o, b) → ∃ m, (w o).Ready b.processMemory m
  spaces : ∀ memory ∈ s.spaces, ∃ o m, o ≠ 0 ∧ (w o).Ready memory m ∧ m.pageTables 1 = 0 ∧
    ∀ p b, s.kernel.detail p ≠ some (o, b)
  once : s.spaces.Nodup
  modules : ∀ i m, M.modules[i]? = some m → i ∉ s.loaded → ∀ frame, m.Covers frame →
    s.kernel.uses frame = some (.module i)
  running : s.kernel.current ≠ 0 → ∃ o b, s.kernel.detail s.kernel.current = some (o, b) ∧
    s.kernel.cr3 / 4096 = (w o).frame .directory 0

/-- The faults a call may end in. No pointer is followed that leads nowhere. -/
def Stops (M : Machine) (fault : Fault) : Prop :=
  fault ≠ .undefined ∧ (fault = .overrun → ∃ m ∈ M.modules, 1024 < m.numCodePages)

section Lifting

variable {α : Type} {s : System M} {Q : α → System M → Prop} {action : Action M α}

theorem stops_of_excused {fault : Fault} (excused : Excused M False False fault) : Stops M fault := by
  cases fault with
  | overrun => exact ⟨nofun, fun _ => excused⟩
  | undefined => exact excused.elim
  | refused => exact excused.elim
  | _ => exact ⟨nofun, nofun⟩

/-- What a call of the kernel ensures, and what follows it. -/
theorem ensures_onKernel {β : Type} {next : α → Run M β} {P : α → Kernel M → Prop}
    {R : β → System M → Prop}
    (ensures : Command.Ensures (Excused M False False) s.kernel action P)
    (rest : ∀ a k, P a k → Command.Ensures (Stops M) { s with kernel := k } (next a) R) :
    Command.Ensures (Stops M) s (onKernel action >>= next) R := by
  refine Command.ensures_bind (Q := fun a s' => ∃ k, s' = { s with kernel := k } ∧ P a k) ?_ ?_
  · unfold Command.Ensures onKernel at *
    cases result : action s.kernel with
    | ok pair =>
      rw [result] at ensures
      exact ⟨pair.2, rfl, ensures⟩
    | error fault =>
      rw [result] at ensures
      exact stops_of_excused ensures
  · rintro a s' ⟨k, rfl, holds⟩
    exact rest a k holds

theorem ensures_refused : Command.Ensures (Stops M) s (throw .refused : Run M α) Q :=
  Command.ensures_throw _ ⟨nofun, nofun⟩

end Lifting

section Carrying

variable {s s' : System M} {w w' : Estates} {order order' : List Nat} {o memory : Nat}
  {m : ProcessMemory}

/-- One owner's blocks change, and the processes with them. -/
theorem Sound.carry (o₁ : Nat) (sound : Sound s w order) (accounts : Accounts False False M.nothing s'.kernel w')
    (linked : Linked s'.kernel order')
    (others : ∀ o, o ≠ 0 → o ≠ o₁ → (w' o).drop .process = (w o).drop .process)
    (known : ∀ p o b, s'.kernel.detail p = some (o, b) →
      (o ≠ o₁ ∧ ∃ b', s.kernel.detail p = some (o, b') ∧ b'.processMemory = b.processMemory) ∨
        o = o₁ ∧ ∃ m, (w' o).Ready b.processMemory m)
    (spaces : ∀ memory ∈ s'.spaces, (memory ∈ s.spaces ∧
        ∀ m, (w o₁).block .memory = some (memory, .memory m) → o₁ = 0) ∨
      ∃ m, o₁ ≠ 0 ∧ (w' o₁).Ready memory m ∧ m.pageTables 1 = 0 ∧
        ∀ p b, s'.kernel.detail p ≠ some (o₁, b))
    (once : s'.spaces.Nodup)
    (modules : ∀ i m, M.modules[i]? = some m → i ∉ s'.loaded → i ∉ s.loaded ∧
      ∀ frame, m.Covers frame → s.kernel.uses frame = some (.module i) →
        s'.kernel.uses frame = some (.module i))
    (running : s'.kernel.current ≠ 0 → ∃ o b, s'.kernel.detail s'.kernel.current = some (o, b) ∧
      s'.kernel.cr3 / 4096 = (w' o).frame .directory 0) : Sound s' w' order' where
  accounts := accounts
  linked := linked
  processes := fun p o b found => by
    rcases known p o b found with ⟨other, b', before, memory⟩ | ⟨_, ready⟩
    · obtain ⟨m, ready⟩ := sound.processes p o b' before
      obtain ⟨_, held, _⟩ := processOf_of_detail before
      have owner := (sound.accounts.processOf_iff.mp held).1
      rw [memory] at ready
      exact ⟨m, ready.of_drop (others o owner other)⟩
    · exact ready
  spaces := fun memory member => by
    rcases spaces memory member with ⟨earlier, apart⟩ | ⟨m, owner, ready, zero, alone⟩
    · obtain ⟨o, m, owner, ready, zero, alone⟩ := sound.spaces memory earlier
      have other : o ≠ o₁ := by
        rintro rfl
        exact owner (apart m ready.laid.memory)
      refine ⟨o, m, owner, ready.of_drop (others o owner other), zero, fun p b found => ?_⟩
      rcases known p o b found with ⟨_, b', before, _⟩ | ⟨same, _⟩
      · exact alone p b' before
      · exact other same
    · exact ⟨o₁, m, owner, ready, zero, alone⟩
  once := once
  modules := fun i m found new frame covers => by
    obtain ⟨earlier, keeps⟩ := modules i m found new
    exact keeps frame covers (sound.modules i m found earlier frame covers)
  running := running

end Carrying

/-- The processes are as they were. -/
structure Still (k k' : Kernel M) : Prop where
  detail : k'.detail = k.detail
  current : k'.current = k.current
  pidInc : k'.pidInc = k.pidInc

/-- A process joins the ring at its end, with the next pid. -/
structure Joins (k k' : Kernel M) (order order' : List Nat) (o : Nat) (b : Process) : Prop where
  ring : ∃ q, q ∉ order ∧ order' = order ++ [q] ∧
    k'.detail = Function.update k.detail q (some (o, b))
  current : k'.current = k.current
  pid : b.pid = k.pidInc
  pidInc : k'.pidInc = u32 (k.pidInc + 1)

/-- The process that runs now resumes with the state saved in its structure. -/
def Resumes (k' : Kernel M) (r : Option Resumed) : Prop :=
  ∃ o b, k'.detail k'.current = some (o, b) ∧ r = some ⟨k'.current, b.processState⟩

/-- What a call does to the ring `order`, to the processes and to the one that runs. -/
def Effect (k k' : Kernel M) (order order' : List Nat) (r : Option Resumed) : Call → Prop
  | .addProcess memory arguments before => r = none ∧ ∃ o, Joins k k' order order' o
      (withArguments arguments (linkedProcess memory k.pidInc before))
  | .runProcess p => k.current = 0 ∧ order' = order ∧ k'.detail = k.detail ∧ k'.current = p ∧
      k'.pidInc = k.pidInc ∧ Resumes k' r
  | .print s => order' = order ∧ Still k k' ∧ r = some ⟨k.current, withEax s 1⟩
  | .yield s => order' = order ∧ (k'.current = k.nextOf k.current ∧ k'.nextOf = k.nextOf) ∧
      k'.pidInc = k.pidInc ∧
      (∃ o b, k.detail k.current = some (o, b) ∧ k'.detail =
        Function.update k.detail k.current (some (o, { b with processState := s }))) ∧ Resumes k' r
  | .handleExit _ => (∃ l₁ l₂, order = l₁ ++ k.current :: l₂ ∧ order' = l₁ ++ l₂) ∧
      k'.current = k.nextOf k.current ∧ k'.pidInc = k.pidInc ∧
      k'.detail = Function.update k.detail k.current none ∧ Resumes k' r
  | .getPid s => order' = order ∧ Still k k' ∧
      ∃ o b, k.detail k.current = some (o, b) ∧ r = some ⟨k.current, withEax s b.pid⟩
  | .fork s _ => r = some ⟨k.current, withEax s k.pidInc⟩ ∧
      ∃ o memory, Joins k k' order order' o (childProcess s memory k.pidInc)
  | _ => r = none ∧ order' = order ∧ Still k k'

/-- What a call ensures from a sound state. -/
abbrev Steps (s : System M) (order : List Nat) (call : Call) : Prop :=
  Command.Ensures (Stops M) s (step call) fun r s' =>
    ∃ w' order', Sound s' w' order' ∧ Effect s.kernel s'.kernel order order' r call

section Steps

variable {s : System M} {w : Estates} {order : List Nat} {o : Nat} {b : Process}

theorem Sound.current_known (sound : Sound s w order) (running : s.kernel.current ≠ 0) :
    ∃ o b m, s.kernel.detail s.kernel.current = some (o, b) ∧ o ≠ 0 ∧
      (w o).Ready b.processMemory m ∧ s.kernel.cr3 / 4096 = (w o).frame .directory 0 := by
  obtain ⟨o, b, known, address⟩ := sound.running running
  obtain ⟨m, ready⟩ := sound.processes _ _ _ known
  exact ⟨o, b, m, known, sound.accounts.detail_owner known, ready, address⟩

theorem Sound.live_iff (sound : Sound s w order) {p : Nat} :
    (s.kernel.processOf p).isSome = true ↔ p ∈ order := by
  rw [sound.linked.live, Kernel.detail, Option.isSome_map]

/-- A system call of a process that runs. -/
theorem ensures_systemCall {action : Action M ProcessState} {Q : Option Resumed → System M → Prop}
    (ensures : s.kernel.current ≠ 0 → Command.Ensures (Excused M False False) s.kernel action
      fun state k => Q (some ⟨k.current, state⟩) { s with kernel := k }) :
    Command.Ensures (Stops M) s (systemCall action) Q := by
  unfold systemCall
  refine Command.ensures_get_bind (Command.ensures_ite (fun _ => ensures_refused) fun running => ?_)
  unfold returning
  apply ensures_onKernel (ensures running)
  intro state k holds
  exact Command.ensures_get_bind (Command.ensures_pure _ holds)

theorem systemCall_ok {action : Action M ProcessState} {state : ProcessState} {k : Kernel M}
    (running : s.kernel.current ≠ 0) (result : action s.kernel = .ok (state, k)) :
    systemCall action s = .ok (some ⟨k.current, state⟩, { s with kernel := k }) := by
  unfold systemCall returning onKernel
  simp only [bind, StateT.bind, get, getThe, MonadStateOf.get, StateT.get, pure, Except.pure,
    Except.bind, running, ↓reduceIte, result]
  rfl

theorem Sound.step_print (sound : Sound s w order) (state : ProcessState) :
    Steps s order (.print state) := by
  apply ensures_systemCall
  intro _
  have stops : Excused M False False .halted := id
  apply (ensures_sysPrint stops).mono
  rintro r k ⟨rfl, rfl⟩
  exact ⟨w, order, sound, rfl, ⟨rfl, rfl, rfl⟩, rfl⟩

theorem Sound.step_getPid (sound : Sound s w order) (state : ProcessState) :
    Steps s order (.getPid state) := by
  apply ensures_systemCall
  intro running
  obtain ⟨o, b, m, known, _⟩ := sound.current_known running
  apply (sound.accounts.ensures_getPid known).mono
  rintro r k ⟨rfl, rfl⟩
  exact ⟨w, order, sound, rfl, ⟨rfl, rfl, rfl⟩, o, b, known, rfl⟩

theorem Sound.step_yield (sound : Sound s w order) (state : ProcessState) :
    Steps s order (.yield state) := by
  apply ensures_systemCall
  intro running
  obtain ⟨o, b, m, known, owner, ready, address⟩ := sound.current_known running
  apply (sound.accounts.ensures_yield sound.linked known sound.processes False.elim).mono
  rintro r k' ⟨⟨w', accounts', beside⟩, linked', current', pid', _, modules', detail', o', b', known',
    rfl, address'⟩
  refine ⟨w', order, sound.carry 0 accounts' linked' (fun o _ _ => beside o) ?_ ?_ sound.once
    (fun i m _ new => ⟨new, fun frame _ use => modules' frame i use⟩) ?_,
    rfl, current', pid', ⟨o, b, known, detail'⟩, o', b', known', rfl⟩
  · intro p o₂ b₂ found
    have found : k'.detail p = some (o₂, b₂) := found
    have other := accounts'.detail_owner found
    rw [detail'] at found
    refine Or.inl ⟨other, ?_⟩
    by_cases here : p = s.kernel.current
    · rw [here, Function.update_self] at found
      cases found
      exact ⟨b, here ▸ known, rfl⟩
    · rw [Function.update_of_ne here] at found
      exact ⟨b₂, found, rfl⟩
  · intro memory member
    exact Or.inl ⟨member, fun _ _ => rfl⟩
  · intro _
    exact ⟨o', b', known', by rw [beside.frame]; exact address'⟩

/-- The space of a process is none that waits for one. -/
theorem Sound.space_apart (sound : Sound s w order) {p memory : Nat} {m : ProcessMemory}
    (known : s.kernel.detail p = some (o, b)) (member : memory ∈ s.spaces)
    (held : (w o).block .memory = some (memory, .memory m)) : False := by
  obtain ⟨o', m', owner', ready', _, alone⟩ := sound.spaces memory member
  have owner := sound.accounts.detail_owner known
  obtain ⟨rfl, _⟩ := sound.accounts.unique .memory .memory owner owner' held ready'.laid.memory
  exact alone p b known

/-- What an exit does to the blocks of the process and of the others. -/
structure Exited (s : System M) (w w' : Estates) (o : Nat) (b : Process) (m : ProcessMemory) :
    Prop where
  known : s.kernel.detail s.kernel.current = some (o, b)
  owner : o ≠ 0
  ready : (w o).Ready b.processMemory m
  left : ∀ role, (w' o).block role = if role.leaked = true then (w o).block role else none
  others : ∀ o', o' ≠ o → (w' o').drop .process = (w o').drop .process

theorem Sound.ensures_exit (sound : Sound s w order) (state : ProcessState) :
    Command.Ensures (Stops M) s (System.step (.handleExit state)) fun r s' =>
      ∃ w' order', Sound s' w' order' ∧
        Effect s.kernel s'.kernel order order' r (.handleExit state) ∧
        s'.kernel.detail = Function.update s.kernel.detail s.kernel.current none ∧
        ∃ o b m, Exited s w w' o b m := by
  apply ensures_systemCall
  intro running
  obtain ⟨o, b, m, known, owner, ready, address⟩ := sound.current_known running
  have member : s.kernel.current ∈ order := (sound.linked.live _).mpr (by rw [known]; rfl)
  obtain ⟨l₁, l₂, rfl⟩ := List.append_of_mem member
  by_cases more : l₁ ++ l₂ = []
  · -- the last process leaves the processor looping
    obtain ⟨rfl, rfl⟩ := List.append_eq_nil_iff.mp more
    unfold handleExit
    apply Command.ensures_get_bind
    rw [if_pos ⟨sound.linked.first.symm, sound.linked.last.symm⟩]
    exact Command.ensures_throw _ id
  have onward := (sound.linked.ring.next_mem member).1
  obtain ⟨o', b', known'⟩ := sound.linked.known onward
  obtain ⟨m', ready'⟩ := sound.processes _ _ _ known'
  refine (sound.accounts.ensures_handleExit sound.linked more known ready known' ready'
    False.elim).mono ?_
  rintro r k' ⟨rfl, ⟨w₁, beside, accounts'⟩, current', address', pid', _, modules', linked', detail'⟩
  have known₁ : k'.detail k'.current = some (o', b') := by
    rw [detail', current', Function.update_of_ne (sound.linked.ring.next_ne more)]
    exact known'
  have others : ∀ o₂, o₂ ≠ o →
      (Function.update w₁ o (w₁ o).leftover o₂).drop .process = (w o₂).drop .process := by
    intro o₂ other
    rw [Function.update_of_ne other]
    exact beside o₂
  refine ⟨_, l₁ ++ l₂, sound.carry o accounts' linked' (fun o₂ _ other => others o₂ other) ?_ ?_
    sound.once (fun i m _ new => ⟨new, fun frame _ use => modules' frame i use⟩) ?_,
    ⟨⟨l₁, l₂, rfl, rfl⟩, current', pid', detail', o', b', known₁, rfl⟩, detail',
    o, b, m, known, owner, ready, fun role => ?_, others⟩
  · intro p o₂ b₂ found
    have found : k'.detail p = some (o₂, b₂) := found
    rw [detail'] at found
    by_cases here : p = s.kernel.current
    · rw [here, Function.update_self] at found
      cases found
    · rw [Function.update_of_ne here] at found
      refine Or.inl ⟨?_, b₂, found, rfl⟩
      rintro rfl
      exact here (sound.accounts.detail_unique found known)
  · intro memory member
    exact Or.inl ⟨member, fun m held => (sound.space_apart known member held).elim⟩
  · intro _
    refine ⟨o', b', known₁, address'.trans ?_⟩
    by_cases here : o' = o
    · rw [here, Function.update_self]
      exact (congrFun (congrFun (beside.frame (o := o)) _) _).symm
    · rw [Function.update_of_ne here, beside.frame]
  · rw [Function.update_self]
    unfold Estate.leftover Estate.without
    cases leaks : role.leaked with
    | false => simp [leaks]
    | true =>
      have other : role ≠ .process := by
        rintro rfl
        cases leaks
      simp only [leaks, Bool.not_true, Bool.false_eq_true, if_false, if_true]
      exact Estate.block_of_drop (beside o) other

theorem Sound.step_handleExit (sound : Sound s w order) (state : ProcessState) :
    Steps s order (.handleExit state) := by
  apply (sound.ensures_exit state).mono
  rintro r s' ⟨w', order', sound', effect, _⟩
  exact ⟨w', order', sound', effect⟩

/-- What a fork does to the address spaces of parent and child. -/
structure Forked (s s' : System M) (w w' : Estates) (state : ProcessState) (o : Nat) (b : Process)
    (m m' : ProcessMemory) (p : Nat) : Prop where
  parent : s.kernel.detail s.kernel.current = some (o, b)
  owner : o ≠ 0
  drawn : o < s.kernel.owners
  ready : (w o).Ready b.processMemory m
  cloned : Cloned (w o) m (w' s.kernel.owners) p m'
  same : (w' o).drop .process = (w o).drop .process
  parent' : s'.kernel.detail s.kernel.current = some (o, b)
  child : s'.kernel.detail s'.kernel.last =
    some (s.kernel.owners, childProcess state p s.kernel.pidInc)

/-- A process known after one more has joined is that one or was known before. -/
theorem known_joined {k k' : Kernel M} {p q o o' : Nat} {b b' : Process}
    (detail : k'.detail = Function.update k.detail q (some (o, b)))
    (new : ∀ p b, k.detail p ≠ some (o, b)) (known : k'.detail p = some (o', b')) :
    o' = o ∧ b' = b ∨ o' ≠ o ∧ k.detail p = some (o', b') := by
  rw [detail] at known
  by_cases here : p = q
  · rw [here, Function.update_self] at known
    cases known
    exact Or.inl ⟨rfl, rfl⟩
  · rw [Function.update_of_ne here] at known
    refine Or.inr ⟨?_, known⟩
    rintro rfl
    exact new p b' known

theorem Sound.ensures_fork (sound : Sound s w order) (state : ProcessState) (before : Process) :
    Command.Ensures (Stops M) s (System.step (.fork state before)) fun r s' =>
      ∃ w' order', Sound s' w' order' ∧
        Effect s.kernel s'.kernel order order' r (.fork state before) ∧
        ∃ o b m m' p, Forked s s' w w' state o b m m' p := by
  apply ensures_systemCall
  intro running
  obtain ⟨o, b, m, known, owner, ready, address⟩ := sound.current_known running
  have accounts : Accounts False False (M.forkAsks M.nothing (w o) m) s.kernel w :=
    sound.accounts.unbounded _
  apply (accounts.ensures_fork known ready sound.linked).mono
  rintro r k' ⟨rfl, w', q, p, m', accounts', cloned, others, kept, absent, linked', pid', detail'⟩
  have drawn : o < s.kernel.owners := by
    obtain ⟨_, held, _⟩ := processOf_of_detail known
    have live := sound.accounts.live owner (sound.accounts.processOf_iff.mp held).2
    exact (sound.accounts.blocks _ _ live).2.2.1
  have new : ∀ p b, s.kernel.detail p ≠ some (s.kernel.owners, b) := by
    intro p b found
    obtain ⟨_, held, _⟩ := processOf_of_detail found
    obtain ⟨owner', held⟩ := sound.accounts.processOf_iff.mp held
    rw [sound.accounts.fresh_owner owner' (Nat.le_refl _)] at held
    cases held
  have current : k'.current = s.kernel.current := kept.current
  have distinct : s.kernel.current ≠ q := by
    rintro rfl
    exact absent ((sound.linked.live _).mpr (by rw [known]; rfl))
  have known' : k'.detail s.kernel.current = some (o, b) := by
    rw [detail', Function.update_of_ne distinct]
    exact known
  have last : k'.last = q := by
    rw [linked'.last, List.getLast?_concat]
    rfl
  have child : k'.detail k'.last = some (s.kernel.owners, childProcess state p s.kernel.pidInc) := by
    rw [last, detail', Function.update_self]
  refine ⟨w', order ++ [q], sound.carry s.kernel.owners accounts' linked'
    (fun o _ other => others o other) ?_ ?_ sound.once
    (fun i m _ new => ⟨new, fun frame _ use => kept.modules frame i use⟩) ?_, ⟨by rw [current],
    s.kernel.owners, p, ⟨q, absent, rfl, detail'⟩, current, rfl, pid'⟩, o, b, m, m', p,
    ⟨known, owner, drawn, ready, cloned, others o (Nat.ne_of_lt drawn), known', child⟩⟩
  · intro p' o₂ b₂ found
    rcases known_joined detail' new found with ⟨rfl, rfl⟩ | ⟨other, before⟩
    · exact Or.inr ⟨rfl, m', cloned.ready⟩
    · exact Or.inl ⟨other, b₂, before, rfl⟩
  · intro memory member
    refine Or.inl ⟨member, fun m held => ?_⟩
    by_contra nonzero
    rw [sound.accounts.fresh_owner nonzero (Nat.le_refl _)] at held
    cases held
  · intro _
    refine ⟨o, b, ?_, ?_⟩
    · show k'.detail k'.current = _
      rw [current]
      exact known'
    · rw [Estate.frame_of_drop (others o (Nat.ne_of_lt drawn))]
      show k'.cr3 / 4096 = _
      rw [kept.cr3]
      exact address

theorem Sound.step_fork (sound : Sound s w order) (state : ProcessState) (before : Process) :
    Steps s order (.fork state before) := by
  apply (sound.ensures_fork state before).mono
  rintro r s' ⟨w', order', sound', effect, _⟩
  exact ⟨w', order', sound', effect⟩

theorem Sound.step_addProcess (sound : Sound s w order) (memory : Nat) (arguments : Arguments)
    (before : Process) : Steps s order (.addProcess memory arguments before) := by
  show Command.Ensures (Stops M) s (addProcess memory arguments before) _
  unfold addProcess
  refine Command.ensures_get_bind (Command.ensures_ite (fun member => ?_) fun _ => ensures_refused)
  obtain ⟨o, m, owner, ready, zero, alone⟩ := sound.spaces memory member
  have drawn : o < s.kernel.owners :=
    (sound.accounts.blocks _ _ (sound.accounts.live owner ready.laid.memory)).2.2.1
  have accounts : Accounts False False (M.addAsks M.nothing) s.kernel w := sound.accounts.unbounded _
  refine ensures_onKernel (accounts.ensures_addProcess owner drawn ready zero
    (sound.accounts.no_process owner alone) sound.linked) ?_
  rintro q k' ⟨⟨w', accounts', ⟨m', ready', _⟩, others⟩, kept, absent, linked', pid', detail'⟩
  refine Command.ensures_modify_bind (Command.ensures_pure _ ?_)
  have current : k'.current = s.kernel.current := kept.current
  refine ⟨w', order ++ [q], sound.carry o accounts' linked' (fun o' _ other => others o' other)
    ?_ ?_ (sound.once.erase _) (fun i m _ new => ⟨new, fun frame _ use => kept.modules frame i use⟩) ?_,
    rfl, o, ⟨q, absent, rfl, detail'⟩, current, rfl, pid'⟩
  · intro p' o₂ b₂ found
    rcases known_joined detail' alone found with ⟨rfl, rfl⟩ | ⟨other, before⟩
    · exact Or.inr ⟨rfl, m', ready'⟩
    · exact Or.inl ⟨other, b₂, before, rfl⟩
  · intro memory' member'
    have both := (List.Nodup.mem_erase_iff sound.once).mp member'
    refine Or.inl ⟨both.2, fun m₂ held => ?_⟩
    have same := ready.laid.memory.symm.trans held
    exact absurd (Prod.mk.inj (Option.some.inj same)).1.symm both.1
  · intro running
    rw [show (k'.current = s.kernel.current) from current] at running
    obtain ⟨o₂, b₂, m₂, known, owner₂, _, address⟩ := sound.current_known running
    have distinct : s.kernel.current ≠ q := by
      rintro rfl
      exact absent ((sound.linked.live _).mpr (by rw [known]; rfl))
    have other : o₂ ≠ o := by
      rintro rfl
      exact alone _ _ known
    refine ⟨o₂, b₂, ?_, ?_⟩
    · show k'.detail k'.current = _
      rw [current, detail', Function.update_of_ne distinct]
      exact known
    · rw [Estate.frame_of_drop (others o₂ other)]
      show k'.cr3 / 4096 = _
      rw [kept.cr3]
      exact address

theorem Sound.step_runProcess (sound : Sound s w order) (p : Nat) :
    Steps s order (.runProcess p) := by
  show Command.Ensures (Stops M) s (runProcess p) _
  unfold runProcess
  refine Command.ensures_get_bind (Command.ensures_ite (fun allowed => ?_) fun _ => ensures_refused)
  obtain ⟨idle, some⟩ := allowed
  obtain ⟨⟨o, pr⟩, found⟩ := Option.isSome_iff_exists.mp some
  have known := detail_of_processOf found
  obtain ⟨m, ready⟩ := sound.processes _ _ _ known
  unfold returning
  apply ensures_onKernel (sound.accounts.ensures_runProcess known ready False.elim)
  rintro r _ ⟨rfl, x, rfl, address, accounts'⟩
  refine Command.ensures_get_bind (Command.ensures_pure _ ?_)
  have member : p ∈ order := (sound.linked.live p).mpr (by rw [known]; rfl)
  refine ⟨w, order, sound.carry 0 accounts'
    ⟨sound.linked.ring, sound.linked.live, sound.linked.first, sound.linked.last, Or.inr member⟩
    (fun _ _ _ => rfl) (fun p' o' b' found => Or.inl ⟨sound.accounts.detail_owner found, b', found, rfl⟩)
    (fun memory member => Or.inl ⟨member, fun _ _ => rfl⟩) sound.once
    (fun i m _ new => ⟨new, fun _ _ use => use⟩) (fun _ => ⟨o, pr.bare, known, address⟩),
    idle, rfl, rfl, rfl, rfl, o, pr.bare, known, rfl⟩

/-- A call that leaves the processes alone. -/
theorem Sound.quiet {k' : Kernel M} {w' : Estates} (o₁ : Nat) (loaded spaces : List Nat)
    (sound : Sound s w order) (accounts : Accounts False False M.nothing k' w')
    (cr3 : k'.cr3 = s.kernel.cr3) (first : k'.first = s.kernel.first) (last : k'.last = s.kernel.last)
    (still : k'.current = s.kernel.current ∧ k'.pidInc = s.kernel.pidInc)
    (process : ∀ o, o ≠ 0 → (w' o).block .process = (w o).block .process)
    (others : ∀ o, o ≠ 0 → o ≠ o₁ → (w' o).drop .process = (w o).drop .process)
    (new : ∀ p b, s.kernel.detail p ≠ some (o₁, b))
    (listed : ∀ memory ∈ spaces, (memory ∈ s.spaces ∧
        ∀ m, (w o₁).block .memory = some (memory, .memory m) → o₁ = 0) ∨
      ∃ m, o₁ ≠ 0 ∧ (w' o₁).Ready memory m ∧ m.pageTables 1 = 0)
    (once : spaces.Nodup)
    (modules : ∀ i m, M.modules[i]? = some m → i ∉ loaded → i ∉ s.loaded ∧
      ∀ frame, m.Covers frame → s.kernel.uses frame = some (.module i) →
        k'.uses frame = some (.module i)) :
    Sound ⟨k', loaded, spaces⟩ w' order ∧ Still s.kernel k' := by
  have same : k'.processOf = s.kernel.processOf := sound.accounts.processOf_same accounts process
  have detail : k'.detail = s.kernel.detail := by
    unfold Kernel.detail
    rw [same]
  have linked : Linked k' order := sound.linked.congr (by unfold nextOf; rw [same])
    (by unfold prevOf; rw [same]) (fun p => by rw [detail]) first last still.1
  refine ⟨Sound.carry o₁ sound accounts linked others ?_ ?_ once modules ?_, detail, still.1,
    still.2⟩
  · intro p o b found
    have found : k'.detail p = some (o, b) := found
    rw [detail] at found
    refine Or.inl ⟨?_, b, found, rfl⟩
    rintro rfl
    exact new p b found
  · intro memory member
    rcases listed memory member with earlier | ⟨m, owner, ready, zero⟩
    · exact Or.inl earlier
    · refine Or.inr ⟨m, owner, ready, zero, fun p b found => ?_⟩
      have found : k'.detail p = some (o₁, b) := found
      rw [detail] at found
      exact new p b found
  · intro running
    rw [show k'.current = s.kernel.current from still.1] at running
    obtain ⟨o, b, m, known, owner, _, address⟩ := sound.current_known running
    have other : o ≠ o₁ := by
      rintro rfl
      exact new _ _ known
    refine ⟨o, b, ?_, ?_⟩
    · show k'.detail k'.current = _
      rw [detail, still.1]
      exact known
    · rw [Estate.frame_of_drop (others o owner other)]
      show k'.cr3 / 4096 = _
      rw [cr3]
      exact address

/-- A block of the kernel's own comes or goes. -/
theorem Sound.raw {k' : Kernel M} {E : Estate} (sound : Sound s w order)
    (accounts : Accounts False False M.nothing k' (Function.update w 0 E)) (steady : Steady 0 s.kernel k') :
    Sound { s with kernel := k' } (Function.update w 0 E) order ∧ Still s.kernel k' := by
  have same : ∀ o, o ≠ 0 → Function.update w 0 E o = w o := fun o other => Function.update_of_ne other ..
  exact sound.quiet 0 s.loaded s.spaces accounts steady.calm.cr3 steady.calm.first steady.calm.last
    ⟨steady.calm.current, steady.calm.pidInc⟩ (fun o owner => by rw [same o owner])
    (fun o owner _ => by rw [same o owner])
    (fun p b found => sound.accounts.detail_owner found rfl)
    (fun memory member => Or.inl ⟨member, fun _ _ => rfl⟩) sound.once
    (fun i m _ new => ⟨new, fun frame _ use => steady.modules frame i use⟩)

theorem Sound.step_malloc (sound : Sound s w order) (size : Nat) : Steps s order (.malloc size) := by
  show Command.Ensures (Stops M) s (malloc size) _
  unfold malloc
  refine Command.ensures_ite (fun _ => ?_) fun positive => ?_
  · exact Command.ensures_pure _ ⟨w, order, sound, rfl, rfl, rfl, rfl, rfl⟩
  have accounts : Accounts False False (M.asks (.bytes (Body.raw size).size) fun _ => M.nothing)
      s.kernel w := sound.accounts.unbounded _
  refine ensures_onKernel (accounts.ensures_malloc (show 0 < s.kernel.owners from sound.accounts.owners)
    (fun _ => rfl) (fun nonzero => absurd rfl nonzero) (Nat.pos_of_ne_zero positive)
    fun _ => Body.noConfusion) ?_
  rintro p k' ⟨_, accounts', steady⟩
  obtain ⟨sound', still⟩ := sound.raw accounts' steady
  exact Command.ensures_pure _ ⟨_, order, sound', rfl, rfl, still⟩

theorem Sound.step_mallocPages (sound : Sound s w order) (pages : Nat) :
    Steps s order (.mallocPages pages) := by
  show Command.Ensures (Stops M) s (mallocPages pages) _
  unfold mallocPages
  by_cases zero : pages = 0
  · rw [zero]
    apply ensures_onKernel sound.accounts.ensures_mallocPages_zero
    rintro p k' ⟨_, rfl⟩
    exact Command.ensures_pure _ ⟨w, order, sound, rfl, rfl, rfl, rfl, rfl⟩
  have accounts : Accounts False False (M.asks (.pages pages) fun _ => M.nothing) s.kernel w :=
    sound.accounts.unbounded _
  refine ensures_onKernel (accounts.ensures_mallocPages
    (show 0 < s.kernel.owners from sound.accounts.owners) (fun _ => rfl)
    (fun nonzero => absurd rfl nonzero) (Nat.pos_of_ne_zero zero) nofun) ?_
  rintro p k' ⟨_, _, ⟨frames, bytes, accounts'⟩, steady, _⟩
  obtain ⟨sound', still⟩ := sound.raw accounts' steady
  exact Command.ensures_pure _ ⟨_, order, sound', rfl, rfl, still⟩

theorem Sound.step_free (sound : Sound s w order) (pointer : Nat) : Steps s order (.free pointer) := by
  show Command.Ensures (Stops M) s (free pointer) _
  unfold free
  refine Command.ensures_get_bind (Command.ensures_ite (fun allowed => ?_) fun _ => ensures_refused)
  rcases allowed with rfl | own
  · apply ensures_onKernel ensures_free_null
    rintro _ k' rfl
    exact Command.ensures_pure _ ⟨w, order, sound, rfl, rfl, rfl, rfl, rfl⟩
  · cases live : s.kernel.blocks pointer with
    | none =>
      rw [live] at own
      cases own
    | some block =>
      rw [live, Option.any_some, decide_eq_true_eq] at own
      obtain ⟨body, role, owner⟩ := block
      have raw := (sound.accounts.blocks _ _ live).2.2.2.1
      dsimp only at own raw
      obtain rfl := own
      obtain rfl := raw rfl
      have accounts : Accounts False False (M.frees pointer M.nothing) s.kernel w := sound.accounts
      refine ensures_onKernel (accounts.ensures_release live (fun nonzero => absurd rfl nonzero)
        nofun) ?_
      rintro _ k' ⟨accounts', steady⟩
      obtain ⟨sound', still⟩ := sound.raw accounts' steady
      exact Command.ensures_pure _ ⟨_, order, sound', rfl, rfl, still⟩

theorem Sound.step_loadModule (sound : Sound s w order) (i : Nat) : Steps s order (.loadModule i) := by
  show Command.Ensures (Stops M) s (loadModule i) _
  unfold loadModule
  apply Command.ensures_get_bind
  cases found : M.modules[i]? with
  | none => exact ensures_refused
  | some module =>
    dsimp only
    refine Command.ensures_ite (fun _ => ensures_refused) fun new => ?_
    have accounts : Accounts False False (M.loadAsks M.nothing module) s.kernel w :=
      sound.accounts.unbounded _
    apply ensures_onKernel (accounts.ensures_loadModule (List.mem_of_getElem? found) (sound.modules i module found new))
    rintro p k' ⟨E, m, accounts', calm, uses, ready, process, zero, _⟩
    have positive := sound.accounts.owners
    have owner : s.kernel.owners ≠ 0 := by omega
    have vacant : ∀ role, (w s.kernel.owners).block role = none := fun role =>
      sound.accounts.fresh_owner owner (Nat.le_refl _) role
    have same : ∀ o, o ≠ s.kernel.owners → Function.update w s.kernel.owners E o = w o :=
      fun o other => Function.update_of_ne other ..
    have own : Function.update w s.kernel.owners E s.kernel.owners = E := Function.update_self ..
    have fresh : p ∉ s.spaces := by
      intro member
      obtain ⟨o, m', owner', ready', _⟩ := sound.spaces p member
      have drawn := (sound.accounts.blocks _ _ (sound.accounts.live owner' ready'.laid.memory)).2.2.1
      have other : o ≠ s.kernel.owners := Nat.ne_of_lt drawn
      have both := accounts'.unique .memory .memory owner' owner
        (by rw [same o other]; exact ready'.laid.memory) (by rw [own]; exact ready.laid.memory)
      exact other both.1
    obtain ⟨sound', still⟩ := sound.quiet s.kernel.owners (i :: s.loaded) (p :: s.spaces)
      accounts' calm.cr3 calm.first calm.last ⟨calm.current, calm.pidInc⟩
      (fun o _ => by
        by_cases here : o = s.kernel.owners
        · rw [here, own, process, vacant]
        · rw [same o here])
      (fun o _ other => by rw [same o other])
      (fun p b known => by
        obtain ⟨_, found, _⟩ := processOf_of_detail known
        have held := (sound.accounts.processOf_iff.mp found).2
        rw [vacant] at held
        cases held)
      (fun memory member => by
        rcases List.mem_cons.mp member with rfl | earlier
        · exact Or.inr ⟨m, owner, by rw [own]; exact ready, zero⟩
        · refine Or.inl ⟨earlier, fun m held => ?_⟩
          rw [vacant] at held
          cases held)
      (List.nodup_cons.mpr ⟨fresh, sound.once⟩)
      (fun j m' _ other => ⟨fun earlier => other (List.mem_cons_of_mem _ earlier),
        fun frame _ use => uses frame j (fun same => other (same ▸ List.mem_cons_self)) use⟩)
    exact Command.ensures_modify_bind (Command.ensures_pure _ ⟨_, order, sound', rfl, rfl, still⟩)

/-- Every call keeps the invariant and has its effect. -/
theorem Sound.step (sound : Sound s w order) (call : Call) : Steps s order call := by
  cases call with
  | loadModule i => exact sound.step_loadModule i
  | addProcess memory arguments before => exact sound.step_addProcess memory arguments before
  | runProcess p => exact sound.step_runProcess p
  | print state => exact sound.step_print state
  | yield state => exact sound.step_yield state
  | handleExit state => exact sound.step_handleExit state
  | getPid state => exact sound.step_getPid state
  | fork state before => exact sound.step_fork state before
  | malloc size => exact sound.step_malloc size
  | mallocPages pages => exact sound.step_mallocPages pages
  | free pointer => exact sound.step_free pointer

end Steps

section Runs

variable {s s' : System M} {w : Estates} {order : List Nat}

theorem boot_sound : Sound (boot M) (fun _ => Estate.new) [] where
  accounts := boot_accounts
  linked := ⟨LinkedRing.nil, fun _ => ⟨nofun, nofun⟩, rfl, rfl, Or.inl rfl⟩
  processes := nofun
  spaces := nofun
  once := List.nodup_nil
  modules := fun _ _ found _ _ covers => M.bootUse_module found covers
  running := fun nonzero => absurd rfl nonzero

/-- A run from a sound state ends in one, unless it stops at an excused fault. -/
theorem Sound.run (sound : Sound s w order) (calls : List Call) :
    Command.Ensures (Stops M) s (run calls) fun _ s' => ∃ w' order', Sound s' w' order' := by
  induction calls generalizing s w order with
  | nil => exact Command.ensures_pure _ ⟨w, order, sound⟩
  | cons call rest ih =>
    apply Command.ensures_bind (sound.step call)
    rintro r s₁ ⟨w₁, order₁, sound₁, _⟩
    apply Command.ensures_bind (ih sound₁)
    intro others s₂ sound₂
    exact Command.ensures_pure _ sound₂

/-- The states of the kernel between two calls. -/
def Reachable (s : System M) : Prop := ∃ calls returns, run calls (boot M) = .ok (returns, s)

theorem Reachable.sound (reachable : Reachable s) : ∃ w order, Sound s w order := by
  obtain ⟨calls, returns, ran⟩ := reachable
  exact (boot_sound.run calls).result ran

end Runs

end System

end Snfos
