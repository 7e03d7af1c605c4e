import Snfos.Tasks

set_option autoImplicit false

/- The kernel follows the machine of the tasks: over any run of its calls, of what the
programs load and of what they store, they see what they see there. -/
namespace Snfos

open ByteMemory Command

namespace System

open Kernel

variable {M : Machine}

/-- What the terminal shows of a call. -/
def shown (k : Kernel M) : Call → List UInt8
  | .print s => ((view k).answer s .sysPrint).shown
  | .handleExit s => ((view k).answer s .handleExit).shown
  | _ => []

/-- The place that the running program reaches. The handler of page faults stops the machine. -/
def reach (address : UInt32) (write : Bool) : Run M (Nat × Nat) := do
  let s ← get
  if s.kernel.current = 0 then throw .refused
  else match userTranslate s.kernel.ram (s.kernel.cr3 / 4096) address.toNat write with
    | none => throw .halted
    | some place => pure place

def act : Event → Run M Outcome
  | .call call => do
      let s ← get
      let turn ← step call
      pure (.returned (shown s.kernel call) turn)
  | .load address => do
      let (frame, offset) ← reach address false
      let s ← get
      pure (.loaded (s.kernel.ram frame offset))
  | .store address byte => do
      let (frame, offset) ← reach address true
      modify fun s => { s with kernel := s.kernel.stored frame offset byte }
      pure .stored

def play : List Event → Run M (List Outcome) := Command.sequence act

/-- A process as its program sees it. -/
def taskOf (k : Kernel M) (p : Nat) : Option Task :=
  (k.detail p).map fun found =>
    ⟨found.2.processState, found.2.pid, k.spaceMemory found.2.processMemory⟩

def tasks (s : System M) (order : List Nat) : Tasks where
  ring := order
  task := taskOf s.kernel
  loaded := s.loaded
  space := fun p => if p ∈ s.spaces then some (s.kernel.spaceMemory p) else none
  current := s.kernel.current
  pidInc := s.kernel.pidInc

/-- The modules that were not loaded yet are as the boot loader left them. -/
def Pristine (s : System M) : Prop :=
  ∀ i module, M.modules[i]? = some module → i ∉ s.loaded → ∀ f, module.Covers f →
    ∀ offset, offset < 4096 → s.kernel.ram f offset = M.ram f offset

/-- The kernel's state stands for this one of the tasks. -/
def Represents (s : System M) (A : Tasks) : Prop :=
  Pristine s ∧ ∃ w order, Sound s w order ∧ A = tasks s order

section Views

variable {s s' : System M} {w w' : Estates} {order order' : List Nat} {o o₁ p : Nat} {b : Process}
  {k' : Kernel M}

theorem taskOf_known {k : Kernel M} (known : k.detail p = some (o, b)) :
    taskOf k p = some ⟨b.processState, b.pid, k.spaceMemory b.processMemory⟩ := by
  unfold taskOf
  rw [known, Option.map_some]

theorem Sound.formed (sound : Sound s w order) : (tasks s order).Formed where
  once := sound.linked.ring.nodup
  live := fun p => by
    show p ∈ order ↔ (taskOf s.kernel p).isSome = true
    unfold taskOf
    rw [sound.linked.live, Option.isSome_map]

theorem Sound.after (sound : Sound s w order) (running : s.kernel.current ≠ 0) :
    (tasks s order).after = s.kernel.nextOf s.kernel.current := by
  obtain ⟨o, b, m, known, _⟩ := sound.current_known running
  have member : s.kernel.current ∈ order := (sound.linked.live _).mpr (by rw [known]; rfl)
  have place := List.getElem?_idxOf member
  show order.getD ((order.idxOf s.kernel.current + 1) % order.length) 0 = _
  rw [List.getD_eq_getElem?_getD, sound.linked.ring.next_getElem place, Option.getD_some]

/-- A process that a call is not about keeps its memory. -/
theorem Sound.task_same (sound : Sound s w order) (leaves : Leaves s.kernel k' w o₁)
    (same : k'.detail p = s.kernel.detail p) (other : ∀ b, s.kernel.detail p ≠ some (o₁, b)) :
    taskOf k' p = taskOf s.kernel p := by
  unfold taskOf
  rw [same]
  cases known : s.kernel.detail p with
  | none => rfl
  | some found =>
    obtain ⟨o, b⟩ := found
    obtain ⟨m, ready⟩ := sound.processes p o b known
    have apart : o ≠ o₁ := by
      rintro rfl
      exact other b known
    rw [Option.map_some, Option.map_some,
      leaves.spaces o (sound.accounts.detail_owner known) apart _ m ready]

/-- So does a space without a process. -/
theorem Sound.space_same (sound : Sound s w order) (leaves : Leaves s.kernel k' w o₁)
    (member : p ∈ s.spaces) (other : ∀ m, (w o₁).block .memory = some (p, .memory m) → o₁ = 0) :
    k'.spaceMemory p = s.kernel.spaceMemory p := by
  obtain ⟨o, m, owner, ready, _⟩ := sound.spaces p member
  refine leaves.spaces o owner ?_ p m ready
  rintro rfl
  exact owner (other m ready.laid.memory)

theorem Sound.pristine (sound : Sound s w order) (pristine : Pristine s)
    (leaves : Leaves s.kernel s'.kernel w o₁) (loaded : ∀ i, i ∈ s.loaded → i ∈ s'.loaded) :
    Pristine s' := by
  intro i module found new f covers offset small
  have earlier : i ∉ s.loaded := fun member => new (loaded i member)
  rw [leaves.contents f i (sound.modules i module found earlier f covers) offset small,
    pristine i module found earlier f covers offset small]

end Views

section Lists

variable {s : System M} {α : Type} {Q : α → System M → Prop}

/-- What a call changes in the lists of modules and of spaces. -/
def Lists (s s' : System M) : Call → Prop
  | .loadModule i => ∃ p, i ∉ s.loaded ∧ s'.loaded = i :: s.loaded ∧ s'.spaces = p :: s.spaces
  | .addProcess p _ _ => p ∈ s.spaces ∧ s'.loaded = s.loaded ∧ s'.spaces = s.spaces.erase p
  | _ => s'.loaded = s.loaded ∧ s'.spaces = s.spaces

theorem ensures_onKernel_lists {β : Type} {action : Action M β} {next : β → Run M α}
    (rest : ∀ b k, Ensures (fun _ => True) { s with kernel := k } (next b) Q) :
    Ensures (fun _ => True) s (onKernel action >>= next) Q := by
  refine ensures_bind (Q := fun _ s' => ∃ k, s' = { s with kernel := k }) ?_ ?_
  · unfold Ensures onKernel
    cases action s.kernel with
    | ok pair => exact ⟨pair.2, rfl⟩
    | error fault => trivial
  · rintro b _ ⟨k, rfl⟩
    exact rest b k

theorem ensures_systemCall_lists (action : Action M ProcessState) :
    Ensures (fun _ => True) s (systemCall action) fun _ s' =>
      s'.loaded = s.loaded ∧ s'.spaces = s.spaces := by
  unfold systemCall returning
  refine ensures_get_bind (ensures_ite (fun _ => ensures_throw _ trivial) fun _ => ?_)
  exact ensures_onKernel_lists fun _ _ => ensures_get_bind (ensures_pure _ ⟨rfl, rfl⟩)

theorem ensures_lists (s : System M) (call : Call) :
    Ensures (fun _ => True) s (step call) fun _ s' => Lists s s' call := by
  cases call with
  | loadModule i =>
    show Ensures _ s (loadModule i) _
    unfold loadModule
    apply ensures_get_bind
    cases M.modules[i]? with
    | none => exact ensures_throw _ trivial
    | some module =>
      refine ensures_ite (fun _ => ensures_throw _ trivial) fun new => ?_
      refine ensures_onKernel_lists fun p k => ensures_modify_bind (ensures_pure _ ?_)
      exact ⟨p, new, rfl, rfl⟩
  | addProcess p arguments before =>
    show Ensures _ s (addProcess p arguments before) _
    unfold addProcess
    refine ensures_get_bind (ensures_ite (fun member => ?_) fun _ => ensures_throw _ trivial)
    refine ensures_onKernel_lists fun _ k => ensures_modify_bind (ensures_pure _ ?_)
    exact ⟨member, rfl, rfl⟩
  | runProcess p =>
    show Ensures _ s (runProcess p) _
    unfold runProcess returning
    refine ensures_get_bind (ensures_ite (fun _ => ?_) fun _ => ensures_throw _ trivial)
    exact ensures_onKernel_lists fun _ _ => ensures_get_bind (ensures_pure _ ⟨rfl, rfl⟩)
  | malloc size =>
    show Ensures _ s (malloc size) _
    unfold malloc
    refine ensures_ite (fun _ => ensures_pure _ ⟨rfl, rfl⟩) fun _ => ?_
    exact ensures_onKernel_lists fun _ _ => ensures_pure _ ⟨rfl, rfl⟩
  | mallocPages pages =>
    show Ensures _ s (mallocPages pages) _
    unfold mallocPages
    exact ensures_onKernel_lists fun _ _ => ensures_pure _ ⟨rfl, rfl⟩
  | free pointer =>
    show Ensures _ s (free pointer) _
    unfold free
    refine ensures_get_bind (ensures_ite (fun _ => ?_) fun _ => ensures_throw _ trivial)
    exact ensures_onKernel_lists fun _ _ => ensures_pure _ ⟨rfl, rfl⟩
  | print state => exact ensures_systemCall_lists _
  | yield state => exact ensures_systemCall_lists _
  | handleExit state => exact ensures_systemCall_lists _
  | getPid state => exact ensures_systemCall_lists _
  | fork state before => exact ensures_systemCall_lists _

end Lists

section Calls

variable {s s' : System M} {w w' : Estates} {order order' : List Nat} {o o₁ p : Nat} {b : Process}

/-- What any call but the two that make address spaces is known to do. -/
theorem Sound.called {call : Call} (sound : Sound s w order) (leaves : LeavesOthers s w o₁ call) :
    Ensures (Stops M) s (System.step call) fun r s' =>
      (∃ w' order', Sound s' w' order' ∧ Effect s.kernel s'.kernel order order' r call) ∧
        Leaves s.kernel s'.kernel w o₁ ∧ Lists s s' call :=
  ((sound.step call).and (leaves.and (ensures_lists s call))).excuse fun _ => And.left

/-- What the tasks do, the kernel does: one event. -/
abbrev Follows (s : System M) (order : List Nat) (event : Event) : Prop :=
  Ensures (Stops M) s (act event) fun outcome s' =>
    ∃ B, Tasks.Step M (tasks s order) event outcome B ∧ Represents s' B

theorem follows_call {call : Call} (ensures : Ensures (Stops M) s (step call) fun r s' =>
    Pristine s' ∧ ∃ w' order', Sound s' w' order' ∧ Tasks.Step M (tasks s order) (.call call)
      (.returned (shown s.kernel call) r) (tasks s' order')) : Follows s order (.call call) := by
  apply ensures_get_bind
  apply ensures_bind ensures
  rintro r s' ⟨pristine, w', order', sound, step⟩
  exact ensures_pure _ ⟨_, step, pristine, w', order', sound, rfl⟩

/-- A system call is one of the running process. -/
theorem ensures_running {action : Action M ProcessState} {Q : Option Resumed → System M → Prop}
    (ensures : s.kernel.current ≠ 0 → Ensures (Stops M) s (systemCall action) Q) :
    Ensures (Stops M) s (systemCall action) Q := by
  by_cases running : s.kernel.current = 0
  · unfold systemCall
    apply ensures_get_bind
    rw [if_pos running]
    exact ensures_refused
  · exact ensures running

/-- `add_process` is called on a space that waits for its process. -/
theorem ensures_waiting {p : Nat} {arguments : Arguments} {before : Process}
    {Q : Option Resumed → System M → Prop}
    (ensures : p ∈ s.spaces → Ensures (Stops M) s (step (.addProcess p arguments before)) Q) :
    Ensures (Stops M) s (step (.addProcess p arguments before)) Q := by
  by_cases member : p ∈ s.spaces
  · exact ensures member
  · show Ensures (Stops M) s (addProcess p arguments before) _
    unfold addProcess
    apply ensures_get_bind
    rw [if_neg member]
    exact ensures_refused

theorem tasks_eq {A : Tasks} (ring : order = A.ring) (task : ∀ p, taskOf s.kernel p = A.task p)
    (loaded : s.loaded = A.loaded)
    (space : ∀ p, (if p ∈ s.spaces then some (s.kernel.spaceMemory p) else none) = A.space p)
    (current : s.kernel.current = A.current) (pidInc : s.kernel.pidInc = A.pidInc) :
    tasks s order = A := by
  unfold tasks
  rw [ring, funext task, loaded, funext space, current, pidInc]

theorem Sound.nobody (sound : Sound s w order) : ∀ p b, s.kernel.detail p ≠ some (0, b) :=
  fun _ _ known => sound.accounts.detail_owner known rfl

theorem Sound.newcomer (sound : Sound s w order) :
    ∀ p b, s.kernel.detail p ≠ some (s.kernel.owners, b) := by
  intro p b known
  obtain ⟨_, held, _⟩ := processOf_of_detail known
  obtain ⟨owner, held⟩ := sound.accounts.processOf_iff.mp held
  rw [sound.accounts.fresh_owner owner (Nat.le_refl _)] at held
  cases held

theorem Sound.newcomer_memory (sound : Sound s w order) {m : ProcessMemory}
    (held : (w s.kernel.owners).block .memory = some (p, .memory m)) : s.kernel.owners = 0 := by
  by_contra owner
  rw [sound.accounts.fresh_owner owner (Nat.le_refl _)] at held
  cases held

theorem Sound.spaces_same (sound : Sound s w order) (leaves : Leaves s.kernel s'.kernel w o₁)
    (spaces : s'.spaces = s.spaces)
    (other : ∀ p ∈ s.spaces, ∀ m, (w o₁).block .memory = some (p, .memory m) → o₁ = 0) (p : Nat) :
    (if p ∈ s'.spaces then some (s'.kernel.spaceMemory p) else none) =
      if p ∈ s.spaces then some (s.kernel.spaceMemory p) else none := by
  rw [spaces]
  split
  · next member => rw [sound.space_same leaves member (other p member)]
  · rfl

theorem Sound.tasks_still (sound : Sound s w order) (leaves : Leaves s.kernel s'.kernel w 0)
    (lists : s'.loaded = s.loaded ∧ s'.spaces = s.spaces) (still : Still s.kernel s'.kernel) :
    tasks s' order = tasks s order :=
  tasks_eq rfl (fun p => sound.task_same leaves (by rw [still.detail]) (sound.nobody p)) lists.1
    (sound.spaces_same leaves lists.2 fun _ _ _ _ => rfl) still.current still.pidInc

/-- The memory of the running process is what the processor finds for it. -/
theorem Sound.running_task (sound : Sound s w order) (running : s.kernel.current ≠ 0) :
    ∃ o b m, s.kernel.detail s.kernel.current = some (o, b) ∧ o ≠ 0 ∧
      (w o).Ready b.processMemory m ∧ s.kernel.cr3 / 4096 = (w o).frame .directory 0 ∧
      s.kernel.spaceMemory b.processMemory = userByte s.kernel.ram (s.kernel.cr3 / 4096) := by
  obtain ⟨o, b, m, known, owner, ready, directory⟩ := sound.current_known running
  refine ⟨o, b, m, known, owner, ready, directory, ?_⟩
  rw [sound.accounts.spaceMemory_ready owner ready, directory]

theorem printLoop_getElem {v : View} {ebx i n j : Nat} (whole : (v.printLoop ebx i n).2 = none)
    (inside : j < n) : (v.printLoop ebx i n).1[j]? = (v.cell (u32 (ebx + (i + j)))).byte := by
  induction n generalizing i j with
  | zero => exact absurd inside (Nat.not_lt_zero j)
  | succ n ih =>
    rw [View.printLoop_succ] at whole ⊢
    cases here : (v.cell (u32 (ebx + i))).byte with
    | none =>
      rw [here] at whole
      cases whole
    | some byte =>
      rw [here] at whole
      cases j with
      | zero => exact here.symm
      | succ j =>
        dsimp only at whole ⊢
        rw [List.getElem?_cons_succ, ih whole (by omega), Nat.add_right_comm i 1 j, Nat.add_assoc i j 1]

theorem printLoop_length {v : View} {ebx i n : Nat} (whole : (v.printLoop ebx i n).2 = none) :
    (v.printLoop ebx i n).1.length = n := by
  induction n generalizing i with
  | zero => rfl
  | succ n ih =>
    rw [View.printLoop_succ] at whole ⊢
    cases here : (v.cell (u32 (ebx + i))).byte with
    | none =>
      rw [here] at whole
      cases whole
    | some byte =>
      rw [here] at whole
      rw [List.length_cons, ih whole]

theorem sysPrint_shown {v : View} {state : ProcessState} :
    (v.sysPrint state).shown = (v.printLoop state.cpu.ebx 0 state.cpu.ecx).1 := by
  unfold View.sysPrint
  cases v.printLoop state.cpu.ebx 0 state.cpu.ecx with
  | mk text fault =>
    cases fault <;> rfl

/-- What user mode reads is a cell that is open to it. -/
theorem cellAt_userByte {ram : Nat → Memory} {directory : Nat} {a : UInt32} {byte : UInt8}
    (found : userByte ram directory a = some byte) :
    cellAt ram directory a.toNat = .user byte :=
  (cellAt_user a.toNat_lt).mpr (userByte_eq_some.mp found)

theorem Sound.follows_print (sound : Sound s w order) (pristine : Pristine s) (state : ProcessState) :
    Follows s order (.call (.print state)) := by
  apply follows_call
  apply ensures_running
  intro running
  obtain ⟨o, b, m, known, _, _, _, memory⟩ := sound.running_task running
  have facts := (sound.called (sound.leaves_print state)).and (ensures_print_mapped s state)
  apply (facts.excuse fun _ => And.left).mono
  rintro r s' ⟨⟨⟨w', order, sound', rfl, still, rfl⟩, leaves, lists⟩, mapped⟩
  have same := sound.tasks_still leaves lists still
  refine ⟨sound.pristine pristine leaves (by rw [lists.1]; exact fun _ => id), w', order, sound', ?_⟩
  rw [same]
  have whole : ((view s.kernel).printLoop state.cpu.ebx 0 state.cpu.ecx).2 = none :=
    View.printLoop_mapped.mpr fun i _ inside => mapped i (by omega)
  have text : shown s.kernel (.print state) =
      ((view s.kernel).printLoop state.cpu.ebx 0 state.cpu.ecx).1 := sysPrint_shown
  rw [text]
  refine .print (taskOf_known known) (printLoop_length whole) fun i byte inside found => ?_
  rw [printLoop_length whole] at inside
  rw [printLoop_getElem whole inside, Nat.zero_add]
  rw [memory] at found
  have cell := cellAt_userByte found
  rw [UInt32.toNat_ofNat'] at cell
  show (cellAt _ _ (u32 (state.cpu.ebx + i))).byte = _
  unfold u32
  rw [cell]
  rfl

theorem Sound.follows_getPid (sound : Sound s w order) (pristine : Pristine s) (state : ProcessState) :
    Follows s order (.call (.getPid state)) := by
  apply follows_call
  apply (sound.called (sound.leaves_getPid state)).mono
  rintro r s' ⟨⟨w', order, sound', rfl, still, o, b, known, rfl⟩, leaves, lists⟩
  refine ⟨sound.pristine pristine leaves (by rw [lists.1]; exact fun _ => id), w', order, sound', ?_⟩
  rw [sound.tasks_still leaves lists still]
  have here : (tasks s order).running = some _ := taskOf_known known
  exact .getPid here

/-- A call for the heap. -/
theorem Sound.follows_quiet {call : Call} (sound : Sound s w order) (pristine : Pristine s)
    (leaves : LeavesOthers s w 0 call)
    (effect : ∀ k' order' r, Effect s.kernel k' order order' r call →
      r = none ∧ order' = order ∧ Still s.kernel k')
    (lists : ∀ s', Lists s s' call → s'.loaded = s.loaded ∧ s'.spaces = s.spaces)
    (step : Tasks.Step M (tasks s order) (.call call) (.returned (shown s.kernel call) none)
      (tasks s order)) : Follows s order (.call call) := by
  apply follows_call
  apply (sound.called leaves).mono
  rintro r s' ⟨⟨w', order', sound', effects⟩, leaves, listed⟩
  obtain ⟨rfl, rfl, still⟩ := effect _ _ _ effects
  have lists := lists s' listed
  refine ⟨sound.pristine pristine leaves (by rw [lists.1]; exact fun _ => id), w', _, sound', ?_⟩
  rw [sound.tasks_still leaves lists still]
  exact step

theorem Sound.follows_yield (sound : Sound s w order) (pristine : Pristine s) (state : ProcessState) :
    Follows s order (.call (.yield state)) := by
  apply follows_call
  apply ensures_running
  intro running
  apply (sound.called (sound.leaves_yield state)).mono
  rintro r s' ⟨⟨w', order, sound', rfl, ⟨current, _⟩, pidInc, ⟨o, b, known, detail⟩, o', b', known', rfl⟩,
    leaves, lists⟩
  refine ⟨sound.pristine pristine leaves (by rw [lists.1]; exact fun _ => id), w', order, sound', ?_⟩
  obtain ⟨m, ready⟩ := sound.processes _ _ _ known
  have owner := sound.accounts.detail_owner known
  have after : (tasks s order).after = s'.kernel.current := by rw [sound.after running, current]
  have same : tasks s' order = (tasks s order).leave (some ⟨state, b.pid,
      s.kernel.spaceMemory b.processMemory⟩) order := by
    refine tasks_eq rfl (fun p => ?_) lists.1 (sound.spaces_same leaves lists.2 fun _ _ _ _ => rfl)
      after.symm pidInc
    show _ = Function.update (taskOf s.kernel) s.kernel.current _ p
    by_cases here : p = s.kernel.current
    · rw [here, Function.update_self]
      rw [taskOf_known (by rw [detail, Function.update_self]), leaves.spaces o owner owner _ m ready]
    · rw [Function.update_of_ne here]
      exact sound.task_same leaves (by rw [detail, Function.update_of_ne here]) (sound.nobody p)
  have next : (tasks s' order).task (tasks s order).after = some ⟨b'.processState, b'.pid,
      s'.kernel.spaceMemory b'.processMemory⟩ := by
    rw [after]
    exact taskOf_known known'
  have here : (tasks s order).running = some _ := taskOf_known known
  rw [same] at next ⊢
  rw [← after]
  exact .yield here next

theorem Sound.follows_handleExit (sound : Sound s w order) (pristine : Pristine s)
    (state : ProcessState) : Follows s order (.call (.handleExit state)) := by
  apply follows_call
  apply ensures_running
  intro running
  obtain ⟨o, b, m, known, _⟩ := sound.current_known running
  apply (sound.called (sound.leaves_handleExit state known)).mono
  rintro r s' ⟨⟨w', _, sound', ⟨l₁, l₂, rfl, rfl⟩, current, pidInc, detail, o', b', known', rfl⟩,
    leaves, lists⟩
  refine ⟨sound.pristine pristine leaves (by rw [lists.1]; exact fun _ => id), w', l₁ ++ l₂, sound', ?_⟩
  have after : (tasks s (l₁ ++ s.kernel.current :: l₂)).after = s'.kernel.current := by
    rw [sound.after running, current]
  have left : (l₁ ++ s.kernel.current :: l₂).erase s.kernel.current = l₁ ++ l₂ := by
    have once := sound.linked.ring.nodup
    have apart : s.kernel.current ∉ l₁ := fun member =>
      (List.nodup_append.mp once).2.2 _ member _ List.mem_cons_self rfl
    rw [List.erase_append_right _ apart, List.erase_cons_head]
  have other : s'.kernel.current ≠ s.kernel.current := by
    intro same
    rw [same, detail, Function.update_self] at known'
    cases known'
  have same : tasks s' (l₁ ++ l₂) = (tasks s (l₁ ++ s.kernel.current :: l₂)).leave none
      ((l₁ ++ s.kernel.current :: l₂).erase s.kernel.current) := by
    refine tasks_eq left.symm (fun p => ?_) lists.1
      (sound.spaces_same leaves lists.2 fun p member m held => (sound.space_apart known member held).elim)
      after.symm pidInc
    show _ = Function.update (taskOf s.kernel) s.kernel.current _ p
    by_cases here : p = s.kernel.current
    · rw [here, Function.update_self]
      unfold taskOf
      rw [detail, Function.update_self, Option.map_none]
    · rw [Function.update_of_ne here]
      exact sound.task_same leaves (by rw [detail, Function.update_of_ne here]) fun b' found =>
        here (sound.accounts.detail_unique found known)
  have next : (tasks s (l₁ ++ s.kernel.current :: l₂)).task s'.kernel.current =
      some ⟨b'.processState, b'.pid, s'.kernel.spaceMemory b'.processMemory⟩ := by
    have there : (tasks s' (l₁ ++ l₂)).task s'.kernel.current = _ := taskOf_known known'
    rw [same] at there
    exact (Function.update_of_ne other ..).symm.trans there
  have here : (tasks s (l₁ ++ s.kernel.current :: l₂)).running = some _ := taskOf_known known
  rw [same, ← after]
  rw [← after] at next other
  exact .handleExit here other next

theorem Sound.absent (sound : Sound s w order) (p : Nat) (other : p ∉ order) :
    s.kernel.detail p = none := by
  rw [sound.linked.live, Option.not_isSome_iff_eq_none] at other
  exact other

/-- A process that joins is one more, and the others are as they were. -/
theorem Sound.task_joined (sound : Sound s w order) {k' : Kernel M} {q : Nat}
    (leaves : Leaves s.kernel k' w o)
    (detail : k'.detail = Function.update s.kernel.detail q (some (o, b)))
    (new : ∀ p b, s.kernel.detail p ≠ some (o, b)) (p : Nat) : taskOf k' p =
      Function.update (taskOf s.kernel) q
        (some ⟨b.processState, b.pid, k'.spaceMemory b.processMemory⟩) p := by
  by_cases here : p = q
  · rw [here, Function.update_self]
    exact taskOf_known (by rw [detail, Function.update_self])
  · rw [Function.update_of_ne here]
    exact sound.task_same leaves (by rw [detail, Function.update_of_ne here]) (new p)

theorem Sound.follows_fork (sound : Sound s w order) (pristine : Pristine s) (state : ProcessState)
    (before : Process) : Follows s order (.call (.fork state before)) := by
  apply follows_call
  have facts := (sound.ensures_fork state before).and
    ((sound.leaves_fork state before).and (ensures_lists s (.fork state before)))
  apply (facts.excuse fun _ => And.left).mono
  rintro r s' ⟨⟨w', order', sound', ⟨rfl, o₂, memory, joins⟩, o, b, m, m', p, forked⟩, leaves, lists⟩
  refine ⟨sound.pristine pristine leaves (by rw [lists.1]; exact fun _ => id), w', order', sound', ?_⟩
  obtain ⟨q, absent, rfl, detail⟩ := joins.ring
  have last := sound'.linked.last_concat
  have child := forked.child
  rw [last, detail, Function.update_self, Option.some.injEq] at child
  rw [child] at detail
  have owner : s.kernel.owners ≠ 0 := Nat.ne_of_gt sound.accounts.owners
  have copy : s'.kernel.spaceMemory p = s.kernel.spaceMemory b.processMemory :=
    sound.accounts.spaceMemory_cloned sound'.accounts forked.owner owner forked.ready forked.cloned
  have here : (tasks s order).running = some _ := taskOf_known forked.parent
  have stays : tasks s' (order ++ [q]) = (tasks s order).join q (withEax state 0)
      (s.kernel.spaceMemory b.processMemory) := by
    refine tasks_eq rfl (fun p' => ?_) lists.1 (sound.spaces_same leaves lists.2
      fun _ _ _ held => sound.newcomer_memory held) joins.current joins.pidInc
    rw [← copy]
    exact sound.task_joined leaves detail sound.newcomer p'
  rw [stays]
  exact .fork here absent

theorem Sound.follows_runProcess (sound : Sound s w order) (pristine : Pristine s) (p : Nat) :
    Follows s order (.call (.runProcess p)) := by
  apply follows_call
  apply (sound.called (sound.leaves_runProcess p)).mono
  rintro r s' ⟨⟨w', order, sound', idle, rfl, detail, current, pidInc, o, b, known, rfl⟩, leaves, lists⟩
  refine ⟨sound.pristine pristine leaves (by rw [lists.1]; exact fun _ => id), w', order, sound', ?_⟩
  have same : tasks s' order = { tasks s order with current := p } :=
    tasks_eq rfl (fun p => sound.task_same leaves (by rw [detail]) (sound.nobody p)) lists.1
      (sound.spaces_same leaves lists.2 fun _ _ _ _ => rfl) current pidInc
  have next : (tasks s' order).task s'.kernel.current = some _ := taskOf_known known
  rw [same, current] at next
  rw [same, current]
  exact .runProcess (A := tasks s order) idle next

/-- A loaded module's memory, its kernel stack, and what the load leaves alone. -/
theorem Sound.memory_loadModule (sound : Sound s w order) (i : Nat) :
    Ensures (Stops M) s (System.step (.loadModule i)) fun _ s' => ∃ module p,
      M.modules[i]? = some module ∧ s'.spaces = p :: s.spaces ∧
        Leaves s.kernel s'.kernel w s.kernel.owners ∧
        LoadedMemory module s.kernel.ram (s'.kernel.spaceMemory p) ∧
        (∃ m, s'.kernel.blocks p = some ⟨.memory m, .memory, s.kernel.owners⟩) ∧
        s'.kernel.HasPage s.kernel.owners 1022 1023 := by
  show Ensures (Stops M) s (loadModule i) _
  unfold loadModule
  apply ensures_get_bind
  cases found : M.modules[i]? with
  | none => exact ensures_refused
  | some module =>
    refine ensures_ite (fun _ => ensures_refused) fun new => ?_
    have accounts : Accounts False False (M.loadAsks M.nothing module) s.kernel w :=
      sound.accounts.unbounded _
    have owner : s.kernel.owners ≠ 0 := Nat.ne_of_gt sound.accounts.owners
    apply ensures_onKernel (accounts.ensures_loadModule (List.mem_of_getElem? found)
      (sound.modules i module found new))
    rintro p k' ⟨E, m, accounts', _, _, ready, _, _, _, has, few, copied⟩
    have own : Function.update w s.kernel.owners E s.kernel.owners = E := Function.update_self ..
    have stack : E.Has 1022 1023 := (has 1022 1023).mpr (Or.inr ⟨Or.inr rfl, rfl⟩)
    refine ensures_modify_bind (ensures_pure _ ⟨module, p, rfl, rfl, ?_,
      accounts'.loadedMemory owner ready has few copied,
      ⟨m, accounts'.live owner (by rw [own]; exact ready.laid.memory)⟩,
      (accounts'.hasPage_iff owner).mpr (by rw [own]; exact stack)⟩)
    have same : ∀ o, o ≠ s.kernel.owners → Function.update w s.kernel.owners E o = w o :=
      fun o other => Function.update_of_ne other ..
    refine ⟨fun o owner other p m ready => ?_, fun o owner other role _ q body live => ?_,
      copied.contents, fun f reserved => (copied.spares f reserved).1,
      fun f reserved => sound.accounts.bytes_spared copied.spares reserved⟩
    · exact sound.accounts.spaceMemory_same accounts' owner ready (by rw [same o other])
    · rw [← sound.accounts.owned o owner] at live
      rw [← accounts'.owned o owner, same o other, live]

/-- Before its load a module is what the boot loader left. -/
theorem LoadedMemory.pristine {i : Nat} {module : Module} {memory : UserMemory}
    (image : LoadedMemory module s.kernel.ram memory) (pristine : Pristine s)
    (found : M.modules[i]? = some module) (new : i ∉ s.loaded) : LoadedMemory module M.ram memory where
  code := fun a inside => by
    have pages := numCodePages_eq module
    have aligned := module.aligned
    rw [image.code a inside, pristine i module found new _ ⟨by omega, by omega⟩ _
      (Nat.mod_lt _ (by decide))]
  mapped := image.mapped

theorem Sound.follows_loadModule (sound : Sound s w order) (pristine : Pristine s) (i : Nat) :
    Follows s order (.call (.loadModule i)) := by
  apply follows_call
  have facts := (sound.step (.loadModule i)).and
    ((sound.memory_loadModule i).and (ensures_lists s (.loadModule i)))
  apply (facts.excuse fun _ => And.left).mono
  rintro r s' ⟨⟨w', order, sound', rfl, rfl, still⟩, ⟨module, p, found, spaces, leaves, image, _⟩,
    _, new, loaded, _⟩
  refine ⟨sound.pristine pristine leaves fun j member => ?_, w', order, sound', ?_⟩
  · rw [loaded]
    exact List.mem_cons_of_mem i member
  have once := sound'.once
  rw [spaces] at once
  have fresh : p ∉ s.spaces := (List.nodup_cons.mp once).1
  have same : tasks s' order = { tasks s order with
      loaded := i :: s.loaded
      space := Function.update (tasks s order).space p (some (s'.kernel.spaceMemory p)) } := by
    refine tasks_eq rfl (fun p => sound.task_same leaves (by rw [still.detail]) (sound.newcomer p))
      loaded (fun q => ?_) still.current still.pidInc
    dsimp only
    rw [spaces]
    by_cases here : q = p
    · rw [here, Function.update_self, if_pos List.mem_cons_self]
    · rw [Function.update_of_ne here]
      show _ = if q ∈ s.spaces then some (s.kernel.spaceMemory q) else none
      by_cases member : q ∈ s.spaces
      · rw [if_pos (List.mem_cons_of_mem p member), if_pos member, sound.space_same leaves member
          fun _ held => sound.newcomer_memory held]
      · rw [if_neg member, if_neg (by simp [here, member])]
  rw [same]
  exact .loadModule found new (if_neg fresh) (LoadedMemory.pristine image pristine found new)

/-- The new process and the memory it starts with, and what its start leaves alone. -/
theorem Sound.memory_addProcess (sound : Sound s w order) {m : ProcessMemory} (arguments : Arguments)
    (before : Process) (owner : o ≠ 0) (ready : (w o).Ready p m) (zero : m.pageTables 1 = 0)
    (alone : ∀ q b, s.kernel.detail q ≠ some (o, b)) :
    Ensures (Stops M) s (System.step (.addProcess p arguments before)) fun _ s' =>
      (∃ q, q ∉ order ∧ s'.kernel.detail = Function.update s.kernel.detail q
        (some (o, withArguments arguments (linkedProcess p s.kernel.pidInc before)))) ∧
      Leaves s.kernel s'.kernel w o ∧
      (∀ i j, i ≠ 1 → s.kernel.HasPage o i j → s'.kernel.HasPage o i j) ∧
      ∃ old, ∀ a, s'.kernel.spaceMemory p a =
        argumentsMemory arguments.argv0 old (s.kernel.spaceMemory p) a := by
  show Ensures (Stops M) s (addProcess p arguments before) _
  unfold addProcess
  refine ensures_get_bind (ensures_ite (fun _ => ?_) fun _ => ensures_refused)
  have drawn : o < s.kernel.owners :=
    (sound.accounts.blocks _ _ (sound.accounts.live owner ready.laid.memory)).2.2.1
  have accounts : Accounts False False (M.addAsks M.nothing) s.kernel w := sound.accounts.unbounded _
  have new := sound.accounts.no_process owner alone
  have adds : Ensures (Excused M False False) s.kernel (Kernel.addProcess p arguments before) _ :=
    accounts.ensures_addProcess owner drawn ready zero new sound.linked
  have both := adds.and (accounts.ensures_addProcess_memory owner drawn ready zero new sound.linked)
  apply ensures_onKernel (both.excuse fun _ => And.left)
  rintro q k' ⟨⟨_, _, absent, _, _, detail⟩, rest⟩
  exact ensures_modify_bind (ensures_pure _ ⟨⟨q, absent, detail⟩, rest⟩)

theorem Sound.follows_addProcess (sound : Sound s w order) (pristine : Pristine s) (p : Nat)
    (arguments : Arguments) (before : Process) :
    Follows s order (.call (.addProcess p arguments before)) := by
  apply follows_call
  refine ensures_waiting fun member => ?_
  obtain ⟨o, m, owner, ready, zero, alone⟩ := sound.spaces p member
  have facts := (sound.step (.addProcess p arguments before)).and
    ((sound.memory_addProcess arguments before owner ready zero alone).and
      (ensures_lists s (.addProcess p arguments before)))
  apply (facts.excuse fun _ => And.left).mono
  rintro r s' ⟨⟨w', order', sound', rfl, o', joins⟩, ⟨⟨q, absent, detail⟩, leaves, _, old, memory⟩,
    _, loaded, spaces⟩
  refine ⟨sound.pristine pristine leaves (by rw [loaded]; exact fun _ => id), w', order', sound', ?_⟩
  obtain ⟨q', absent', rfl, detail'⟩ := joins.ring
  have named : q' = q := by
    by_contra other
    have both := congrFun (detail'.symm.trans detail) q'
    rw [Function.update_self, Function.update_of_ne other, sound.absent q' absent'] at both
    cases both
  subst named
  have held : (tasks s order).space p = some (s.kernel.spaceMemory p) := if_pos member
  have same : tasks s' (order ++ [q']) =
      { tasks s order with space := Function.update (tasks s order).space p none }.join q'
        (startState arguments before)
        (argumentsMemory arguments.argv0 old (s.kernel.spaceMemory p)) := by
    rw [← funext memory]
    refine tasks_eq rfl (fun p' => sound.task_joined leaves detail alone p') loaded (fun p' => ?_)
      joins.current joins.pidInc
    show _ = Function.update (tasks s order).space p none p'
    rw [spaces]
    by_cases here : p' = p
    · rw [here, Function.update_self, if_neg (sound.once.not_mem_erase)]
    · rw [Function.update_of_ne here]
      show _ = if p' ∈ s.spaces then some (s.kernel.spaceMemory p') else none
      by_cases listed : p' ∈ s.spaces
      · rw [if_pos ((List.mem_erase_of_ne here).mpr listed), if_pos listed,
          sound.space_same leaves listed]
        intro m₂ held
        have same := ready.laid.memory.symm.trans held
        exact absurd (Prod.mk.inj (Option.some.inj same)).1.symm here
      · rw [if_neg (fun later => listed (List.mem_of_mem_erase later)), if_neg listed]
  rw [same]
  exact .addProcess old held absent'

end Calls

section Running

variable {s : System M} {w : Estates} {order : List Nat}

theorem ensures_reach {a : UInt32} {write : Bool} :
    Ensures (Stops M) s (reach a write) fun place s' => s' = s ∧ s.kernel.current ≠ 0 ∧
      userTranslate s.kernel.ram (s.kernel.cr3 / 4096) a.toNat write = some place := by
  unfold reach
  refine ensures_get_bind (ensures_ite (fun _ => ensures_refused) fun running => ?_)
  cases found : userTranslate s.kernel.ram (s.kernel.cr3 / 4096) a.toNat write with
  | none => exact ensures_throw _ ⟨nofun, nofun⟩
  | some place => exact ensures_pure _ ⟨rfl, running, rfl⟩

theorem Sound.follows_load (sound : Sound s w order) (pristine : Pristine s) (a : UInt32) :
    Follows s order (.load a) := by
  apply ensures_bind ensures_reach
  rintro ⟨f, x⟩ s ⟨rfl, running, found⟩
  apply ensures_get_bind
  obtain ⟨o, b, m, known, _, _, _, memory⟩ := sound.running_task running
  have here : (tasks s order).running = some _ := taskOf_known known
  refine ensures_pure _ ⟨_, .load here ?_, pristine, w, order, sound, rfl⟩
  dsimp only
  rw [memory]
  unfold userByte
  rw [found, Option.map_some]

theorem Sound.follows_store (sound : Sound s w order) (pristine : Pristine s) (a : UInt32)
    (byte : UInt8) : Follows s order (.store a byte) := by
  apply ensures_bind ensures_reach
  rintro ⟨f, x⟩ s ⟨rfl, running, found⟩
  have found := userTranslate_of_write found
  obtain ⟨o, b, m, known, owner, ready, directory, memory⟩ := sound.running_task running
  obtain ⟨user, rfl⟩ := (userTranslate_read a.toNat_lt).mp found
  rw [directory] at user
  have opens := (sound.accounts.user_opens owner ready).mp user
  obtain ⟨E, accounts', steady, readies, frame, block, changed⟩ :=
    sound.accounts.stored owner ready opens byte
  have own : Function.update w o E o = E := Function.update_self ..
  have same : ∀ o', o' ≠ o → Function.update w o E o' = w o' := fun o' other =>
    Function.update_of_ne other ..
  have leaves : Leaves s.kernel (s.kernel.stored f (a.toNat % 4096) byte) w o :=
    sound.accounts.leaves accounts' (fun o' _ other => by rw [same o' other])
      (sound.accounts.spared steady)
  have sound' : Sound { s with kernel := s.kernel.stored f (a.toNat % 4096) byte }
      (Function.update w o E) order := by
    refine sound.carry o accounts' ⟨sound.linked.ring, sound.linked.live, sound.linked.first,
      sound.linked.last, sound.linked.current⟩ (fun o' _ other => by rw [same o' other])
      (fun p o' b' found => ?_) (fun p member => Or.inl ⟨member, fun m held => ?_⟩) sound.once
      (fun i m _ new => ⟨new, fun f _ use => steady.modules f i use⟩) fun _ => ⟨o, b, known, ?_⟩
    · by_cases mine : o' = o
      · subst mine
        obtain ⟨m', ready'⟩ := sound.processes p _ b' found
        exact Or.inr ⟨rfl, m', by rw [own]; exact readies _ _ ready'⟩
      · exact Or.inl ⟨mine, b', found, rfl⟩
    · exact (sound.space_apart known member held).elim
    · rw [own, frame]
      exact directory
  have here : (tasks s order).running = some _ := taskOf_known known
  have old : (s.kernel.spaceMemory b.processMemory) a = some (s.kernel.ram f (a.toNat % 4096)) := by
    rw [memory]
    unfold userByte
    rw [found, Option.map_some]
  refine ensures_modify_bind (ensures_pure _ ⟨_, .store byte here old,
    sound.pristine pristine leaves fun _ => id, _, order, sound', ?_⟩)
  symm
  refine tasks_eq rfl (fun p => ?_) rfl (sound.spaces_same leaves rfl fun p member m held =>
    (sound.space_apart known member held).elim) rfl rfl
  show taskOf (s.kernel.stored f (a.toNat % 4096) byte) p =
    Function.update (taskOf s.kernel) s.kernel.current _ p
  by_cases mine : p = s.kernel.current
  · rw [mine, Function.update_self, ← changed]
    exact taskOf_known known
  · rw [Function.update_of_ne mine]
    exact sound.task_same leaves rfl fun b' found => mine (sound.accounts.detail_unique found known)

/-- What any event does to the kernel, a step of the tasks allows. -/
theorem Sound.follows (sound : Sound s w order) (pristine : Pristine s) (event : Event) :
    Follows s order event := by
  cases event with
  | load a => exact sound.follows_load pristine a
  | store a byte => exact sound.follows_store pristine a byte
  | call call =>
    cases call with
    | loadModule i => exact sound.follows_loadModule pristine i
    | addProcess p arguments before => exact sound.follows_addProcess pristine p arguments before
    | runProcess p => exact sound.follows_runProcess pristine p
    | print state => exact sound.follows_print pristine state
    | yield state => exact sound.follows_yield pristine state
    | handleExit state => exact sound.follows_handleExit pristine state
    | getPid state => exact sound.follows_getPid pristine state
    | fork state before => exact sound.follows_fork pristine state before
    | malloc size =>
      exact sound.follows_quiet pristine (sound.leaves_malloc size) (fun _ _ _ effect => effect)
        (fun _ lists => lists) (.malloc size)
    | mallocPages pages =>
      exact sound.follows_quiet pristine (sound.leaves_mallocPages pages) (fun _ _ _ effect => effect)
        (fun _ lists => lists) (.mallocPages pages)
    | free pointer =>
      exact sound.follows_quiet pristine (sound.leaves_free pointer) (fun _ _ _ effect => effect)
        (fun _ lists => lists) (.free pointer)

theorem simulates : Simulates (Stops M) (act (M := M)) (Tasks.Step M) Represents := by
  rintro s A event ⟨pristine, w, order, sound, rfl⟩
  exact sound.follows pristine event

theorem boot_represents : Represents (boot M) Tasks.start := by
  refine ⟨fun _ _ _ _ _ _ _ _ => rfl, _, [], boot_sound, ?_⟩
  symm
  refine tasks_eq rfl (fun _ => rfl) rfl (fun p => ?_) rfl rfl
  exact if_neg (List.not_mem_nil)

/-- Whatever the programs do and ask for, in any order, they see what the tasks show: the kernel
keeps to a run of them, and its processes stand for the ones that run leaves. -/
theorem play_refines (events : List Event) :
    Ensures (Stops M) (boot M) (play events) fun outcomes s => ∃ order, Ring s.kernel order ∧
      Runs (Tasks.Step M) Tasks.start events outcomes (tasks s order) := by
  apply (simulates.run boot_represents events).mono
  rintro outcomes s ⟨A, run, _, w, order, sound, rfl⟩
  exact ⟨order, ring_of_linked sound.linked, run⟩

/-- A process that gets no turn finds its registers, its pid and every byte of its memory as it
left them, whatever the others do meanwhile. -/
theorem waiting_undisturbed (before after : List Event) :
    Ensures (Stops M) (boot M) (play before) fun _ s => Ensures (Stops M) s (play after)
      fun outcomes s' => ∀ p, p ≠ s.kernel.current → (s.kernel.processOf p).isSome = true →
        Tasks.NoTurn p outcomes → taskOf s'.kernel p = taskOf s.kernel p := by
  apply (simulates.run boot_represents before).mono
  rintro _ s ⟨A, _, pristine, w, order, sound, rfl⟩
  apply (simulates.run ⟨pristine, w, order, sound, rfl⟩ after).mono
  rintro outcomes s' ⟨B, run, _, w', order', _, rfl⟩ p other live none
  exact Tasks.waiting_run run sound.formed (sound.live_iff.mp live) other none

theorem reach_ok {a : UInt32} {write : Bool} {place : Nat × Nat} (running : s.kernel.current ≠ 0)
    (found : userTranslate s.kernel.ram (s.kernel.cr3 / 4096) a.toNat write = some place) :
    reach a write s = .ok (place, s) := by
  unfold reach
  simp only [bind, StateT.bind, get, getThe, MonadStateOf.get, StateT.get, pure, Except.pure,
    Except.bind, running, ↓reduceIte, found]
  rfl

/-- A byte of the running process is open to its loads and to its stores. -/
theorem Sound.held_place (sound : Sound s w order) {a : UInt32} {byte : UInt8}
    (holds : (tasks s order).Holds s.kernel.current a byte) :
    ∃ f, s.kernel.ram f (a.toNat % 4096) = byte ∧
      ∀ write, reach a write s = .ok ((f, a.toNat % 4096), s) := by
  obtain ⟨t, found, memory⟩ := holds
  have found : taskOf s.kernel s.kernel.current = some t := found
  have running : s.kernel.current ≠ 0 := by
    intro idle
    unfold taskOf at found
    rw [Option.map_eq_some_iff] at found
    obtain ⟨⟨o, b⟩, known, _⟩ := found
    exact sound.accounts.detail_ne_zero known idle
  obtain ⟨o, b, m, known, owner, ready, directory, reads⟩ := sound.running_task running
  rw [taskOf_known known] at found
  cases found
  dsimp only at memory
  rw [reads] at memory
  obtain ⟨f, user, byte⟩ := userByte_eq_some.mp memory
  refine ⟨f, byte, fun write => reach_ok running ?_⟩
  cases write with
  | false => exact (userTranslate_read a.toNat_lt).mpr ⟨user, rfl⟩
  | true =>
    rw [directory] at user ⊢
    exact ((sound.accounts.user_opens owner ready).mp user).writable sound.accounts owner ready

/-- The running process reads what its memory holds. -/
theorem Sound.load_held (sound : Sound s w order) {a : UInt32} {byte : UInt8}
    (holds : (tasks s order).Holds s.kernel.current a byte) :
    act (.load a) s = .ok (.loaded byte, s) := by
  obtain ⟨f, rfl, reaches⟩ := sound.held_place holds
  show (reach a false >>= _) s = _
  simp only [bind, StateT.bind, Except.bind, reaches]
  rfl

/-- A process reads at an address what it stored there last, with any turns of the others in
between. -/
theorem load_gives_stored (before middle : List Event) (a : UInt32) (byte : UInt8) :
    Ensures (Stops M) (boot M) (play before) fun _ s => Ensures (Stops M) s (act (.store a byte))
      fun _ s => Ensures (Stops M) s (play middle) fun outcomes s' =>
        Tasks.Unwritten s.kernel.current a s.kernel.current middle outcomes →
        s'.kernel.current = s.kernel.current → act (.load a) s' = .ok (.loaded byte, s') := by
  apply (simulates.run boot_represents before).mono
  rintro _ s ⟨A, _, represents⟩
  apply (simulates s A (.store a byte) represents).mono
  rintro _ s₁ ⟨B, step, pristine, w, order, sound, rfl⟩
  apply (simulates.run ⟨pristine, w, order, sound, rfl⟩ middle).mono
  rintro outcomes s₂ ⟨C, run, _, w', order', sound', rfl⟩ unwritten back
  apply sound'.load_held
  rw [back]
  exact Tasks.holds_run run sound.formed step.stored unwritten

/-- What a program may read it may write, its own code too, and nothing else. -/
theorem store_iff_load (events : List Event) :
    Ensures (Stops M) (boot M) (play events) fun _ s => ∀ a byte,
      (∃ s', act (.store a byte) s = .ok (.stored, s')) ↔
        ∃ old, act (.load a) s = .ok (.loaded old, s) := by
  apply (simulates.run boot_represents events).mono
  rintro _ s ⟨A, _, pristine, w, order, sound, rfl⟩ a byte
  constructor
  · rintro ⟨s', stored⟩
    obtain ⟨B, step, _⟩ := (sound.follows pristine (.store a byte)).result stored
    cases step with
    | store _ here mapped => exact ⟨_, sound.load_held ⟨_, here, mapped⟩⟩
  · rintro ⟨old, loaded⟩
    obtain ⟨B, step, _⟩ := (sound.follows pristine (.load a)).result loaded
    have holds : (tasks s order).Holds s.kernel.current a old := by
      cases step with
      | load here mapped => exact ⟨_, here, mapped⟩
    obtain ⟨f, _, reaches⟩ := sound.held_place holds
    refine ⟨{ s with kernel := s.kernel.stored f (a.toNat % 4096) byte }, ?_⟩
    show (reach a true >>= _) s = _
    simp only [bind, StateT.bind, Except.bind, reaches]
    rfl

end Running

end System

end Snfos
