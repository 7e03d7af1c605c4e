import Snfos.StartUp
import Snfos.UserPrint

set_option autoImplicit false

/- `kernel_main`: it loads the one module that the boot loader brought and runs it as the first
process. -/
namespace Snfos

open ByteMemory Kernel Command

/-- The heap ends in the 4 MiB that all directories share. -/
def Machine.inWindow (M : Machine) : M.Budget := fun h _ => M.allocator.heapEnd h ≤ 0xC0400000

namespace System

variable {M : Machine} {F : Prop} {s : System M} {A : Tasks} {spare : M.Budget} {i p : Nat}
  {module : Module}

section Beginning

theorem act_call {s' : System M} {call : Call} {turn : Option Resumed}
    (stepped : step call s = .ok (turn, s')) :
    act (.call call) s = .ok (.returned (shown s.kernel call) turn, s') := by
  show (get >>= fun s₀ : System M => step call >>= fun turn =>
    pure (Outcome.returned (shown s₀.kernel call) turn) : Run M Outcome) s = _
  simp only [bind, StateT.bind, get, getThe, MonadStateOf.get, StateT.get, pure, Except.pure,
    Except.bind, stepped]
  rfl

theorem current_of_represents (represents : Represents s A) : s.kernel.current = A.current := by
  obtain ⟨_, w, order, _, rfl⟩ := represents
  rfl

/-- What `load_module` gives is what the tasks make of the call. -/
theorem ensures_loaded (represents : Represents s A) (found : M.modules[i]? = some module)
    (new : i ∉ s.loaded) (funded : F → Funded (M.loadAsks spare module) s.kernel) :
    Ensures (Excused M F F) s.kernel (Kernel.loadModule module) fun p k => (F → Funded spare k) ∧
      module.numCodePages ≤ 1024 ∧ ∃ B, Tasks.Step M A (.call (.loadModule i)) (.returned [] none) B ∧
        Represents ⟨k, i :: s.loaded, p :: s.spaces⟩ B := by
  have follows := simulates s A (.call (.loadModule i)) represents
  obtain ⟨_, w, order, sound, _⟩ := represents
  have loads := (sound.accounts.supposing funded).ensures_loadModule (List.mem_of_getElem? found)
    (sound.modules i module found new)
  apply loads.known.mono
  rintro p k ⟨result, E, m, accounts, _, _, _, _, _, _, _, few, _⟩
  exact ⟨accounts.funded_of, few, follows.result (act_call (loadModule_ok found new result))⟩

theorem ensures_added (represents : Represents s A) (member : p ∈ s.spaces) (arguments : Arguments)
    (before : Process) (funded : F → Funded (M.addAsks spare) s.kernel) :
    Ensures (Excused M F F) s.kernel (Kernel.addProcess p arguments before) fun q k =>
      (F → Funded spare k) ∧ (k.detail q).isSome = true ∧
        ∃ B, Tasks.Step M A (.call (.addProcess p arguments before)) (.returned [] none) B ∧
          Represents ⟨k, s.loaded, s.spaces.erase p⟩ B := by
  have follows := simulates s A (.call (.addProcess p arguments before)) represents
  obtain ⟨_, w, order, sound, _⟩ := represents
  obtain ⟨o, m, owner, ready, zero, alone⟩ := sound.spaces p member
  have drawn : o < s.kernel.owners :=
    (sound.accounts.blocks _ _ (sound.accounts.live owner ready.laid.memory)).2.2.1
  have adds : Ensures (Excused M F F) s.kernel (Kernel.addProcess p arguments before) _ :=
    (sound.accounts.supposing funded).ensures_addProcess owner drawn ready zero
      (sound.accounts.no_process owner alone) sound.linked
  apply adds.known.mono
  rintro q k ⟨result, ⟨w', accounts, _⟩, _, _, _, _, detail⟩
  refine ⟨accounts.funded_of, ?_, follows.result (act_call (addProcess_ok member result))⟩
  rw [detail, Function.update_self]
  rfl

theorem ensures_ran (represents : Represents s A) (idle : s.kernel.current = 0)
    (live : (s.kernel.detail p).isSome = true) (funded : F → Funded M.inWindow s.kernel) :
    Ensures (Excused M F F) s.kernel (Kernel.runProcess p) fun state k =>
      ∃ B, Tasks.Step M A (.call (.runProcess p)) (.returned [] (some ⟨k.current, state⟩)) B ∧
        Represents { s with kernel := k } B := by
  have follows := simulates s A (.call (.runProcess p)) represents
  obtain ⟨_, w, order, sound, _⟩ := represents
  obtain ⟨⟨o, b⟩, known⟩ := Option.isSome_iff_exists.mp live
  obtain ⟨m, ready⟩ := sound.processes p o b known
  have runs := (sound.accounts.supposing funded).ensures_runProcess known ready fun so => by
    obtain ⟨_, _, inside⟩ := (funded so).supply
    exact inside
  have there : (s.kernel.processOf p).isSome = true := by
    obtain ⟨pr, found, _⟩ := processOf_of_detail known
    rw [found]
    rfl
  apply runs.known.mono
  rintro state k ⟨result, _⟩
  exact follows.result (act_call (runProcess_ok ⟨idle, there⟩ result))

end Beginning

end System

namespace StartUp

variable (S : StartUp)

/-- What `kernel_main` prints of a boot loader that is none of multiboot's. -/
def invalidBootloader (eax ebx : Nat) : List UInt8 :=
  (Printf.kernelPrintf (fun _ => [])
    "ERROR: INVALID BOOTLOADER\neax: %#.8X\nebx: %#.8X\n".toUTF8.toList [eax, ebx]).2

/-- `Process1` without its NUL. -/
def process1Name : List UInt8 := [80, 114, 111, 99, 101, 115, 115, 49]

/-- The one argument of the first program is its name. `envp` is an array of none on the stack. -/
def process1Arguments (envp : Nat) : Arguments where
  argc := 1
  argv0 := process1Name
  envc := 0
  envp := envp
  short := by decide

/-- The flags say that there are modules, and there is one. -/
def OneModule : Prop := S.boot.modsCount = 1 ∧ S.boot.flags &&& (1 <<< 3) ≠ 0

instance : Decidable S.OneModule := inferInstanceAs (Decidable (_ ∧ _))

/-- `kernel_main` after `init_bitmap`, with what it prints and the registers of the process that it
runs. Without one it loops, or comes back to `boot.S`, which halts. It hands the first module on
before it looks whether there is one. -/
def kernelMain (eax envp : Nat) (before : Process) :
    Action S.machine (List UInt8 × Option ProcessState) :=
  if eax ≠ 0x2BADB002 then pure (invalidBootloader eax S.ebx, none)
  else
    match S.modules[0]? with
    | none => throw .undefined
    | some module => do
        let process1 ← loadModule module
        if S.OneModule then do
          let p1 ← addProcess process1 (process1Arguments envp) before
          let processState ← runProcess p1
          pure ([], some processState)
        else pure ([], none)

/-- Process 1 runs in user mode: on the bytes that the boot loader left in its module, with its
name in the page of the arguments and one page for its stack, and on nothing else. -/
structure RunsProcess1 (envp : Nat) (before : Process) (k : Kernel S.machine) : Prop where
  task : System.taskOf k k.current =
    some ⟨startState (process1Arguments envp) before, 1, userByte k.ram (k.cr3 / 4096)⟩
  code : ∀ a : UInt32, a.toNat < S.loaded.modEnd 0 - S.loaded.modStart 0 →
    userByte k.ram (k.cr3 / 4096) a = some (S.image.bytes (S.loaded.modStart 0 + a.toNat))
  arguments : ∃ old, ∀ a : UInt32, 0x400000 ≤ a.toNat → a.toNat < 0x401000 →
    userByte k.ram (k.cr3 / 4096) a = some (withText process1Name old (a.toNat % 4096))
  mapped : ∀ a : UInt32, (userByte k.ram (k.cr3 / 4096) a).isSome = true ↔
    a.toNat < 4096 * numPages (S.loaded.modStart 0) (S.loaded.modEnd 0) ∨
      0x400000 ≤ a.toNat ∧ a.toNat < 0x401000 ∨ 0xBFFFF000 ≤ a.toNat ∧ a.toNat < 0xC0000000

section Main

variable {S} {envp : Nat} {before : Process} {k : Kernel S.machine} {module : Module}

/-- The module's bytes are where the boot loader left them. -/
theorem module_bytes (found : S.modules[0]? = some module) : module.modStart = S.loaded.modStart 0 ∧
    module.modEnd = S.loaded.modEnd 0 ∧
    ∀ a, a < module.modEnd - module.modStart →
      S.ram ((module.modStart + a) / 4096) ((module.modStart + a) % 4096) =
        S.image.bytes (S.loaded.modStart 0 + a) := by
  obtain ⟨inside, same⟩ := of_modules_get found
  have start : module.modStart = S.loaded.modStart 0 := by
    rw [same]
    exact boot_modStart (listed ⟨0, inside⟩)
  have finish : module.modEnd = S.loaded.modEnd 0 := by
    rw [same]
    exact boot_modEnd (listed ⟨0, inside⟩)
  have behind : S.image.kernelPhysicalEnd ≤ S.loaded.modStart 0 :=
    (S.behind 0 (listed ⟨0, inside⟩)).2
  have aligned := module.aligned
  have bound := module.bound
  refine ⟨start, finish, fun a within => ?_⟩
  rw [ram_behind (by omega) (by omega) (Nat.mod_lt _ (by decide)),
    show 4096 * ((module.modStart + a) / 4096) + (module.modStart + a) % 4096 = module.modStart + a by
      omega, start]

theorem module_pages (found : S.modules[0]? = some module) :
    numPages (S.loaded.modStart 0) (S.loaded.modEnd 0) = module.numCodePages := by
  obtain ⟨start, finish, _⟩ := module_bytes found
  rw [← start, ← finish]
  rfl

theorem only_entry {α : Type} {p q : Nat} {x y : α}
    (held : Function.update (fun _ => none) q (some x) p = some y) : p = q ∧ x = y := by
  by_cases here : p = q
  · rw [here, Function.update_self] at held
    exact ⟨here, Option.some.inj held⟩
  · rw [Function.update_of_ne here] at held
    cases held

/-- The memory that the program finds. -/
theorem arguments_mapped {text : List UInt8} {old : Memory} {memory : UserMemory}
    (image : LoadedMemory module S.ram memory) (few : module.numCodePages ≤ 1024) (a : UInt32) :
    (argumentsMemory text old memory a).isSome = true ↔ a.toNat < 4096 * module.numCodePages ∨
      0x400000 ≤ a.toNat ∧ a.toNat < 0x401000 ∨ 0xBFFFF000 ≤ a.toNat ∧ a.toNat < 0xC0000000 := by
  unfold argumentsMemory
  by_cases slot : a.toNat / 2 ^ 22 = 1
  · rw [if_pos slot]
    by_cases first : a.toNat < 0x401000
    · rw [if_pos first, Option.isSome_some]
      exact iff_of_true rfl (Or.inr (Or.inl ⟨by omega, first⟩))
    · rw [if_neg first, Option.isSome_none]
      exact iff_of_false Bool.false_ne_true (by omega)
  · rw [if_neg slot, image.mapped]
    omega

theorem runs_image {memory : UserMemory} {old : Memory} {s : System S.machine}
    (found : S.modules[0]? = some module) (few : module.numCodePages ≤ 1024)
    (image : LoadedMemory module S.ram memory) {w : Estates} {order : List Nat}
    (sound : System.Sound s w order)
    (task : System.taskOf s.kernel s.kernel.current =
      some ⟨startState (process1Arguments envp) before, 1, argumentsMemory process1Name old memory⟩) :
    S.RunsProcess1 envp before s.kernel := by
  obtain ⟨start, finish, bytes⟩ := module_bytes found
  have pages := numCodePages_eq module
  have running : s.kernel.current ≠ 0 := by
    have live := task
    unfold System.taskOf at live
    obtain ⟨⟨o, b⟩, known, _⟩ := Option.map_eq_some_iff.mp live
    exact sound.accounts.detail_ne_zero known
  obtain ⟨o, b, m, known, _, _, _, reads⟩ := sound.running_task running
  have reads : userByte s.kernel.ram (s.kernel.cr3 / 4096) =
      argumentsMemory process1Name old memory := by
    rw [System.taskOf_known known, Option.some.injEq, Task.mk.injEq] at task
    rw [← reads, task.2.2]
  refine ⟨by rw [reads, task], fun a inside => ?_, ⟨old, fun a lower upper => ?_⟩, fun a => ?_⟩
  · rw [← start, ← finish] at inside
    rw [reads]
    unfold argumentsMemory
    rw [if_neg (by omega), image.code a inside, bytes a.toNat inside]
  · rw [reads]
    unfold argumentsMemory
    rw [if_pos (by omega), if_pos upper]
  · rw [reads, module_pages found]
    exact arguments_mapped image few a

/-- The tasks after the three calls have one process, which runs. -/
theorem runsProcess1 {B C D : Tasks} {loaded spaces : List Nat} {p q : Nat} {state : ProcessState}
    {shown shown' : List UInt8} {turn turn' : Option Resumed}
    (found : S.modules[0]? = some module) (few : module.numCodePages ≤ 1024)
    (loads : Tasks.Step S.machine Tasks.start (.call (.loadModule 0)) (.returned shown turn) B)
    (adds : Tasks.Step S.machine B (.call (.addProcess p (process1Arguments envp) before))
      (.returned shown' turn') C)
    (runs : Tasks.Step S.machine C (.call (.runProcess q)) (.returned [] (some ⟨k.current, state⟩)) D)
    (represents : System.Represents ⟨k, loaded, spaces⟩ D) :
    state = startState (process1Arguments envp) before ∧ S.RunsProcess1 envp before k := by
  cases loads with
  | @loadModule i p' module' memory found' _ _ image =>
    rw [machine_modules, found, Option.some.injEq] at found'
    subst found'
    cases adds with
    | @addProcess _ q' memory' _ _ old held new =>
      obtain ⟨rfl, rfl⟩ := only_entry held
      generalize left : k.current = current at runs
      cases runs with
      | runProcess idle next =>
        obtain ⟨rfl, rfl⟩ := only_entry next
        refine ⟨rfl, ?_⟩
        obtain ⟨_, w, order, sound, same⟩ := represents
        have task := congrFun (congrArg Tasks.task same) k.current
        rw [left] at task
        have task := task.symm.trans (Function.update_self ..)
        rw [← left] at task
        exact runs_image found few image sound task

end Main

/-- The heap serves what `kernel_main` asks of it to load the first module, and to run it where it
is the only one. -/
def Provided : Prop := ∀ module, S.modules[0]? = some module →
  Funded (S.machine.loadAsks
    (if S.OneModule then S.machine.addAsks S.machine.inWindow else S.machine.nothing) module)
    (Kernel.boot S.machine)

/-- With a multiboot loader that brought one module, `kernel_main` runs it as process 1, unless
the heap runs short or the module is longer than a page table; without, it does not run anything. -/
theorem kernelMain_starts (eax envp : Nat) (before : Process) :
    Ensures (fun fault => Excused S.machine S.Provided S.Provided fault ∨ S.loaded.modsCount = 0)
      (Kernel.boot S.machine) (S.kernelMain eax envp before) fun r k =>
        (eax ≠ 0x2BADB002 → r = (invalidBootloader eax S.ebx, none) ∧ k.current = 0) ∧
        (eax = 0x2BADB002 → S.OneModule →
          r = ([], some (startState (process1Arguments envp) before)) ∧ S.RunsProcess1 envp before k) ∧
        (eax = 0x2BADB002 → ¬ S.OneModule → r = ([], none) ∧ k.current = 0) := by
  unfold kernelMain
  refine ensures_ite (fun other => ?_) fun multiboot => ?_
  · exact ensures_pure _ ⟨fun _ => ⟨rfl, rfl⟩, fun same => absurd same other,
      fun same => absurd same other⟩
  have multiboot : eax = 0x2BADB002 := not_not.mp multiboot
  cases found : S.modules[0]? with
  | none =>
    refine ensures_throw _ (Or.inr ?_)
    by_contra listed
    have inside : 0 < S.boot.modsCount := by
      rw [boot_modsCount]
      exact Nat.pos_of_ne_zero listed
    rw [modules_get inside] at found
    cases found
  | some module =>
    have listed : S.machine.modules[0]? = some module := by rw [machine_modules, found]
    have loads := System.ensures_loaded System.boot_represents listed List.not_mem_nil
      fun provided : S.Provided => provided module found
    -- the information does not change, so the test of it is decided before `load_module`
    by_cases one : S.OneModule
    · simp only [if_pos one] at loads ⊢
      apply ensures_bind (loads.excuse fun _ => Or.inl)
      rintro p k₁ ⟨funded₁, few, B, loaded, represents₁⟩
      have idle₁ : B.current = 0 := loaded.runner
      have adds := System.ensures_added represents₁ List.mem_cons_self (process1Arguments envp) before
        funded₁
      apply ensures_bind (adds.excuse fun _ => Or.inl)
      rintro q k₂ ⟨funded₂, live, C, added, represents₂⟩
      have idle₂ : C.current = 0 := added.runner.trans idle₁
      have runs := System.ensures_ran represents₂
        ((System.current_of_represents represents₂).trans idle₂) live funded₂
      apply ensures_bind (runs.excuse fun _ => Or.inl)
      rintro state k₃ ⟨D, ran, represents₃⟩
      obtain ⟨rfl, runs⟩ := runsProcess1 found few loaded added ran represents₃
      exact ensures_pure _ ⟨absurd multiboot, fun _ _ => ⟨rfl, runs⟩, fun _ other => absurd one other⟩
    · simp only [if_neg one]
      apply ensures_bind (loads.excuse fun _ => Or.inl)
      rintro p k₁ ⟨_, _, B, loaded, represents₁⟩
      have idle₁ : k₁.current = 0 := (System.current_of_represents represents₁).trans loaded.runner
      exact ensures_pure _ ⟨absurd multiboot, fun _ other => absurd other one, fun _ _ => ⟨rfl, idle₁⟩⟩

end StartUp

namespace BootPaging.BootImage

theorem load_store_lower (m : Assembly.Memory) {a p : Nat} (v : Assembly.Word) (lower : a + 4 ≤ p)
    (upper : p + 4 ≤ 2 ^ 32) :
    Assembly.load (Assembly.store m (BitVec.ofNat 32 a) v) (BitVec.ofNat 32 p) =
      Assembly.load m (BitVec.ofNat 32 p) :=
  Assembly.load_store_apart m v (by bv_omega) (by bv_omega)

/-- The image, with a word of the boot loader's in the first MiB. -/
def put (B : BootImage) (a : Nat) (low : a + 4 ≤ 0x100000) (v : Assembly.Word)
    (tables : 0x100 ≤ B.kernelPageTable ∧ 0x100 ≤ B.bootPageDirectory) : BootImage :=
  { B with
    memory := Assembly.store B.memory (BitVec.ofNat 32 a) v
    table := fun i inside => by
      have bound := B.table_lt
      rw [load_store_lower _ _ (by omega) (by omega)]
      exact B.table i inside
    directory := fun i inside => by
      have bound := B.directory_lt
      rw [load_store_lower _ _ (by omega) (by omega)]
      exact B.directory i inside }

end BootPaging.BootImage

namespace StartUp

/-- The flags, `mods_count` and `mods_addr` of information at 0x9000, then the module's bounds. -/
def oneImage : BootPaging.BootImage :=
  let ending := BootPaging.BootImage.ending 0x200000 (by decide) (by decide)
  ((((ending.put 0x9000 (by decide) 8 (by decide)).put 0x9014 (by decide) 1 (by decide)).put
    0x9018 (by decide) 0x9100 (by decide)).put 0x9100 (by decide) 0x200000 (by decide)).put
    0x9104 (by decide) 0x201000 (by decide)

theorem oneImage_words : (oneImage.loaded 0x9000).flags = 8 ∧ (oneImage.loaded 0x9000).modsCount = 1 ∧
    (oneImage.loaded 0x9000).modsAddr = 0x9100 ∧ (oneImage.loaded 0x9000).modStart 0 = 0x200000 ∧
    (oneImage.loaded 0x9000).modEnd 0 = 0x201000 := by decide

theorem oneImage_pages : numPages ((oneImage.loaded 0x9000).modStart 0)
    ((oneImage.loaded 0x9000).modEnd 0) = 1 := by decide

theorem oneImage_lists {p : Nat} (inside : (oneImage.loaded 0x9000).InLists p) :
    0x9100 ≤ p ∧ p < 0x9110 := by
  obtain ⟨flags, count, address, _⟩ := oneImage_words
  unfold Boot.InLists at inside
  rw [flags, count, address] at inside
  rcases inside with modules | ⟨announced, _⟩
  · omega
  · exact absurd rfl announced

theorem sharedWindow_le : 0xC0400000 ≤ 0xFF800000 := by decide

/-- A machine with one module of one page behind an image of 1 MiB, and no memory map. -/
def oneProgram : StartUp where
  image := oneImage
  ebx := 0x9000
  entries := []
  allocator := DynamicAllocation.allocator oneImage.layout
  limit := 0xC0400000
  limit_le := sharedWindow_le
  tables := by
    intro f table
    have frame : f = 0x102 ∨ f = 0x101 := table
    show 0x100 ≤ f ∧ 4096 * f + 4096 ≤ 0x200000
    omega
  reached := by
    intro p inside
    show p < 4096 * 512 ∧ p / 4096 ≠ 0x101 ∧ p / 4096 ≠ 0x102
    rcases inside with ⟨lower, upper⟩ | listed
    · have lower : 0x9000 ≤ p := lower
      have upper : p < 0x9000 + 120 := upper
      omega
    · have bounds := oneImage_lists listed
      omega
  lists := by
    rintro p listed ⟨_, upper⟩
    have bounds := oneImage_lists listed
    have upper : p < 0x9000 + 120 := upper
    omega
  map := by
    rw [oneImage_words.1, if_neg (by decide)]
  plain := by
    obtain ⟨_, count, _, start, finish⟩ := oneImage_words
    refine ⟨fun _ member => absurd member List.not_mem_nil,
      fun _ member => absurd member List.not_mem_nil, fun i inside => ?_⟩
    rw [count, Nat.lt_one_iff] at inside
    rw [inside, start, finish]
    decide
  behind := by
    obtain ⟨_, count, _, start, _⟩ := oneImage_words
    intro i inside
    rw [count, Nat.lt_one_iff] at inside
    rw [inside, start]
    decide
  apart := by
    intro i j order inside
    rw [oneImage_words.2.1] at inside
    omega

theorem oneProgram_used {f : Nat} (bound : f < 2 ^ 20)
    (used : (Frames.boot oneProgram.machine.bitmap).used f = true) : f < 0x201 := by
  obtain ⟨_, count, _, start, finish⟩ := oneImage_words
  rcases (used_frames bound).mp used with
    (low | ⟨a, _, upper, here⟩ | ⟨a, _, upper, here⟩ | ⟨entry, member, _⟩) |
      ⟨i, inside, a, _, upper, here⟩
  · omega
  · have upper : a < 0x200000 := upper
    omega
  · have upper : a < 0x9000 + 120 := upper
    omega
  · cases member
  · have inside : i < (oneImage.loaded 0x9000).modsCount := inside
    rw [count, Nat.lt_one_iff] at inside
    subst inside
    have upper : a < (oneImage.loaded 0x9000).modEnd 0 := upper
    rw [finish] at upper
    omega

theorem oneProgram_one : oneProgram.OneModule := by
  unfold OneModule
  rw [boot_modsCount, boot_flags]
  show (oneImage.loaded 0x9000).modsCount = 1 ∧ (oneImage.loaded 0x9000).flags &&& (1 <<< 3) ≠ 0
  rw [oneImage_words.1, oneImage_words.2.1]
  decide

theorem oneProgram_provided : oneProgram.Provided := by
  intro module found
  have ample : oneProgram.machine.allocator.Ample (DynamicAllocation.Ready oneImage.layout) :=
    DynamicAllocation.ample oneImage.layout
  have pages : module.numCodePages = 1 := (module_pages found).symm.trans oneImage_pages
  have funded := boot_funded_below (n := 48) ample (fun f => oneProgram_used) (by decide)
    (by show oneImage.layout.heapStart + 4096 * 48 ≤ 0xC0400000; decide)
  have added : oneProgram.machine.Room (DynamicAllocation.Ready oneImage.layout) 52 12 ≤
      oneProgram.machine.addAsks oneProgram.machine.inWindow :=
    ample.add (c := 50) (n := 0) fun _ _ room => Machine.heapEnd_of_room room
  have asked := ample.load module (c := 51) added
  rw [pages] at asked
  rw [if_pos oneProgram_one]
  exact funded.spend asked

def idleProcess : Process := ⟨⟨⟨0, 0, 0, 0, 0, 0, 0⟩, ⟨0, 0, 0, 0, 0⟩⟩, 0, false, 0, 0, 0⟩

theorem oneProgram_short : oneProgram.machine.Short := by
  intro m member
  rw [machine_modules] at member
  obtain ⟨i, rfl⟩ := mem_modules member
  have inside := listed i
  have first : i.val < (oneImage.loaded 0x9000).modsCount := inside
  rw [oneImage_words.2.1, Nat.lt_one_iff] at first
  show numPages (oneProgram.boot.modStart i) (oneProgram.boot.modEnd i) ≤ 1024
  rw [boot_modStart inside, boot_modEnd inside, first]
  have pages : numPages (oneProgram.loaded.modStart 0) (oneProgram.loaded.modEnd 0) = 1 := oneImage_pages
  omega

/-- On it `kernel_main` does start the module. -/
theorem oneProgram_starts : ∃ k, oneProgram.kernelMain 0x2BADB002 0 idleProcess (Kernel.boot _) =
      .ok (([], some (startState (process1Arguments 0) idleProcess)), k) ∧
    oneProgram.RunsProcess1 0 idleProcess k := by
  have never : ∀ fault, ¬ (Excused oneProgram.machine oneProgram.Provided oneProgram.Provided fault ∨
      oneProgram.loaded.modsCount = 0) := by
    rintro fault (excused | missing)
    · rw [eq_true oneProgram_provided] at excused
      exact not_excused oneProgram_short fault excused
    · have count : oneProgram.loaded.modsCount = 1 := oneImage_words.2.1
      omega
  obtain ⟨r, k, result, starts⟩ := (oneProgram.kernelMain_starts 0x2BADB002 0 idleProcess).returns never
  have runs := starts.2.1 rfl oneProgram_one
  exact ⟨k, by rw [result, runs.1], runs.2⟩

end StartUp

end Snfos
