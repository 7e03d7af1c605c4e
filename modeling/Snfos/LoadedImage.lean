import Snfos.LoadingFaults
import Snfos.SmallMachine

set_option autoImplicit false

/- The image of a module: what `load_module` leaves in the address space it returns, and
all that it leaves alone. -/
namespace Snfos

open ByteMemory

namespace Kernel

variable {M : Machine}

/-- Not an entry, in the directory in use, of the range where the heap's tables are. -/
def Apart (k : Kernel M) (f offset : Nat) : Prop :=
  offset < 4096 ∧ (f = k.cr3 / 4096 → offset < 3076 ∨ 4088 ≤ offset)

/-- The statics, every block there was, the modules' memory and what the bitmap reserves are
as they were, but for the entries of the heap's tables in the directory in use. -/
structure Untouched (k k' : Kernel M) : Prop where
  cr3 : k'.cr3 = k.cr3
  statics : k'.first = k.first ∧ k'.last = k.last ∧ k'.current = k.current ∧ k'.pidInc = k.pidInc
  blocks : ∀ q b, k.blocks q = some b → k'.blocks q = some b
  pages : ∀ q b count, k.blocks q = some b → b.body = .pages count → ∀ c, c < count →
    k'.home (q / 4096 + c) = k.home (q / 4096 + c) ∧
      ∀ offset, Apart k (k.home (q / 4096 + c)) offset →
        k'.ram (k.home (q / 4096 + c)) offset = k.ram (k.home (q / 4096 + c)) offset
  modules : ∀ f i, k.uses f = some (.module i) → ∀ offset, offset < 4096 →
    k'.ram f offset = k.ram f offset
  reserved : ∀ f, Reserved k f → ∀ offset, Apart k f offset → k'.ram f offset = k.ram f offset

/-- The module as user mode finds it under the directory of the address space `m`. Its pages
lie in one new block, whose frames are no other page's and not the module's own. -/
structure Image (module : Module) (k k' : Kernel M) (m : ProcessMemory) (d : Nat) : Prop where
  directory : d = k'.home (m.pageDirectory / 4096)
  pages : 0 < module.numCodePages → ∃ q,
    k'.blocks q = some ⟨.pages module.numCodePages, .page 0 0, k.owners⟩ ∧
      ∀ j, j < module.numCodePages → UserPage k'.ram d 0 j (k'.home (q / 4096 + j)) ∧
        ¬ module.Covers (k'.home (q / 4096 + j)) ∧
        ∀ v, HeapPage M k'.mappedEnd v → k'.home v = k'.home (q / 4096 + j) → v = q / 4096 + j
  bytes : ∀ a, a < module.modEnd - module.modStart →
    ∃ f, translate k'.ram d a = some (f, a % 4096) ∧ k'.ram f (a % 4096) =
      k.ram ((module.modStart + a) / 4096) ((module.modStart + a) % 4096)
  entries : ∀ i j, ProcessSlot i → j < 1024 → Snfos.entry k'.ram d i % 2 = 1 →
    ∃ t, k'.blocks (m.pageTables i) = some ⟨.table t, .table i, k.owners⟩ ∧
      (Snfos.entry k'.ram (Snfos.entry k'.ram d i / 4096) j % 2 = 1 ↔ t.pages j ≠ 0) ∧
      (t.pages j ≠ 0 → Snfos.entry k'.ram (Snfos.entry k'.ram d i / 4096) j / 4096 =
        k'.home (t.pages j / 4096))

section Loaded

variable {covered enough covered' enough' : Prop} {spare spare' : M.Budget} {k k' : Kernel M}
  {w : Estates} {E : Estate} {module : Module} {m : ProcessMemory} {p o j : Nat}

/-- All blocks there were belong to others than the new process. -/
theorem Accounts.untouched (accounts : Accounts covered enough spare k w)
    (calm : Calm { k with owners := k.owners + 1 } k') (copied : Copied module k.owners E k k') :
    Untouched k k' := by
  have aside : ∀ q b, k.blocks q = some b → b.owner ≠ k.owners := by
    intro q b live
    obtain ⟨_, _, drawn, _⟩ := accounts.blocks q b live
    exact Nat.ne_of_lt drawn
  exact {
    cr3 := calm.cr3
    statics := ⟨calm.first, calm.last, calm.current, calm.pidInc⟩
    blocks := fun q b live => (copied.aside q b live (aside q b live)).1
    pages := fun q b count live whole c inside => by
      obtain ⟨home, bytes⟩ := (copied.aside q b live (aside q b live)).2 count whole c inside
      exact ⟨home, fun offset apart => bytes offset apart.2⟩
    modules := copied.contents
    reserved := fun f reserved offset apart => (copied.spares f reserved).2 offset apart.2 }

/-- A page of the code is open to the program, in the frame of the block's page. -/
theorem Accounts.code_open {w' : Estates} (accounts : Accounts covered enough spare k' w') (owner : o ≠ 0)
    (ready : (w' o).Ready p m) (has : (w' o).Has 0 j) (inside : j < 1024)
    (alone : ∀ j, 0 < j → (w' o).block (.page 0 j) = none) :
    UserPage k'.ram ((w' o).frame .directory 0) 0 j ((w' o).frame (.page 0 0) j) := by
  obtain ⟨q, t, held, listed⟩ := has
  have directory := accounts.entry owner ready.laid.directory (Nat.succ_pos 0) (i := 0) (by decide)
    fun _ => Or.inr (Or.inl (by decide))
  rcases ready.laid.slotReady 0 (by decide) with ⟨_, vacant, _⟩ | ⟨_, ⟨t', table⟩, leads⟩
  · rw [vacant (.table 0) rfl] at held
    cases held
  have same := table.table
  rw [held] at same
  cases same
  rw [← directory] at leads
  rcases accounts.page_present owner table inside with ⟨zero, _⟩ | ⟨j', c, q', place, _, _, entered⟩
  · exact absurd zero listed
  have first : j' = 0 := by
    obtain ⟨count, block, _⟩ := place.block
    by_contra later
    rw [alone j' (Nat.pos_of_ne_zero later)] at block
    cases block
  subst first
  have index := place.index
  obtain rfl : c = j := by omega
  exact userPage_of_leads (by decide) inside leads entered

theorem Accounts.image (accounts : Accounts covered' enough' spare' k' (Function.update w k.owners E))
    (owner : k.owners ≠ 0) (ready : E.Ready p m)
    (has : ∀ i j, E.Has i j ↔
      i = 0 ∧ j < module.numCodePages ∨ (i = 767 ∨ i = 1022) ∧ j = 1023)
    (few : module.numCodePages ≤ 1024) (copied : Copied module k.owners E k k') :
    Image module k k' m (E.frame .directory 0) := by
  have own : Function.update w k.owners E k.owners = E := Function.update_self ..
  have ready' : (Function.update w k.owners E k.owners).Ready p m := by rwa [own]
  have code : ∀ j, j < module.numCodePages →
      UserPage k'.ram (E.frame .directory 0) 0 j (E.frame (.page 0 0) j) := by
    intro j inside
    have shown := accounts.code_open owner ready' (j := j) (by
      rw [own]
      exact (has 0 j).mpr (Or.inl ⟨rfl, inside⟩)) (by omega) (by
      rw [own]
      exact copied.alone)
    rwa [own] at shown
  have block : ∀ q, E.block (.page 0 0) = some (q, .pages module.numCodePages) →
      ∀ j, j < module.numCodePages → k'.home (q / 4096 + j) = E.frame (.page 0 0) j ∧
        k'.uses (E.frame (.page 0 0) j) = some (.heap (q / 4096 + j)) ∧
        ∀ offset, offset < 4096 →
          k'.ram (E.frame (.page 0 0) j) offset = E.bytes (.page 0 0) j offset := by
    intro q held j inside
    have held' : (Function.update w k.owners E k.owners).block (.page 0 0) =
        some (q, .pages module.numCodePages) := by rw [own, held]
    obtain ⟨_, _, home, use⟩ := accounts.page owner held' inside
    have bytes := (accounts.pages _ owner _ _ _ held' j inside).2
    rw [own] at home use bytes
    exact ⟨home, use, fun offset small => bytes offset small nofun⟩
  refine ⟨?_, fun positive => ?_, fun a inside => ?_, fun i j slot inside present => ?_⟩
  · have home := (accounts.page owner ready'.laid.directory (Nat.succ_pos 0)).2.2.1
    rw [Nat.add_zero, own] at home
    exact home.symm
  · obtain ⟨q, held⟩ := copied.block positive
    have held' : (Function.update w k.owners E k.owners).block (.page 0 0) =
        some (q, .pages module.numCodePages) := by rw [own, held]
    refine ⟨q, accounts.live owner held', fun j inside => ?_⟩
    obtain ⟨home, use, _⟩ := block q held j inside
    rw [home]
    refine ⟨code j inside, copied.outside j inside, fun v page same => ?_⟩
    have use' := accounts.paging.homes v page
    rw [same, use, Option.some.injEq, Use.heap.injEq] at use'
    exact use'.symm
  · have pages := numCodePages_eq module
    have aligned := module.aligned
    have within : a / 4096 < module.numCodePages := by omega
    obtain ⟨q, held⟩ := copied.block (by omega)
    obtain ⟨_, _, bytes⟩ := block q held _ within
    have small := Nat.mod_lt a (by decide : 0 < 4096)
    refine ⟨_, (code _ within).translate (by omega) (by omega), ?_⟩
    have frame : (module.modStart + a) / 4096 = module.modStart / 4096 + a / 4096 := by omega
    have offset : (module.modStart + a) % 4096 = a % 4096 := by omega
    rw [bytes _ small, copied.code _ _ small (by omega), frame, offset]
  · obtain ⟨t, table, leads⟩ := accounts.open_slot owner ready' slot (by rwa [own])
    rw [own] at table leads
    have table' : (Function.update w k.owners E k.owners).TableReady i (m.pageTables i) t := by
      rwa [own]
    refine ⟨t, accounts.live owner table'.table, ?_⟩
    rw [leads.frame]
    have found := accounts.page_present owner table' inside
    rw [own] at found
    rcases found with ⟨zero, absent⟩ | ⟨j', c, q, place, pointer, listed, entered⟩
    · rw [zero, absent]
      exact ⟨⟨nofun, fun some => absurd rfl some⟩, fun some => absurd rfl some⟩
    · obtain ⟨count, held, within, _⟩ := place.block
      have held' : (Function.update w k.owners E k.owners).block (.page i j') =
          some (q, .pages count) := by rw [own, held]
      obtain ⟨aligned, _, home, _⟩ := accounts.page owner held' within
      rw [own] at home
      have odd := entered.odd
      refine ⟨⟨fun _ => listed, fun _ => by omega⟩, fun _ => ?_⟩
      rw [entered.frame, ← home, pointer]
      congr 1
      omega

end Loaded

end Kernel

namespace System

open Kernel

variable {M : Machine} {s : System M} {w : Estates} {order : List Nat} {i : Nat} {module : Module}

/-- The call loads the image of the module: it returns wherever its allocations are served
and reachable, and then has written only to what it allocated. -/
structure LoadsImage (s : System M) (i : Nat) (module : Module) : Prop where
  ensures : Command.Ensures (fun fault => (fault = .exhausted ∨ fault = .pageFault) ∧
      ¬ Funded (M.loadAsks M.nothing module) s.kernel) s (step (.loadModule i)) fun _ s' =>
    ∃ p m, s'.spaces = p :: s.spaces ∧
      s'.kernel.blocks p = some ⟨.memory m, .memory, s.kernel.owners⟩ ∧
      Untouched s.kernel s'.kernel ∧
      Image module s.kernel s'.kernel m (s'.kernel.home (m.pageDirectory / 4096))

/-- What the kernel's function ensures, the call does. -/
theorem ensures_step_loadModule {excused : Fault → Prop} {P : Nat → Kernel M → Prop}
    (found : M.modules[i]? = some module) (new : i ∉ s.loaded)
    (ensures : Command.Ensures excused s.kernel (Kernel.loadModule module) P) :
    Command.Ensures excused s (step (.loadModule i)) fun _ s' =>
      ∃ p k, s' = ⟨k, i :: s.loaded, p :: s.spaces⟩ ∧ P p k := by
  unfold Command.Ensures at *
  rw [step_loadModule_eq found new]
  cases result : Kernel.loadModule module s.kernel with
  | ok pair =>
    rw [result] at ensures
    exact ⟨pair.1, pair.2, rfl, ensures⟩
  | error fault =>
    rw [result] at ensures
    exact ensures

/-- Whatever the module's size, the call that returns has loaded its image, and the module
fits its table. -/
theorem Sound.ensures_image (sound : Sound s w order) (found : M.modules[i]? = some module)
    (new : i ∉ s.loaded) :
    Command.Ensures (Excused M (Funded (M.loadAsks M.nothing module) s.kernel)
      (Funded (M.loadAsks M.nothing module) s.kernel)) s (System.step (.loadModule i)) fun _ s' =>
      (∃ p m, s'.spaces = p :: s.spaces ∧
        s'.kernel.blocks p = some ⟨.memory m, .memory, s.kernel.owners⟩ ∧
        Untouched s.kernel s'.kernel ∧
        Image module s.kernel s'.kernel m (s'.kernel.home (m.pageDirectory / 4096))) ∧
        module.numCodePages ≤ 1024 := by
  have owner : s.kernel.owners ≠ 0 := Nat.ne_of_gt sound.accounts.owners
  have accounts := sound.accounts.suppose (M.loadAsks M.nothing module)
  have loads := accounts.ensures_loadModule (List.mem_of_getElem? found)
    (sound.modules i module found new)
  apply (ensures_step_loadModule found new loads).mono
  rintro _ _ ⟨p, k', rfl, E, m, accounts', calm, _, ready, _, _, _, has, few, copied⟩
  refine ⟨⟨p, m, rfl, ?_, sound.accounts.untouched calm copied, ?_⟩, few⟩
  · apply accounts'.live owner
    rw [Function.update_self]
    exact ready.laid.memory
  · have image := accounts'.image owner ready has few copied
    rwa [image.directory] at image

theorem Sound.loads_of_few (sound : Sound s w order) (found : M.modules[i]? = some module)
    (new : i ∉ s.loaded) (few : module.numCodePages ≤ 1024) : LoadsImage s i module := by
  have plain := ensures_step_loadModule found new (raises_loadModule few s.kernel)
  refine ⟨(((sound.ensures_image found new).and plain).mono fun _ _ both => both.1.1).excuse ?_⟩
  rintro fault ⟨excused, noOverrun, runs⟩
  cases fault with
  | exhausted => exact ⟨Or.inl rfl, excused⟩
  | pageFault => exact ⟨Or.inr rfl, excused⟩
  | overrun => exact absurd rfl noOverrun
  | halted => exact absurd rfl runs
  | _ => exact excused.elim

/-- Where all is funded, a module with more pages runs off the table's end. -/
theorem Sound.overruns_of_many (sound : Sound s w order) (found : M.modules[i]? = some module)
    (new : i ∉ s.loaded) (funded : Funded (M.loadAsks M.nothing module) s.kernel)
    (many : 1024 < module.numCodePages) : System.step (.loadModule i) s = .error .overrun := by
  have ensures := sound.ensures_image found new
  unfold Command.Ensures at ensures
  cases result : System.step (.loadModule i) s with
  | ok pair =>
    rw [result] at ensures
    exact absurd ensures.2 (by omega)
  | error fault =>
    rw [result] at ensures
    cases fault with
    | overrun => rfl
    | exhausted => exact absurd funded ensures
    | pageFault => exact absurd funded ensures
    | halted => exact absurd funded ensures
    | _ => exact ensures.elim

theorem Sound.few_of_loads (sound : Sound s w order) (found : M.modules[i]? = some module)
    (new : i ∉ s.loaded) (funded : Funded (M.loadAsks M.nothing module) s.kernel)
    (loads : LoadsImage s i module) : module.numCodePages ≤ 1024 := by
  by_contra many
  have ensures := loads.ensures
  unfold Command.Ensures at ensures
  rw [sound.overruns_of_many found new funded (by omega)] at ensures
  exact ensures.2 funded

/-- After any calls, a module that was not loaded yet is loaded as it is to be, if it has no
more pages than a page table has entries, and only then, where the heap serves all it asks for. -/
theorem run_loadsImage (calls : List Call) :
    Command.Ensures (Stops M) (boot M) (run calls) fun _ s => ∀ i module,
      M.modules[i]? = some module → i ∉ s.loaded →
        (module.numCodePages ≤ 1024 → LoadsImage s i module) ∧
        (Funded (M.loadAsks M.nothing module) s.kernel →
          (LoadsImage s i module ↔ module.numCodePages ≤ 1024)) := by
  apply (boot_sound.run calls).mono
  rintro _ s ⟨w, order, sound⟩ i module found new
  exact ⟨sound.loads_of_few found new, fun funded =>
    ⟨sound.few_of_loads found new funded, sound.loads_of_few found new⟩⟩

/-- The call returns where the heap has room for two pages for each of the module's, and for 34. -/
theorem LoadsImage.returns {Ready : Nat → M.allocator.Heap → Prop} {c : Nat}
    (loads : LoadsImage s i module) (ample : M.allocator.Ample Ready)
    (room : Funded (M.Room Ready (c + 1) (34 + 2 * module.numCodePages)) s.kernel) :
    ∃ r s', step (.loadModule i) s = .ok (r, s') := by
  have asked : M.Room Ready (c + 1) (0 + (34 + 2 * module.numCodePages)) ≤
      M.loadAsks M.nothing module := ample.load module fun _ _ _ => trivial
  rw [Nat.zero_add] at asked
  obtain ⟨r, s', result, _⟩ := loads.ensures.returns fun _ both => both.2 (room.spend asked)
  exact ⟨r, s', result⟩

/-- On the small machine the first module is loaded. -/
theorem firstModule_loaded :
    LoadsImage (boot (smallMachine 0xC0400000 (by decide))) 0 SmallMachine.firstModule ∧
      ∃ r s', step (.loadModule 0) (boot (smallMachine 0xC0400000 (by decide))) = .ok (r, s') := by
  have begun : run [] (boot (smallMachine 0xC0400000 (by decide))) = .ok ([], boot _) := rfl
  have loads := ((run_loadsImage []).result begun 0 SmallMachine.firstModule rfl List.not_mem_nil).1
    (by decide)
  exact ⟨loads, loads.returns SmallMachine.ample (SmallMachine.boot_funded 38 (by decide) (by decide))⟩

end System

namespace LongModule

open Kernel

/-- One page more than a page table has entries. -/
def module : Module :=
  ⟨0x4000, 0x4000 + 4096 * 1025, SmallMachine.firstModule.aligned, by decide, by decide⟩

def bitmap (block : Nat) : BitVec 32 := if block < 64 then 0xFFFFFFFF else 0

theorem used_iff (frame : Nat) : (Frames.boot bitmap).used frame = true ↔ frame < 2048 := by
  show (bitmap (frame / 32)).getLsbD (frame % 32) = true ↔ _
  unfold bitmap
  by_cases low : frame < 2048
  · rw [if_pos (by omega)]
    simp only [SmallMachine.full_word _ (Nat.mod_lt frame (by decide : 0 < 32)), low]
  · rw [if_neg (by omega), BitVec.ofNat_eq_ofNat, BitVec.getLsbD_zero]
    simp only [low, Bool.false_eq_true]

theorem covers_module (frame : Nat) : module.Covers frame ↔ 4 ≤ frame ∧ frame < 1029 := by
  have pages : module.numCodePages = 1025 := by decide
  have start : module.modStart = 0x4000 := rfl
  unfold Module.Covers
  rw [pages, start]

end LongModule

/-- The small machine with a module that is longer than four megabytes. -/
def longMachine : Machine :=
  { smallMachine 0xFF800000 (by decide) with
    modules := [LongModule.module]
    bitmap := LongModule.bitmap
    low_used := (LongModule.used_iff 0).mpr (by decide)
    kernelPageTable_used := ⟨by decide, (LongModule.used_iff 1).mpr (by decide)⟩
    bootPageDirectory_used := ⟨by decide, (LongModule.used_iff 2).mpr (by decide)⟩
    modules_used := by
      intro m member frame covers
      obtain rfl := List.mem_singleton.mp member
      rw [LongModule.covers_module] at covers
      rw [LongModule.used_iff]
      omega
    modules_outside := by
      intro m member
      obtain rfl := List.mem_singleton.mp member
      simp only [LongModule.covers_module]
      decide
    modules_apart := List.pairwise_singleton _ _ }

namespace System

open Kernel

/-- The longer module runs off its page table's array, with all that it asks for. -/
theorem longModule_not_loaded :
    Funded (longMachine.loadAsks longMachine.nothing LongModule.module) (boot longMachine).kernel ∧
    step (.loadModule 0) (boot longMachine) = .error .overrun ∧
    ¬ LoadsImage (boot longMachine) 0 LongModule.module := by
  have pages : LongModule.module.numCodePages = 1025 := by decide
  have start : longMachine.layout.heapStart = 0xC0102000 := by decide
  have limit : longMachine.limit = 0xFF800000 := rfl
  have ample : longMachine.allocator.Ample SmallMachine.Ready := @SmallMachine.ample 0xFF800000 (by decide)
  have room : Funded (longMachine.Room SmallMachine.Ready 52 2084) (boot longMachine).kernel :=
    boot_funded_below ample (fun frame _ => (LongModule.used_iff frame).mp) (by decide) (by omega)
  have asked : longMachine.Room SmallMachine.Ready 52 (0 + (34 + 2 * LongModule.module.numCodePages)) ≤
      longMachine.loadAsks longMachine.nothing LongModule.module :=
    ample.load LongModule.module (c := 51) (n := 0) fun _ _ _ => trivial
  rw [pages] at asked
  have funded := room.spend asked
  have found : longMachine.modules[0]? = some LongModule.module := rfl
  have new : 0 ∉ (boot longMachine).loaded := List.not_mem_nil
  refine ⟨funded, boot_sound.overruns_of_many found new funded (by omega), fun loads => ?_⟩
  have few := boot_sound.few_of_loads found new funded loads
  omega

end System

end Snfos
