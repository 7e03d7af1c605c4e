import Snfos.Exit
import Snfos.Fork

set_option autoImplicit false

/- The kernel as it runs: what `kernel_main` leaves, the calls made on it in any order,
and what holds between two calls. -/
namespace Snfos

open ByteMemory

/-- The module whose memory a frame belongs to. -/
def Machine.moduleOf (M : Machine) (frame : Nat) : Option Nat :=
  M.modules.findIdx? fun m => m.Covers frame

/-- What a frame serves for before the first page is mapped. -/
def Machine.bootUse (M : Machine) (frame : Nat) : Option Use :=
  if frame = 0 then some .low
  else if frame = M.kernelPageTable then some .kernelPageTable
  else if frame = M.bootPageDirectory then some .bootPageDirectory
  else (M.moduleOf frame).map .module

/-- The kernel before its first call of the heap. `pid_inc` starts at 1. -/
def Kernel.boot (M : Machine) : Kernel M where
  ram := M.ram
  cr3 := 4096 * M.bootPageDirectory
  frames := Frames.boot M.bitmap
  heap := M.allocator.boot
  blocks := fun _ => none
  first := 0
  last := 0
  current := 0
  pidInc := 1
  home := fun _ => 0
  mapper := fun _ => 0
  uses := M.bootUse
  owners := 1

/-- The kernel with the modules that were passed to `load_module`, by number, and the
address spaces it returned that `add_process` has not got yet. -/
structure System (M : Machine) where
  kernel : Kernel M
  loaded : List Nat
  spaces : List Nat

/-- A call from outside: `kernel_main`'s, a system call of the running process with its
registers, or one of the heap's by other code of the kernel. -/
inductive Call where
  | loadModule (i : Nat)
  | addProcess (processMemory : Nat) (arguments : Kernel.Arguments) (before : Process)
  | runProcess (process : Nat)
  | print (processState : ProcessState)
  | yield (processState : ProcessState)
  | handleExit (processState : ProcessState)
  | getPid (processState : ProcessState)
  | fork (processState : ProcessState) (before : Process)
  | malloc (size : Nat)
  | mallocPages (pages : Nat)
  | free (pointer : Nat)

/-- The process that runs on after a call, and the state it runs on with. -/
structure Resumed where
  process : Nat
  state : ProcessState

namespace System

variable {M : Machine}

def boot (M : Machine) : System M := ⟨Kernel.boot M, [], []⟩

abbrev Run (M : Machine) (α : Type) := Command (System M) Fault α

def onKernel {α : Type} (action : Action M α) : Run M α := fun s =>
  match action s.kernel with
  | .ok (a, k) => .ok (a, { s with kernel := k })
  | .error fault => .error fault

/-- A call that ends in `sys_return`. -/
def returning (action : Action M ProcessState) : Run M (Option Resumed) := do
  let state ← onKernel action
  let s ← get
  pure (some ⟨s.kernel.current, state⟩)

/-- A system call, which only a running process can make. -/
def systemCall (action : Action M ProcessState) : Run M (Option Resumed) := do
  let s ← get
  if s.kernel.current = 0 then throw .refused else returning action

/-- Each module is loaded once. -/
def loadModule (i : Nat) : Run M (Option Resumed) := do
  let s ← get
  match M.modules[i]? with
  | none => throw .refused
  | some module =>
      if i ∈ s.loaded then throw .refused
      else do
        let memory ← onKernel (Kernel.loadModule module)
        modify fun s => { s with loaded := i :: s.loaded, spaces := memory :: s.spaces }
        pure none

/-- An address space becomes one process. -/
def addProcess (processMemory : Nat) (arguments : Kernel.Arguments) (before : Process) :
    Run M (Option Resumed) := do
  let s ← get
  if processMemory ∈ s.spaces then do
    let _ ← onKernel (Kernel.addProcess processMemory arguments before)
    modify fun s => { s with spaces := s.spaces.erase processMemory }
    pure none
  else throw .refused

/-- `kernel_main` runs a process once, and does not get control back. -/
def runProcess (process : Nat) : Run M (Option Resumed) := do
  let s ← get
  if s.kernel.current = 0 ∧ (s.kernel.processOf process).isSome = true then
    returning (Kernel.runProcess process)
  else throw .refused

/-- The code that calls `free` owns the block, or passes `NULL`. -/
def free (pointer : Nat) : Run M (Option Resumed) := do
  let s ← get
  if pointer = 0 ∨ (s.kernel.blocks pointer).any (·.owner = 0) = true then do
    onKernel (Kernel.free pointer)
    pure none
  else throw .refused

def malloc (size : Nat) : Run M (Option Resumed) := do
  if size = 0 then pure none
  else do
    let _ ← onKernel (Kernel.malloc (.raw size) .raw 0)
    pure none

def mallocPages (pages : Nat) : Run M (Option Resumed) := do
  let _ ← onKernel (Kernel.mallocPages pages .raw 0)
  pure none

def step : Call → Run M (Option Resumed)
  | .loadModule i => loadModule i
  | .addProcess memory arguments before => addProcess memory arguments before
  | .runProcess process => runProcess process
  | .print state => systemCall (Kernel.sysPrint state)
  | .yield state => systemCall (Kernel.yield state)
  | .handleExit state => systemCall (Kernel.handleExit state)
  | .getPid state => systemCall (Kernel.getPid state)
  | .fork state before => systemCall (Kernel.fork state before)
  | .malloc size => malloc size
  | .mallocPages pages => mallocPages pages
  | .free pointer => free pointer

/-- The calls one after the other, with what each returns to. -/
def run : List Call → Run M (List (Option Resumed))
  | [] => pure []
  | call :: rest => do
      let first ← step call
      let others ← run rest
      pure (first :: others)

theorem run_cons (call : Call) (rest : List Call) (s : System M) :
    run (call :: rest) s = (step call s).bind fun first =>
      (run rest first.2).bind fun others => .ok (first.1 :: others.1, others.2) := rfl

end System

end Snfos
