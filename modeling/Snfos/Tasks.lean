import Snfos.Library.Simulation
import Snfos.SystemCalls
import Snfos.SpaceContents

set_option autoImplicit false

/- The processes as their programs see them: each has registers, a pid and a memory of its
own, and they take turns in a ring. There are no pages, frames or blocks here. -/
namespace Snfos

open ByteMemory

abbrev UserMemory := UInt32 → Option UInt8

/-- What the running program does, or what else is asked of the kernel. -/
inductive Event where
  | call (call : Call)
  | load (address : UInt32)
  | store (address : UInt32) (byte : UInt8)

/-- What comes of it: the text that the terminal shows and the process that runs on, or
the byte that was read. -/
inductive Outcome where
  | returned (shown : List UInt8) (turn : Option Resumed)
  | loaded (byte : UInt8)
  | stored

/-- What an answer puts on the terminal. -/
def Answer.shown : Answer → List UInt8
  | .returns shown _ => shown
  | .exits shown => shown
  | .faults shown _ _ => shown

structure Task where
  processState : ProcessState
  pid : Nat
  memory : UserMemory

/-- The processes by their place, the modules that were loaded, and the address spaces that wait
for a process. -/
structure Tasks where
  ring : List Nat
  task : Nat → Option Task
  loaded : List Nat
  space : Nat → Option UserMemory
  current : Nat
  pidInc : Nat

/-- The registers a new process starts with. -/
def startState (arguments : Kernel.Arguments) (before : Process) : ProcessState where
  cpu := { before.processState.cpu with
    edx := arguments.envp, ecx := arguments.envc, ebx := 0x400000, eax := arguments.argc }
  stack := Kernel.userStack

namespace Tasks

open Kernel (withEax)

def start : Tasks := ⟨[], fun _ => none, [], fun _ => none, 0, 1⟩

def running (A : Tasks) : Option Task := A.task A.current

/-- The process after the running one. -/
def after (A : Tasks) : Nat := A.ring.getD ((A.ring.idxOf A.current + 1) % A.ring.length) 0

def put (A : Tasks) (p : Nat) (t : Option Task) : Tasks :=
  { A with task := Function.update A.task p t }

/-- One more process, with the next pid. -/
def join (A : Tasks) (p : Nat) (processState : ProcessState) (memory : UserMemory) : Tasks :=
  { A with
    ring := A.ring ++ [p]
    task := Function.update A.task p (some ⟨processState, A.pidInc, memory⟩)
    pidInc := u32 (A.pidInc + 1) }

/-- The running process stops for the one after it. -/
def leave (A : Tasks) (t : Option Task) (ring : List Nat) : Tasks :=
  { A.put A.current t with ring := ring, current := A.after }

/-- What each event does. A call for the heap is nothing to the processes. -/
inductive Step (M : Machine) (A : Tasks) : Event → Outcome → Tasks → Prop where
  | load {t : Task} {a : UInt32} {byte : UInt8} (running : A.running = some t)
      (mapped : t.memory a = some byte) : Step M A (.load a) (.loaded byte) A
  | store {t : Task} {a : UInt32} {old : UInt8} (byte : UInt8) (running : A.running = some t)
      (mapped : t.memory a = some old) : Step M A (.store a byte) .stored
        (A.put A.current (some { t with memory := Function.update t.memory a (some byte) }))
  | print {t : Task} {s : ProcessState} {text : List UInt8} (running : A.running = some t)
      (length : text.length = s.cpu.ecx)
      (own : ∀ i byte, i < text.length → t.memory (UInt32.ofNat (s.cpu.ebx + i)) = some byte →
        text[i]? = some byte) :
      Step M A (.call (.print s)) (.returned text (some ⟨A.current, withEax s 1⟩)) A
  | getPid {t : Task} {s : ProcessState} (running : A.running = some t) :
      Step M A (.call (.getPid s)) (.returned [] (some ⟨A.current, withEax s t.pid⟩)) A
  | yield {t t' : Task} {s : ProcessState} (running : A.running = some t)
      (next : (A.put A.current (some { t with processState := s })).task A.after = some t') :
      Step M A (.call (.yield s)) (.returned [] (some ⟨A.after, t'.processState⟩))
        (A.leave (some { t with processState := s }) A.ring)
  | handleExit {t t' : Task} {s : ProcessState} (running : A.running = some t)
      (other : A.after ≠ A.current) (next : A.task A.after = some t') :
      Step M A (.call (.handleExit s))
        (.returned (View.handleExit s).shown (some ⟨A.after, t'.processState⟩))
        (A.leave none (A.ring.erase A.current))
  | fork {t : Task} {s : ProcessState} {before : Process} {child : Nat} (running : A.running = some t)
      (new : child ∉ A.ring) :
      Step M A (.call (.fork s before)) (.returned [] (some ⟨A.current, withEax s A.pidInc⟩))
        (A.join child (withEax s 0) t.memory)
  | loadModule {i p : Nat} {module : Module} {memory : UserMemory}
      (found : M.modules[i]? = some module) (once : i ∉ A.loaded) (new : A.space p = none)
      (image : LoadedMemory module M.ram memory) :
      Step M A (.call (.loadModule i)) (.returned [] none)
        { A with loaded := i :: A.loaded, space := Function.update A.space p (some memory) }
  | addProcess {p q : Nat} {memory : UserMemory} {arguments : Kernel.Arguments} {before : Process}
      (old : Memory) (held : A.space p = some memory) (new : q ∉ A.ring) :
      Step M A (.call (.addProcess p arguments before)) (.returned [] none)
        ({ A with space := Function.update A.space p none }.join q (startState arguments before)
          (argumentsMemory arguments.argv0 old memory))
  | runProcess {p : Nat} {t : Task} (idle : A.current = 0) (next : A.task p = some t) :
      Step M A (.call (.runProcess p)) (.returned [] (some ⟨p, t.processState⟩))
        { A with current := p }
  | malloc (size : Nat) : Step M A (.call (.malloc size)) (.returned [] none) A
  | mallocPages (pages : Nat) : Step M A (.call (.mallocPages pages)) (.returned [] none) A
  | free (pointer : Nat) : Step M A (.call (.free pointer)) (.returned [] none) A

/-- The process that runs after an outcome. -/
def runner (current : Nat) : Outcome → Nat
  | .returned _ (some turn) => turn.process
  | _ => current

section Waiting

variable {M : Machine} {A B : Tasks} {event : Event} {outcome : Outcome} {p : Nat}

/-- The ring has each process once. -/
structure Formed (A : Tasks) : Prop where
  once : A.ring.Nodup
  live : ∀ p, p ∈ A.ring ↔ (A.task p).isSome = true

theorem Step.runner (step : Step M A event outcome B) : B.current = runner A.current outcome := by
  cases step <;> rfl

theorem Formed.put (formed : A.Formed) {t : Task} (live : (A.task p).isSome = true) :
    (A.put p (some t)).Formed where
  once := formed.once
  live := fun q => by
    show q ∈ A.ring ↔ (Function.update A.task p (some t) q).isSome = true
    by_cases here : q = p
    · rw [here, Function.update_self, formed.live, live]
      simp
    · rw [Function.update_of_ne here, formed.live]

theorem Formed.join (formed : A.Formed) (new : p ∉ A.ring) (processState : ProcessState)
    (memory : UserMemory) : (A.join p processState memory).Formed where
  once := by
    show (A.ring ++ [p]).Nodup
    rw [List.nodup_append]
    refine ⟨formed.once, List.nodup_singleton p, fun q member q' single => ?_⟩
    rw [List.mem_singleton.mp single]
    rintro rfl
    exact new member
  live := fun q => by
    show q ∈ A.ring ++ [p] ↔ (Function.update A.task p _ q).isSome = true
    by_cases here : q = p
    · rw [here, Function.update_self]
      simp
    · rw [Function.update_of_ne here, ← formed.live]
      simp [here]

/-- The processes stay a ring. -/
theorem Step.formed (step : Step M A event outcome B) (formed : A.Formed) : B.Formed := by
  have live : ∀ {t}, A.running = some t → (A.task A.current).isSome = true := by
    intro t running
    rw [show A.task A.current = some t from running]
    rfl
  cases step with
  | store byte running _ => exact formed.put (live running)
  | @yield t _ s running _ =>
    have kept := formed.put (t := { t with processState := s }) (live running)
    exact ⟨kept.once, kept.live⟩
  | handleExit running _ _ =>
    refine ⟨formed.once.erase _, fun q => ?_⟩
    show q ∈ A.ring.erase A.current ↔ (Function.update A.task A.current none q).isSome = true
    rw [formed.once.mem_erase_iff]
    by_cases here : q = A.current
    · rw [here, Function.update_self]
      simp
    · rw [Function.update_of_ne here, ← formed.live]
      simp [here]
  | fork _ new => exact formed.join new _ _
  | @addProcess p q memory arguments before old _ new =>
    have kept : Formed { A with space := Function.update A.space p none } :=
      ⟨formed.once, formed.live⟩
    exact kept.join new _ _
  | loadModule _ _ _ _ => exact ⟨formed.once, formed.live⟩
  | runProcess _ _ => exact ⟨formed.once, formed.live⟩
  | _ => exact formed

/-- What the running process does is nothing to the others. -/
theorem Step.waiting (step : Step M A event outcome B) (waits : p ≠ A.current)
    (live : p ∈ A.ring) : B.task p = A.task p := by
  have joined : ∀ q t, q ∉ A.ring → Function.update A.task q t p = A.task p := by
    intro q t new
    apply Function.update_of_ne
    rintro rfl
    exact new live
  cases step with
  | store byte running _ => exact Function.update_of_ne waits ..
  | yield running _ => exact Function.update_of_ne waits ..
  | handleExit running _ _ => exact Function.update_of_ne waits ..
  | fork _ new => exact joined _ _ new
  | addProcess old _ new => exact joined _ _ new
  | _ => rfl

/-- The process gets no turn over these outcomes. -/
def NoTurn (p : Nat) (outcomes : List Outcome) : Prop :=
  ∀ shown turn, .returned shown (some turn) ∈ outcomes → turn.process ≠ p

theorem runner_ne {current : Nat} (waits : p ≠ current)
    (none : ∀ shown turn, outcome = .returned shown (some turn) → turn.process ≠ p) :
    p ≠ Tasks.runner current outcome := by
  cases outcome with
  | returned shown turn =>
    cases turn with
    | none => exact waits
    | some turn => exact (none shown turn rfl).symm
  | _ => exact waits

/-- A process that gets no turn is after a run as it was before. -/
theorem waiting_run {events : List Event} {outcomes : List Outcome}
    (run : Runs (Step M) A events outcomes B) (formed : A.Formed) (live : p ∈ A.ring)
    (waits : p ≠ A.current) (noTurn : NoTurn p outcomes) : B.task p = A.task p := by
  induction run with
  | nil _ => rfl
  | @cons a b _ _ o _ _ first _ ih =>
    have same : b.task p = a.task p := first.waiting waits live
    have still : p ≠ b.current := by
      rw [first.runner]
      exact runner_ne waits fun shown turn here => noTurn shown turn (here ▸ List.mem_cons_self)
    have stays := (first.formed formed).live p
    rw [same, ← formed.live] at stays
    rw [ih (first.formed formed) (stays.mpr live) still fun shown turn later =>
      noTurn shown turn (List.mem_cons_of_mem _ later), same]

end Waiting

section Keeping

variable {M : Machine} {A B : Tasks} {event : Event} {outcome : Outcome} {p : Nat} {a : UInt32}
  {byte : UInt8}

/-- The process has this byte in its memory. -/
def Holds (A : Tasks) (p : Nat) (a : UInt32) (byte : UInt8) : Prop :=
  ∃ t, A.task p = some t ∧ t.memory a = some byte

/-- The events that take a byte from the process that runs. -/
def Writes (a : UInt32) : Event → Prop
  | .store b _ => b = a
  | .call (.handleExit _) => True
  | _ => False

/-- While the process runs, it does not write the byte. -/
def Unwritten (p : Nat) (a : UInt32) : Nat → List Event → List Outcome → Prop
  | current, event :: events, outcome :: outcomes =>
      (current = p → ¬ Writes a event) ∧ Unwritten p a (runner current outcome) events outcomes
  | _, _, _ => True

theorem Step.stored (step : Step M A (.store a byte) outcome B) : B.Holds B.current a byte := by
  cases step with
  | store running _ => exact ⟨_, Function.update_self .., Function.update_self ..⟩

theorem Step.holds (step : Step M A event outcome B) (formed : A.Formed) (holds : A.Holds p a byte)
    (unwritten : A.current = p → ¬ Writes a event) : B.Holds p a byte := by
  have live : p ∈ A.ring := by
    obtain ⟨t, found, _⟩ := holds
    rw [formed.live, found]
    rfl
  by_cases waits : p = A.current
  swap
  · obtain ⟨t, found, memory⟩ := holds
    exact ⟨t, (step.waiting waits live).trans found, memory⟩
  subst waits
  have mine := unwritten rfl
  have joined : ∀ q t, q ∉ A.ring → Function.update A.task q t A.current = A.task A.current := by
    intro q t new
    apply Function.update_of_ne
    rintro rfl
    exact new live
  obtain ⟨t, found, memory⟩ := holds
  have same : ∀ {u : Task}, A.running = some u → u.memory a = some byte := by
    intro u running
    have both := found.symm.trans running
    cases both
    exact memory
  cases step with
  | @store u b _ _ running _ =>
    refine ⟨_, Function.update_self .., ?_⟩
    have other : a ≠ b := fun here => mine here.symm
    exact (Function.update_of_ne other ..).trans (same running)
  | yield running _ =>
    have own := same running
    exact ⟨_, Function.update_self .., own⟩
  | handleExit running _ _ => exact absurd trivial mine
  | fork _ new => exact ⟨t, (joined _ _ new).trans found, memory⟩
  | addProcess old _ new => exact ⟨t, (joined _ _ new).trans found, memory⟩
  | _ => exact ⟨t, found, memory⟩

/-- A byte stays until its own process writes it. -/
theorem holds_run {events : List Event} {outcomes : List Outcome}
    (run : Runs (Step M) A events outcomes B) (formed : A.Formed) (holds : A.Holds p a byte)
    (unwritten : Unwritten p a A.current events outcomes) : B.Holds p a byte := by
  induction run with
  | nil _ => exact holds
  | cons first rest ih =>
    obtain ⟨mine, later⟩ := unwritten
    rw [← first.runner] at later
    exact ih (first.formed formed) (first.holds formed holds mine) later

end Keeping

end Tasks

end Snfos
