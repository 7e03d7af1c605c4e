import Snfos.Kernel
import Snfos.Library.Assembly

set_option autoImplicit false

/- `interupts.S`: the entry of a system call, `sys_return`, and the stubs of the other
vectors. -/
namespace Snfos.Interrupts

open Assembly

inductive Label
  | handler128
  | sysReturn
  | stub (n : Nat)
  | common
  | interuptHandler

/-- What the linker decides. -/
structure Image where
  sysCallTable : Word
  returnAddress : List (Instruction Label) → Word

abbrev Cpu := Processor Label

def sysReturnText : List (Instruction Label) :=
  [.addStack 4, .pop .ebp, .pop .edi, .pop .esi, .pop .edx, .pop .ecx, .pop .ebx, .pop .eax, .iret]

/-- `sys_return` follows the text of `interupt_handler_128`. -/
def handler128Text (I : Image) : List (Instruction Label) :=
  [.push .eax, .push .ebx, .push .ecx, .push .edx, .push .esi, .push .edi, .push .ebp,
    .shiftLeft 2 .eax, .movFrom I.sysCallTable .eax .eax, .callRegister .eax, .call .sysReturn] ++
    sysReturnText

/-- What follows the call in `common_interupt_handler`. -/
def commonReturnText : List (Instruction Label) :=
  [.pop .ebp, .pop .edi, .pop .esi, .pop .edx, .pop .ecx, .pop .ebx, .pop .eax, .addStack 8, .iret]

def commonText : List (Instruction Label) :=
  [.push .eax, .push .ebx, .push .ecx, .push .edx, .push .esi, .push .edi, .push .ebp,
    .call .interuptHandler] ++ commonReturnText

/-- The vectors of the macro `interupt_handler`. -/
def errorCodeStubs : List Nat := [7, 10, 11, 12, 13, 14, 17]

/-- The two macros. -/
def stubText (n : Nat) : List (Instruction Label) :=
  if n ∈ errorCodeStubs then [.pushWord (BitVec.ofNat 32 n), .jmp .common]
  else [.pushWord 0, .pushWord (BitVec.ofNat 32 n), .jmp .common]

/-- `interupt_handler` is not part of the file, and vector 128 has no stub. -/
def Image.program (I : Image) : Program Label where
  text
    | .handler128 => some (handler128Text I)
    | .sysReturn => some sysReturnText
    | .stub n => if n = 128 ∨ 255 < n then none else some (stubText n)
    | .common => some commonText
    | .interuptHandler => none
  returnAddress := I.returnAddress

/-- Word `i` of a structure at `a`, all of whose fields are words. -/
def field (m : Memory) (a : Word) (i : Nat) : Nat := (load m (a + BitVec.ofNat 32 (4 * i))).toNat

def cpuStateAt (m : Memory) (a : Word) : CpuState :=
  ⟨field m a 0, field m a 1, field m a 2, field m a 3, field m a 4, field m a 5, field m a 6⟩

def stackStateAt (m : Memory) (a : Word) : StackState :=
  ⟨field m a 0, field m a 1, field m a 2, field m a 3, field m a 4⟩

/-- A `process_state_t` at `a`. -/
def processStateAt (m : Memory) (a : Word) : ProcessState := ⟨cpuStateAt m a, stackStateAt m (a + 28)⟩

def registersOf (register : Register → Word) : CpuState where
  ebp := (register .ebp).toNat
  edi := (register .edi).toNat
  esi := (register .esi).toNat
  edx := (register .edx).toNat
  ecx := (register .ecx).toNat
  ebx := (register .ebx).toNat
  eax := (register .eax).toNat

/-- What the registers and the frame on top of the stack say of the code that was
interrupted, and where `iret` goes on. -/
def interrupted (s : Cpu) : ProcessState := ⟨registersOf s.register, stackStateAt s.memory s.esp⟩

/-- The registers in the order in which they are pushed. -/
def saved : List Register := [.eax, .ebx, .ecx, .edx, .esi, .edi, .ebp]

section Structures

variable {m m' : Memory} {a b : Word}

theorem cpuStateAt_holds {register : Register → Word}
    (holds : Holds m a (saved.map register).reverse) : cpuStateAt m a = registersOf register := by
  have length : (saved.map register).reverse.length = 7 := rfl
  unfold cpuStateAt field
  rw [holds.get (i := 0) (by omega), holds.get (i := 1) (by omega), holds.get (i := 2) (by omega),
    holds.get (i := 3) (by omega), holds.get (i := 4) (by omega), holds.get (i := 5) (by omega),
    holds.get (i := 6) (by omega)]
  rfl

theorem registersOf_popped {register : Register → Word}
    (popped : saved.reverse.map register = words m a 7) : registersOf register = cpuStateAt m a := by
  have holds := holds_words m a 7
  rw [← popped, List.map_reverse] at holds
  exact (cpuStateAt_holds holds).symm

theorem field_holds {ws : List Word} (holds : Holds m a ws) {i : Nat} (inside : i < ws.length) :
    field m a i = ws[i].toNat := congrArg BitVec.toNat (holds.get inside)

theorem fields_holds {ws : List Word} (before : Holds m a ws) (after : Holds m' b ws) (i : Nat)
    (inside : i < ws.length) : field m' b i = field m a i := by
  rw [field_holds before inside, field_holds after inside]

theorem field_add (m : Memory) (a : Word) (n i : Nat) :
    field m (a + BitVec.ofNat 32 (4 * n)) i = field m a (n + i) := by
  unfold field
  rw [BitVec.add_assoc, ← BitVec.ofNat_add, ← Nat.mul_add]

theorem stackStateAt_congr (same : ∀ i, i < 5 → field m' b i = field m a i) :
    stackStateAt m' b = stackStateAt m a := by
  unfold stackStateAt
  rw [same 0 (by decide), same 1 (by decide), same 2 (by decide), same 3 (by decide), same 4 (by decide)]

theorem cpuStateAt_congr (same : ∀ i, i < 7 → field m' b i = field m a i) :
    cpuStateAt m' b = cpuStateAt m a := by
  unfold cpuStateAt
  rw [same 0 (by decide), same 1 (by decide), same 2 (by decide), same 3 (by decide), same 4 (by decide),
    same 5 (by decide), same 6 (by decide)]

theorem processStateAt_congr (same : ∀ i, i < 12 → field m' b i = field m a i) :
    processStateAt m' b = processStateAt m a := by
  unfold processStateAt
  rw [cpuStateAt_congr fun i inside => same i (by omega), stackStateAt_congr fun i inside => ?_]
  have here := same (7 + i) (by omega)
  rw [← field_add, ← field_add] at here
  exact here

/-- The saved registers on top of a frame. -/
theorem processStateAt_saved {register : Register → Word} {ws : List Word}
    (holds : Holds m a ((saved.map register).reverse ++ ws)) (frame : Holds m' b ws)
    (length : 5 ≤ ws.length) : processStateAt m a = ⟨registersOf register, stackStateAt m' b⟩ := by
  have above : Holds m (a + 28) ws := holds.drop
  unfold processStateAt
  rw [cpuStateAt_holds holds.take,
    stackStateAt_congr fun i inside => fields_holds frame above i (by omega)]

end Structures

section SystemCall

variable {I : Image} {s t u : Cpu}

/-- `sys_return` resumes what the structure past its return address says. -/
theorem sysReturn_resumes (here : s.control = .run sysReturnText) :
    ∃ t, Processor.Reaches I.program s t ∧ t.control = .run [.iret] ∧ t.esp = s.esp + 32 ∧
      t.memory = s.memory ∧ interrupted t = processStateAt s.memory (s.esp + 4) := by
  have skipped := Processor.execute_reaches (P := I.program) here rfl
  have stack : ((s.addStack 4).goto (.run (saved.reverse.map .pop ++ [.iret]))).Stack
      (words s.memory (s.esp + 4) 7 ++ []) := by
    rw [List.append_nil]
    exact holds_words ..
  obtain ⟨t, reaches, control, memory, esp, popped, _⟩ :=
    Processor.pops saved.reverse (by decide) rfl stack (length_words ..)
  have final : t.esp = s.esp + 32 := by
    have up : t.esp = s.esp + 4 + BitVec.ofNat 32 28 := esp
    bv_omega
  refine ⟨t, .trans skipped reaches, control, final, memory, ?_⟩
  unfold interrupted processStateAt
  rw [registersOf_popped popped, memory, final, show s.esp + 4 + 28 = s.esp + 32 by bv_omega]
  rfl

/-- The handler is back at the instructions after its call, without having changed the
words of its arguments. -/
structure Returned (rest : List (Instruction Label)) (count : Nat) (t u : Cpu) : Prop where
  control : u.control = .run rest
  esp : u.esp = t.esp + 4
  arguments : ∀ i, i < count → field u.memory u.esp i = field t.memory (t.esp + 4) i

/-- The entry hands the handler of the table the state it was interrupted in. -/
theorem handler128_calls (here : s.control = .run (handler128Text I)) :
    ∃ t, Processor.Reaches I.program s t ∧ t.esp = s.esp - 32 ∧
      processStateAt t.memory (t.esp + 4) = interrupted s ∧
      ∃ a, t.control = .address a ∧
        (Outside (I.sysCallTable + 4 * s.register .eax) (s.esp - 28) 28 →
          a = load s.memory (I.sysCallTable + 4 * s.register .eax)) := by
  have five : (words s.memory s.esp 5).length = 5 := length_words ..
  obtain ⟨t, reaches, control, register, esp, stack, outside⟩ :=
    Processor.pushes (P := I.program) saved here (holds_words s.memory s.esp 5) (by
      rw [five]
      decide)
  have down : t.esp = s.esp - 28 := esp
  have index : t.register .eax <<< 2 = 4 * s.register .eax := by
    rw [register]
    bv_omega
  have shifted := Processor.execute_reaches (P := I.program) control rfl
  have found := Processor.execute_reaches (P := I.program)
    (s := (t.set .eax (t.register .eax <<< 2)).goto (.run (.movFrom I.sysCallTable .eax .eax ::
      .callRegister .eax :: .call .sysReturn :: sysReturnText))) rfl rfl
  refine ⟨_, .trans reaches (.trans shifted (.trans found (Processor.execute_reaches rfl rfl))), ?_, ?_,
    _, rfl, ?_⟩
  · show t.esp - 4 = _
    bv_omega
  · have pushed := stack.push (I.returnAddress (.call .sysReturn :: sysReturnText)) (by
      rw [List.length_append, List.length_reverse, List.length_map, five]
      decide)
    exact processStateAt_saved pushed.2 (holds_words s.memory s.esp 5) (by omega)
  · intro apart
    rw [← down] at apart
    show load t.memory (I.sysCallTable + t.register .eax <<< 2) = _
    rw [index]
    exact outside _ apart

/-- A handler that returns leads to `sys_return` with what it was handed. -/
theorem handler128_returns (returned : Returned (.call .sysReturn :: sysReturnText) 12 s t) :
    ∃ u, Processor.Reaches I.program t u ∧ u.control = .run [.iret] ∧ u.esp = s.esp + 32 ∧
      interrupted u = processStateAt s.memory (s.esp + 4) := by
  have twelve : (words t.memory t.esp 12).length = 12 := length_words ..
  have called := Processor.execute_reaches (P := I.program) returned.control rfl
  have pushed := Processor.Stack.push (s := t) (holds_words t.memory t.esp 12)
    (I.returnAddress sysReturnText) (by
      rw [twelve]
      decide)
  obtain ⟨u, reaches, control, esp, memory, resumed⟩ := sysReturn_resumes (I := I)
    (s := (t.push (I.returnAddress sysReturnText)).goto (.run sysReturnText)) rfl
  refine ⟨u, .trans called reaches, control, ?_, ?_⟩
  · have back := returned.esp
    have up : u.esp = t.esp - 4 + 32 := esp
    bv_omega
  · rw [resumed]
    apply processStateAt_congr
    intro i inside
    rw [← returned.arguments i inside]
    exact fields_holds (holds_words t.memory t.esp 12) pushed.2 i (by omega)

end SystemCall

/-- The handler of a system call is handed the state that was interrupted, and a handler that
returns goes back to it. `sys_return` resumes whatever state it is called with. -/
theorem systemCall_round_trip (I : Image) (s : Cpu) (here : s.control = .run (handler128Text I)) :
    (∃ t, Processor.Reaches I.program s t ∧ processStateAt t.memory (t.esp + 4) = interrupted s ∧
      (∃ a, t.control = .address a ∧
        (Outside (I.sysCallTable + 4 * s.register .eax) (s.esp - 28) 28 →
          a = load s.memory (I.sysCallTable + 4 * s.register .eax))) ∧
      ∀ u, Returned (.call .sysReturn :: sysReturnText) 12 t u →
        ∃ v, Processor.Reaches I.program u v ∧ v.control = .run [.iret] ∧ v.esp = s.esp ∧
          interrupted v = interrupted s) ∧
    ∀ (state : ProcessState) (t : Cpu), t.control = .run sysReturnText →
      processStateAt t.memory (t.esp + 4) = state →
      ∃ u, Processor.Reaches I.program t u ∧ u.control = .run [.iret] ∧ u.memory = t.memory ∧
        u.esp = t.esp + 4 + 28 ∧ interrupted u = state := by
  constructor
  · obtain ⟨t, reaches, esp, handed, called⟩ := handler128_calls here
    refine ⟨t, reaches, handed, called, fun u returned => ?_⟩
    obtain ⟨v, onward, control, up, resumed⟩ := handler128_returns (I := I) returned
    exact ⟨v, onward, control, by bv_omega, resumed.trans handed⟩
  · intro state t start handed
    obtain ⟨u, reaches, control, esp, memory, resumed⟩ := sysReturn_resumes (I := I) start
    exact ⟨u, reaches, control, memory, by bv_omega, resumed.trans handed⟩

/-- An image for examples: where its table lies and what its calls push does not matter. -/
def plainImage : Image := ⟨0xC0105000, fun _ => 0⟩

/-- A process that asks for its pid. -/
def asking : Cpu where
  register := Function.update (fun _ => 7) .eax 3
  esp := 0xFFBFFFE8
  memory := fun _ => 1
  notLess := false
  control := .run (handler128Text plainImage)

theorem systemCall_round_trip_asking : ∃ t, Processor.Reaches plainImage.program asking t ∧
    (processStateAt t.memory (t.esp + 4)).cpu.eax = 3 := by
  obtain ⟨t, reaches, handed, _⟩ := (systemCall_round_trip plainImage asking rfl).1
  refine ⟨t, reaches, ?_⟩
  rw [handed]
  rfl

/-- The exceptions for which the processor pushes an error code. -/
def PushesErrorCode (n : Nat) : Prop := n = 8 ∨ 10 ≤ n ∧ n ≤ 14 ∨ n = 17

instance : DecidablePred PushesErrorCode := fun _ => inferInstanceAs (Decidable (_ ∨ _ ∧ _ ∨ _))

/-- Where the processor left `eip` when it got to the stub. -/
def frameOf (n : Nat) (s : Cpu) : Word := if PushesErrorCode n then s.esp + 4 else s.esp

def errorCodeOf (n : Nat) (s : Cpu) : Nat := if PushesErrorCode n then field s.memory s.esp 0 else 0

/-- What the stub of vector `n` owes: the arguments of `interupt_handler(cpu, interupt,
error_code, stack)` are right, and after it the interrupted code resumes unchanged. -/
def Balances (I : Image) (n : Nat) : Prop :=
  ∀ (s : Cpu) (text : List (Instruction Label)), I.program.text (.stub n) = some text →
    s.control = .run text →
    ∃ t, Processor.Reaches I.program s t ∧ t.control = .function .interuptHandler ∧
      cpuStateAt t.memory (t.esp + 4) = registersOf s.register ∧
      field t.memory (t.esp + 32) 0 = n ∧ field t.memory (t.esp + 36) 0 = errorCodeOf n s ∧
      stackStateAt t.memory (t.esp + 40) = stackStateAt s.memory (frameOf n s) ∧
      ∀ u, Returned commonReturnText 14 t u →
        ∃ v, Processor.Reaches I.program u v ∧ v.control = .run [.iret] ∧ v.esp = frameOf n s ∧
          v.register = s.register ∧ stackStateAt v.memory v.esp = stackStateAt s.memory (frameOf n s)

section Stubs

variable {I : Image} {n : Nat} {s t u : Cpu} {ws : List Word}

/-- What the stub of vector `n` pushes. -/
def stubWords (n : Nat) : List Word :=
  if n ∈ errorCodeStubs then [BitVec.ofNat 32 n] else [BitVec.ofNat 32 n, 0]

theorem stubWords_length (n : Nat) : (stubWords n).length = if n ∈ errorCodeStubs then 1 else 2 := by
  unfold stubWords
  split <;> rfl

theorem stub_reaches (here : s.control = .run (stubText n)) (stack : s.Stack ws)
    (short : ws.length ≤ 8) : ∃ t, Processor.Reaches I.program s t ∧ t.control = .run commonText ∧
      t.register = s.register ∧ t.Stack (stubWords n ++ ws) ∧
      t.esp = s.esp - BitVec.ofNat 32 (4 * (stubWords n).length) := by
  unfold stubText at here
  unfold stubWords
  split at here
  · next takes =>
    rw [if_pos takes]
    have pushed := stack.push (BitVec.ofNat 32 n) (by omega)
    exact ⟨_, .trans (Processor.execute_reaches here rfl) (Processor.execute_reaches rfl rfl), rfl, rfl,
      pushed, rfl⟩
  · next lacks =>
    rw [if_neg lacks]
    have pushed := (stack.push 0 (by omega)).push (BitVec.ofNat 32 n) (by
      rw [List.length_cons]
      omega)
    refine ⟨_, .trans (Processor.execute_reaches here rfl) (.trans (Processor.execute_reaches rfl rfl)
      (Processor.execute_reaches rfl rfl)), rfl, rfl, pushed, ?_⟩
    show s.esp - 4 - 4 = s.esp - 8
    bv_omega

theorem common_calls (here : s.control = .run commonText) (stack : s.Stack ws)
    (short : ws.length ≤ 16) : ∃ t, Processor.Reaches I.program s t ∧
      t.control = .function .interuptHandler ∧ t.esp = s.esp - 32 ∧
      Holds t.memory (t.esp + 4) ((saved.map s.register).reverse ++ ws) := by
  obtain ⟨t, reaches, control, register, esp, held, _⟩ :=
    Processor.pushes (P := I.program) saved here stack (by
      show 4 * (ws.length + 7) ≤ 2 ^ 32
      omega)
  have down : t.esp = s.esp - 28 := esp
  have pushed := held.push (I.returnAddress commonReturnText) (by
    rw [List.length_append, List.length_reverse, List.length_map]
    show 4 * (7 + ws.length + 1) ≤ 2 ^ 32
    omega)
  refine ⟨_, .trans reaches (Processor.execute_reaches control rfl), rfl, ?_, pushed.2⟩
  show t.esp - 4 = _
  bv_omega

theorem common_returns (returned : Returned commonReturnText 14 s t) :
    ∃ u, Processor.Reaches I.program t u ∧ u.control = .run [.iret] ∧ u.esp = s.esp + 40 ∧
      u.memory = t.memory ∧ registersOf u.register = cpuStateAt s.memory (s.esp + 4) := by
  have stack : t.Stack (words t.memory t.esp 7 ++ []) := by
    rw [List.append_nil]
    exact holds_words ..
  have here : t.control = .run (saved.reverse.map .pop ++ [.addStack 8, .iret]) := returned.control
  obtain ⟨u, reaches, control, memory, esp, popped, _⟩ :=
    Processor.pops (P := I.program) saved.reverse (by decide) here stack (length_words ..)
  refine ⟨_, .trans reaches (Processor.execute_reaches control rfl), rfl, ?_, memory, ?_⟩
  · have up : u.esp = t.esp + 28 := esp
    have back := returned.esp
    show u.esp + 8 = _
    bv_omega
  · show registersOf u.register = _
    rw [registersOf_popped popped]
    exact cpuStateAt_congr fun i inside => returned.arguments i (by omega)

theorem registersOf_injective {register register' : Register → Word}
    (same : registersOf register = registersOf register') : register = register' := by
  unfold registersOf at same
  simp only [CpuState.mk.injEq] at same
  obtain ⟨ebp, edi, esi, edx, ecx, ebx, eax⟩ := same
  funext r
  apply BitVec.eq_of_toNat_eq
  cases r
  · exact eax
  · exact ebx
  · exact ecx
  · exact edx
  · exact esi
  · exact edi
  · exact ebp

/-- The run of a stub, for any vector, with the handler's call in the middle. -/
theorem stub_runs (here : s.control = .run (stubText n)) :
    ∃ t, Processor.Reaches I.program s t ∧ t.control = .function .interuptHandler ∧
      t.esp = s.esp - BitVec.ofNat 32 (4 * (stubWords n).length) - 32 ∧
      cpuStateAt t.memory (t.esp + 4) = registersOf s.register ∧
      Holds t.memory (t.esp + 32) (stubWords n ++ words s.memory s.esp 6) ∧
      ∀ u, Returned commonReturnText 14 t u →
        ∃ v, Processor.Reaches I.program u v ∧ v.control = .run [.iret] ∧ v.esp = t.esp + 40 ∧
          v.memory = u.memory ∧ v.register = s.register := by
  have six : (words s.memory s.esp 6).length = 6 := length_words ..
  have few : (stubWords n).length ≤ 2 := by
    rw [stubWords_length]
    split <;> omega
  obtain ⟨t, begun, control, register, stack, esp⟩ :=
    stub_reaches (I := I) here (holds_words s.memory s.esp 6) (by omega)
  obtain ⟨u, called, function, down, held⟩ := common_calls (I := I) control stack (by
    rw [List.length_append]
    omega)
  rw [register] at held
  refine ⟨u, .trans begun called, function, by rw [down, esp], cpuStateAt_holds held.take, ?_,
    fun v returned => ?_⟩
  · have above : Holds u.memory (u.esp + 4 + 28) (stubWords n ++ words s.memory s.esp 6) := held.drop
    rw [show u.esp + 32 = u.esp + 4 + 28 by bv_omega]
    exact above
  · obtain ⟨w, reaches, last, up, memory, popped⟩ := common_returns (I := I) returned
    exact ⟨w, reaches, last, up, memory,
      registersOf_injective (popped.trans (cpuStateAt_holds held.take))⟩

/-- The macros fit the processor but for two vectors. -/
theorem takes_iff (n : Nat) : (n ∈ errorCodeStubs ↔ PushesErrorCode n) ↔ n ≠ 7 ∧ n ≠ 8 := by
  unfold errorCodeStubs PushesErrorCode
  simp only [List.mem_cons, List.not_mem_nil, or_false]
  omega

/-- With the right macro the handler's parameters lie over what the processor pushed. -/
theorem frame_of_fits (fits : n ∈ errorCodeStubs ↔ PushesErrorCode n)
    (esp : t.esp = s.esp - BitVec.ofNat 32 (4 * (stubWords n).length) - 32)
    (held : Holds t.memory (t.esp + 32) (stubWords n ++ words s.memory s.esp 6)) :
    field t.memory (t.esp + 36) 0 = errorCodeOf n s ∧ t.esp + 40 = frameOf n s ∧
      Holds t.memory (t.esp + 40) (words s.memory (frameOf n s) 5) := by
  have next : t.esp + 32 + 4 = t.esp + 36 := by bv_omega
  have last : t.esp + 36 + 4 = t.esp + 40 := by bv_omega
  unfold stubWords at esp held
  unfold errorCodeOf frameOf
  by_cases takes : n ∈ errorCodeStubs
  · rw [if_pos takes] at esp held
    rw [if_pos (fits.mp takes), if_pos (fits.mp takes)]
    have up : t.esp = s.esp - 4 - 32 := esp
    obtain ⟨_, code, above⟩ := held
    rw [next] at code above
    rw [last] at above
    refine ⟨?_, by bv_omega, above⟩
    show (load _ (_ + 0#32)).toNat = (load _ (_ + 0#32)).toNat
    rw [BitVec.add_zero, BitVec.add_zero, code]
  · rw [if_neg takes] at esp held
    rw [if_neg (mt fits.mpr takes), if_neg (mt fits.mpr takes)]
    have up : t.esp = s.esp - 8 - 32 := esp
    obtain ⟨_, zero, above⟩ := held
    rw [next] at zero above
    rw [last] at above
    refine ⟨?_, by bv_omega, ?_⟩
    · show (load _ (_ + 0#32)).toNat = 0
      rw [BitVec.add_zero, zero]
      rfl
    · obtain ⟨eip, cs, eflags, stack, segment, _⟩ := above
      exact ⟨eip, cs, eflags, stack, segment, trivial⟩

theorem text_stub (vector : n < 256) (other : n ≠ 128) :
    I.program.text (.stub n) = some (stubText n) := if_neg (by omega)

theorem balances_of_fits (vector : n < 256) (other : n ≠ 128)
    (fits : n ∈ errorCodeStubs ↔ PushesErrorCode n) : Balances I n := by
  intro s text stub here
  rw [text_stub vector other, Option.some.injEq] at stub
  rw [← stub] at here
  obtain ⟨t, reaches, control, esp, cpu, held, returns⟩ := stub_runs (I := I) here
  obtain ⟨code, frame, above⟩ := frame_of_fits fits esp held
  have five : (words s.memory (frameOf n s) 5).length = 5 := length_words ..
  have value : (BitVec.ofNat 32 n).toNat = n := by
    rw [BitVec.toNat_ofNat]
    omega
  have pushed : field t.memory (t.esp + 32) 0 = n := by
    unfold stubWords at held
    split at held
    · exact (field_holds held (Nat.zero_lt_succ _)).trans value
    · exact (field_holds held (Nat.zero_lt_succ _)).trans value
  have stack : stackStateAt t.memory (t.esp + 40) = stackStateAt s.memory (frameOf n s) :=
    stackStateAt_congr fun i inside => fields_holds (holds_words ..) above i (by omega)
  refine ⟨t, reaches, control, cpu, pushed, code, stack, fun u returned => ?_⟩
  obtain ⟨v, onward, last, up, memory, register⟩ := returns u returned
  refine ⟨v, onward, last, up.trans frame, register, ?_⟩
  rw [up, memory, ← stack]
  apply stackStateAt_congr
  intro i inside
  have same := returned.arguments (9 + i) (by omega)
  rw [← field_add, ← field_add, returned.esp, BitVec.add_assoc] at same
  exact same

/-- With the wrong macro `iret` takes a word beside `eip`. -/
theorem fits_of_balances (vector : n < 256) (other : n ≠ 128) (balances : Balances I n) :
    n ∈ errorCodeStubs ↔ PushesErrorCode n := by
  obtain ⟨s, here⟩ : ∃ s : Cpu, s.control = .run (stubText n) :=
    ⟨⟨fun _ => 0, 0, fun _ => 0, false, .run (stubText n)⟩, rfl⟩
  obtain ⟨t, reaches, control, esp, _, _, returns⟩ := stub_runs (I := I) here
  obtain ⟨t', reaches', control', _, _, _, _, returns'⟩ := balances s _ (text_stub vector other) here
  have stops : ∀ v : Cpu, v.control = .function .interuptHandler → v.step I.program = none := by
    intro v outside
    unfold Processor.step
    rw [outside]
  have ends : ∀ v : Cpu, v.control = .run [.iret] → v.step I.program = none := by
    intro v last
    unfold Processor.step
    rw [last]
    rfl
  obtain rfl := reaches.stops reaches' (stops t control) (stops t' control')
  have returned : Returned commonReturnText 14 t
      { t with esp := t.esp + 4, control := .run commonReturnText } := ⟨rfl, rfl, fun _ _ => rfl⟩
  obtain ⟨v, onward, last, up, _⟩ := returns _ returned
  obtain ⟨v', onward', last', up', _⟩ := returns' _ returned
  obtain rfl := onward.stops onward' (ends v last) (ends v' last')
  have length := stubWords_length n
  have place : t.esp + 40 = frameOf n s := up.symm.trans up'
  unfold frameOf at place
  by_cases takes : n ∈ errorCodeStubs <;> by_cases pushes : PushesErrorCode n
  · exact ⟨fun _ => pushes, fun _ => takes⟩
  · rw [if_pos takes] at length
    rw [if_neg pushes] at place
    rw [length] at esp
    bv_omega
  · rw [if_neg takes] at length
    rw [if_pos pushes] at place
    rw [length] at esp
    bv_omega
  · exact ⟨fun here => absurd here takes, fun here => absurd here pushes⟩

end Stubs

/-- The stubs of all vectors balance the stack but those of 7 and 8. -/
theorem stub_balances_iff (I : Image) (n : Nat) (vector : n < 256) (other : n ≠ 128) :
    Balances I n ↔ n ≠ 7 ∧ n ≠ 8 := by
  rw [← takes_iff]
  exact ⟨fits_of_balances vector other, balances_of_fits vector other⟩

theorem stub_balances_timer : Balances plainImage 32 :=
  (stub_balances_iff plainImage 32 (by decide) (by decide)).mpr (by decide)

/-- The exception for a missing coprocessor has no error code, and its stub counts on one. -/
theorem stub_7_unbalanced : ¬ Balances plainImage 7 := by
  intro balances
  have fits := fits_of_balances (by decide) (by decide) balances
  exact absurd (fits.mp (by decide)) (by decide)

end Snfos.Interrupts
