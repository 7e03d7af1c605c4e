import Mathlib.Algebra.Group.Nat.Defs
import Mathlib.Logic.Function.Basic
import Mathlib.Logic.Relation

set_option autoImplicit false

/- A fragment of i386 assembly over byte-addressed memory. Addresses and words have 32
bits and wrap around; the stack grows down and is seen as a list of words. -/
namespace Assembly

abbrev Word := BitVec 32

abbrev Memory := Word → BitVec 8

/-- The little-endian word at `a`. -/
def load (m : Memory) (a : Word) : Word := m (a + 3) ++ m (a + 2) ++ m (a + 1) ++ m a

def store (m : Memory) (a v : Word) : Memory := fun b =>
  if b = a then v.extractLsb' 0 8
  else if b = a + 1 then v.extractLsb' 8 8
  else if b = a + 2 then v.extractLsb' 16 8
  else if b = a + 3 then v.extractLsb' 24 8
  else m b

theorem bytes_append (v : Word) : (v.extractLsb' 24 8 ++ v.extractLsb' 16 8 ++
    v.extractLsb' 8 8 ++ v.extractLsb' 0 8 : Word) = v := by
  apply BitVec.eq_of_getLsbD_eq
  intro i small
  simp only [BitVec.getLsbD_append, BitVec.getLsbD_extractLsb']
  by_cases first : i < 8
  · simp [first]
  · by_cases second : i - 8 < 8
    · have index : 8 + (i - 8) = i := by omega
      simp [first, second, index]
    · by_cases third : i - 8 - 8 < 8
      · have index : 16 + (i - 8 - 8) = i := by omega
        simp [first, second, third, index]
      · have fourth : i - 8 - 8 - 8 < 8 := by omega
        have index : 24 + (i - 8 - 8 - 8) = i := by omega
        simp [first, second, third, fourth, index]

theorem load_toNat (m : Memory) (a : Word) : (load m a).toNat = (m a).toNat +
    2 ^ 8 * (m (a + 1)).toNat + 2 ^ 16 * (m (a + 2)).toNat + 2 ^ 24 * (m (a + 3)).toNat := by
  unfold load
  rw [BitVec.toNat_append, ← Nat.shiftLeft_add_eq_or_of_lt (m a).isLt, BitVec.toNat_append,
    ← Nat.shiftLeft_add_eq_or_of_lt (m (a + 1)).isLt, BitVec.toNat_append,
    ← Nat.shiftLeft_add_eq_or_of_lt (m (a + 2)).isLt, Nat.shiftLeft_eq, Nat.shiftLeft_eq,
    Nat.shiftLeft_eq]
  omega

theorem load_store (m : Memory) (a v : Word) : load (store m a v) a = v := by
  have h1 : a + 1 ≠ a := by bv_omega
  have h2 : a + 2 ≠ a ∧ a + 2 ≠ a + 1 := by bv_omega
  have h3 : a + 3 ≠ a ∧ a + 3 ≠ a + 1 ∧ a + 3 ≠ a + 2 := by bv_omega
  unfold load store
  simp only [h1, h2, h3, if_true, if_false]
  exact bytes_append v

theorem store_apart (m : Memory) {a b : Word} (v : Word) (apart : 4 ≤ (b - a).toNat) :
    store m a v b = m b := by
  unfold store
  rw [if_neg (by bv_omega), if_neg (by bv_omega), if_neg (by bv_omega), if_neg (by bv_omega)]

/-- Two words apart, on a memory that wraps around. -/
theorem load_store_apart (m : Memory) {a b : Word} (v : Word) (lower : 4 ≤ (b - a).toNat)
    (upper : (b - a).toNat ≤ 2 ^ 32 - 4) : load (store m a v) b = load m b := by
  unfold load
  rw [store_apart m v lower, store_apart m v (b := b + 1) (by bv_omega),
    store_apart m v (b := b + 2) (by bv_omega), store_apart m v (b := b + 3) (by bv_omega)]

/-- The words from `a` up are those of the list. -/
def Holds (m : Memory) (a : Word) : List Word → Prop
  | [] => True
  | w :: ws => load m a = w ∧ Holds m (a + 4) ws

/-- The word at `a` lies outside the `n` bytes from `lo` on. -/
def Outside (a lo : Word) (n : Nat) : Prop := n ≤ (a - lo).toNat ∧ (a - lo).toNat ≤ 2 ^ 32 - 4

/-- The `n` words from `a` up. -/
def words (m : Memory) (a : Word) : Nat → List Word
  | 0 => []
  | n + 1 => load m a :: words m (a + 4) n

section Stack

variable {m : Memory} {a : Word} {us ws : List Word}

theorem length_words (m : Memory) (a : Word) (n : Nat) : (words m a n).length = n := by
  induction n generalizing a with
  | zero => rfl
  | succ n ih => exact congrArg Nat.succ (ih (a + 4))

theorem holds_words (m : Memory) (a : Word) (n : Nat) : Holds m a (words m a n) := by
  induction n generalizing a with
  | zero => trivial
  | succ n ih => exact ⟨rfl, ih (a + 4)⟩

theorem Holds.get (holds : Holds m a ws) {i : Nat} (inside : i < ws.length) :
    load m (a + BitVec.ofNat 32 (4 * i)) = ws[i] := by
  induction ws generalizing a i with
  | nil => cases inside
  | cons w ws ih =>
    cases i with
    | zero =>
      rw [Nat.mul_zero, BitVec.add_zero]
      exact holds.1
    | succ i =>
      have address : a + BitVec.ofNat 32 (4 * (i + 1)) = a + 4 + BitVec.ofNat 32 (4 * i) := by
        bv_omega
      rw [address]
      exact ih holds.2 (Nat.lt_of_succ_lt_succ inside)

theorem Holds.append : Holds m a (us ++ ws) ↔
    Holds m a us ∧ Holds m (a + BitVec.ofNat 32 (4 * us.length)) ws := by
  induction us generalizing a with
  | nil =>
    rw [List.nil_append, List.length_nil, Nat.mul_zero, BitVec.add_zero]
    exact ⟨fun holds => ⟨trivial, holds⟩, And.right⟩
  | cons u us ih =>
    have address : a + 4 + BitVec.ofNat 32 (4 * us.length) =
        a + BitVec.ofNat 32 (4 * (u :: us).length) := by
      rw [List.length_cons]
      bv_omega
    show _ ∧ Holds m (a + 4) (us ++ ws) ↔ (_ ∧ Holds m (a + 4) us) ∧ _
    rw [ih, address, and_assoc]

theorem Holds.drop (holds : Holds m a (us ++ ws)) :
    Holds m (a + BitVec.ofNat 32 (4 * us.length)) ws := (Holds.append.mp holds).2

theorem Holds.take (holds : Holds m a (us ++ ws)) : Holds m a us := (Holds.append.mp holds).1

/-- What lies above a word stays when the word is written. -/
theorem Holds.above {v : Word} {n : Nat} (holds : Holds m (a + BitVec.ofNat 32 n) ws) (lower : 4 ≤ n)
    (upper : n + 4 * ws.length ≤ 2 ^ 32) : Holds (store m a v) (a + BitVec.ofNat 32 n) ws := by
  induction ws generalizing n with
  | nil => trivial
  | cons w ws ih =>
    rw [List.length_cons] at upper
    have next : a + BitVec.ofNat 32 n + 4 = a + BitVec.ofNat 32 (n + 4) := by bv_omega
    have later : Holds m (a + BitVec.ofNat 32 (n + 4)) ws := by
      rw [← next]
      exact holds.2
    refine ⟨(load_store_apart m v (by bv_omega) (by bv_omega)).trans holds.1, ?_⟩
    rw [next]
    exact ih later (by omega) (by omega)

/-- A word pushed on a stack. -/
theorem Holds.push (holds : Holds m a ws) (v : Word) (room : 4 * (ws.length + 1) ≤ 2 ^ 32) :
    Holds (store m (a - 4) v) (a - 4) (v :: ws) := by
  have address : a - 4 + BitVec.ofNat 32 4 = a := by bv_omega
  refine ⟨load_store m (a - 4) v, Holds.above (n := 4) ?_ (Nat.le_refl 4) (by omega)⟩
  rw [address]
  exact holds

end Stack

inductive Register
  | eax | ebx | ecx | edx | esi | edi | ebp
deriving DecidableEq

/-- Instructions as the assembler writes them, with the operand that is changed last. `L`
names the labels. -/
inductive Instruction (L : Type)
  | push (r : Register)
  | pushWord (w : Word)
  | pop (r : Register)
  | movWord (w : Word) (r : Register)
  /-- `mov disp(index), r`. -/
  | movFrom (disp : Word) (index r : Register)
  /-- `mov r, (base)`. -/
  | movTo (r base : Register)
  | addWord (w : Word) (r : Register)
  | addStack (w : Word)
  | shiftLeft (n : Nat) (r : Register)
  | cmpWord (w : Word) (r : Register)
  | jge (l : L)
  | jmp (l : L)
  | call (l : L)
  | callRegister (r : Register)
  | iret

/-- The instructions after a label, `none` where they are not part of the text, and the
address that a call pushes for the instructions after it. -/
structure Program (L : Type) where
  text : L → Option (List (Instruction L))
  returnAddress : List (Instruction L) → Word

/-- Where the processor is: before some instructions of the text, or at the first one of a
function outside it. -/
inductive Control (L : Type)
  | run (rest : List (Instruction L))
  | function (l : L)
  | address (a : Word)

/-- `notLess` says that the flags of sign and overflow agree. -/
structure Processor (L : Type) where
  register : Register → Word
  esp : Word
  memory : Memory
  notLess : Bool
  control : Control L

namespace Processor

variable {L : Type}

def set (s : Processor L) (r : Register) (w : Word) : Processor L :=
  { s with register := Function.update s.register r w }

def push (s : Processor L) (w : Word) : Processor L :=
  { s with esp := s.esp - 4, memory := store s.memory (s.esp - 4) w }

def pop (s : Processor L) (r : Register) : Processor L :=
  { s.set r (load s.memory s.esp) with esp := s.esp + 4 }

def addStack (s : Processor L) (w : Word) : Processor L :=
  { s with esp := s.esp + w, notLess := 0 ≤ s.esp.toInt + w.toInt }

def goto (s : Processor L) (control : Control L) : Processor L := { s with control := control }

def jump (P : Program L) (s : Processor L) (l : L) : Processor L :=
  s.goto (match P.text l with
    | some rest => .run rest
    | none => .function l)

/-- One instruction, with those after it. A jump looks at flags that `cmp` and `add` leave
there. -/
def execute (P : Program L) (s : Processor L) (rest : List (Instruction L)) :
    Instruction L → Option (Processor L)
  | .push r => some ((s.push (s.register r)).goto (.run rest))
  | .pushWord w => some ((s.push w).goto (.run rest))
  | .pop r => some ((s.pop r).goto (.run rest))
  | .movWord w r => some ((s.set r w).goto (.run rest))
  | .movFrom disp index r =>
      some ((s.set r (load s.memory (disp + s.register index))).goto (.run rest))
  | .movTo r base =>
      some ({ s with memory := store s.memory (s.register base) (s.register r) }.goto (.run rest))
  | .addWord w r => some ({ s.set r (s.register r + w) with
      notLess := 0 ≤ (s.register r).toInt + w.toInt }.goto (.run rest))
  | .addStack w => some ((s.addStack w).goto (.run rest))
  | .shiftLeft n r => some ((s.set r (s.register r <<< n)).goto (.run rest))
  | .cmpWord w r => some ({ s with notLess := w.toInt ≤ (s.register r).toInt }.goto (.run rest))
  | .jge l => some (if s.notLess then s.jump P l else s.goto (.run rest))
  | .jmp l => some (s.jump P l)
  | .call l => some ((s.push (P.returnAddress rest)).jump P l)
  | .callRegister r => some ((s.push (P.returnAddress rest)).goto (.address (s.register r)))
  | .iret => none

/-- `none` where the text ends: before `iret`, or in a function outside it. -/
def step (P : Program L) (s : Processor L) : Option (Processor L) :=
  match s.control with
  | .run (i :: rest) => s.execute P rest i
  | _ => none

/-- What the processor gets to. -/
def Reaches (P : Program L) : Processor L → Processor L → Prop :=
  Relation.ReflTransGen fun s t => s.step P = some t

section Runs

variable {P : Program L} {s t u : Processor L} {rest : List (Instruction L)} {ws : List Word}

theorem Reaches.refl (s : Processor L) : Reaches P s s := Relation.ReflTransGen.refl

theorem Reaches.trans (first : Reaches P s t) (second : Reaches P t u) : Reaches P s u :=
  Relation.ReflTransGen.trans first second

theorem Reaches.head (first : s.step P = some t) (second : Reaches P t u) : Reaches P s u :=
  Relation.ReflTransGen.head first second

/-- The processor is deterministic: where it stops is where it gets. -/
theorem Reaches.stops (first : Reaches P s t) (second : Reaches P s u) (tStops : t.step P = none)
    (uStops : u.step P = none) : t = u := by
  have unique : Relator.RightUnique fun s t : Processor L => s.step P = some t :=
    fun _ _ _ one other => Option.some.inj (one.symm.trans other)
  have still : ∀ {v w : Processor L}, v.step P = none → Reaches P v w → v = w := by
    intro v w stops reaches
    rcases reaches.cases_head with same | ⟨_, step, _⟩
    · exact same
    · rw [stops] at step
      cases step
  rcases Relation.ReflTransGen.total_of_right_unique unique first second with onward | back
  · exact still tStops onward
  · exact (still uStops back).symm

theorem execute_reaches {i : Instruction L} (here : s.control = .run (i :: rest))
    (executed : s.execute P rest i = some t) : Reaches P s t := by
  refine .head ?_ (.refl t)
  unfold step
  rw [here]
  exact executed

/-- The stack of a processor from its top on. -/
def Stack (s : Processor L) (ws : List Word) : Prop := Holds s.memory s.esp ws

theorem Stack.push (stack : s.Stack ws) (v : Word) (room : 4 * (ws.length + 1) ≤ 2 ^ 32) :
    (s.push v).Stack (v :: ws) := Holds.push stack v room

/-- Registers pushed one after the other: the last one is on top. -/
theorem pushes (rs : List Register) (here : s.control = .run (rs.map .push ++ rest))
    (stack : s.Stack ws) (room : 4 * (ws.length + rs.length) ≤ 2 ^ 32) :
    ∃ t, Reaches P s t ∧ t.control = .run rest ∧ t.register = s.register ∧
      t.esp = s.esp - BitVec.ofNat 32 (4 * rs.length) ∧
      t.Stack ((rs.map s.register).reverse ++ ws) ∧
      ∀ a, Outside a t.esp (4 * rs.length) → load t.memory a = load s.memory a := by
  induction rs generalizing s ws with
  | nil =>
    refine ⟨s, .refl s, here, rfl, ?_, stack, fun _ _ => rfl⟩
    rw [List.length_nil, Nat.mul_zero, BitVec.sub_zero]
  | cons r rs ih =>
    rw [List.length_cons] at room
    obtain ⟨t, reaches, control, register, esp, holds, outside⟩ :=
      ih (s := (s.push (s.register r)).goto (.run (rs.map .push ++ rest))) rfl
        (stack.push (s.register r) (by omega)) (by rw [List.length_cons]; omega)
    have down : t.esp = s.esp - 4 - BitVec.ofNat 32 (4 * rs.length) := esp
    refine ⟨t, .trans (execute_reaches here rfl) reaches, control, register, ?_, ?_, ?_⟩
    · rw [down, List.length_cons]
      bv_omega
    · rw [List.map_cons, List.reverse_cons, List.append_assoc]
      exact holds
    · intro a beyond
      rw [List.length_cons] at beyond
      obtain ⟨lower, upper⟩ := beyond
      rw [outside a ⟨by omega, upper⟩]
      exact load_store_apart s.memory _ (by bv_omega) (by bv_omega)

/-- Registers popped one after the other: the first one takes the top. -/
theorem pops (rs : List Register) (different : rs.Nodup) {vs : List Word}
    (here : s.control = .run (rs.map .pop ++ rest)) (stack : s.Stack (vs ++ ws))
    (same : vs.length = rs.length) :
    ∃ t, Reaches P s t ∧ t.control = .run rest ∧ t.memory = s.memory ∧
      t.esp = s.esp + BitVec.ofNat 32 (4 * rs.length) ∧ rs.map t.register = vs ∧
      ∀ r, r ∉ rs → t.register r = s.register r := by
  induction rs generalizing s vs with
  | nil =>
    rw [List.length_nil, List.length_eq_zero_iff] at same
    refine ⟨s, .refl s, here, rfl, ?_, same.symm, fun _ _ => rfl⟩
    rw [List.length_nil, Nat.mul_zero, BitVec.add_zero]
  | cons r rs ih =>
    cases vs with
    | nil => cases same
    | cons v vs =>
      obtain ⟨top, below⟩ := stack
      obtain ⟨absent, different⟩ := List.nodup_cons.mp different
      have lower : ((s.pop r).goto (.run (rs.map .pop ++ rest))).Stack (vs ++ ws) := below
      obtain ⟨t, reaches, control, memory, esp, popped, others⟩ :=
        ih different rfl lower (Nat.succ.inj same)
      refine ⟨t, .trans (execute_reaches here rfl) reaches, control, memory, ?_, ?_, ?_⟩
      · rw [esp, List.length_cons]
        show s.esp + 4 + _ = _
        bv_omega
      · rw [List.map_cons, popped, others r absent]
        congr 1
        exact (Function.update_self ..).trans top
      · intro q outside
        rw [List.mem_cons, not_or] at outside
        rw [others q outside.2]
        exact Function.update_of_ne outside.1 ..

end Runs

end Processor

end Assembly
