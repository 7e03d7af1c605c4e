import Snfos.PrintfAccounting
import Snfos.Process

set_option autoImplicit false

/- The two functions `print` that `printf` is built with, and what the same call of
`printf` comes to with each. -/
namespace Snfos.Printf

/-- What `print` answers for a piece, and the characters it sends to the terminal. -/
abbrev Printer := List UInt8 → Bool × List UInt8

/-- The value a call of `printf` returns, and what the terminal shows of it. -/
def through (printer : Printer) (strings : Nat → List UInt8) (format : List UInt8)
    (args : List Nat) : Option Int × List UInt8 :=
  let run := printf strings format args (fun log => (printer (log.headD [])).1) []
  (returned run.1, run.2.reverse.flatMap fun piece => (printer piece).2)

/-- `putchar` of the kernel: what it returns, and the character it writes. -/
def putchar (ic : Int) : Int × UInt8 := (ic, UInt8.ofNat (unsigned ic))

/-- `print` with `__is_libk`. `EOF` is -1. -/
def kernelPrint : Printer
  | [] => (true, [])
  | c :: rest =>
      let (answer, shown) := putchar c.toNat
      if answer = -1 then (false, [shown])
      else ((kernelPrint rest).1, shown :: (kernelPrint rest).2)

def kernelPrintf (strings : Nat → List UInt8) (format : List UInt8) (args : List Nat) :
    Option Int × List UInt8 := through kernelPrint strings format args

/-- A `char`, which is signed, as the argument of a function. -/
def promoted (c : UInt8) : Nat := if c.toNat < 128 then c.toNat else c.toNat + 0xFFFFFF00

/-- `sys_print`: `text` is what `ebx` points to. -/
def sysPrint (text : List UInt8) (processState : ProcessState) : ProcessState × List UInt8 :=
  (Kernel.withEax processState 1, (List.range processState.cpu.ecx).flatMap fun i =>
    (kernelPrintf (fun _ => []) [37, 99] [promoted (text.getD i 0)]).2)

/-- The registers at the `int $0x80` of `print`: `ebx` points to the piece. -/
def callPrint (user : ProcessState) (length : Nat) : ProcessState :=
  { user with cpu := { user.cpu with eax := 0, ecx := u32 length } }

/-- `print` of a user program. `sys_return` gives back the registers `sys_print` leaves,
and `worked` is the low byte of `ecx`. -/
def userPrint (user : ProcessState) : Printer := fun data =>
  let (state, shown) := sysPrint data (callPrint user data.length)
  (state.cpu.ecx % 256 ≠ 0, shown)

def userPrintf (user : ProcessState) (strings : Nat → List UInt8) (format : List UInt8)
    (args : List Nat) : Option Int × List UInt8 := through (userPrint user) strings format args

section Printers

variable (strings : Nat → List UInt8)

theorem putchar_char (c : UInt8) : putchar c.toNat = (↑c.toNat, c) := by
  have small : unsigned c.toNat = c.toNat := by
    have := c.toNat_lt
    unfold unsigned
    omega
  unfold putchar
  rw [small, UInt8.ofNat_toNat]

theorem kernelPrint_eq (data : List UInt8) : kernelPrint data = (true, data) := by
  induction data with
  | nil => rfl
  | cons c rest ih =>
    unfold kernelPrint
    rw [putchar_char, ih]
    dsimp only
    rw [if_neg (by omega)]

/-- The pieces of a call that no failure of `print` cuts short. -/
def pieces (format : List UInt8) (args : List Nat) : List (List UInt8) :=
  (printf strings format args (fun _ => true) []).2.reverse

theorem taken_answers (printer : Printer) {log : List (List UInt8)} :
    Emit.Taken (fun log => (printer (log.headD [])).1) [] log →
      ∀ piece ∈ log, (printer piece).1 = true := by
  intro taken piece member
  induction log with
  | nil => cases member
  | cons p log ih =>
    cases member with
    | head => exact taken.2
    | tail _ member => exact ih taken.1 member

theorem flatMap_answers {printer : Printer} {log : List (List UInt8)}
    (answers : ∀ piece ∈ log, (printer piece).2 = piece) :
    (log.flatMap fun piece => (printer piece).2) = log.flatten := by
  rw [List.flatMap_def, List.map_congr_left answers, List.map_id']

section Calls

variable {strings : Nat → List UInt8} {format : List UInt8} {args : List Nat}
  {ps : List (List UInt8)} {result : Except Stop Int}

/-- What a call comes to, from what it does when `print` never fails: all of it, or the
part up to the first piece that fails. -/
theorem through_cases (printer : Printer) (answers : ∀ piece ∈ ps, (printer piece).2 = piece)
    (emits : Emit.Emits .failed (printf strings format args) ps result) :
    ((∀ piece ∈ ps, (printer piece).1 = true) ∧
        through printer strings format args = (returned result, ps.flatten)) ∨
      ∃ before piece after, ps = before ++ piece :: after ∧
        (∀ p ∈ before, (printer p).1 = true) ∧ (printer piece).1 = false ∧
        through printer strings format args = (some (-1), (before ++ [piece]).flatten) := by
  unfold through
  rw [emits]
  rcases Emit.deliver_cases .failed (fun log => (printer (log.headD [])).1) ps result [] with
    ⟨taken, ended⟩ | ⟨before, piece, after, split, taken, refused, ended⟩
  · have all : ∀ piece ∈ ps, (printer piece).1 = true := by
      intro piece member
      exact taken_answers printer taken piece (List.mem_reverse.mpr member)
    refine Or.inl ⟨all, ?_⟩
    rw [ended, List.append_nil]
    dsimp only
    rw [List.reverse_reverse, flatMap_answers answers]
  · have earlier : ∀ p ∈ before, (printer p).1 = true := by
      intro p member
      exact taken_answers printer taken p (List.mem_reverse.mpr member)
    refine Or.inr ⟨before, piece, after, split, earlier, refused, ?_⟩
    have shown : ∀ p ∈ before ++ [piece], (printer p).2 = p := by
      intro p member
      apply answers
      rw [split, List.append_cons]
      exact List.mem_append_left after member
    rw [ended, List.append_nil]
    dsimp only
    rw [List.reverse_cons, List.reverse_reverse, flatMap_answers shown]
    rfl

theorem kernel_eq (emits : Emit.Emits .failed (printf strings format args) ps result) :
    kernelPrintf strings format args = (returned result, ps.flatten) := by
  rcases through_cases kernelPrint (fun piece _ => by rw [kernelPrint_eq]) emits with
    ⟨_, ended⟩ | ⟨_, _, _, _, _, refused, _⟩
  · exact ended
  · rw [kernelPrint_eq] at refused
    cases refused

theorem pieces_eq (emits : Emit.Emits .failed (printf strings format args) ps result) :
    pieces strings format args = ps := by
  unfold pieces
  rw [emits]
  rcases Emit.deliver_cases .failed (fun _ => true) ps result [] with
    ⟨_, ended⟩ | ⟨_, _, _, _, _, refused, _⟩
  · rw [ended, List.append_nil, List.reverse_reverse]
  · cases refused

end Calls

theorem promoted_char (c : UInt8) : UInt8.ofNat (u32 (promoted c)) = c := by
  have small := c.toNat_lt
  apply UInt8.toNat_inj.mp
  rw [UInt8.toNat_ofNat']
  unfold u32 promoted
  split <;> omega

theorem emits_plainChar {maxrem : Nat} (room : 1 ≤ maxrem) {flags : Flags}
    (right : flags.left = false) (precision : Int) (word : Nat) :
    Emit.Emits .failed (convertChar ⟨flags, 0, precision⟩ maxrem word) [[UInt8.ofNat word]]
      (.ok 1) := by
  have printed : Emit.Emits .failed (convertChar ⟨flags, 0, precision⟩ maxrem word)
      ([] ++ ((if flags.left = false then [] else []) ++ ([[UInt8.ofNat word]] ++
        ((if flags.left = true then [] else []) ++ [])))) (.ok 1) :=
    (prints_room room).bind ((prints_times 0 32).when.bind ((prints_print _).bind
      ((prints_times 0 32).when.bind (Emit.emits_done _ 1))))
  rw [right] at printed
  exact printed

theorem emits_percentChar (word : Nat) :
    Emit.Emits .failed (printf strings [37, 99] [word]) [[UInt8.ofNat (u32 word)]] (.ok 1) :=
  Emit.Emits.bind
    (e := convertChar ⟨⟨false, false, false, false, false⟩, 0, -1⟩ (unsigned (intMax - 0)) (u32 word))
    (k := fun width =>
      if intMax < 0 + width then Emit.fail .overflow else printLoop strings 2 [] [] (0 + width))
    (emits_plainChar (by decide) rfl _ _) (Emit.emits_done _ 1)

/-- `printf("%c", c)` in the kernel shows the character. -/
theorem kernelPrintf_char (c : UInt8) : (kernelPrintf strings [37, 99] [promoted c]).2 = [c] := by
  rw [kernel_eq (emits_percentChar strings (promoted c)), promoted_char]
  rfl

theorem range_getD (text : List UInt8) :
    ((List.range text.length).map fun i => text.getD i 0) = text := by
  apply List.ext_getElem
  · rw [List.length_map, List.length_range]
  · intro i _ inside
    rw [List.getElem_map, List.getElem_range, List.getD_eq_getElem _ _ inside]

theorem sysPrint_eq {text : List UInt8} {state : ProcessState} (whole : state.cpu.ecx = text.length) :
    sysPrint text state = (Kernel.withEax state 1, text) := by
  have each : (fun i => (kernelPrintf (fun _ => []) [37, 99] [promoted (text.getD i 0)]).2) =
      fun i => [text.getD i 0] := funext fun i => kernelPrintf_char _ _
  unfold sysPrint
  rw [each, whole, ← List.map_eq_flatMap, range_getD]

/-- A user program sees a piece fail whose length has a low byte of zero. -/
theorem userPrint_eq (user : ProcessState) {data : List UInt8} (bound : data.length < 2 ^ 32) :
    userPrint user data = (decide (data.length % 256 ≠ 0), data) := by
  have whole : (callPrint user data.length).cpu.ecx = data.length := u32_of_lt bound
  unfold userPrint
  rw [sysPrint_eq whole]
  show (decide ((callPrint user data.length).cpu.ecx % 256 ≠ 0), data) = _
  rw [whole]

end Printers

section Agreement

variable (user : ProcessState) (strings : Nat → List UInt8) (format : List UInt8) (args : List Nat)

/-- No piece has a length whose low byte is zero. The other case is a format that outgrows INT_MAX,
which ends the call with -1 all the same, and has nothing more to show after such a piece. -/
def Heard : Prop :=
  (∀ piece ∈ pieces strings format args, piece.length % 256 ≠ 0) ∨
    Outgrows strings (format.length + 1) format args 0 ∧
      ∀ before piece after, pieces strings format args = before ++ piece :: after →
        piece.length % 256 = 0 → after.flatten = []

theorem length_le_total {piece : List UInt8} {ps : List (List UInt8)} (member : piece ∈ ps) :
    piece.length ≤ total ps := by
  obtain ⟨before, after, rfl⟩ := List.append_of_mem member
  rw [total_append, total_cons]
  omega

/-- What stands after a piece is at the end of what stands after the first such piece. -/
theorem flatten_after (bad : List UInt8 → Prop) {before after before' after' : List (List UInt8)}
    {piece piece' : List UInt8} (first : ∀ p ∈ before, ¬bad p) (also : bad piece')
    (split : before ++ piece :: after = before' ++ piece' :: after') (nothing : after.flatten = []) :
    after'.flatten = [] := by
  rcases List.append_eq_append_iff.mp split with ⟨between, rfl, tails⟩ | ⟨between, rfl, tails⟩
  · cases between with
    | nil =>
      cases tails
      exact nothing
    | cons p between =>
      have tail : after = between ++ piece' :: after' := (List.cons.inj tails).2
      rw [tail, List.flatten_append, List.flatten_cons, List.append_eq_nil_iff,
        List.append_eq_nil_iff] at nothing
      exact nothing.2.2
  · cases between with
    | nil =>
      cases tails
      exact nothing
    | cons p between =>
      cases tails
      exact absurd also (first _ (List.mem_append_right _ List.mem_cons_self))

/-- A user program's `printf` does what the kernel's does exactly when every piece is
heard. -/
theorem userPrintf_agrees_iff :
    userPrintf user strings format args = kernelPrintf strings format args ↔
      Heard strings format args := by
  obtain ⟨ps, result, emits, bound, accounted, outgrows⟩ :=
    printLoop_emits strings (format.length + 1) format args 0 (by decide) (by decide)
  have failed := (accounted.returned_iff (by decide)).trans outgrows
  have all : pieces strings format args = ps := pieces_eq emits
  have kernel : kernelPrintf strings format args = (returned result, ps.flatten) := kernel_eq emits
  have small : ∀ piece ∈ ps, piece.length < 2 ^ 32 := by
    intro piece member
    have := length_le_total member
    unfold intMax at bound
    omega
  have asked : ∀ piece ∈ ps, userPrint user piece = (decide (piece.length % 256 ≠ 0), piece) :=
    fun piece member => userPrint_eq user (small piece member)
  unfold Heard
  rw [kernel, all]
  rcases through_cases (userPrint user) (fun piece member => by rw [asked piece member])
    emits with ⟨taken, ended⟩ | ⟨before, piece, after, split, earlier, refused, ended⟩
  · -- no piece fails
    refine ⟨fun _ => Or.inl ?_, fun _ => ended⟩
    intro piece member
    have answer := taken piece member
    rw [asked piece member] at answer
    exact of_decide_eq_true answer
  · have member : piece ∈ ps := by
      rw [split]
      exact List.mem_append_right _ List.mem_cons_self
    have empty : piece.length % 256 = 0 := by
      rw [asked piece member] at refused
      exact not_not.mp (of_decide_eq_false refused)
    have heard : ∀ p ∈ before, ¬p.length % 256 = 0 := by
      intro p inside
      have within : p ∈ ps := by
        rw [split]
        exact List.mem_append_left _ inside
      have answer := earlier p inside
      rw [asked p within] at answer
      exact of_decide_eq_true answer
    have shown : ps.flatten = (before ++ [piece]).flatten ++ after.flatten := by
      rw [split, List.append_cons, List.flatten_append]
    unfold userPrintf
    rw [ended, shown, Prod.mk.injEq]
    constructor
    · intro same
      have nothing : after.flatten = [] := List.self_eq_append_right.mp same.2
      refine Or.inr ⟨failed.mp same.1.symm, ?_⟩
      intro before' piece' after' again failing
      exact flatten_after (fun p => p.length % 256 = 0) heard failing (split.symm.trans again)
        nothing
    · intro condition
      rcases condition with every | ⟨value, rest⟩
      · exact absurd empty (every piece member)
      · have nothing := rest before piece after split empty
        rw [nothing, List.append_nil]
        exact ⟨(failed.mpr value).symm, rfl⟩

end Agreement

/-- The registers do not matter: any program, here with all of them zero. -/
def zeroState : ProcessState := ⟨⟨0, 0, 0, 0, 0, 0, 0⟩, ⟨0, 0, 0, 0, 0⟩⟩

/-- `printf("%s%d", "", 5)`: the kernel prints the number, a user program gives up at the
empty string. -/
theorem userPrintf_emptyString :
    (kernelPrintf (fun _ => []) [37, 115, 37, 100] [0, 5]).1 ≠ none ∧
      userPrintf zeroState (fun _ => []) [37, 115, 37, 100] [0, 5] ≠
        kernelPrintf (fun _ => []) [37, 115, 37, 100] [0, 5] := by decide +kernel

end Snfos.Printf
