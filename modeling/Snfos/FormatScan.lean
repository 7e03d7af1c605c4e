import Snfos.Directives
import Mathlib.Data.List.TakeWhile

set_option autoImplicit false

/- The scan of a format: where it ends, what it reads of the string, and what numbers it
reads. Only a number of more than 255 digits stops it, in `parseInt`. -/
namespace Snfos.Printf

/- The scan on a string with its terminating NUL, after which there is nothing to read: a
pointer is what is left of the string, and `none` a read past the NUL or a `parseInt` that
does not return. What the calls of `print` answer is left out. One that fails ends the scan
where it is. -/
namespace Checked

/-- `*format`. -/
def read (format : List UInt8) : Option UInt8 := format.head?

def flags (set : Flags) : List UInt8 → Option (Flags × List UInt8)
  | [] => none
  | c :: rest =>
      if c = 45 then flags { set with left := true } rest
      else if c = 43 then flags { set with plus := true } rest
      else if c = 32 then flags { set with space := true } rest
      else if c = 35 then flags { set with alternate := true } rest
      else if c = 48 then flags { set with zero := true } rest
      else some (set, c :: rest)

/-- The loop for `width_len` and the one for `prec_len`. -/
def digits : List UInt8 → Option (List UInt8 × List UInt8)
  | [] => none
  | c :: rest =>
      if isDigit c = true then do
        let (run, rest) ← digits rest
        some (c :: run, rest)
      else some ([], c :: rest)

def number (format : List UInt8) (args : List Nat) : Option (Int × List UInt8 × List Nat) := do
  let c ← read format
  if c = 42 then some (int32 (vaArg args).1, format.tail, (vaArg args).2)
  else do
    let (run, rest) ← digits format
    let n ← parseInt run
    some (n, rest, args)

def precision (format : List UInt8) (args : List Nat) : Option (Int × List UInt8 × List Nat) := do
  let c ← read format
  if c = 46 then number format.tail args else some (-1, format, args)

/-- `while (*format == c) format++;`. -/
def skip (c : UInt8) : List UInt8 → Option (List UInt8)
  | [] => none
  | d :: rest => if d = c then skip c rest else some (d :: rest)

def length (format : List UInt8) : Option (List UInt8) := do
  let format ← skip 104 format
  let format ← skip 108 format
  let c ← read format
  if c = 106 ∨ c = 122 ∨ c = 116 ∨ c = 76 then some format.tail else some format

def spec (format : List UInt8) (args : List Nat) : Option (Flags × List UInt8 × List Nat) := do
  let (set, format) ← flags ⟨false, false, false, false, false⟩ format
  let (_, format, args) ← number format args
  let (_, format, args) ← precision format args
  let format ← length format
  some (set, format, args)

def strlen : List UInt8 → Option Nat
  | [] => none
  | c :: rest => if c = 0 then some 0 else (strlen rest).map (· + 1)

/-- For the flag `#` the conversions `o` and `u` print the character after their own. -/
def conversion (set : Flags) (begun format : List UInt8) (args : List Nat) :
    Option (List UInt8 × List Nat) := do
  let c ← read format
  if c = 111 ∨ c = 117 then do
    if set.alternate = true then
      let _ ← read format.tail
      some (format.tail, args.tail)
    else some (format.tail, args.tail)
  else if c = 99 ∨ c = 115 ∨ c = 120 ∨ c = 88 ∨ c = 100 ∨ c = 105 then some (format.tail, args.tail)
  else do
    let len ← strlen begun
    some (begun.drop len, args)

/-- `while (format[amount] && format[amount] != '%') amount++;` on what follows the first
character. -/
def literal : List UInt8 → Option (List UInt8)
  | [] => none
  | c :: rest => if c ≠ 0 ∧ c ≠ 37 then literal rest else some (c :: rest)

/-- One pass of the `while` loop. `format[1]` is looked at only behind a `%`. -/
def pass (format : List UInt8) (args : List Nat) : Option (List UInt8 × List Nat) := do
  let c ← read format
  if c ≠ 37 then do
    let rest ← literal format.tail
    some (rest, args)
  else do
    let second ← read format.tail
    if second = 37 then do
      let rest ← literal format.tail.tail
      some (rest, args)
    else do
      let (set, rest, later) ← spec format.tail args
      conversion set format rest later

/-- The `while` loop, to the NUL. -/
def scan : Nat → List UInt8 → List Nat → Option (List Nat)
  | 0, _, _ => none
  | fuel + 1, format, args => do
      let c ← read format
      if c = 0 then some args
      else do
        let (rest, later) ← pass format args
        scan fuel rest later

end Checked

section Positions

variable (format : List UInt8)

/-- A number that is written in digits. -/
def numberRun : List UInt8 := if head format = 42 then [] else format.takeWhile isDigit

def afterNumber : List UInt8 := if head format = 42 then format.tail else format.dropWhile isDigit

/-- What follows the flags of a directive. -/
def afterFlags : List UInt8 := (parseFlags ⟨false, false, false, false, false⟩ format.tail).2

def widthRun : List UInt8 := numberRun (afterFlags format)

def afterWidth : List UInt8 := afterNumber (afterFlags format)

def precisionRun : List UInt8 :=
  if head (afterWidth format) = 46 then numberRun (afterWidth format).tail else []

def afterPrecision : List UInt8 :=
  if head (afterWidth format) = 46 then afterNumber (afterWidth format).tail else afterWidth format

def conversionAt : List UInt8 := skipLength (afterPrecision format)

def IsDirective : Prop := head format = 37 ∧ head format.tail ≠ 37

instance : Decidable (IsDirective format) := inferInstanceAs (Decidable (_ ∧ _))

def IsConversion (c : UInt8) : Prop :=
  c = 99 ∨ c = 115 ∨ c = 111 ∨ (c = 120 ∨ c = 88) ∨ c = 117 ∨ c = 100 ∨ c = 105

instance (c : UInt8) : Decidable (IsConversion c) := inferInstanceAs (Decidable (_ ∨ _))

/-- What a pass of the loop leaves: what is behind a text or a directive, and nothing
behind a directive with an unknown conversion. -/
def nextFormat : List UInt8 :=
  if IsDirective format then
    if IsConversion (head (conversionAt format)) then (conversionAt format).tail
    else format.drop (format.takeWhile (· ≠ 0)).length
  else
    let format := if head format = 37 then format.tail else format
    format.drop (literalAmount format)

/-- The formats that the passes over a format begin with. -/
inductive Scanned (start : List UInt8) : List UInt8 → Prop
  | start : Scanned start start
  | next {format : List UInt8} : Scanned start format → head format ≠ 0 →
      Scanned start (nextFormat format)

/-- No width and no precision is written in more than 255 digits. -/
def ShortRuns : Prop := ∀ rest, Scanned format rest → IsDirective rest →
  (widthRun rest).length ≤ 255 ∧ (precisionRun rest).length ≤ 255

/-- The decimal value of a run of digits. -/
def runValue (run : List UInt8) : Nat := Numeral.value 10 (run.map fun c => c.toNat - 48)

def ReadsValue (run : List UInt8) : Prop :=
  (runValue run : Int) ≤ intMax → parseInt run = some (runValue run : Int)

/-- The scan comes to the NUL without a read past it, for all arguments, the call ends
whatever `print` answers, and the numbers that are no larger than the largest `int` are read
as they are written. -/
structure ScanWorks : Prop where
  ends : ∀ args, ∃ later, Checked.scan (format.length + 1) (format ++ [0]) args = some later
  returns : ∀ strings args sink, (printf strings format args sink []).1 ≠ .error .never
  reads : ∀ rest, Scanned format rest → IsDirective rest →
    ReadsValue (widthRun rest) ∧ ReadsValue (precisionRun rest)

end Positions

section Numbers

/-- The counter of the power loop never comes to 256. -/
theorem scaleDigit_long {places : Nat} (long : 256 ≤ places) :
    ∀ fuel t (digit : Int), t < 256 → scaleDigit places fuel t digit = none := by
  intro fuel
  induction fuel with
  | zero => intro t digit _; rfl
  | succ fuel ih =>
    intro t digit small
    unfold scaleDigit
    rw [if_pos (by omega)]
    exact ih _ _ (Nat.mod_lt _ (by decide))

theorem parseInt_long {run : List UInt8} (long : 256 ≤ run.length) : parseInt run = none := by
  obtain ⟨c, rest, rfl⟩ : ∃ c rest, run = c :: rest :=
    List.exists_cons_of_ne_nil (fun empty => by rw [empty] at long; exact absurd long (by decide))
  have stuck := scaleDigit_long long 256 1 (c.toNat - 48) (by decide)
  show (scaleDigit (rest.length + 1) 256 1 (c.toNat - 48) >>= _) = none
  rw [List.length_cons] at stuck
  rw [stuck]
  rfl

theorem digit_character {c : UInt8} (digit : isDigit c = true) :
    c.toNat - 48 < 10 ∧ decimalDigit (c.toNat - 48) = c := by
  have bounds : 48 ≤ c.toNat ∧ c.toNat ≤ 57 := by
    unfold isDigit at digit
    rw [Bool.and_eq_true, decide_eq_true_eq, decide_eq_true_eq, UInt8.le_iff_toNat_le,
      UInt8.le_iff_toNat_le] at digit
    exact digit
  refine ⟨by omega, ?_⟩
  unfold decimalDigit
  rw [Nat.sub_add_cancel bounds.1, UInt8.ofNat_toNat]

/-- A short run is read as its value, as far as an `int` holds it. -/
theorem parseInt_short {run : List UInt8} (each : ∀ c ∈ run, isDigit c = true)
    (short : run.length ≤ 255) : parseInt run = some (int32 (runValue run)) := by
  have characters : (run.map fun c => c.toNat - 48).map decimalDigit = run := by
    rw [List.map_map]
    exact (List.map_congr_left fun c member => (digit_character (each c member)).2).trans
      (List.map_id run)
  have parsed := parseDigits_spec (run.map fun c => c.toNat - 48) (by rw [List.length_map]; exact short)
    (fun d member => by
      obtain ⟨c, inside, rfl⟩ := List.mem_map.mp member
      exact (digit_character (each c inside)).1) 0 ⟨by decide, by decide⟩
  rw [characters, Int.zero_add] at parsed
  exact parsed

theorem numberRun_digits (format : List UInt8) : ∀ c ∈ numberRun format, isDigit c = true := by
  unfold numberRun
  split
  · intro c member
    cases member
  · intro c member
    exact List.mem_takeWhile_imp member

theorem precisionRun_digits (format : List UInt8) : ∀ c ∈ precisionRun format, isDigit c = true := by
  unfold precisionRun
  split
  · exact numberRun_digits _
  · intro c member
    cases member

theorem readsValue_of_short {run : List UInt8} (each : ∀ c ∈ run, isDigit c = true)
    (short : run.length ≤ 255) : ReadsValue run := by
  intro small
  rw [parseInt_short each short, int32_of_fits ⟨by omega, by unfold intMax at small; omega⟩]

end Numbers

section Passes

variable {format : List UInt8}

theorem parseNumber_short (short : (numberRun format).length ≤ 255) (args : List Nat) :
    ∃ n later, parseNumber format args = some (n, afterNumber format, later) := by
  have each := numberRun_digits format
  unfold parseNumber
  unfold numberRun at short each
  unfold afterNumber
  by_cases star : head format = 42
  · simp only [if_pos star]
    exact ⟨_, _, rfl⟩
  · simp only [if_neg star] at short each ⊢
    rw [parseInt_short each short]
    exact ⟨_, _, rfl⟩

theorem parseNumber_long (long : 256 ≤ (numberRun format).length) (args : List Nat) :
    parseNumber format args = none := by
  unfold parseNumber
  unfold numberRun at long
  by_cases star : head format = 42
  · rw [if_pos star] at long
    exact absurd long (by decide)
  · rw [if_neg star] at long
    rw [if_neg star, parseInt_long long]
    rfl

theorem parsePrecision_short (short : (precisionRun format).length ≤ 255) (args : List Nat) :
    ∃ n later, parsePrecision (afterWidth format) args = some (n, afterPrecision format, later) := by
  unfold parsePrecision afterPrecision
  unfold precisionRun at short
  by_cases point : head (afterWidth format) = 46
  · rw [if_pos point] at short
    simp only [if_pos point]
    exact parseNumber_short short args
  · simp only [if_neg point]
    exact ⟨_, _, rfl⟩

theorem parsePrecision_long (long : 256 ≤ (precisionRun format).length) (args : List Nat) :
    parsePrecision (afterWidth format) args = none := by
  unfold parsePrecision
  unfold precisionRun at long
  by_cases point : head (afterWidth format) = 46
  · rw [if_pos point] at long ⊢
    exact parseNumber_long long args
  · rw [if_neg point] at long
    exact absurd long (by decide)

theorem parseSpec_eq (format : List UInt8) (args : List Nat) :
    parseSpec format.tail args = (do
      let (width, rest, args) ← parseNumber (afterFlags format) args
      let (precision, rest, args) ← parsePrecision rest args
      some (⟨(parseFlags ⟨false, false, false, false, false⟩ format.tail).1, width, precision⟩,
        skipLength rest, args)) := rfl

theorem parseSpec_short (width : (widthRun format).length ≤ 255)
    (precision : (precisionRun format).length ≤ 255) (args : List Nat) :
    ∃ s later, parseSpec format.tail args = some (s, conversionAt format, later) := by
  obtain ⟨n, later, first⟩ := parseNumber_short width args
  obtain ⟨m, later, second⟩ := parsePrecision_short precision later
  unfold afterWidth at second
  rw [parseSpec_eq, first]
  simp only [Option.bind_eq_bind, Option.bind_some]
  rw [second]
  exact ⟨_, _, rfl⟩

theorem parseSpec_long (long : 256 ≤ (widthRun format).length ∨ 256 ≤ (precisionRun format).length)
    (args : List Nat) : parseSpec format.tail args = none := by
  rw [parseSpec_eq]
  by_cases wide : 256 ≤ (widthRun format).length
  · rw [parseNumber_long wide]
    rfl
  · obtain ⟨n, later, first⟩ := parseNumber_short (Nat.le_of_lt_succ (Nat.not_le.mp wide)) args
    rw [first]
    simp only [Option.bind_eq_bind, Option.bind_some]
    have second := parsePrecision_long (long.resolve_left wide) later
    unfold afterWidth at second
    rw [second]
    rfl

theorem convert_rest (strings : Nat → List UInt8) (s : Spec) (maxrem : Nat) (begun format : List UInt8)
    (args : List Nat) : (convert strings s maxrem begun format args).2 =
      if IsConversion (head format) then (format.tail, args.tail)
      else (begun.drop (begun.takeWhile (· ≠ 0)).length, args) := by
  unfold convert
  dsimp only
  by_cases known : IsConversion (head format)
  · rw [if_pos known]
    rcases known with letter | letter | letter | (letter | letter) | letter | letter | letter
    all_goals
      rw [letter]
      rfl
  · rw [if_neg known]
    unfold IsConversion at known
    simp only [not_or] at known
    obtain ⟨char, string, octal, hex, unsigned, signed⟩ := known
    rw [if_neg char, if_neg string, if_neg octal, if_neg (not_or.mpr hex), if_neg unsigned,
      if_neg (not_or.mpr signed)]

theorem pass_directive (strings : Nat → List UInt8) (maxrem : Nat) (directive : IsDirective format)
    (args : List Nat) : pass strings maxrem format args = (do
      let (s, rest, later) ← parseSpec format.tail args
      some (convert strings s maxrem format rest later)) := by
  unfold pass
  rw [if_neg]
  rintro (other | percent)
  · exact other directive.1
  · exact directive.2 percent

theorem pass_text (strings : Nat → List UInt8) (maxrem : Nat) (text : ¬IsDirective format)
    (args : List Nat) : pass strings maxrem format args =
      some (printLiteral maxrem (if head format = 37 then format.tail else format),
        nextFormat format, args) := by
  unfold pass nextFormat
  rw [if_neg text, if_pos]
  by_cases percent : head format = 37
  · exact Or.inr (Classical.not_not.mp fun other => text ⟨percent, other⟩)
  · exact Or.inl percent

theorem pass_short (strings : Nat → List UInt8) (maxrem : Nat)
    (short : IsDirective format →
      (widthRun format).length ≤ 255 ∧ (precisionRun format).length ≤ 255) (args : List Nat) :
    ∃ body later, pass strings maxrem format args = some (body, nextFormat format, later) := by
  by_cases directive : IsDirective format
  · obtain ⟨width, precision⟩ := short directive
    obtain ⟨s, later, parsed⟩ := parseSpec_short width precision args
    have rest := convert_rest strings s maxrem format (conversionAt format) later
    obtain ⟨body, left, converted⟩ : ∃ body left,
        convert strings s maxrem format (conversionAt format) later = (body, left) := ⟨_, _, rfl⟩
    have passed : pass strings maxrem format args = some (body, left) := by
      rw [pass_directive strings maxrem directive, parsed]
      exact congrArg some converted
    rw [converted] at rest
    rw [passed]
    unfold nextFormat
    rw [if_pos directive]
    dsimp only at rest
    rw [rest]
    split
    · exact ⟨_, _, rfl⟩
    · exact ⟨_, _, rfl⟩
  · exact ⟨_, _, pass_text strings maxrem directive args⟩

theorem pass_long (strings : Nat → List UInt8) (maxrem : Nat) (directive : IsDirective format)
    (long : 256 ≤ (widthRun format).length ∨ 256 ≤ (precisionRun format).length) (args : List Nat) :
    pass strings maxrem format args = none := by
  rw [pass_directive strings maxrem directive, parseSpec_long long]
  rfl

end Passes

section Reads

/- The scan over the string with its NUL is the scan over what stands in front of it: it
reads no further than the NUL. -/

variable {format : List UInt8}

theorem read_terminated (format : List UInt8) : Checked.read (format ++ [0]) = some (head format) := by
  cases format with
  | nil => rfl
  | cons c rest => rfl

theorem tail_terminated (more : head format ≠ 0) : (format ++ [0]).tail = format.tail ++ [0] := by
  cases format with
  | nil => exact absurd rfl more
  | cons c rest => rfl

theorem flags_terminated (format : List UInt8) : ∀ set, Checked.flags set (format ++ [0]) =
    some ((parseFlags set format).1, (parseFlags set format).2 ++ [0]) := by
  induction format with
  | nil => intro set; rfl
  | cons c rest ih =>
    intro set
    rw [List.cons_append]
    unfold Checked.flags parseFlags
    split
    · exact ih _
    split
    · exact ih _
    split
    · exact ih _
    split
    · exact ih _
    split
    · exact ih _
    · rfl

theorem digits_terminated (format : List UInt8) : Checked.digits (format ++ [0]) =
    some (format.takeWhile isDigit, format.dropWhile isDigit ++ [0]) := by
  induction format with
  | nil => rfl
  | cons c rest ih =>
    rw [List.cons_append]
    unfold Checked.digits
    cases digit : isDigit c with
    | true =>
      rw [if_pos rfl, ih, List.takeWhile_cons_of_pos digit, List.dropWhile_cons_of_pos digit]
      rfl
    | false =>
      have other : ¬isDigit c = true := by
        rw [digit]
        decide
      rw [if_neg (by decide), List.takeWhile_cons_of_neg other, List.dropWhile_cons_of_neg other]
      rfl

theorem number_terminated (format : List UInt8) (args : List Nat) :
    Checked.number (format ++ [0]) args =
      (parseNumber format args).map fun p => (p.1, p.2.1 ++ [0], p.2.2) := by
  unfold Checked.number parseNumber
  rw [read_terminated]
  simp only [Option.bind_eq_bind, Option.bind_some]
  by_cases star : head format = 42
  · rw [if_pos star, if_pos star, tail_terminated (by rw [star]; decide)]
    rfl
  · rw [if_neg star, if_neg star, digits_terminated]
    simp only [Option.bind_some]
    cases parseInt (format.takeWhile isDigit) with
    | none => rfl
    | some n => rfl

theorem precision_terminated (format : List UInt8) (args : List Nat) :
    Checked.precision (format ++ [0]) args =
      (parsePrecision format args).map fun p => (p.1, p.2.1 ++ [0], p.2.2) := by
  unfold Checked.precision parsePrecision
  rw [read_terminated]
  simp only [Option.bind_eq_bind, Option.bind_some]
  by_cases point : head format = 46
  · rw [if_pos point, if_pos point, tail_terminated (by rw [point]; decide)]
    exact number_terminated format.tail args
  · rw [if_neg point, if_neg point]
    rfl

theorem skip_terminated {c : UInt8} (character : c ≠ 0) (format : List UInt8) :
    Checked.skip c (format ++ [0]) = some (format.dropWhile (· = c) ++ [0]) := by
  induction format with
  | nil => exact if_neg (Ne.symm character)
  | cons d rest ih =>
    rw [List.cons_append]
    unfold Checked.skip
    by_cases same : d = c
    · rw [if_pos same, ih, List.dropWhile_cons_of_pos]
      exact decide_eq_true same
    · rw [if_neg same, List.dropWhile_cons_of_neg (by rw [decide_eq_true_eq]; exact same)]
      rfl

theorem length_terminated (format : List UInt8) :
    Checked.length (format ++ [0]) = some (skipLength format ++ [0]) := by
  unfold Checked.length skipLength
  rw [skip_terminated (by decide)]
  simp only [Option.bind_eq_bind, Option.bind_some]
  rw [skip_terminated (by decide)]
  simp only [Option.bind_some]
  rw [read_terminated]
  simp only [Option.bind_some]
  obtain ⟨rest, after⟩ : ∃ rest, rest = (format.dropWhile (· = 104)).dropWhile (· = 108) := ⟨_, rfl⟩
  rw [← after]
  split
  · rename_i modifier
    have more : head rest ≠ 0 := by
      rcases modifier with letter | letter | letter | letter
      all_goals
        rw [letter]
        decide
    rw [tail_terminated more]
  · rfl

theorem spec_terminated (format : List UInt8) (args : List Nat) :
    Checked.spec (format ++ [0]) args =
      (parseSpec format args).map fun p => (p.1.flags, p.2.1 ++ [0], p.2.2) := by
  unfold Checked.spec parseSpec
  rw [flags_terminated]
  simp only [Option.bind_eq_bind, Option.bind_some]
  rw [number_terminated]
  cases parseNumber (parseFlags ⟨false, false, false, false, false⟩ format).2 args with
  | none => rfl
  | some first =>
    obtain ⟨width, rest, args⟩ := first
    simp only [Option.map_some, Option.bind_some]
    rw [precision_terminated]
    cases parsePrecision rest args with
    | none => rfl
    | some second =>
      obtain ⟨precision, rest, args⟩ := second
      simp only [Option.map_some, Option.bind_some]
      rw [length_terminated]
      rfl

theorem strlen_terminated (plain : ∀ c ∈ format, c ≠ 0) :
    Checked.strlen (format ++ [0]) = some format.length := by
  induction format with
  | nil => rfl
  | cons c rest ih =>
    rw [List.cons_append]
    unfold Checked.strlen
    rw [if_neg (plain c List.mem_cons_self), ih fun d member => plain d (List.mem_cons_of_mem c member)]
    rfl

theorem takeWhile_plain (plain : ∀ c ∈ format, c ≠ 0) : format.takeWhile (· ≠ 0) = format := by
  rw [List.takeWhile_eq_self_iff]
  intro c member
  exact decide_eq_true (plain c member)

theorem literal_terminated (format : List UInt8) : Checked.literal (format ++ [0]) =
    some (format.dropWhile (fun c => c ≠ 0 && c ≠ 37) ++ [0]) := by
  induction format with
  | nil => rfl
  | cons c rest ih =>
    rw [List.cons_append]
    unfold Checked.literal
    by_cases plain : c ≠ 0 ∧ c ≠ 37
    · rw [if_pos plain, ih, List.dropWhile_cons_of_pos]
      simpa using plain
    · rw [if_neg plain, List.dropWhile_cons_of_neg]
      · rfl
      · simpa using plain

theorem drop_literalAmount (format : List UInt8) : format.drop (literalAmount format) =
    format.tail.dropWhile (fun c => c ≠ 0 && c ≠ 37) := by
  unfold literalAmount
  rw [← List.drop_drop, List.drop_one]
  have parts := List.takeWhile_append_dropWhile (p := fun c : UInt8 => c ≠ 0 && c ≠ 37) (l := format.tail)
  obtain ⟨text, rest, first, second⟩ : ∃ text rest,
      format.tail.takeWhile (fun c => c ≠ 0 && c ≠ 37) = text ∧
        format.tail.dropWhile (fun c => c ≠ 0 && c ≠ 37) = rest := ⟨_, _, rfl, rfl⟩
  rw [first, second] at parts ⊢
  rw [← parts, List.drop_left]

theorem conversion_terminated (strings : Nat → List UInt8) (s : Spec) (maxrem : Nat)
    {begun : List UInt8} (plain : ∀ c ∈ begun, c ≠ 0) (format : List UInt8) (args : List Nat) :
    Checked.conversion s.flags (begun ++ [0]) (format ++ [0]) args =
      some ((convert strings s maxrem begun format args).2.1 ++ [0],
        (convert strings s maxrem begun format args).2.2) := by
  have ended := strlen_terminated plain
  rw [convert_rest, takeWhile_plain plain]
  unfold Checked.conversion
  rw [read_terminated]
  simp only [Option.bind_eq_bind, Option.bind_some]
  by_cases known : IsConversion (head format)
  · have more : head format ≠ 0 := by
      rcases known with letter | letter | letter | (letter | letter) | letter | letter | letter
      all_goals
        rw [letter]
        decide
    rw [if_pos known, tail_terminated more, read_terminated]
    simp only [Option.bind_some, ite_self]
    by_cases prefixed : head format = 111 ∨ head format = 117
    · rw [if_pos prefixed]
    · rw [if_neg prefixed, if_pos]
      unfold IsConversion at known
      grind
  · rw [if_neg known, if_neg, if_neg, ended]
    · simp only [Option.bind_some, List.drop_length]
      rw [List.drop_left]
      rfl
    · unfold IsConversion at known
      grind
    · unfold IsConversion at known
      grind

/-- A pass reads no further than the NUL and leaves what the pass of `printf` leaves. -/
theorem pass_terminated (strings : Nat → List UInt8) (maxrem : Nat) (plain : ∀ c ∈ format, c ≠ 0)
    (more : head format ≠ 0) (args : List Nat) : Checked.pass (format ++ [0]) args =
      (pass strings maxrem format args).map fun p => (p.2.1 ++ [0], p.2.2) := by
  unfold Checked.pass
  rw [read_terminated, tail_terminated more]
  simp only [Option.bind_eq_bind, Option.bind_some]
  by_cases percent : head format = 37
  · rw [if_neg (not_not.mpr percent), read_terminated]
    simp only [Option.bind_some]
    by_cases again : head format.tail = 37
    · have text : ¬IsDirective format := fun directive => directive.2 again
      rw [if_pos again, pass_text strings maxrem text, tail_terminated (by rw [again]; decide),
        literal_terminated]
      unfold nextFormat
      rw [if_neg text]
      simp only [if_pos percent]
      rw [drop_literalAmount]
      rfl
    · rw [if_neg again, pass_directive strings maxrem ⟨percent, again⟩, spec_terminated]
      cases parseSpec format.tail args with
      | none => rfl
      | some parsed =>
        obtain ⟨s, rest, later⟩ := parsed
        exact conversion_terminated strings s maxrem plain rest later
  · have text : ¬IsDirective format := fun directive => percent directive.1
    rw [if_pos percent, pass_text strings maxrem text, literal_terminated]
    unfold nextFormat
    rw [if_neg text]
    simp only [if_neg percent]
    rw [drop_literalAmount]
    rfl

end Reads

section Runs

variable {format rest : List UInt8}

theorem afterNumber_suffix (format : List UInt8) : afterNumber format <:+ format := by
  unfold afterNumber
  split
  · exact List.tail_suffix format
  · exact List.dropWhile_suffix _

theorem afterWidth_suffix (format : List UInt8) : afterWidth format <:+ format :=
  (afterNumber_suffix _).trans ((parseFlags_suffix _ _).trans (List.tail_suffix format))

theorem afterPrecision_suffix (format : List UInt8) : afterPrecision format <:+ format := by
  unfold afterPrecision
  split
  · exact (afterNumber_suffix _).trans ((List.tail_suffix _).trans (afterWidth_suffix format))
  · exact afterWidth_suffix format

theorem skipLength_suffix (format : List UInt8) : skipLength format <:+ format := by
  have once : (format.dropWhile (· = 104)).dropWhile (· = 108) <:+ format :=
    (List.dropWhile_suffix _).trans (List.dropWhile_suffix _)
  unfold skipLength
  dsimp only
  split
  · exact (List.tail_suffix _).trans once
  · exact once

theorem nextFormat_suffix (format : List UInt8) : nextFormat format <:+ format := by
  unfold nextFormat
  split
  · split
    · exact (List.tail_suffix _).trans ((skipLength_suffix _).trans (afterPrecision_suffix format))
    · exact List.drop_suffix _ _
  · dsimp only
    split
    · exact (List.drop_suffix _ _).trans (List.tail_suffix format)
    · exact List.drop_suffix _ _

theorem nextFormat_plain (plain : ∀ c ∈ format, c ≠ 0) : ∀ c ∈ nextFormat format, c ≠ 0 :=
  fun c member => plain c ((nextFormat_suffix format).subset member)

theorem Scanned.cons (more : head format ≠ 0) (scanned : Scanned (nextFormat format) rest) :
    Scanned format rest := by
  induction scanned with
  | start => exact .next .start more
  | next _ more ih => exact .next ih more

theorem Scanned.cases_start (scanned : Scanned format rest) :
    rest = format ∨ (head format ≠ 0 ∧ Scanned (nextFormat format) rest) := by
  induction scanned with
  | start => exact Or.inl rfl
  | next _ more ih =>
    rcases ih with rfl | ⟨first, later⟩
    · exact Or.inr ⟨more, .start⟩
    · exact Or.inr ⟨first, .next later more⟩

theorem shortRuns_of_end (ended : head format = 0) : ShortRuns format := by
  intro rest scanned directive
  rcases scanned.cases_start with rfl | ⟨more, _⟩
  · rw [directive.1] at ended
    exact absurd ended (by decide)
  · exact absurd ended more

theorem shortRuns_step (more : head format ≠ 0) : ShortRuns format ↔
    (IsDirective format → (widthRun format).length ≤ 255 ∧ (precisionRun format).length ≤ 255) ∧
      ShortRuns (nextFormat format) := by
  constructor
  · intro short
    exact ⟨short format .start, fun rest scanned => short rest (scanned.cons more)⟩
  · rintro ⟨here, later⟩ rest scanned directive
    rcases scanned.cases_start with rfl | ⟨_, scanned⟩
    · exact here directive
    · exact later rest scanned directive

/-- The scan ends where every number on its way is short. -/
theorem scan_ends_iff : ∀ (fuel : Nat) {format : List UInt8} (args : List Nat),
    (∀ c ∈ format, c ≠ 0) → format.length < fuel →
      ((∃ later, Checked.scan fuel (format ++ [0]) args = some later) ↔ ShortRuns format) := by
  intro fuel
  induction fuel with
  | zero => intro format args _ impossible; omega
  | succ fuel ih =>
    intro format args plain enough
    unfold Checked.scan
    rw [read_terminated]
    simp only [Option.bind_eq_bind, Option.bind_some]
    by_cases ended : head format = 0
    · rw [if_pos ended]
      exact ⟨fun _ => shortRuns_of_end ended, fun _ => ⟨args, rfl⟩⟩
    rw [if_neg ended, pass_terminated (fun _ => []) 0 plain ended, shortRuns_step ended]
    by_cases short : IsDirective format →
        (widthRun format).length ≤ 255 ∧ (precisionRun format).length ≤ 255
    · obtain ⟨body, later, passed⟩ := pass_short (fun _ => []) 0 short args
      obtain ⟨_, _, _, shorter⟩ := pass_spec (by decide) ended passed
      rw [passed]
      simp only [Option.map_some, Option.bind_some]
      rw [ih later (nextFormat_plain plain) (by omega)]
      exact ⟨fun rest => ⟨short, rest⟩, And.right⟩
    · obtain ⟨directive, long⟩ := Classical.not_imp.mp short
      rw [pass_long (fun _ => []) 0 directive (by omega)]
      constructor
      · rintro ⟨later, stuck⟩
        cases stuck
      · intro both
        exact absurd both.1 short

theorem printLoop_returns (strings : Nat → List UInt8) : ∀ (fuel : Nat) {format : List UInt8}
    (args : List Nat) (written : Int), 0 ≤ written → written ≤ intMax → format.length < fuel →
      ShortRuns format → ∃ ps result,
        Emit.Emits .failed (printLoop strings fuel format args written) ps result ∧
          result ≠ .error .never := by
  intro fuel
  induction fuel with
  | zero => intro format args written _ _ impossible; omega
  | succ fuel ih =>
    intro format args written positive inside enough short
    unfold printLoop
    by_cases ended : head format = 0
    · rw [if_pos ended]
      exact ⟨[], _, Emit.emits_done _ written, by simp⟩
    rw [if_neg ended]
    obtain ⟨here, rest⟩ := (shortRuns_step ended).mp short
    have room : (unsigned (intMax - written) : Int) = intMax - written :=
      unsigned_of_nonneg (by unfold Fits intMax at *; omega) (by omega)
    obtain ⟨body, later, passed⟩ := pass_short strings (unsigned (intMax - written)) here args
    obtain ⟨_, _, fills, shorter⟩ := pass_spec (by omega) ended passed
    rw [passed]
    dsimp only
    rcases fills.balanced with refused | ⟨ps, emits, fits⟩
    · exact ⟨[], _, refused.bind_error, by simp⟩
    · obtain ⟨qs, result, emitsRest, returns⟩ :=
        ih later (written + total ps) (by omega) (by omega) (by omega) rest
      refine ⟨ps ++ qs, result, emits.bind ?_, returns⟩
      rw [if_neg (by omega)]
      exact emitsRest

theorem printf_returns (strings : Nat → List UInt8) (short : ShortRuns format) (args : List Nat)
    (sink : List (List UInt8) → Bool) : (printf strings format args sink []).1 ≠ .error .never := by
  obtain ⟨ps, result, emits, returns⟩ := printLoop_returns strings (format.length + 1) args 0
    (by decide) (by decide) (Nat.lt_succ_self _) short
  have ran : printf strings format args sink [] = Emit.deliver .failed sink ps result [] :=
    emits sink []
  rw [ran]
  rcases Emit.deliver_cases .failed sink ps result [] with
    ⟨_, ended⟩ | ⟨before, p, after, _, _, _, ended⟩
  · rw [ended]
    exact returns
  · rw [ended]
    simp

theorem ScanWorks.short (works : ScanWorks format) (plain : ∀ c ∈ format, c ≠ 0) : ShortRuns format :=
  (scan_ends_iff (format.length + 1) [] plain (Nat.lt_succ_self _)).mp (works.ends [])

/-- `%.00…0d` with `count` zeros. -/
def zerosFormat (count : Nat) : List UInt8 := 37 :: 46 :: (List.replicate count 48 ++ [100])

theorem precisionRun_zeros (count : Nat) :
    precisionRun (zerosFormat count) = List.replicate count 48 := by
  have zeros : ∀ c ∈ List.replicate count (48 : UInt8), isDigit c = true := by
    intro c member
    rw [List.eq_of_mem_replicate member]
    rfl
  have run : (List.replicate count 48 ++ [(100 : UInt8)]).takeWhile isDigit =
      List.replicate count 48 := by
    rw [List.takeWhile_append_of_pos zeros]
    exact List.append_nil _
  have first : head (List.replicate count 48 ++ [100]) ≠ 42 := by
    cases count with
    | zero => decide
    | succ count =>
      show (48 : UInt8) ≠ 42
      decide
  exact (if_neg first).trans run

theorem zerosFormat_plain (count : Nat) : ∀ c ∈ zerosFormat count, c ≠ 0 := by
  intro c member
  rcases List.mem_cons.mp member with rfl | member
  · decide
  rcases List.mem_cons.mp member with rfl | member
  · decide
  rcases List.mem_append.mp member with member | member
  · rw [List.eq_of_mem_replicate member]
    decide
  · rw [List.mem_singleton.mp member]
    decide

/-- The scan of `%.00…0d` with 256 zeros stays in `parseInt`, which should read a zero. -/
theorem scan_zeros_stuck : ¬ScanWorks (zerosFormat 256) := by
  intro works
  have short := works.short (zerosFormat_plain 256)
  have directive : ∀ count, IsDirective (zerosFormat count) := by
    intro count
    refine ⟨rfl, ?_⟩
    show (46 : UInt8) ≠ 37
    decide
  have bound := (short _ .start (directive 256)).2
  rw [precisionRun_zeros, List.length_replicate] at bound
  exact absurd bound (by decide)

/-- On a C string the scan works where, and only where, every width and every precision it
comes to has at most 255 digits. The power loop of `parseInt` counts in an `unsigned char`
and does not end for a longer one. -/
theorem scanWorks_iff (format : List UInt8) (plain : ∀ c ∈ format, c ≠ 0) :
    ScanWorks format ↔ ShortRuns format := by
  have ends := fun args => scan_ends_iff (format.length + 1) args plain (Nat.lt_succ_self _)
  constructor
  · intro works
    exact works.short plain
  · intro short
    refine ⟨fun args => (ends args).mpr short,
      fun strings args sink => printf_returns strings short args sink, ?_⟩
    intro rest scanned directive
    obtain ⟨width, precision⟩ := short rest scanned directive
    exact ⟨readsValue_of_short (numberRun_digits _) width,
      readsValue_of_short (precisionRun_digits rest) precision⟩

/-- `%05d` has a short width. -/
theorem scanWorks_padded : (∀ c ∈ [37, 48, 53, 100], c ≠ (0 : UInt8)) ∧ ScanWorks [37, 48, 53, 100] := by
  have short : ShortRuns [37, 48, 53, 100] := by
    rw [shortRuns_step (by decide)]
    exact ⟨fun _ => by decide, shortRuns_of_end (by decide)⟩
  exact ⟨by simp, (scanWorks_iff [37, 48, 53, 100] (by simp)).mpr short⟩

end Runs

end Snfos.Printf
