import Snfos.PrintfNumbers
import Snfos.UserPrint
import Mathlib.Data.Int.ModEq

set_option autoImplicit false

/- Directives of `printf` as texts, how they are read, and what a call for one comes to. -/
namespace Snfos.Printf

inductive Flag
  | left
  | plus
  | space
  | alternate
  | zero
deriving DecidableEq

namespace Flag

def char : Flag → UInt8
  | left => 45
  | plus => 43
  | space => 32
  | alternate => 35
  | zero => 48

def set (flags : Flags) : Flag → Flags
  | left => { flags with left := true }
  | plus => { flags with plus := true }
  | space => { flags with space := true }
  | alternate => { flags with alternate := true }
  | zero => { flags with zero := true }

end Flag

def flagsOf (flags : List Flag) : Flags := flags.foldl Flag.set ⟨false, false, false, false, false⟩

/-- A width or a precision of a directive: digits, or `*` and the argument for it. -/
inductive Count
  | omitted
  | digits (n : Nat) (bound : n ≤ 2 ^ 31)
  | star (word : Nat)

namespace Count

def text : Count → List UInt8
  | omitted => []
  | digits n _ => numeralText decimalDigit 10 n
  | star _ => [42]

def args : Count → List Nat
  | star word => [word]
  | _ => []

/-- The `int` that is read, or `absent`. -/
def read (absent : Int) : Count → Int
  | omitted => absent
  | digits n _ => int32 n
  | star word => int32 (u32 word)

end Count

/-- `%`, the flags, a width, a precision. The conversion follows. -/
structure Directive where
  flags : List Flag
  width : Count
  precision : Count

namespace Directive

variable (d : Directive)

/-- The precision with the point in front of it. -/
def pointText : List UInt8 :=
  match d.precision with
  | .omitted => []
  | count => 46 :: count.text

def text (format : List UInt8) : List UInt8 :=
  37 :: (d.flags.map Flag.char ++ (d.width.text ++ (d.pointText ++ format)))

def args (later : List Nat) : List Nat := d.width.args ++ (d.precision.args ++ later)

/-- A width written `0` is read as one more flag. -/
def readFlags : List Flag :=
  match d.width with
  | .digits 0 _ => d.flags ++ [.zero]
  | _ => d.flags

def spec : Spec := ⟨flagsOf d.readFlags, d.width.read 0, d.precision.read (-1)⟩

end Directive

section Numbers

theorem int32_modEq (n : Int) : int32 n ≡ n [ZMOD 2 ^ 32] := by
  unfold Int.ModEq int32
  omega

theorem int32_congr {n m : Int} (same : n ≡ m [ZMOD 2 ^ 32]) : int32 n = int32 m := by
  unfold Int.ModEq at same
  unfold int32
  omega

theorem scaleDigit_spec {places : Nat} (short : places ≤ 255) :
    ∀ fuel t (digit : Int), t ≤ places → places - t < fuel → ∃ scaled,
      scaleDigit places fuel t digit = some scaled ∧
        scaled ≡ digit * 10 ^ (places - t) [ZMOD 2 ^ 32] := by
  intro fuel
  induction fuel with
  | zero => intro t digit _ impossible; omega
  | succ fuel ih =>
    intro t digit inside enough
    unfold scaleDigit
    split
    · rename_i more
      have next : (t + 1) % 256 = t + 1 := Nat.mod_eq_of_lt (by omega)
      rw [next]
      obtain ⟨scaled, loop, same⟩ := ih (t + 1) (int32 (digit * 10)) (by omega) (by omega)
      refine ⟨scaled, loop, same.trans ?_⟩
      have power : (10 : Int) ^ (places - t) = 10 * 10 ^ (places - (t + 1)) := by
        rw [← pow_succ', show places - (t + 1) + 1 = places - t by omega]
      rw [power, ← mul_assoc]
      exact (int32_modEq _).mul_right _
    · have last : places - t = 0 := by omega
      refine ⟨digit, rfl, ?_⟩
      rw [last, pow_zero, mul_one]

theorem parseDigits_spec (digits : List Nat) (short : digits.length ≤ 255) (each : ∀ d ∈ digits, d < 10) :
    ∀ n : Int, Fits n → parseDigits (digits.map decimalDigit) n =
      some (int32 (n + Numeral.value 10 digits)) := by
  induction digits with
  | nil =>
    intro n fits
    show some n = some (int32 (n + 0))
    rw [Int.add_zero, int32_of_fits fits]
  | cons d digits ih =>
    intro n fits
    rw [List.length_cons] at short
    have small : d < 10 := each d List.mem_cons_self
    have character : ((decimalDigit d).toNat : Int) - 48 = d := by
      have : ∀ d, d < 10 → ((decimalDigit d).toNat : Int) - 48 = d := by decide
      exact this d small
    have places : digits.length + 1 ≤ 255 := by omega
    obtain ⟨scaled, loop, same⟩ := scaleDigit_spec places 256 1 d (by omega) (by omega)
    show (scaleDigit ((digits.map decimalDigit).length + 1) 256 1 _ >>= fun digit =>
      parseDigits (digits.map decimalDigit) (int32 (n + digit))) = _
    rw [List.length_map, character, loop]
    show parseDigits (digits.map decimalDigit) (int32 (n + scaled)) = _
    rw [ih (by omega) (fun e member => each e (List.mem_cons_of_mem d member)) _ (int32_fits _),
      Numeral.value_cons]
    refine congrArg some (int32_congr ?_)
    rw [Nat.add_sub_cancel] at same
    push_cast
    rw [← add_assoc]
    exact ((int32_modEq _).trans (same.add_left n)).add_right _

/-- `parseInt` reads a numeral back. One past the largest `int` wraps. -/
theorem parseInt_numeral {n : Nat} (bound : n ≤ 2 ^ 31) :
    parseInt (numeralText decimalDigit 10 n) = some (int32 n) := by
  have two : 2 ≤ 10 := by decide
  have short : (Numeral.numeral 10 n).length ≤ 9 + 1 := Numeral.length_numeral_le two (by omega)
  have read := parseDigits_spec (Numeral.numeral 10 n) (by omega)
    (fun d member => Numeral.digit_lt two member) 0 ⟨by decide, by decide⟩
  rw [Numeral.value_numeral, Int.zero_add] at read
  exact read

end Numbers

section Parsing

theorem parseFlags_chars (flags : List Flag) {format : List UInt8}
    (other : ∀ flag : Flag, format.head? ≠ some flag.char) : ∀ start,
      parseFlags start (flags.map Flag.char ++ format) = (flags.foldl Flag.set start, format) := by
  induction flags with
  | nil =>
    intro start
    cases format with
    | nil => rfl
    | cons c format =>
      have different : ∀ flag : Flag, c ≠ flag.char := fun flag same => other flag (congrArg some same)
      have noLeft : c ≠ 45 := different .left
      have noPlus : c ≠ 43 := different .plus
      have noSpace : c ≠ 32 := different .space
      have noAlternate : c ≠ 35 := different .alternate
      have noZero : c ≠ 48 := different .zero
      show parseFlags start (c :: format) = (start, c :: format)
      unfold parseFlags
      rw [if_neg noLeft, if_neg noPlus, if_neg noSpace, if_neg noAlternate, if_neg noZero]
  | cons flag flags ih =>
    intro start
    rw [List.foldl_cons, ← ih]
    cases flag <;> rfl

/-- What may follow a number: no digit. -/
def NoDigit (format : List UInt8) : Prop := ∀ c, format.head? = some c → isDigit c = false

theorem NoDigit.split {format : List UInt8} (after : NoDigit format) :
    format.takeWhile isDigit = [] ∧ format.dropWhile isDigit = format := by
  cases format with
  | nil => exact ⟨rfl, rfl⟩
  | cons c format =>
    have first := after c rfl
    exact ⟨List.takeWhile_cons_of_neg (by rw [first]; decide),
      List.dropWhile_cons_of_neg (by rw [first]; decide)⟩

theorem takeWhile_numeral (n : Nat) {format : List UInt8} (after : NoDigit format) :
    (numeralText decimalDigit 10 n ++ format).takeWhile isDigit = numeralText decimalDigit 10 n ∧
      (numeralText decimalDigit 10 n ++ format).dropWhile isDigit = format := by
  have each : ∀ c ∈ numeralText decimalDigit 10 n, isDigit c = true := by
    intro c member
    obtain ⟨d, inside, rfl⟩ := List.mem_map.mp member
    exact isDigit_decimal d (Numeral.digit_lt (by decide) inside)
  rw [List.takeWhile_append_of_pos each, List.dropWhile_append_of_pos each, after.split.1, after.split.2,
    List.append_nil]
  exact ⟨rfl, rfl⟩

theorem head_numeral_digit (n : Nat) : ∃ c digits,
    numeralText decimalDigit 10 n = c :: digits ∧ isDigit c = true ∧ (n ≠ 0 → c ≠ 48) := by
  obtain ⟨c, digits, text⟩ := List.exists_cons_of_ne_nil (numeralText_ne_nil decimalDigit 10 n)
  have member : c ∈ numeralText decimalDigit 10 n := by
    rw [text]
    exact List.mem_cons_self
  obtain ⟨d, inside, rfl⟩ := List.mem_map.mp member
  refine ⟨_, digits, text, isDigit_decimal d (Numeral.digit_lt (by decide) inside), fun positive zero => ?_⟩
  have first := Unsigned.decimal.head_numeral positive
  have same : Unsigned.decimal.numeral n = numeralText decimalDigit 10 n :=
    (Unsigned.decimal.numeral_eq n).symm
  rw [same, text, zero] at first
  exact first rfl

/-- A number is read as it was written, and what follows it is left. -/
theorem parseNumber_text (count : Count) (some : count ≠ .omitted) {format : List UInt8}
    (after : NoDigit format) (absent : Int) (later : List Nat) :
    parseNumber (count.text ++ format) (count.args ++ later) =
      .some (count.read absent, format, later) := by
  cases count with
  | omitted => exact absurd rfl some
  | star word => rfl
  | digits n bound =>
    obtain ⟨c, digits, text, digit, _⟩ := head_numeral_digit n
    have noStar : head (numeralText decimalDigit 10 n ++ format) ≠ 42 := by
      rw [text]
      show c ≠ 42
      rintro rfl
      exact absurd digit (by decide)
    unfold parseNumber
    show (if head (numeralText decimalDigit 10 n ++ format) = 42 then _ else _) = _
    rw [if_neg noStar]
    show (parseInt ((numeralText decimalDigit 10 n ++ format).takeWhile isDigit) >>= fun n' =>
      Option.some (n', (numeralText decimalDigit 10 n ++ format).dropWhile isDigit, later)) = _
    rw [(takeWhile_numeral n after).1, (takeWhile_numeral n after).2, parseInt_numeral bound]
    rfl

theorem parseNumber_none {format : List UInt8} (after : NoDigit format) (noStar : head format ≠ 42)
    (later : List Nat) : parseNumber format later = .some (0, format, later) := by
  unfold parseNumber
  rw [if_neg noStar, after.split.1, after.split.2]
  rfl

/-- The conversions that take an argument. -/
inductive Conversion
  | char
  | string
  | unsigned (k : Unsigned)
  | decimal
  | integer
deriving DecidableEq

def Conversion.letter : Conversion → UInt8
  | char => 99
  | string => 115
  | unsigned k => k.letter
  | decimal => 100
  | integer => 105

/-- A conversion letter is not taken for anything that may stand before it. -/
theorem Conversion.letter_plain (k : Conversion) : isDigit k.letter = false ∧
    k.letter ≠ 37 ∧ k.letter ≠ 42 ∧ k.letter ≠ 46 := by
  rcases k with _ | _ | k | _ | _
  · decide
  · decide
  · cases k <;> decide
  · decide
  · decide

theorem Conversion.letter_flag (k : Conversion) (flag : Flag) : k.letter ≠ flag.char := by
  rcases k with _ | _ | k | _ | _
  · cases flag <;> decide
  · cases flag <;> decide
  · cases k <;> cases flag <;> decide
  · cases flag <;> decide
  · cases flag <;> decide

theorem Conversion.skipLength_letter (k : Conversion) (rest : List UInt8) :
    skipLength (k.letter :: rest) = k.letter :: rest := by
  rcases k with _ | _ | k | _ | _
  · rfl
  · rfl
  · cases k <;> rfl
  · rfl
  · rfl

namespace Directive

variable (d : Directive) (k : Conversion) (rest : List UInt8) (later : List Nat)

/-- The width without the digit that is read as a flag. -/
def readWidth : Count :=
  match d.width with
  | .digits 0 _ => .omitted
  | count => count

theorem readWidth_spec : d.readWidth.read 0 = d.width.read 0 ∧ d.readWidth.args = d.width.args ∧
    ∀ n bound, d.readWidth = .digits n bound → n ≠ 0 := by
  unfold readWidth
  split
  · rename_i same
    rw [same]
    exact ⟨rfl, rfl, nofun⟩
  · rename_i _ other
    refine ⟨rfl, rfl, fun n bound same => ?_⟩
    rintro rfl
    exact other bound same

theorem text_flags (format : List UInt8) : d.flags.map Flag.char ++ (d.width.text ++ format) =
    d.readFlags.map Flag.char ++ (d.readWidth.text ++ format) := by
  unfold readFlags readWidth
  split
  · rename_i same
    rw [same, List.map_append, List.append_assoc]
    rfl
  · rename_i other
    cases same : d.width with
    | omitted => rfl
    | star word => rfl
    | digits n bound =>
      cases n with
      | zero => exact absurd same (other bound)
      | succ n => rfl

/-- What stands after the width is no part of it. -/
theorem pointText_start : NoDigit (d.pointText ++ k.letter :: rest) ∧
    (∀ flag : Flag, (d.pointText ++ k.letter :: rest).head? ≠ some flag.char) ∧
      head (d.pointText ++ k.letter :: rest) ≠ 42 := by
  obtain ⟨noDigit, _, noStar, _⟩ := k.letter_plain
  have point : ∀ flag : Flag, (46 : UInt8) ≠ flag.char := by
    intro flag
    cases flag <;> decide
  unfold pointText
  split
  · refine ⟨?_, fun flag same => k.letter_flag flag (Option.some.inj same), noStar⟩
    rintro c ⟨⟩
    exact noDigit
  · refine ⟨?_, fun flag same => point flag (Option.some.inj same), ?_⟩
    · rintro c ⟨⟩
      rfl
    · show (46 : UInt8) ≠ 42
      decide

theorem parsePrecision_text :
    parsePrecision (d.pointText ++ k.letter :: rest) (d.precision.args ++ later) =
      some (d.precision.read (-1), k.letter :: rest, later) := by
  obtain ⟨noDigit, _, _, noPoint⟩ := k.letter_plain
  have after : NoDigit (k.letter :: rest) := by
    rintro c ⟨⟩
    exact noDigit
  unfold parsePrecision pointText
  split
  · rename_i absent
    rw [absent]
    exact if_neg noPoint
  · rename_i other
    exact (if_pos rfl).trans (parseNumber_text d.precision other after (-1) later)

theorem parseSpec_text : parseSpec (d.text (k.letter :: rest)).tail (d.args later) =
    some (d.spec, k.letter :: rest, later) := by
  obtain ⟨noDigit, noFlag, noStar⟩ := d.pointText_start k rest
  obtain ⟨value, arguments, positive⟩ := d.readWidth_spec
  have start : ∀ flag : Flag,
      (d.readWidth.text ++ (d.pointText ++ k.letter :: rest)).head? ≠ some flag.char := by
    intro flag
    cases same : d.readWidth with
    | omitted => exact noFlag flag
    | star word =>
      show some 42 ≠ some flag.char
      cases flag <;> decide
    | digits n bound =>
      obtain ⟨c, digits, text, digit, noZero⟩ := head_numeral_digit n
      have first := noZero (positive n bound same)
      show (numeralText decimalDigit 10 n ++ _).head? ≠ _
      rw [text]
      intro equal
      have character : c = flag.char := Option.some.inj equal
      rw [character] at first digit
      cases flag
      · exact absurd digit (by decide)
      · exact absurd digit (by decide)
      · exact absurd digit (by decide)
      · exact absurd digit (by decide)
      · exact first rfl
  have width : parseNumber (d.readWidth.text ++ (d.pointText ++ k.letter :: rest)) (d.args later) =
      some (d.width.read 0, d.pointText ++ k.letter :: rest, d.precision.args ++ later) := by
    unfold args
    rw [← value, ← arguments]
    by_cases omitted : d.readWidth = .omitted
    · rw [omitted]
      exact parseNumber_none noDigit noStar _
    · exact parseNumber_text d.readWidth omitted noDigit 0 _
  unfold parseSpec text
  rw [List.tail_cons, text_flags, parseFlags_chars d.readFlags start]
  dsimp only
  rw [width]
  show (parsePrecision (d.pointText ++ k.letter :: rest) (d.precision.args ++ later) >>= fun parsed =>
    some ((⟨flagsOf d.readFlags, d.width.read 0, parsed.1⟩ : Spec), skipLength parsed.2.1, parsed.2.2)) = _
  rw [d.parsePrecision_text k rest later]
  show some (_, skipLength (k.letter :: rest), later) = _
  rw [k.skipLength_letter]
  rfl

end Directive

end Parsing

section Calls

variable (strings : Nat → List UInt8)

/-- What a conversion prints at the end of a format. -/
def Conversion.text (k : Conversion) (s : Spec) (word : Nat) : List UInt8 :=
  match k with
  | char => charText s (UInt8.ofNat word)
  | string => stringText s (strings word)
  | unsigned k => k.text s [] word
  | decimal => signedText s (int32 word)
  | integer => signedText s (int32 word)

theorem Conversion.field (k : Conversion) {s : Spec} (width : Fits s.width)
    (precision : Fits s.precision) (begun : List UInt8) (args : List Nat) :
    Field (fun maxrem => (convert strings s maxrem begun [k.letter] args).1)
      (k.text strings s (vaArg args).1) := by
  rcases k with _ | _ | k | _ | _
  · exact field_convertChar s width _
  · exact field_convertString s width precision _
  · exact k.field_convert strings s width precision begun [] args
  · exact field_convertSigned s width _
  · exact field_convertSigned s width _

/-- What the kernel's `printf` comes to for a format with the text `text`. -/
def outcome (text : List UInt8) : Option Int × List UInt8 :=
  if (text.length : Int) ≤ intMax then (some text.length, text) else (some (-1), [])

theorem outcome_eq_iff (text other : List UInt8) : outcome text = outcome other ↔
    text = other ∨ (intMax < text.length ∧ intMax < other.length) := by
  unfold outcome
  split
  · rename_i short
    split
    · rename_i small
      rw [Prod.mk.injEq]
      constructor
      · intro both
        exact Or.inl both.2
      · rintro (rfl | long)
        · exact ⟨rfl, rfl⟩
        · omega
    · rename_i long
      constructor
      · intro same
        have value : (text.length : Int) = -1 := Option.some.inj (congrArg Prod.fst same)
        omega
      · rintro (rfl | both)
        · exact absurd short long
        · omega
  · rename_i long
    split
    · rename_i short
      constructor
      · intro same
        have value : (-1 : Int) = other.length := Option.some.inj (congrArg Prod.fst same)
        omega
      · rintro (rfl | both)
        · exact absurd short long
        · omega
    · rename_i also
      exact ⟨fun _ => Or.inr ⟨by omega, by omega⟩, fun _ => rfl⟩

theorem Count.read_fits (count : Count) {absent : Int} (fits : Fits absent) : Fits (count.read absent) := by
  cases count with
  | omitted => exact fits
  | digits n bound => exact int32_fits _
  | star word => exact int32_fits _

theorem Directive.pass_text (d : Directive) (k : Conversion) (word maxrem : Nat) :
    pass strings maxrem (d.text [k.letter]) (d.args [word]) =
      some ((convert strings d.spec maxrem (d.text [k.letter]) [k.letter] [word]).1, [], []) := by
  have parsed := d.parseSpec_text k [] [word]
  have second : head (d.text [k.letter]).tail ≠ 37 := by
    have letter := k.letter_plain.2.1
    unfold text
    rw [List.tail_cons]
    cases d.flags with
    | cons flag flags =>
      show flag.char ≠ 37
      cases flag <;> decide
    | nil =>
      rw [List.map_nil, List.nil_append]
      cases d.width with
      | star width =>
        show (42 : UInt8) ≠ 37
        decide
      | digits n bound =>
        obtain ⟨c, digits, numeral, digit, _⟩ := head_numeral_digit n
        show head (numeralText decimalDigit 10 n ++ _) ≠ 37
        rw [numeral]
        show c ≠ 37
        rintro rfl
        exact absurd digit (by decide)
      | omitted =>
        show head (d.pointText ++ [k.letter]) ≠ 37
        unfold pointText
        split
        · exact letter
        · show (46 : UInt8) ≠ 37
          decide
  have literal : ¬(head (d.text [k.letter]) ≠ 37 ∨ head (d.text [k.letter]).tail = 37) := by
    rintro (first | again)
    · exact first rfl
    · exact second again
  have rest : ∀ begun, (convert strings d.spec maxrem begun [k.letter] [word]).2 = ([], []) := by
    intro begun
    rcases k with _ | _ | k | _ | _
    · rfl
    · rfl
    · cases k <;> rfl
    · rfl
    · rfl
  unfold pass
  rw [if_neg literal, parsed]
  show some (convert strings d.spec maxrem (d.text [k.letter]) [k.letter] [word]) = _
  rw [← rest (d.text [k.letter])]

/-- A call for one directive. -/
theorem Directive.kernelPrintf_text (d : Directive) (k : Conversion) (word : Nat) :
    kernelPrintf strings (d.text [k.letter]) (d.args [word]) =
      outcome (k.text strings d.spec (u32 word)) := by
  have width : Fits d.spec.width := d.width.read_fits ⟨by decide, by decide⟩
  have precision : Fits d.spec.precision := d.precision.read_fits ⟨by decide, by decide⟩
  have field := k.field strings width precision (d.text [k.letter]) [word] 2147483647 (by decide)
  obtain ⟨shown, shownIs⟩ : ∃ text, text = k.text strings d.spec (u32 word) := ⟨_, rfl⟩
  have passed := d.pass_text strings k word 2147483647
  have more : (d.text [k.letter]).length = (d.text [k.letter]).tail.length + 1 := rfl
  have loop : printf strings (d.text [k.letter]) (d.args [word]) =
      (do
        let width ← (convert strings d.spec 2147483647 (d.text [k.letter]) [k.letter] [word]).1
        if intMax < 0 + width then Emit.fail .overflow
        else printLoop strings ((d.text [k.letter]).tail.length + 1) [] [] (0 + width)) := by
    have room : unsigned (intMax - 0) = 2147483647 := by decide
    unfold printf
    rw [more]
    conv => lhs; unfold printLoop
    have first : ¬head (d.text [k.letter]) = 0 := by
      show ¬(37 : UInt8) = 0
      decide
    rw [if_neg first, room, passed]
  have same : k.text strings d.spec (vaArg [word]).1 = shown := shownIs.symm
  rw [same] at field
  rw [← shownIs]
  unfold outcome
  unfold Fills at field
  split at field
  · rename_i short
    obtain ⟨ps, emits, text⟩ := field
    have small : (shown.length : Int) ≤ intMax := by
      unfold intMax
      omega
    rw [if_pos small]
    have ended : Emit.Emits .failed (printf strings (d.text [k.letter]) (d.args [word])) (ps ++ [])
        (.ok (0 + (shown.length : Int))) := by
      rw [loop]
      apply emits.bind
      rw [if_neg (by omega)]
      exact Emit.emits_done _ _
    rw [kernel_eq ended, List.append_nil, text, Int.zero_add]
    rfl
  · rename_i long
    have ended : Emit.Emits .failed (printf strings (d.text [k.letter]) (d.args [word])) []
        (.error .failed) := by
      rw [loop]
      exact field.bind_error
    rw [if_neg, kernel_eq ended]
    · rfl
    · intro small
      unfold intMax at small
      omega

end Calls

end Snfos.Printf
