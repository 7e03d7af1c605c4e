import Snfos.PrintfFields

set_option autoImplicit false

/- What `printf` prints of a number, beside the numerals and the fields of ISO C. -/
namespace Snfos.Printf

section Layouts

variable {flags : Flags} {width : Nat} {lead digits text : List UInt8}

/-- Blanks, `lead`, zeros if the flags ask for them, `digits`, blanks. -/
def LaidOut (flags : Flags) (lead digits text : List UInt8) : Prop :=
  ∃ before zeros after : Nat,
    text = List.replicate before 32 ++ (lead ++ (List.replicate zeros 48 ++ (digits ++
      List.replicate after 32))) ∧
    (0 < zeros → flags.left = false ∧ flags.zero = true)

theorem laidOut_padded (flags : Flags) (width : Nat) (lead digits : List UInt8) :
    LaidOut flags lead digits (padded flags width lead digits) := by
  unfold padded blankPadded
  split
  · rename_i zeros
    refine ⟨0, width - (lead ++ digits).length, 0, ?_, fun _ => zeros⟩
    rw [List.replicate_zero, List.nil_append, List.append_nil, List.append_assoc]
  · split
    · refine ⟨0, 0, width - (lead ++ digits).length, ?_, by omega⟩
      rw [List.replicate_zero, List.replicate_zero, List.nil_append, List.nil_append,
        List.append_assoc]
    · refine ⟨width - (lead ++ digits).length, 0, 0, ?_, by omega⟩
      rw [List.replicate_zero, List.replicate_zero, List.nil_append, List.append_nil]

end Layouts

section Reading

/-- The number a hexadecimal digit stands for, in either case. -/
def digitValue (c : UInt8) : Nat :=
  if isDigit c = true then c.toNat - 48 else if 97 ≤ c then c.toNat - 87 else c.toNat - 55

/-- The number that a row of digits stands for. -/
def readNumber (base : Nat) (digits : List UInt8) : Nat := Numeral.value base (digits.map digitValue)

theorem readNumber_zeros (base count : Nat) (digits : List UInt8) :
    readNumber base (List.replicate count 48 ++ digits) = readNumber base digits := by
  unfold readNumber
  rw [List.map_append, List.map_replicate]
  exact Numeral.value_zeros base count _

theorem readNumber_numeral {digit : Nat → UInt8} {base : Nat} (two : 2 ≤ base)
    (reads : ∀ d, d < base → digitValue (digit d) = d) (num : Nat) :
    readNumber base (numeralText digit base num) = num := by
  have back : ((Numeral.numeral base num).map digit).map digitValue = Numeral.numeral base num := by
    rw [List.map_map]
    calc (Numeral.numeral base num).map (digitValue ∘ digit)
        = (Numeral.numeral base num).map id :=
          List.map_congr_left fun d member => reads d (Numeral.digit_lt two member)
      _ = Numeral.numeral base num := List.map_id _
  unfold readNumber numeralText
  rw [back, Numeral.value_numeral]

theorem digitValue_decimal : ∀ d, d < 10 → digitValue (decimalDigit d) = d := by decide

theorem isDigit_decimal : ∀ d, d < 10 → isDigit (decimalDigit d) = true := by decide

/-- The digits of a number laid out after a sign are those of the number. -/
theorem LaidOut.read {flags : Flags} {sign text : List UInt8} {num : Nat}
    (laid : LaidOut flags sign (numeralText decimalDigit 10 num) text)
    (other : ∀ c ∈ sign, isDigit c = false) : readNumber 10 (text.filter isDigit) = num := by
  obtain ⟨before, zeros, after, rfl, _⟩ := laid
  have two : 2 ≤ 10 := by decide
  have blanks : ∀ count : Nat, (List.replicate count (32 : UInt8)).filter isDigit = [] := fun count =>
    List.filter_replicate_of_neg (by decide)
  have noSign : sign.filter isDigit = [] :=
    List.filter_eq_nil_iff.mpr fun c member => by rw [other c member]; decide
  have zero : (List.replicate zeros (48 : UInt8)).filter isDigit = List.replicate zeros 48 :=
    List.filter_replicate_of_pos (by decide)
  have all : (numeralText decimalDigit 10 num).filter isDigit = numeralText decimalDigit 10 num := by
    rw [List.filter_eq_self]
    intro c member
    obtain ⟨d, inside, rfl⟩ := List.mem_map.mp member
    exact isDigit_decimal d (Numeral.digit_lt two inside)
  rw [List.filter_append, List.filter_append, List.filter_append, List.filter_append, blanks, blanks,
    noSign, zero, all, List.nil_append, List.nil_append, List.append_nil, readNumber_zeros,
    readNumber_numeral two digitValue_decimal]

end Reading

section Signed

/-- `num` in decimal as ISO C has it, but for the padding: the sign, zeros where the flags
ask for them, and the digits of the absolute value. -/
def IsDecimal (flags : Flags) (num : Int) (text : List UInt8) : Prop :=
  LaidOut flags (signText flags num) (numeralText decimalDigit 10 num.natAbs) text

theorem sign_not_digit (flags : Flags) (num : Int) : ∀ c ∈ signText flags num, isDigit c = false := by
  intro c member
  unfold signText plusText at member
  split at member
  · split at member
    · rw [List.mem_singleton.mp member]
      rfl
    split at member
    · rw [List.mem_singleton.mp member]
      rfl
    · cases member
  · rw [List.mem_singleton.mp member]
    rfl

/-- The digits are those of `num` as an unsigned word. Two numbers below zero have none
the less the digits of their absolute value: there is one, the smallest `int`. -/
theorem signedText_iff (s : Spec) {num : Int} (fits : Fits num) :
    IsDecimal s.flags num (signedText s num) ↔ 0 ≤ num ∨ num = -2 ^ 31 := by
  have laid := laidOut_padded s.flags (unsigned s.width) (signText s.flags num)
    (numeralText decimalDigit 10 (unsigned num))
  have same : unsigned num = num.natAbs ↔ 0 ≤ num ∨ num = -2 ^ 31 := by
    unfold unsigned Fits at *
    omega
  rw [← same]
  constructor
  · intro decimal
    rw [← laid.read (sign_not_digit s.flags num)]
    exact decimal.read (sign_not_digit s.flags num)
  · intro digits
    unfold IsDecimal
    rw [← digits]
    exact laid

variable (strings : Nat → List UInt8)

theorem length_signText_le (flags : Flags) (num : Int) : (signText flags num).length ≤ 1 := by
  rw [length_signText]
  split
  · rename_i both
    rw [if_neg (by omega)]
  · split <;> omega

/-- What `%d` and `%i` print, anywhere in a format, is the number exactly when it is not
negative or is the smallest one. -/
theorem convertSigned_decimal_iff (s : Spec) (width : Fits s.width) (positive : 0 ≤ s.width)
    (begun rest : List UInt8) (args : List Nat) {letter : UInt8}
    (signed : letter = 100 ∨ letter = 105) {num : Int} (fits : Fits num) :
    Field (fun maxrem => (convert strings s maxrem begun (letter :: rest) (unsigned num :: args)).1)
        (signedText s num) ∧
      ((signedText s num).length : Int) ≤ intMax ∧
      (IsDecimal s.flags num (signedText s num) ↔ 0 ≤ num ∨ num = -2 ^ 31) := by
  have word : int32 (u32 (unsigned num)) = num := by
    unfold int32 u32 unsigned Fits at *
    omega
  have conversion : (fun maxrem =>
      (convert strings s maxrem begun (letter :: rest) (unsigned num :: args)).1) =
        fun maxrem => convertSigned s maxrem num := by
    rcases signed with rfl | rfl
    · funext maxrem
      show convertSigned s maxrem (int32 (u32 (unsigned num))) = _
      rw [word]
    · funext maxrem
      show convertSigned s maxrem (int32 (u32 (unsigned num))) = _
      rw [word]
  refine ⟨?_, ?_, signedText_iff s fits⟩
  · rw [conversion]
    exact field_convertSigned s width num
  · have sign := length_signText_le s.flags num
    have digits := length_numeralText decimalDigit (show 2 ≤ 10 by decide) (unsigned_lt num)
    have value := unsigned_of_nonneg width positive
    have := width.2
    unfold signedText intMax
    rw [length_padded, List.length_append]
    omega

/-- No flags, no width, no precision. -/
def plainSpec : Spec := ⟨⟨false, false, false, false, false⟩, 0, -1⟩

theorem convertSigned_decimal_seven :
    IsDecimal plainSpec.flags 7 (signedText plainSpec 7) :=
  (convertSigned_decimal_iff (fun _ => []) plainSpec ⟨by decide, by decide⟩
    (by decide) [37, 100] [] [] (Or.inl rfl) (by unfold Fits; omega)).2.2.mpr (Or.inl (by decide))

/-- `printf("%d", -5)` prints `-4294967291`. -/
theorem minusFive_not_decimal :
    printf (fun _ => []) [37, 100] [unsigned (-5)] (fun _ => true) [] =
      (.ok 11, [[49], [57], [50], [55], [54], [57], [52], [57], [50], [52], [45]]) ∧
      ¬IsDecimal plainSpec.flags (-5) [45, 52, 50, 57, 52, 57, 54, 55, 50, 57, 49] := by
  refine ⟨by decide +kernel, ?_⟩
  intro decimal
  have read := decimal.read (sign_not_digit _ _)
  revert read
  decide +kernel

end Signed

section Unsigned

/-- The conversions of an unsigned number. -/
inductive Unsigned
  | octal
  | decimal
  | lowerHex
  | upperHex
deriving DecidableEq

namespace Unsigned

def letter : Unsigned → UInt8
  | octal => 111
  | decimal => 117
  | lowerHex => 120
  | upperHex => 88

def base : Unsigned → Nat
  | octal => 8
  | decimal => 10
  | lowerHex => 16
  | upperHex => 16

/-- `0123456789` and the letters of the case. -/
def alphabet : Unsigned → List UInt8
  | upperHex => [48, 49, 50, 51, 52, 53, 54, 55, 56, 57, 65, 66, 67, 68, 69, 70]
  | _ => [48, 49, 50, 51, 52, 53, 54, 55, 56, 57, 97, 98, 99, 100, 101, 102]

/-- The numeral without superfluous zeros. -/
def numeral (k : Unsigned) (num : Nat) : List UInt8 :=
  numeralText (fun d => k.alphabet.getD d 0) k.base num

/-- The digits as ISO C has them: nothing for a zero of precision zero, else the numeral
with zeros up to the precision. -/
def digits (k : Unsigned) (precision : Int) (num : Nat) : List UInt8 :=
  if precision = 0 ∧ num = 0 then []
  else List.replicate (precision.toNat - (k.numeral num).length) 48 ++ k.numeral num

/-- The character function of the code. -/
def digit : Unsigned → Nat → UInt8
  | octal => decimalDigit
  | decimal => decimalDigit
  | lowerHex => hexDigit 120
  | upperHex => hexDigit 88

/-- What `format` points to when the prefix is printed. -/
def pointed (k : Unsigned) (rest : List UInt8) : UInt8 :=
  match k with
  | octal => head rest
  | decimal => head rest
  | lowerHex => 120
  | upperHex => 88

variable (k : Unsigned)

theorem two_le_base : 2 ≤ k.base := by cases k <;> decide

theorem digit_zero : k.digit 0 = 48 := by cases k <;> rfl

theorem digit_eq : ∀ d, d < k.base → k.digit d = k.alphabet.getD d 0 := by
  cases k <;> decide

theorem reads_digit : ∀ d, d < k.base → digitValue (k.alphabet.getD d 0) = d := by
  cases k <;> decide

theorem numeral_eq (num : Nat) : numeralText k.digit k.base num = k.numeral num :=
  List.map_congr_left fun d member => k.digit_eq d (Numeral.digit_lt k.two_le_base member)

theorem digitPart_eq (precision : Int) (num : Nat) :
    digitPart k.digit k.base precision num = k.digits precision num := by
  unfold digitPart digits
  rw [k.numeral_eq num]

/-- What the conversion prints before `rest`. -/
def text (s : Spec) (rest : List UInt8) (num : Nat) : List UInt8 :=
  padded s.flags (unsigned s.width) (plusText s.flags ++ prefixText (k.pointed rest) s.flags)
    (k.digits s.precision num)

theorem field_convert (strings : Nat → List UInt8) (s : Spec) (width : Fits s.width)
    (precision : Fits s.precision) (begun rest : List UInt8) (args : List Nat) :
    Field (fun maxrem => (convert strings s maxrem begun (k.letter :: rest) args).1)
      (k.text s rest (vaArg args).1) := by
  have field := field_convertUnsigned s width precision k.digit (k.pointed rest) k.two_le_base
    (u32_lt (args.headD 0)) k.digit_zero
  have same : unsignedText s k.digit k.base (k.pointed rest) (u32 (args.headD 0)) =
      k.text s rest (vaArg args).1 := by
    unfold unsignedText text
    rw [k.digitPart_eq]
    rfl
  rw [same] at field
  cases k <;> exact field

end Unsigned

/-- The values `div` may take: 1, and what the two loops make of a value. -/
inductive Divisor (base num : Nat) : Nat → Prop
  | first : Divisor base num 1
  | scaled {div : Nat} : Divisor base num div → base - 1 < num / div →
      Divisor base num (u32 (div * base))
  | lowered {div : Nat} : Divisor base num div → base - 1 < div → Divisor base num (div / base)

/-- Every value of `div` is a power of the base, and only 1 may be above the number. -/
theorem Divisor.power {base num div : Nat} (two : 2 ≤ base) (bound : num < 2 ^ 32)
    (divisor : Divisor base num div) : ∃ k, div = base ^ k ∧ (k = 0 ∨ base ^ k ≤ num) := by
  induction divisor with
  | first => exact ⟨0, rfl, Or.inl rfl⟩
  | @scaled div _ more ih =>
    obtain ⟨k, rfl, _⟩ := ih
    have whole : base ^ (k + 1) ≤ num := by
      rw [Nat.pow_succ, Nat.mul_comm]
      apply (Nat.le_div_iff_mul_le (Nat.pow_pos (by omega))).mp
      omega
    refine ⟨k + 1, ?_, Or.inr whole⟩
    rw [← Nat.pow_succ]
    exact u32_of_lt (Nat.lt_of_le_of_lt whole bound)
  | @lowered div _ more ih =>
    obtain ⟨k, rfl, large⟩ := ih
    cases k with
    | zero =>
      rw [Nat.pow_zero] at more
      omega
    | succ k =>
      have whole : base ^ (k + 1) ≤ num := by
        rcases large with none | whole
        · exact absurd none (Nat.succ_ne_zero k)
        · exact whole
      refine ⟨k, ?_, Or.inr ?_⟩
      · rw [Nat.pow_succ]
        exact Nat.mul_div_cancel _ (by omega)
      · exact (Nat.pow_le_pow_right (by omega) (Nat.le_succ k)).trans whole

theorem Divisor.safe {base num div : Nat} (two : 2 ≤ base) (bound : num < 2 ^ 32)
    (divisor : Divisor base num div) :
    0 < div ∧ (base - 1 < num / div → div * base < 2 ^ 32) := by
  obtain ⟨k, rfl, _⟩ := divisor.power two bound
  refine ⟨Nat.pow_pos (by omega), fun more => ?_⟩
  have whole : base * base ^ k ≤ num := by
    apply (Nat.le_div_iff_mul_le (Nat.pow_pos (by omega))).mp
    omega
  rw [Nat.mul_comm]
  exact Nat.lt_of_le_of_lt whole bound

/-- The counting loop leaves such a value, from which the printing loop starts. -/
theorem Divisor.counted {base num : Nat} : ∀ fuel {div : Nat} (len : Nat), Divisor base num div →
    Divisor base num (countDigits base num fuel div len).1 := by
  intro fuel
  induction fuel with
  | zero => intro div len divisor; exact divisor
  | succ fuel ih =>
    intro div len divisor
    unfold countDigits
    split
    · rename_i more
      exact ih _ (divisor.scaled more)
    · exact divisor

namespace Unsigned

variable (k : Unsigned)

theorem numeral_ne_nil (num : Nat) : k.numeral num ≠ [] := numeralText_ne_nil _ _ _

theorem digits_nil_iff (precision : Int) (num : Nat) :
    k.digits precision num = [] ↔ num = 0 ∧ precision = 0 := by
  unfold digits
  split
  · rename_i both
    exact ⟨fun _ => ⟨both.2, both.1⟩, fun _ => rfl⟩
  · rename_i some
    refine ⟨fun empty => ?_, fun both => absurd ⟨both.2, both.1⟩ some⟩
    exact absurd (List.append_eq_nil_iff.mp empty).2 (k.numeral_ne_nil num)

theorem read_digits (precision : Int) (num : Nat) :
    readNumber k.base (k.digits precision num) = num := by
  unfold digits
  split
  · rename_i both
    rw [both.2]
    rfl
  · rw [readNumber_zeros]
    exact readNumber_numeral k.two_le_base k.reads_digit num

/-- No zero stands before another digit. -/
theorem head_numeral {num : Nat} (positive : num ≠ 0) : (k.numeral num).head? ≠ some 48 := by
  intro leading
  unfold numeral numeralText at leading
  rw [List.head?_map, Option.map_eq_some_iff] at leading
  obtain ⟨d, first, character⟩ := leading
  have inside : d < k.base := Numeral.digit_lt k.two_le_base (List.mem_of_mem_head? first)
  have zero : d = 0 := by
    rw [← k.reads_digit d inside, character]
    rfl
  rw [zero] at first
  exact Numeral.head_numeral k.base positive first

/-- What an unsigned conversion prints, anywhere in a format: the digits of ISO C between
the sign, the prefix, the fill, and blanks. The divisors stay below `2 ^ 32` on the way. -/
theorem convert_digits (strings : Nat → List UInt8) (s : Spec) (width : Fits s.width)
    (precision : Fits s.precision) (begun rest : List UInt8) (args : List Nat) :
    (∃ text, Field (fun maxrem => (convert strings s maxrem begun (k.letter :: rest) args).1) text ∧
        LaidOut s.flags (plusText s.flags ++ prefixText (k.pointed rest) s.flags)
          (k.digits s.precision (vaArg args).1) text) ∧
      (k.digits s.precision (vaArg args).1 = [] ↔ (vaArg args).1 = 0 ∧ s.precision = 0) ∧
      (k.digits s.precision (vaArg args).1 ≠ [] → k.digits s.precision (vaArg args).1 =
        List.replicate (s.precision.toNat - (k.numeral (vaArg args).1).length) 48 ++
          k.numeral (vaArg args).1) ∧
      ((vaArg args).1 ≠ 0 → (k.numeral (vaArg args).1).head? ≠ some 48) ∧
      readNumber k.base (k.digits s.precision (vaArg args).1) = (vaArg args).1 ∧
      Divisor k.base (vaArg args).1 (countDigits k.base (vaArg args).1 32 1 1).1 ∧
      ∀ div, Divisor k.base (vaArg args).1 div →
        0 < div ∧ (k.base - 1 < (vaArg args).1 / div → div * k.base < 2 ^ 32) := by
  have bound : (vaArg args).1 < 2 ^ 32 := u32_lt _
  refine ⟨⟨_, k.field_convert strings s width precision begun rest args, laidOut_padded _ _ _ _⟩,
    k.digits_nil_iff _ _, ?_, k.head_numeral, k.read_digits _ _, Divisor.first.counted 32 1,
    fun div divisor => divisor.safe k.two_le_base bound⟩
  intro some
  unfold digits
  rw [if_neg]
  intro both
  exact some ((k.digits_nil_iff _ _).mpr ⟨both.2, both.1⟩)

theorem read_digits_hex :
    readNumber 16 (upperHex.digits 8 0xBEEF) = 0xBEEF :=
  (upperHex.convert_digits (fun _ => []) ⟨⟨false, false, false, true, false⟩, 0, 8⟩
    ⟨by decide, by decide⟩ ⟨by decide, by decide⟩ [37, 35, 46, 56, 88] [] [0xBEEF]).2.2.2.2.1

/-- The prefixes ISO C allows: for `%o` one zero at most, for `%x` and `%X` the letter of
the conversion unless the number is zero. -/
def Prefix (flags : Flags) (num : Nat) (lead : List UInt8) : Prop :=
  if flags.alternate = false then lead = []
  else if k = octal then lead = [] ∨ lead = [48]
  else lead = if num = 0 then [] else [48, k.letter]

/-- The field of ISO C without `+` and blank: zeros fill it only with `0`, without `-` and
without a precision. -/
def IsoField (s : Spec) (num : Nat) (text : List UInt8) : Prop :=
  ∃ lead fill, k.Prefix s.flags num lead ∧
    fill = s.width.toNat - (lead ++ k.digits s.precision num).length ∧
    text =
      if s.flags.left = true then lead ++ k.digits s.precision num ++ List.replicate fill 32
      else if s.flags.zero = true ∧ s.precision < 0 then
        lead ++ List.replicate fill 48 ++ k.digits s.precision num
      else List.replicate fill 32 ++ (lead ++ k.digits s.precision num)

/-- No `#` on `%o`, and none on a zero; where `0` would fill a field that has a precision,
no room to fill. -/
def Regular (s : Spec) (num : Nat) : Prop :=
  (s.flags.alternate = true → k ≠ octal ∧ num ≠ 0) ∧
    (s.flags.left = false → s.flags.zero = true → 0 ≤ s.precision →
      s.width ≤ (if s.flags.alternate = true then 2 else 0) + (k.digits s.precision num).length)

variable {k} {s : Spec} {num : Nat} {rest : List UInt8}

theorem digits_char (precision : Int) : ∀ c ∈ k.digits precision num, c ≠ 0 := by
  intro c member
  unfold digits at member
  split at member
  · cases member
  · rcases List.mem_append.mp member with zero | digit
    · rw [(List.mem_replicate.mp zero).2]
      decide
    · obtain ⟨d, inside, rfl⟩ := List.mem_map.mp digit
      have small : ∀ d, d < k.base → k.alphabet.getD d 0 ≠ 0 := by cases k <;> decide
      exact small d (Numeral.digit_lt k.two_le_base inside)

theorem digits_of_zero (precision : Int) : ∀ c ∈ k.digits precision 0, c = 48 := by
  intro c member
  unfold digits at member
  split at member
  · cases member
  · rcases List.mem_append.mp member with zero | digit
    · exact (List.mem_replicate.mp zero).2
    · have single : k.numeral 0 = [48] := by cases k <;> rfl
      rw [single] at digit
      exact List.mem_singleton.mp digit

/-- A field of ISO C has its prefix, its digits, blanks and zeros, and nothing else. -/
theorem IsoField.chars {text : List UInt8} (field : k.IsoField s num text) : ∃ lead,
    k.Prefix s.flags num lead ∧
      ∀ c ∈ text, c ∈ lead ∨ c ∈ k.digits s.precision num ∨ c = 32 ∨ c = 48 := by
  obtain ⟨lead, fill, allowed, _, rfl⟩ := field
  refine ⟨lead, allowed, fun c member => ?_⟩
  split at member
  · simp only [List.mem_append, List.mem_replicate] at member
    tauto
  split at member
  · simp only [List.mem_append, List.mem_replicate] at member
    tauto
  · simp only [List.mem_append, List.mem_replicate] at member
    tauto

theorem prefix_mem {c : UInt8} (member : c ∈ prefixText (k.pointed rest) s.flags) :
    c ∈ k.text s rest num := by
  obtain ⟨before, zeros, after, laid, _⟩ := laidOut_padded s.flags (unsigned s.width)
    (plusText s.flags ++ prefixText (k.pointed rest) s.flags) (k.digits s.precision num)
  unfold text
  rw [laid]
  simp only [List.mem_append]
  tauto

/-- `%#o` prints the character after it, here the end of the format. -/
theorem octal_not_iso (alternate : s.flags.alternate = true) :
    ¬octal.IsoField s num (octal.text s [] num) := by
  intro field
  obtain ⟨lead, allowed, chars⟩ := field.chars
  have zero : (0 : UInt8) ∈ octal.text s [] num := by
    apply prefix_mem
    unfold prefixText
    rw [if_pos alternate]
    exact List.mem_cons_of_mem 48 List.mem_cons_self
  unfold Prefix at allowed
  rw [if_neg (by rw [alternate]; decide), if_pos rfl] at allowed
  rcases chars 0 zero with first | digit | blank | fill
  · rcases allowed with rfl | rfl
    · cases first
    · exact absurd (List.mem_singleton.mp first) (by decide)
  · exact digits_char _ 0 digit rfl
  · exact absurd blank (by decide)
  · exact absurd fill (by decide)

theorem zero_not_iso (alternate : s.flags.alternate = true) (hex : k ≠ octal) (pointed : k.pointed rest = k.letter)
    (other : k.letter ≠ 32 ∧ k.letter ≠ 48) : ¬k.IsoField s 0 (k.text s rest 0) := by
  intro field
  obtain ⟨lead, allowed, chars⟩ := field.chars
  have letter : k.letter ∈ k.text s rest 0 := by
    apply prefix_mem
    unfold prefixText
    rw [if_pos alternate, pointed]
    exact List.mem_cons_of_mem 48 List.mem_cons_self
  unfold Prefix at allowed
  rw [if_neg (by rw [alternate]; decide), if_neg hex, if_pos rfl] at allowed
  rcases chars _ letter with first | digit | blank | fill
  · rw [allowed] at first
    cases first
  · exact other.2 (digits_of_zero _ _ digit)
  · exact other.1 blank
  · exact other.2 fill

/-- Zeros fill a field with a precision too. -/
theorem zeroFill_not_iso {lead : List UInt8} (left : s.flags.left = false) (zero : s.flags.zero = true)
    (precise : 0 ≤ s.precision) (positive : 0 ≤ s.width) (fits : Fits s.width)
    (single : ∀ other, k.Prefix s.flags num other → other = lead)
    (zeros : lead = [] ∨ lead.head? = some 48)
    (room : (lead ++ k.digits s.precision num).length < s.width.toNat) :
    ¬k.IsoField s num (padded s.flags (unsigned s.width) lead (k.digits s.precision num)) := by
  rintro ⟨other, fill, allowed, fillIs, text⟩
  rw [single other allowed] at fillIs text
  have value := unsigned_of_nonneg fits positive
  have same : unsigned s.width - (lead ++ k.digits s.precision num).length = fill := by omega
  unfold padded at text
  rw [if_pos ⟨left, zero⟩, same, if_neg (by rw [left]; decide), if_neg (by omega)] at text
  obtain ⟨n, rfl⟩ : ∃ n, fill = n + 1 := ⟨fill - 1, by omega⟩
  have first := congrArg List.head? text
  rw [List.replicate_succ, List.replicate_succ] at first
  rcases zeros with rfl | leading
  · exact absurd (Option.some.inj first) (by decide)
  · rw [List.append_assoc, List.head?_append, leading] at first
    exact absurd (Option.some.inj first) (by decide)

theorem pointed_hex (rest : List UInt8) (other : k ≠ octal) (unsigned : k ≠ decimal) :
    k.pointed rest = k.letter := by
  cases k with
  | octal => exact absurd rfl other
  | decimal => exact absurd rfl unsigned
  | lowerHex => rfl
  | upperHex => rfl

/-- Without `#` on `%o` or on a zero the prefix is the one of ISO C, and the only one. -/
theorem prefix_unique (unsigned : k ≠ decimal) (regular : s.flags.alternate = true → k ≠ octal ∧ num ≠ 0)
    (rest other : List UInt8) :
    k.Prefix s.flags num other ↔ other = prefixText (k.pointed rest) s.flags := by
  unfold Prefix prefixText
  by_cases alternate : s.flags.alternate = true
  · obtain ⟨hex, some⟩ := regular alternate
    rw [if_neg (by rw [alternate]; decide), if_neg hex, if_neg some, if_pos alternate,
      pointed_hex rest hex unsigned]
  · rw [if_pos (Bool.eq_false_of_not_eq_true alternate), if_neg alternate]

/-- What is printed is a field of ISO C whatever stands after the conversion, exactly if
the conversion is regular. -/
theorem text_iso_iff (unsigned : k ≠ decimal) (noSign : s.flags.plus = false ∧ s.flags.space = false)
    (fits : Fits s.width) (positive : 0 ≤ s.width) :
    (∀ rest, k.IsoField s num (k.text s rest num)) ↔ k.Regular s num := by
  have noPlus : plusText s.flags = [] := by
    unfold plusText
    rw [noSign.1, noSign.2]
    rfl
  have textIs : ∀ rest, k.text s rest num = padded s.flags (Printf.unsigned s.width)
      (prefixText (k.pointed rest) s.flags) (k.digits s.precision num) := by
    intro rest
    unfold text
    rw [noPlus, List.nil_append]
  have length : ∀ rest, ((prefixText (k.pointed rest) s.flags).length : Int) =
      if s.flags.alternate = true then 2 else 0 := by
    intro rest
    unfold prefixText
    split <;> rfl
  have value := unsigned_of_nonneg fits positive
  constructor
  · intro iso
    have lead : s.flags.alternate = true → k ≠ octal ∧ num ≠ 0 := by
      intro alternate
      have hex : k ≠ octal := by
        rintro rfl
        exact octal_not_iso alternate (iso [])
      refine ⟨hex, ?_⟩
      rintro rfl
      refine zero_not_iso alternate hex (pointed_hex [] hex unsigned) ?_ (iso [])
      cases k <;> decide
    refine ⟨lead, fun left zero precise => ?_⟩
    by_contra room
    refine zeroFill_not_iso left zero precise positive fits
      (fun other => (prefix_unique unsigned lead [] other).mp) ?_ ?_ (textIs [] ▸ iso [])
    · unfold prefixText
      split
      · exact Or.inr rfl
      · exact Or.inl rfl
    · have lead := length []
      rw [List.length_append]
      omega
  · rintro ⟨lead, narrow⟩ rest
    refine ⟨_, _, (prefix_unique unsigned lead rest _).mpr rfl, rfl, ?_⟩
    rw [textIs rest]
    have same : Printf.unsigned s.width = s.width.toNat := by omega
    rw [same]
    cases left : s.flags.left with
    | true =>
      unfold padded blankPadded
      simp only [left, Bool.true_eq_false, false_and, ↓reduceIte]
    | false =>
      cases zero : s.flags.zero with
      | false =>
        unfold padded blankPadded
        simp only [left, zero, Bool.false_eq_true, and_false, false_and, ↓reduceIte]
      | true =>
        by_cases precise : 0 ≤ s.precision
        · have full := narrow left zero precise
          have fill : s.width.toNat ≤
              (prefixText (k.pointed rest) s.flags ++ k.digits s.precision num).length := by
            have lead := length rest
            rw [List.length_append]
            omega
          have nothing := Nat.sub_eq_zero_of_le fill
          rw [padded_exact s.flags fill, nothing]
          simp only [List.replicate_zero, List.append_nil, List.nil_append, ite_self]
        · unfold padded
          simp only [left, zero, and_self, Bool.false_eq_true, ↓reduceIte,
            Int.not_le.mp precise]

variable (k)

/-- Around the digits of `%o`, `%x` and `%X` with the flags `-`, `0` and `#` there is what
ISO C asks for, and nothing of the text that follows, exactly if the conversion is
regular. -/
theorem convert_iso_iff (strings : Nat → List UInt8) (s : Spec) (width : Fits s.width)
    (positive : 0 ≤ s.width) (precision : Fits s.precision) (unsigned : k ≠ decimal)
    (noSign : s.flags.plus = false ∧ s.flags.space = false) (begun : List UInt8) (args : List Nat) :
    (∀ rest, Field (fun maxrem => (convert strings s maxrem begun (k.letter :: rest) args).1)
        (k.text s rest (vaArg args).1)) ∧
      ((∀ rest, k.IsoField s (vaArg args).1 (k.text s rest (vaArg args).1)) ↔
        k.Regular s (vaArg args).1) :=
  ⟨fun rest => k.field_convert strings s width precision begun rest args,
    text_iso_iff unsigned noSign width positive⟩

theorem convert_iso_hex :
    upperHex.IsoField ⟨⟨false, false, false, true, true⟩, 12, -1⟩ 0x43A
      (upperHex.text ⟨⟨false, false, false, true, true⟩, 12, -1⟩ [60, 62] 0x43A) :=
  (upperHex.convert_iso_iff (fun _ => []) ⟨⟨false, false, false, true, true⟩, 12, -1⟩
    ⟨by decide, by decide⟩ (by decide) ⟨by decide, by decide⟩ (by decide) ⟨rfl, rfl⟩ [] [0x43A]).2.mpr
    ⟨fun _ => by decide, fun _ _ negative => absurd negative (by decide)⟩ [60, 62]

/-- `printf("%#o<>", 5)` prints `0<5` for the field. -/
theorem octal_prints_following :
    printf (fun _ => []) [37, 35, 111, 60, 62] [5] (fun _ => true) [] =
        (.ok 5, [[60, 62], [53], [60], [48]]) ∧
      ¬octal.IsoField ⟨⟨false, false, false, true, false⟩, 0, -1⟩ 5 [48, 60, 53] := by
  refine ⟨by decide +kernel, fun field => ?_⟩
  obtain ⟨lead, allowed, chars⟩ := field.chars
  have short : (60 : UInt8) ∉ lead := by
    rcases allowed with rfl | rfl <;> decide
  rcases chars 60 (by decide) with first | digit | blank | fill
  · exact short first
  · revert digit
    decide +kernel
  · exact absurd blank (by decide)
  · exact absurd fill (by decide)

end Unsigned

end Unsigned

end Snfos.Printf
