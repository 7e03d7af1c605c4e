import Snfos.Directives

set_option autoImplicit false

/- A directive with `*` in it beside the same one in digits. -/
namespace Snfos.Printf

theorem natAbs_int32_le (word : Nat) : (int32 (u32 word)).natAbs ≤ 2 ^ 31 := by
  unfold int32
  omega

/-- `*` replaced by digits: of the absolute value, and none for a negative precision. -/
def Count.magnitude : Count → Count
  | star word => digits (int32 (u32 word)).natAbs (natAbs_int32_le word)
  | count => count

def Count.spelled : Count → Count
  | star word =>
      if 0 ≤ int32 (u32 word) then digits (int32 (u32 word)).natAbs (natAbs_int32_le word)
      else omitted
  | count => count

/-- The argument for the width is negative. -/
def Count.Negative : Count → Prop
  | star word => int32 (u32 word) < 0
  | _ => False

instance (count : Count) : Decidable count.Negative := by
  unfold Count.Negative
  split <;> infer_instance

/-- The same directive without `*`. -/
def Directive.written (d : Directive) : Directive where
  flags := if d.width.Negative then d.flags ++ [.left] else d.flags
  width := d.width.magnitude
  precision := d.precision.spelled

/-- The conversions for which a negative width gives the same result as its digits: the
smallest `int`, a `%c` of one character, a `%s` that its precision cuts short, and what is
too long to be printed with any width. -/
def Conversion.Tolerates (strings : Nat → List UInt8) (k : Conversion) (s : Spec) (word : Nat) : Prop :=
  s.width = -2 ^ 31 ∨
    match k with
    | char => s.width = -1
    | string =>
        0 ≤ s.precision ∧ s.precision < u32 (strings word).length ∨ 2 ^ 31 ≤ u32 (strings word).length
    | unsigned _ =>
        2 ^ 31 ≤ (if s.flags.plus = true ∨ s.flags.space = true then 1 else 0) +
          (if s.flags.alternate = true then 2 else 0) + s.precision
    | decimal => False
    | integer => False

section Agreement

variable {strings : Nat → List UInt8} {s : Spec} {word : Nat}

/-- Every negative precision is as good as none. -/
theorem text_precision (k : Conversion) {p q : Int} (same : p = q ∨ p < 0 ∧ q < 0) :
    k.text strings { s with precision := p } word = k.text strings { s with precision := q } word := by
  rcases same with rfl | ⟨negative, also⟩
  · rfl
  have noP : ¬0 ≤ p := by omega
  have noQ : ¬0 ≤ q := by omega
  rcases k with _ | _ | k | _ | _
  · rfl
  · show stringText _ _ = stringText _ _
    unfold stringText stringWidth stringLen
    dsimp only
    simp only [noP, noQ, false_and, ↓reduceIte]
  · have digits : k.digits p word = k.digits q word := by
      unfold Unsigned.digits
      rw [if_neg (by omega), if_neg (by omega), Int.toNat_of_nonpos (by omega),
        Int.toNat_of_nonpos (by omega)]
    show Unsigned.text k _ _ _ = Unsigned.text k _ _ _
    unfold Unsigned.text
    dsimp only
    rw [digits]
  · rfl
  · rfl

theorem text_spec (k : Conversion) {t : Spec} (flags : t.flags = s.flags) (width : t.width = s.width)
    (precision : t.precision = s.precision ∨ t.precision < 0 ∧ s.precision < 0) :
    k.text strings t word = k.text strings s word := by
  have split : t = { s with precision := t.precision } := by
    rw [← flags, ← width]
  rw [split]
  exact text_precision k precision

/-- Nothing is filled in a field of width zero. -/
theorem text_zeroFlag (k : Conversion) (none : s.width = 0) :
    k.text strings { s with flags := { s.flags with zero := true } } word = k.text strings s word := by
  have narrow : ∀ n, unsigned s.width ≤ n := by
    intro n
    rw [none]
    exact Nat.zero_le n
  rcases k with _ | _ | k | _ | _
  · rfl
  · rfl
  · show Unsigned.text k _ _ _ = Unsigned.text k _ _ _
    unfold Unsigned.text
    rw [padded_exact _ (narrow _), padded_exact _ (narrow _)]
    rfl
  · show signedText _ _ = signedText _ _
    unfold signedText
    rw [padded_exact _ (narrow _), padded_exact _ (narrow _)]
    rfl
  · show signedText _ _ = signedText _ _
    unfold signedText
    rw [padded_exact _ (narrow _), padded_exact _ (narrow _)]
    rfl

theorem outcome_of_long {text other : List UInt8} (long : intMax < text.length) :
    outcome text = outcome other ↔ intMax < other.length := by
  rw [outcome_eq_iff]
  constructor
  · rintro (rfl | both)
    · exact long
    · exact both.2
  · exact fun also => Or.inr ⟨long, also⟩

/-- The spec with the flag `-` and the absolute value as the width. -/
def Spec.turned (s : Spec) : Spec :=
  { s with flags := { s.flags with left := true }, width := int32 s.width.natAbs }

theorem turned_width (fits : Fits s.width) (negative : s.width < 0) :
    Fits s.turned.width ∧ s.turned.width = if s.width = -2 ^ 31 then -2 ^ 31 else -s.width := by
  refine ⟨int32_fits _, ?_⟩
  show int32 s.width.natAbs = _
  unfold int32 Fits at *
  split <;> omega

/-- A string that its precision does not cut is shorter than that. -/
theorem inside_precision {len : Nat} (precision : Fits s.precision) (precise : 0 ≤ s.precision)
    (uncut : ¬(0 ≤ s.precision ∧ unsigned s.precision < len)) : len < 2 ^ 31 := by
  have value := unsigned_of_nonneg precision precise
  have upper := precision.2
  omega

theorem stringWidth_small {len : Nat} (fits : Fits s.width) (positive : 0 ≤ s.width)
    (precision : Fits s.precision) (precise : 0 ≤ s.precision)
    (uncut : ¬(0 ≤ s.precision ∧ unsigned s.precision < len)) :
    (unsigned (stringWidth s len) : Int) ≤ intMax := by
  have inside := inside_precision precision precise uncut
  have kept : int32 len = len := int32_of_fits ⟨by omega, by omega⟩
  obtain ⟨w, wIs⟩ : ∃ w, w = if unsigned s.width < len then int32 len else s.width := ⟨_, rfl⟩
  have wFits : Fits w ∧ 0 ≤ w := by
    rw [wIs, kept]
    split
    · exact ⟨⟨by omega, by omega⟩, by omega⟩
    · exact ⟨fits, positive⟩
  have agreed : Fits (if 0 ≤ s.precision ∧ s.precision < w then s.precision else w) ∧
      0 ≤ (if 0 ≤ s.precision ∧ s.precision < w then s.precision else w) := by
    split
    · exact ⟨precision, precise⟩
    · exact wFits
  unfold stringWidth
  dsimp only
  rw [if_neg uncut, ← wIs, unsigned_of_nonneg agreed.1 agreed.2]
  have upper := agreed.1.2
  unfold intMax
  omega

section Negative

variable (fits : Fits s.width) (negative : s.width < 0)
include fits negative

/-- A number is refused at a negative width, and else only if it is too long itself. -/
theorem number_turned (lead digits : List UInt8) :
    outcome (padded s.flags (unsigned s.width) lead digits) =
        outcome (padded s.turned.flags (unsigned s.turned.width) lead digits) ↔
      s.width = -2 ^ 31 ∨ 2 ^ 31 ≤ (lead ++ digits).length := by
  have value := unsigned_of_neg fits negative
  obtain ⟨turnedFits, turned⟩ := turned_width fits negative
  have lower := fits.1
  rw [outcome_of_long]
  · rw [length_padded]
    unfold intMax
    by_cases smallest : s.width = -2 ^ 31
    · rw [if_pos smallest] at turned
      have := unsigned_of_neg turnedFits (by omega)
      exact ⟨fun _ => Or.inl smallest, fun _ => by omega⟩
    · rw [if_neg smallest] at turned
      have := unsigned_of_nonneg turnedFits (by omega)
      constructor
      · intro long
        exact Or.inr (by omega)
      · intro long
        omega
  · rw [length_padded]
    unfold intMax
    omega

theorem char_turned (c : UInt8) :
    outcome (charText s c) = outcome (charText s.turned c) ↔ s.width = -2 ^ 31 ∨ s.width = -1 := by
  obtain ⟨turnedFits, turned⟩ := turned_width fits negative
  have single : [c].length = 1 := rfl
  have plain : ∀ (left : Bool) (width : Nat), width ≤ 1 → blankPadded left width [c] = [c] := by
    intro left width narrow
    have nothing : width - [c].length = 0 := by omega
    unfold blankPadded
    rw [nothing, List.replicate_zero, List.append_nil, List.nil_append, ite_self]
  have length : (charText s.turned c).length = max s.turned.width.toNat 1 := length_blankPadded _ _ _
  have alone : charText s c = [c] := plain _ _ (by omega)
  rw [alone]
  constructor
  · intro same
    rw [outcome_eq_iff] at same
    rcases same with same | both
    · rw [← same] at length
      by_cases smallest : s.width = -2 ^ 31
      · exact Or.inl smallest
      · rw [if_neg smallest] at turned
        exact Or.inr (by omega)
    · have := both.1
      unfold intMax at this
      omega
  · intro small
    have narrow : s.turned.width.toNat ≤ 1 := by
      rw [turned]
      split <;> omega
    exact congrArg outcome (plain _ _ narrow).symm

theorem string_turned (precision : Fits s.precision) (str : List UInt8) :
    outcome (stringText s str) = outcome (stringText s.turned str) ↔
      s.width = -2 ^ 31 ∨
        (0 ≤ s.precision ∧ s.precision < u32 str.length ∨ 2 ^ 31 ≤ u32 str.length) := by
  have value := unsigned_of_neg fits negative
  obtain ⟨turnedFits, turned⟩ := turned_width fits negative
  have lower := fits.1
  have bound := u32_lt str.length
  have whole : u32 str.length ≤ str.length := Nat.mod_le _ _
  by_cases short : 0 ≤ s.precision ∧ unsigned s.precision < u32 str.length
  · have precisionValue := unsigned_of_nonneg precision short.1
    have cut : ∀ other : Spec, other.precision = s.precision →
        stringText other str = str.take (unsigned s.precision) := by
      intro other same
      have length : (str.take (unsigned s.precision)).length = unsigned s.precision := by
        rw [List.length_take]
        omega
      unfold stringText stringWidth stringLen
      rw [same]
      dsimp only
      rw [if_pos short, if_pos short]
      unfold blankPadded
      rw [length, Nat.sub_self, List.replicate_zero, List.append_nil, List.nil_append, ite_self]
    rw [cut s rfl, cut s.turned rfl]
    exact ⟨fun _ => Or.inr (Or.inl ⟨short.1, by omega⟩), fun _ => rfl⟩
  · have tooLong : ∀ other : Spec, Fits other.width → other.width < 0 → other.precision = s.precision →
        intMax < (stringText other str).length := by
      intro other otherFits below same
      have otherValue := unsigned_of_neg otherFits below
      have otherLower := otherFits.1
      rw [length_stringText other otherFits (same ▸ precision)]
      unfold stringWidth
      rw [same]
      dsimp only
      rw [if_neg short]
      unfold intMax
      split
      · rename_i longer
        have kept : ¬(0 ≤ s.precision ∧ s.precision < int32 (u32 str.length)) := by
          unfold int32
          omega
        rw [if_neg kept, unsigned_int32 bound]
        omega
      · rw [if_neg (by omega)]
        omega
    have length := length_stringText s.turned turnedFits precision str
    rw [outcome_of_long (tooLong s fits negative rfl)]
    by_cases smallest : s.width = -2 ^ 31
    · rw [if_pos smallest] at turned
      exact ⟨fun _ => Or.inl smallest, fun _ => tooLong s.turned turnedFits (by omega) rfl⟩
    · rw [if_neg smallest] at turned
      have positive := unsigned_of_nonneg turnedFits (by omega)
      rw [length]
      by_cases absent : s.precision < 0
      · have wide : unsigned (stringWidth s.turned (u32 str.length)) =
            max (unsigned s.turned.width) (u32 str.length) := by
          have noPrecision : ¬0 ≤ s.turned.precision := Int.not_le.mpr absent
          unfold stringWidth
          dsimp only
          rw [if_neg (fun both => noPrecision both.1), if_neg (fun both => noPrecision both.1)]
          exact (numberWidth s.turned turnedFits bound).2
        rw [wide]
        unfold intMax
        omega
      · have precise : 0 ≤ s.precision := by omega
        have small := stringWidth_small turnedFits (by omega) precision precise short
        have inside := inside_precision precision precise short
        have value := unsigned_of_nonneg precision precise
        omega

/-- A number longer than INT_MAX has that from its precision. -/
theorem unsigned_turned (k : Unsigned) {num : Nat} (bound : num < 2 ^ 32) :
    outcome (k.text s [] num) = outcome (k.text s.turned [] num) ↔
      s.width = -2 ^ 31 ∨ 2 ^ 31 ≤ (if s.flags.plus = true ∨ s.flags.space = true then 1 else 0) +
        (if s.flags.alternate = true then 2 else 0) + s.precision := by
  have lead : ((plusText s.flags ++ prefixText (k.pointed []) s.flags).length : Int) =
      (if s.flags.plus = true ∨ s.flags.space = true then 1 else 0) +
        (if s.flags.alternate = true then 2 else 0) := by
    unfold prefixText
    rw [List.length_append, length_plusText]
    split <;> split <;> rfl
  have short := length_numeralText k.digit k.two_le_base bound
  have digits : ∃ len ≤ 32, (k.digits s.precision num).length = max s.precision.toNat len := by
    rw [← k.digitPart_eq]
    refine ⟨_, ?_, length_digitPart k.digit s.precision _ rfl⟩
    split <;> omega
  obtain ⟨len, small, digitsLength⟩ := digits
  have lengths : 2 ^ 31 ≤ ((plusText s.flags ++ prefixText (k.pointed []) s.flags) ++
      k.digits s.precision num).length ↔
        2 ^ 31 ≤ (if s.flags.plus = true ∨ s.flags.space = true then (1 : Int) else 0) +
          (if s.flags.alternate = true then 2 else 0) + s.precision := by
    obtain ⟨extra, extraIs⟩ : ∃ extra, extra =
      (if s.flags.plus = true ∨ s.flags.space = true then (1 : Int) else 0) +
        (if s.flags.alternate = true then 2 else 0) := ⟨_, rfl⟩
    rw [← extraIs] at lead ⊢
    rw [List.length_append, digitsLength]
    omega
  rw [← lengths]
  exact number_turned fits negative _ _

theorem signed_turned (num : Int) :
    outcome (signedText s num) = outcome (signedText s.turned num) ↔ s.width = -2 ^ 31 := by
  have sign := length_signText_le s.flags num
  have digits := length_numeralText decimalDigit (show 2 ≤ 10 by decide) (unsigned_lt num)
  have short : ¬2 ^ 31 ≤
      (signText s.flags num ++ numeralText decimalDigit 10 (unsigned num)).length := by
    rw [List.length_append]
    omega
  exact (number_turned fits negative _ _).trans (or_iff_left short)

theorem Conversion.turned_iff (k : Conversion) (precision : Fits s.precision) (bound : word < 2 ^ 32) :
    outcome (k.text strings s word) = outcome (k.text strings s.turned word) ↔
      k.Tolerates strings s word := by
  rcases k with _ | _ | k | _ | _
  · exact char_turned fits negative _
  · exact string_turned fits negative precision _
  · exact unsigned_turned fits negative k bound
  · exact (signed_turned fits negative _).trans (or_iff_left id).symm
  · exact (signed_turned fits negative _).trans (or_iff_left id).symm

end Negative

variable (strings) (d : Directive) (k : Conversion) (word)

theorem flagsOf_append (flags : List Flag) (flag : Flag) :
    flagsOf (flags ++ [flag]) = Flag.set (flagsOf flags) flag := List.foldl_concat _ _ _ _

theorem spelled_star (p : Nat) : (Count.spelled (.star p)).read (-1) =
    if 0 ≤ int32 (u32 p) then int32 (u32 p) else -1 := by
  have fits := int32_fits (u32 p)
  unfold Count.spelled
  dsimp only
  split
  · rename_i positive
    have value : ((int32 (u32 p)).natAbs : Int) = int32 (u32 p) := Int.natAbs_of_nonneg positive
    show int32 ((int32 (u32 p)).natAbs : Int) = _
    rw [value, int32_of_fits fits]
  · rfl

theorem spelled_precision : d.precision.spelled.read (-1) = d.precision.read (-1) ∨
    d.precision.spelled.read (-1) < 0 ∧ d.precision.read (-1) < 0 := by
  cases d.precision with
  | omitted => exact Or.inl rfl
  | digits n bound => exact Or.inl rfl
  | star p =>
    rw [spelled_star]
    show _ = int32 (u32 p) ∨ _ ∧ int32 (u32 p) < 0
    split
    · exact Or.inl rfl
    · rename_i negative
      exact Or.inr ⟨by decide, by omega⟩

theorem readFlags_digits (flags : List Flag) (n : Nat) (bound : n ≤ 2 ^ 31) (precision : Count) :
    (Directive.mk flags (.digits n bound) precision).readFlags =
      if n = 0 then flags ++ [.zero] else flags := by
  cases n with
  | zero => rfl
  | succ n => rfl

/-- What the directive without `*` is read as, but for its precision. -/
theorem written_spec :
    (¬d.width.Negative ∧ (d.written.spec.flags = d.spec.flags ∨
        d.spec.width = 0 ∧ d.written.spec.flags = { d.spec.flags with zero := true }) ∧
        d.written.spec.width = d.spec.width) ∨
      (d.width.Negative ∧ d.spec.width < 0 ∧ d.written.spec.flags = d.spec.turned.flags ∧
        d.written.spec.width = d.spec.turned.width) := by
  cases d with
  | mk flags width precision =>
    cases width with
    | omitted => exact Or.inl ⟨id, Or.inl rfl, rfl⟩
    | digits n bound => exact Or.inl ⟨id, Or.inl rfl, rfl⟩
    | star w =>
      have fits := int32_fits (u32 w)
      obtain ⟨n, nIs⟩ : ∃ n, n = (int32 (u32 w)).natAbs := ⟨_, rfl⟩
      obtain ⟨bound, digits⟩ : ∃ bound, Count.magnitude (.star w) = .digits n bound := by
        rw [nIs]
        exact ⟨_, rfl⟩
      by_cases negative : int32 (u32 w) < 0
      · -- the digits are not zero, so no flag is read from them
        have written : (Directive.mk flags (.star w) precision).written =
            ⟨flags ++ [.left], .digits n bound, precision.spelled⟩ := by
          unfold Directive.written
          dsimp only
          rw [if_pos (show (Count.star w).Negative from negative), digits]
        refine Or.inr ⟨negative, negative, ?_, ?_⟩
        · rw [written]
          show flagsOf (Directive.readFlags _) = _
          rw [readFlags_digits, if_neg (by omega), flagsOf_append]
          rfl
        · rw [written]
          show int32 n = int32 ((int32 (u32 w)).natAbs : Int)
          rw [nIs]
      · have written : (Directive.mk flags (.star w) precision).written =
            ⟨flags, .digits n bound, precision.spelled⟩ := by
          unfold Directive.written
          dsimp only
          rw [if_neg (show ¬(Count.star w).Negative from negative), digits]
        have value : (n : Int) = int32 (u32 w) := by omega
        refine Or.inl ⟨negative, ?_, ?_⟩
        · rw [written]
          show flagsOf (Directive.readFlags _) = flagsOf flags ∨
            int32 (u32 w) = 0 ∧ flagsOf (Directive.readFlags _) = { flagsOf flags with zero := true }
          rw [readFlags_digits]
          split
          · exact Or.inr ⟨by omega, flagsOf_append flags .zero⟩
          · exact Or.inl rfl
        · rw [written]
          show int32 n = int32 (u32 w)
          rw [value, int32_of_fits fits]

/-- A width that is not negative as an argument is not negative, but for digits that wrap. -/
theorem width_range (plain : ¬d.width.Negative) : 0 ≤ d.spec.width ∨ d.spec.width = -2 ^ 31 := by
  show 0 ≤ d.width.read 0 ∨ d.width.read 0 = -2 ^ 31
  cases same : d.width with
  | omitted => exact Or.inl (Int.le_refl 0)
  | digits n bound =>
    show 0 ≤ int32 n ∨ int32 n = -2 ^ 31
    unfold int32
    omega
  | star w =>
    rw [same] at plain
    exact Or.inl (Int.not_lt.mp plain)

theorem written_args (later : List Nat) : d.written.args later = later := by
  have width : d.width.magnitude.args = [] := by
    cases d.width <;> rfl
  have precision : d.precision.spelled.args = [] := by
    cases d.precision with
    | star p =>
      unfold Count.spelled
      dsimp only
      split <;> rfl
    | omitted => rfl
    | digits n bound => rfl
  show d.width.magnitude.args ++ (d.precision.spelled.args ++ later) = later
  rw [width, precision]
  rfl

/-- `*` and its arguments come to what digits come to exactly if the width is not negative
or the conversion tolerates that it is. -/
theorem star_iff :
    kernelPrintf strings (d.text [k.letter]) (d.args [word]) =
        kernelPrintf strings (d.written.text [k.letter]) [word] ↔
      0 ≤ d.spec.width ∨ k.Tolerates strings d.spec (u32 word) := by
  have bound := u32_lt word
  have width : Fits d.spec.width := d.width.read_fits ⟨by decide, by decide⟩
  have precision : Fits d.spec.precision := d.precision.read_fits ⟨by decide, by decide⟩
  have samePrecision : d.written.spec.precision = d.spec.precision ∨
      d.written.spec.precision < 0 ∧ d.spec.precision < 0 := spelled_precision d
  have digits := d.written.kernelPrintf_text strings k word
  rw [written_args] at digits
  rw [d.kernelPrintf_text strings k word, digits]
  rcases written_spec d with ⟨positive, flags, sameWidth⟩ | ⟨_, negative, flags, turnedWidth⟩
  · -- the same texts, and a negative width here is the one that digits wrap to
    have same : k.text strings d.written.spec (u32 word) = k.text strings d.spec (u32 word) := by
      rcases flags with flags | ⟨zero, flags⟩
      · exact text_spec k flags sameWidth samePrecision
      · exact (text_spec (s := { d.spec with flags := { d.spec.flags with zero := true } }) k flags
          sameWidth samePrecision).trans (text_zeroFlag k zero)
    refine ⟨fun _ => ?_, fun _ => congrArg outcome same.symm⟩
    exact (width_range d positive).imp_right Or.inl
  · have same : k.text strings d.written.spec (u32 word) = k.text strings d.spec.turned (u32 word) :=
      text_spec k flags turnedWidth samePrecision
    rw [same, k.turned_iff width negative precision bound]
    exact (or_iff_right (Int.not_le.mpr negative)).symm

/-- `printf("%*d", -3, 5)` fails where `printf("%-3d", 5)` prints. -/
theorem negative_width_fails :
    (Directive.mk [] (.star 0xFFFFFFFD) .omitted).written.text [100] = [37, 45, 51, 100] ∧
      kernelPrintf (fun _ => []) ((Directive.mk [] (.star 0xFFFFFFFD) .omitted).text [100])
        ((Directive.mk [] (.star 0xFFFFFFFD) .omitted).args [5]) = (some (-1), []) ∧
      kernelPrintf (fun _ => []) [37, 45, 51, 100] [5] = (some 3, [53, 32, 32]) := by decide +kernel

end Agreement

end Snfos.Printf
