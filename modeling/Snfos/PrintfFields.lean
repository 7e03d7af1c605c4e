import Snfos.Printf
import Snfos.Library.Numeral

set_option autoImplicit false

/- What each conversion of `printf` prints, as a text. -/
namespace Snfos.Printf

/-- The values of `int`. -/
def Fits (n : Int) : Prop := -2 ^ 31 ≤ n ∧ n < 2 ^ 31

section Words

theorem int32_fits (n : Int) : Fits (int32 n) := by
  unfold Fits int32
  omega

theorem int32_of_fits {n : Int} (fits : Fits n) : int32 n = n := by
  unfold Fits int32 at *
  omega

theorem unsigned_lt (n : Int) : unsigned n < 2 ^ 32 := by
  unfold unsigned
  omega

theorem unsigned_of_nonneg {n : Int} (fits : Fits n) (positive : 0 ≤ n) : (unsigned n : Int) = n := by
  unfold unsigned Fits at *
  omega

theorem unsigned_of_neg {n : Int} (fits : Fits n) (negative : n < 0) :
    (unsigned n : Int) = n + 2 ^ 32 := by
  unfold unsigned Fits at *
  omega

theorem unsigned_int32 {n : Nat} (bound : n < 2 ^ 32) : unsigned (int32 n) = n := by
  unfold unsigned int32
  omega

/-- A width that leaves room in an `int` was not negative. -/
theorem unsigned_small {n : Int} (fits : Fits n) (small : (unsigned n : Int) ≤ intMax) :
    (unsigned n : Int) = n := by
  unfold unsigned Fits intMax at *
  omega

end Words

/-- The computation comes to its end with `b` once `print` took all of `text`. -/
def Shows {β : Type} (e : Printing β) (text : List UInt8) (b : β) : Prop :=
  ∃ ps, Emit.Emits .failed e ps (.ok b) ∧ ps.flatten = text

section Texts

variable {β γ : Type} {e : Printing β} {k : β → Printing γ} {text later : List UInt8} {b : β} {g : γ}

theorem shows_pure (b : β) : Shows (pure b) [] b := ⟨[], Emit.emits_done _ b, rfl⟩

theorem shows_print (data : List UInt8) : Shows (print data) data () :=
  ⟨[data], Emit.emits_piece _ _, List.flatten_singleton⟩

theorem flatten_replicate (count : Nat) (c : UInt8) :
    (List.replicate count [c]).flatten = List.replicate count c := by
  rw [List.flatten_replicate_singleton]

theorem shows_times (count : Nat) (c : UInt8) :
    Shows (printTimes count c) (List.replicate count c) () :=
  ⟨_, Emit.emits_times _ _ _, flatten_replicate count c⟩

theorem Shows.bind (first : Shows e text b) (second : Shows (k b) later g) :
    Shows (e >>= k) (text ++ later) g := by
  obtain ⟨ps, emits, rfl⟩ := first
  obtain ⟨qs, emitsRest, rfl⟩ := second
  exact ⟨ps ++ qs, emits.bind emitsRest, List.flatten_append⟩

theorem Shows.when {e : Printing Unit} (condition : Prop) [Decidable condition]
    (first : Shows e text ()) : Shows (Emit.when condition e) (if condition then text else []) () := by
  obtain ⟨ps, emits, rfl⟩ := first
  refine ⟨_, emits.when, ?_⟩
  split <;> rfl

theorem shows_room {maxrem width : Nat} (room : width ≤ maxrem) : Shows (checkRoom maxrem width) [] () := by
  unfold checkRoom
  rw [if_neg (Nat.not_lt.mpr room)]
  exact shows_pure ()

theorem emits_noRoom {maxrem width : Nat} (short : maxrem < width) :
    Emit.Emits .failed (checkRoom maxrem width) [] (.error .failed) := by
  unfold checkRoom
  rw [if_pos short]
  exact Emit.emits_fail _ _

end Texts

/-- What `e` comes to in a call that has `maxrem` characters left: `text` where it fits in, or -1
before anything is printed. -/
def Fills (maxrem : Nat) (e : Printing Int) (text : List UInt8) : Prop :=
  if text.length ≤ maxrem then Shows e text text.length
  else Emit.Emits .failed e [] (.error .failed)

/-- A conversion comes to `text`, whatever the call has left. -/
def Field (conversion : Nat → Printing Int) (text : List UInt8) : Prop :=
  ∀ maxrem : Nat, (maxrem : Int) ≤ intMax → Fills maxrem (conversion maxrem) text

/-- The common shape of the conversions: check the room, then print as wide as that. -/
theorem field_room {wide : Nat} {body : Printing Int} {text : List UInt8}
    (length : text.length = wide) (shows : (wide : Int) ≤ intMax → Shows body text wide) :
    Field (fun maxrem => do checkRoom maxrem wide; body) text := by
  intro maxrem small
  unfold Fills
  rw [length]
  split
  · rename_i room
    have value := (shows_room room).bind (k := fun _ => body) (shows (by omega))
    exact value
  · rename_i short
    exact (emits_noRoom (by omega)).bind_error

/-- What a computation comes to if `print` takes everything. -/
theorem Shows.run {β : Type} {e : Printing β} {text : List UInt8} {b : β} (shows : Shows e text b) :
    (e (fun _ => true) []).1 = .ok b ∧ (e (fun _ => true) []).2.reverse.flatten = text := by
  obtain ⟨ps, emits, rfl⟩ := shows
  rw [emits]
  rcases Emit.deliver_cases Stop.failed (fun _ => true) ps (.ok b) [] with
    ⟨_, ended⟩ | ⟨_, _, _, _, _, refused, _⟩
  · rw [ended, List.append_nil]
    exact ⟨rfl, congrArg List.flatten (List.reverse_reverse ps)⟩
  · cases refused

/-- A conversion has one text, if it has one that can be printed at all. -/
theorem Field.unique {conversion : Nat → Printing Int} {text other : List UInt8}
    (field : Field conversion text) (again : Field conversion other)
    (short : (text.length : Int) ≤ intMax) : other = text := by
  have first := field 2147483647 (by decide)
  have second := again 2147483647 (by decide)
  unfold Fills at first second
  rw [if_pos (by unfold intMax at short; omega)] at first
  split at second
  · exact second.run.2.symm.trans first.run.2
  · have failed := second (fun _ => true) []
    have succeeded := first.run.1
    rw [failed] at succeeded
    cases succeeded

section Digits

variable {base num : Nat}

/-- The loop stops at the power of the base that the first digit stands for. -/
theorem countDigits_spec (two : 2 ≤ base) (bound : num < 2 ^ 32) :
    ∃ k, k < 32 ∧ countDigits base num 32 1 1 = (base ^ k, k + 1) ∧ num < base ^ (k + 1) ∧
      (k = 0 ∨ base ^ k ≤ num) := by
  have reached : ∀ k, base ^ k ≤ num → k < 32 := by
    intro k inside
    by_contra far
    have wide : 2 ^ 32 ≤ base ^ k :=
      calc 2 ^ 32 ≤ base ^ 32 := Nat.pow_le_pow_left two 32
        _ ≤ base ^ k := Nat.pow_le_pow_right (by omega) (by omega)
    omega
  have counted : ∀ fuel k, fuel + k = 32 → (k = 0 ∨ base ^ k ≤ num) →
      ∃ n, n < 32 ∧ countDigits base num fuel (base ^ k) (k + 1) = (base ^ n, n + 1) ∧
        num < base ^ (n + 1) ∧ (n = 0 ∨ base ^ n ≤ num) := by
    intro fuel
    induction fuel with
    | zero =>
      intro k sum inside
      rcases inside with zero | inside
      · omega
      · have := reached k inside
        omega
    | succ fuel ih =>
      intro k sum inside
      have positive : 0 < base ^ k := Nat.pow_pos (by omega)
      unfold countDigits
      by_cases more : base - 1 < num / base ^ k
      · rw [if_pos more]
        have whole : base ^ (k + 1) ≤ num := by
          rw [Nat.pow_succ, Nat.mul_comm]
          apply (Nat.le_div_iff_mul_le positive).mp
          omega
        have kept : u32 (base ^ k * base) = base ^ (k + 1) := by
          rw [← Nat.pow_succ]
          exact u32_of_lt (Nat.lt_of_le_of_lt whole bound)
        rw [kept]
        exact ih (k + 1) (by omega) (Or.inr whole)
      · rw [if_neg more]
        have below : num < base ^ (k + 1) := by
          rw [Nat.pow_succ, Nat.mul_comm]
          apply (Nat.div_lt_iff_lt_mul positive).mp
          omega
        exact ⟨k, by omega, rfl, below, inside⟩
  exact counted 32 0 rfl (Or.inl rfl)

theorem shows_printDigits (digit : Nat → UInt8) (two : 2 ≤ base) : ∀ fuel k, k < fuel →
    Shows (printDigits digit base num fuel (base ^ k))
      ((List.range (k + 1)).reverse.map fun i => digit (num / base ^ i % base)) () := by
  intro fuel
  induction fuel with
  | zero => intro k impossible; omega
  | succ fuel ih =>
    intro k inside
    unfold printDigits
    cases k with
    | zero =>
      rw [Nat.pow_zero, if_neg (by omega)]
      show Shows _ [digit (num / base ^ 0 % base)] ()
      rw [Nat.pow_zero, Nat.div_one]
      exact shows_print _
    | succ k =>
      have positive : 0 < base ^ k := Nat.pow_pos (by omega)
      have more : base - 1 < base ^ (k + 1) := by
        have : base ≤ base ^ (k + 1) := by
          rw [Nat.pow_succ]
          exact Nat.le_mul_of_pos_left base positive
        omega
      have earlier : base ^ (k + 1) / base = base ^ k := by
        rw [Nat.pow_succ]
        exact Nat.mul_div_cancel _ (by omega)
      rw [if_pos more, earlier, List.range_succ, List.reverse_append, List.map_append]
      exact (shows_print _).bind (ih k (by omega))

/-- The characters of a number. -/
def numeralText (digit : Nat → UInt8) (base num : Nat) : List UInt8 :=
  (Numeral.numeral base num).map digit

theorem numeralText_ne_nil (digit : Nat → UInt8) (base num : Nat) : numeralText digit base num ≠ [] := by
  unfold numeralText
  rw [ne_eq, List.map_eq_nil_iff]
  exact Numeral.numeral_ne_nil base num

/-- The digits counted are those of the numeral. -/
theorem countDigits_eq (digit : Nat → UInt8) (two : 2 ≤ base) (bound : num < 2 ^ 32) :
    countDigits base num 32 1 1 =
      (base ^ ((numeralText digit base num).length - 1), (numeralText digit base num).length) := by
  obtain ⟨k, _, counted, below, above⟩ := countDigits_spec two bound
  have length : (numeralText digit base num).length = k + 1 := by
    unfold numeralText
    rw [List.length_map, Numeral.length_numeral two below above]
  rw [counted, length, Nat.add_sub_cancel]

theorem length_numeralText (digit : Nat → UInt8) (two : 2 ≤ base) (bound : num < 2 ^ 32) :
    (numeralText digit base num).length ≤ 32 := by
  have below : num < base ^ (31 + 1) :=
    Nat.lt_of_lt_of_le bound (Nat.pow_le_pow_left two 32)
  unfold numeralText
  rw [List.length_map]
  exact Numeral.length_numeral_le two below

/-- A number comes out as its numeral, or not at all if it is zero and its precision is
zero. -/
theorem shows_printUnsigned (digit : Nat → UInt8) (two : 2 ≤ base) (bound : num < 2 ^ 32)
    (character : digit 0 = 48) (precision : Int) :
    Shows (printUnsigned digit base num (base ^ ((numeralText digit base num).length - 1)) precision)
      (if precision = 0 ∧ num = 0 then [] else numeralText digit base num) () := by
  obtain ⟨k, inside, _, below, above⟩ := countDigits_spec two bound
  unfold printUnsigned
  by_cases zero : num = 0
  · have single : numeralText digit base 0 = [48] := by
      show [digit 0] = [48]
      rw [character]
    rw [if_pos zero, zero, single]
    have shown := (shows_print [48]).when (precision ≠ 0)
    by_cases absent : precision = 0
    · rw [if_neg (not_not_intro absent)] at shown
      rw [if_pos ⟨absent, rfl⟩]
      exact shown
    · rw [if_pos absent] at shown
      rw [if_neg (fun both => absent both.1)]
      exact shown
  · have text : numeralText digit base num =
        (List.range (k + 1)).reverse.map fun i => digit (num / base ^ i % base) := by
      unfold numeralText
      rw [Numeral.numeral_eq_range two below above, List.map_map]
      rfl
    have length : (numeralText digit base num).length = k + 1 := by
      rw [text, List.length_map, List.length_reverse, List.length_range]
    rw [if_neg zero, if_neg (fun both => zero both.2), length, text]
    exact shows_printDigits digit two 32 k inside

end Digits

section Padding

/-- `width` characters, or as many as there are: blanks on one side of the text. -/
def blankPadded (left : Bool) (width : Nat) (text : List UInt8) : List UInt8 :=
  if left = true then text ++ List.replicate (width - text.length) 32
  else List.replicate (width - text.length) 32 ++ text

/-- The same around a number, where zeros may stand between `lead` and the digits. -/
def padded (flags : Flags) (width : Nat) (lead digits : List UInt8) : List UInt8 :=
  if flags.left = false ∧ flags.zero = true then
    lead ++ List.replicate (width - (lead ++ digits).length) 48 ++ digits
  else blankPadded flags.left width (lead ++ digits)

theorem length_blankPadded (left : Bool) (width : Nat) (text : List UInt8) :
    (blankPadded left width text).length = max width text.length := by
  unfold blankPadded
  split
  · rw [List.length_append, List.length_replicate]
    omega
  · rw [List.length_append, List.length_replicate]
    omega

theorem length_padded (flags : Flags) (width : Nat) (lead digits : List UInt8) :
    (padded flags width lead digits).length = max width (lead ++ digits).length := by
  unfold padded
  split
  · simp only [List.length_append, List.length_replicate]
    omega
  · exact length_blankPadded _ _ _

theorem padded_exact (flags : Flags) {width : Nat} {lead digits : List UInt8}
    (narrow : width ≤ (lead ++ digits).length) : padded flags width lead digits = lead ++ digits := by
  have nothing : width - (lead ++ digits).length = 0 := by omega
  unfold padded blankPadded
  simp only [nothing, List.replicate_zero, List.append_nil, List.nil_append, ite_self]

/-- The three places where a number is filled, one of which is used. -/
theorem padded_places (flags : Flags) {fill width : Nat} {lead digits : List UInt8}
    (missing : fill = width - (lead ++ digits).length) :
    padded flags width lead digits =
      (if flags.left = false ∧ flags.zero = false then List.replicate fill 32 else []) ++
        (lead ++ ((if flags.left = false ∧ flags.zero = true then List.replicate fill 48 else []) ++
          (digits ++ (if flags.left = true then
            List.replicate fill (if flags.left = false ∧ flags.zero = true then 48 else 32)
            else [])))) := by
  unfold padded blankPadded
  rw [← missing]
  cases flags.left <;> cases flags.zero <;> simp

end Padding

section Conversions

variable (s : Spec)

/-- The width a number is printed in, which has room for all of it. -/
theorem numberWidth (asked : Fits s.width) {len : Nat} (bound : len < 2 ^ 32) :
    Fits (if unsigned s.width < len then int32 len else s.width) ∧
      unsigned (if unsigned s.width < len then int32 len else s.width) =
        max (unsigned s.width) len := by
  split
  · rw [unsigned_int32 bound]
    exact ⟨int32_fits _, by omega⟩
  · exact ⟨asked, by omega⟩

/-- `%c`. -/
def charText (c : UInt8) : List UInt8 := blankPadded s.flags.left s.width.toNat [c]

theorem field_convertChar (asked : Fits s.width) (word : Nat) :
    Field (fun maxrem => convertChar s maxrem word) (charText s (UInt8.ofNat word)) := by
  obtain ⟨w, wIs⟩ : ∃ w, w = if s.width < 1 then 1 else s.width := ⟨_, rfl⟩
  have fits : Fits w := by
    unfold Fits at *
    rw [wIs]
    split <;> omega
  have value := unsigned_of_nonneg fits (by omega)
  have fill : (w - 1).toNat = s.width.toNat - 1 := by
    rw [wIs]
    split <;> omega
  have wide : (charText s (UInt8.ofNat word)).length = unsigned w := by
    have single : [UInt8.ofNat word].length = 1 := rfl
    unfold charText
    rw [length_blankPadded, single]
    omega
  unfold convertChar
  dsimp only
  rw [← wIs]
  refine field_room wide fun _ => ?_
  have text : charText s (UInt8.ofNat word) =
      (if s.flags.left = false then List.replicate (w - 1).toNat 32 else []) ++
        ([UInt8.ofNat word] ++ ((if s.flags.left = true then
          List.replicate (w - 1).toNat 32 else []) ++ [])) := by
    unfold charText blankPadded
    rw [fill, List.length_singleton]
    cases s.flags.left <;> simp
  rw [text, value]
  exact ((shows_times (w - 1).toNat 32).when _).bind ((shows_print [UInt8.ofNat word]).bind
    (((shows_times (w - 1).toNat 32).when _).bind (shows_pure w)))

/-- The characters of the string that are printed. -/
def stringLen (len : Nat) : Nat :=
  if 0 ≤ s.precision ∧ unsigned s.precision < len then unsigned s.precision else len

/-- The `width` of `%s` after its three adjustments. -/
def stringWidth (len : Nat) : Int :=
  let width := if unsigned s.width < len then int32 len else s.width
  let width := if 0 ≤ s.precision ∧ s.precision < width then s.precision else width
  if 0 ≤ s.precision ∧ unsigned s.precision < len then s.precision else width

/-- `%s`. -/
def stringText (str : List UInt8) : List UInt8 :=
  blankPadded s.flags.left (unsigned (stringWidth s (u32 str.length)))
    (str.take (stringLen s (u32 str.length)))

theorem shows_printString (left : Bool) (str : List UInt8) {len width : Nat} (order : len ≤ width)
    (inside : len ≤ str.length) (bound : width < 2 ^ 32) :
    Shows (printString left str len width) (blankPadded left width (str.take len)) () := by
  have taken : (str.take len).length = len := by
    rw [List.length_take, Nat.min_eq_left inside]
  unfold printString blankPadded
  rw [taken]
  by_cases shorter : len < width
  · rw [if_pos shorter]
    cases left with
    | true => exact (shows_print (str.take len)).bind (shows_times (width - len) 32)
    | false =>
      rw [sub32_of_le order bound]
      exact (shows_times (width - len) 32).bind (shows_print (str.take len))
  · have nothing : width - len = 0 := by omega
    rw [if_neg shorter, nothing, List.replicate_zero, List.append_nil, List.nil_append]
    split <;> exact shows_print (str.take len)

/-- The width that was agreed on is an `int`, not below the length. -/
theorem stringWidth_spec (width : Fits s.width) (precision : Fits s.precision) {len : Nat}
    (bound : len < 2 ^ 32) :
    Fits (stringWidth s len) ∧ stringLen s len ≤ unsigned (stringWidth s len) := by
  have wide : ∀ w : Int, Fits w → len ≤ unsigned w →
      Fits (if 0 ≤ s.precision ∧ s.precision < w then s.precision else w) := by
    intro w fits _
    split
    · exact precision
    · exact fits
  obtain ⟨w, wIs⟩ : ∃ w, w = if unsigned s.width < len then int32 len else s.width := ⟨_, rfl⟩
  have wSpec : Fits w ∧ len ≤ unsigned w := by
    rw [wIs]
    split
    · rw [unsigned_int32 bound]
      exact ⟨int32_fits _, Nat.le_refl _⟩
    · exact ⟨width, by omega⟩
  unfold stringWidth stringLen
  dsimp only
  rw [← wIs]
  by_cases short : 0 ≤ s.precision ∧ unsigned s.precision < len
  · rw [if_pos short, if_pos short]
    exact ⟨precision, Nat.le_refl _⟩
  · rw [if_neg short, if_neg short]
    refine ⟨wide w wSpec.1 wSpec.2, ?_⟩
    split
    · omega
    · exact wSpec.2

theorem length_stringText (width : Fits s.width) (precision : Fits s.precision) (str : List UInt8) :
    (stringText s str).length = unsigned (stringWidth s (u32 str.length)) := by
  have whole : u32 str.length ≤ str.length := Nat.mod_le _ _
  have order := (stringWidth_spec s width precision (u32_lt str.length)).2
  have inside : stringLen s (u32 str.length) ≤ str.length := by
    unfold stringLen
    split <;> omega
  unfold stringText
  rw [length_blankPadded, List.length_take, Nat.min_eq_left inside, Nat.max_eq_left order]

theorem field_convertString (width : Fits s.width) (precision : Fits s.precision)
    (str : List UInt8) : Field (fun maxrem => convertString s maxrem str) (stringText s str) := by
  have whole : u32 str.length ≤ str.length := Nat.mod_le _ _
  obtain ⟨fits, order⟩ := stringWidth_spec s width precision (u32_lt str.length)
  have inside : stringLen s (u32 str.length) ≤ str.length := by
    unfold stringLen
    split <;> omega
  have body : (unsigned (stringWidth s (u32 str.length)) : Int) ≤ intMax →
      Shows (do
        printString s.flags.left str (stringLen s (u32 str.length))
          (unsigned (stringWidth s (u32 str.length)))
        pure (stringWidth s (u32 str.length)))
        (stringText s str) (unsigned (stringWidth s (u32 str.length)) : Int) := by
    intro small
    rw [unsigned_small fits small, ← List.append_nil (stringText s str)]
    exact (shows_printString s.flags.left str order inside (unsigned_lt _)).bind (shows_pure _)
  exact field_room (length_stringText s width precision str) body

/-- `%s` as ISO C has it: the characters the precision allows, filled up with blanks. -/
def isoString (str : List UInt8) : List UInt8 :=
  blankPadded s.flags.left s.width.toNat
    (if 0 ≤ s.precision then str.take s.precision.toNat else str)

theorem stringText_eq_isoString (width : Fits s.width) (precision : Fits s.precision)
    (positive : 0 ≤ s.width) {str : List UInt8} (bound : str.length < 2 ^ 32)
    (wide : s.precision < 0 ∨ s.width ≤ s.precision) : stringText s str = isoString s str := by
  have value := unsigned_of_nonneg width positive
  have len : u32 str.length = str.length := u32_of_lt bound
  unfold stringText isoString
  rw [len]
  rcases wide with absent | wide
  · have none : ¬0 ≤ s.precision := by omega
    have all : stringLen s str.length = str.length := if_neg fun both => none both.1
    have agreed : unsigned (stringWidth s str.length) = max s.width.toNat str.length := by
      unfold stringWidth
      dsimp only
      rw [if_neg (fun both => none both.1), if_neg (fun both => none both.1),
        (numberWidth s width bound).2]
      omega
    rw [if_neg none, all, List.take_length, agreed]
    unfold blankPadded
    have fill : max s.width.toNat str.length - str.length = s.width.toNat - str.length := by omega
    rw [fill]
  · have precise : 0 ≤ s.precision := by omega
    have precisionValue := unsigned_of_nonneg precision precise
    have taken : str.take (stringLen s str.length) = str.take s.precision.toNat := by
      unfold stringLen
      split
      · congr 1
        omega
      · rw [List.take_of_length_le (Nat.le_refl _), List.take_of_length_le (by omega)]
    have agreed : unsigned (stringWidth s str.length) =
        max s.width.toNat (min s.precision.toNat str.length) := by
      unfold stringWidth
      dsimp only
      by_cases short : 0 ≤ s.precision ∧ unsigned s.precision < str.length
      · rw [if_pos short]
        omega
      · have inside : str.length < 2 ^ 31 := by
          have := precision.2
          omega
        have kept : int32 str.length = str.length := int32_of_fits ⟨by omega, by omega⟩
        rw [if_neg short, kept]
        split
        · rename_i longer
          rw [if_neg (by omega)]
          unfold unsigned
          omega
        · rw [if_neg (by omega)]
          omega
    rw [if_pos precise, taken, agreed]
    unfold blankPadded
    rw [List.length_take]
    have fill : max s.width.toNat (min s.precision.toNat str.length) -
        min s.precision.toNat str.length = s.width.toNat - min s.precision.toNat str.length := by omega
    rw [fill]

/-- A precision below the width takes its place. -/
theorem length_stringText_precise (width : Fits s.width) (precision : Fits s.precision)
    {str : List UInt8} (bound : str.length < 2 ^ 32) (precise : 0 ≤ s.precision)
    (narrow : s.precision < s.width) : (stringText s str).length = s.precision.toNat := by
  have value := unsigned_of_nonneg width (by omega)
  have precisionValue := unsigned_of_nonneg precision precise
  have len : u32 str.length = str.length := u32_of_lt bound
  have order : stringLen s str.length ≤ s.precision.toNat := by
    unfold stringLen
    split <;> omega
  have agreed : unsigned (stringWidth s str.length) = s.precision.toNat := by
    unfold stringWidth
    dsimp only
    by_cases short : 0 ≤ s.precision ∧ unsigned s.precision < str.length
    · rw [if_pos short]
      omega
    · have kept : (if unsigned s.width < str.length then int32 str.length else s.width) = s.width :=
        if_neg (by omega)
      rw [if_neg short, kept, if_pos ⟨precise, narrow⟩]
      omega
  unfold stringText
  rw [len, length_blankPadded, agreed, List.length_take]
  omega

variable (strings : Nat → List UInt8)

/-- What `%s` prints, anywhere in a format, is what ISO C asks for exactly when there is
no precision or the width does not go beyond it. -/
theorem convertString_iso_iff (width : Fits s.width) (positive : 0 ≤ s.width)
    (precision : Fits s.precision) (begun rest : List UInt8) (args : List Nat)
    (bound : (strings (vaArg args).1).length < 2 ^ 32) :
    Field (fun maxrem => (convert strings s maxrem begun (115 :: rest) args).1)
        (isoString s (strings (vaArg args).1)) ↔
      s.precision < 0 ∨ s.width ≤ s.precision := by
  have field : Field (fun maxrem => (convert strings s maxrem begun (115 :: rest) args).1)
      (stringText s (strings (vaArg args).1)) := field_convertString s width precision _
  constructor
  · intro iso
    by_contra other
    have precise : 0 ≤ s.precision ∧ s.precision < s.width := by omega
    have length := length_stringText_precise s width precision bound precise.1 precise.2
    have fits := precision.2
    have same := field.unique iso (by unfold intMax; omega)
    have isoLength := congrArg List.length same
    unfold isoString at isoLength
    rw [length_blankPadded, length] at isoLength
    omega
  · intro wide
    rw [← stringText_eq_isoString s width precision positive bound wide]
    exact field

theorem convertString_iso_wide :
    Field (fun maxrem => (convert (fun _ => [65, 66, 67, 68]) ⟨⟨true, false, false, false, false⟩, 2, 3⟩
      maxrem [37] [115] [0]).1) (isoString ⟨⟨true, false, false, false, false⟩, 2, 3⟩ [65, 66, 67, 68]) :=
  (convertString_iso_iff ⟨⟨true, false, false, false, false⟩, 2, 3⟩ (fun _ => [65, 66, 67, 68])
    ⟨by decide, by decide⟩ (by decide) ⟨by decide, by decide⟩ [37] [] [0] (by decide)).mpr
    (Or.inr (by decide))

/-- `printf("%6.5s", "ABCD")`, the string and the numbers of the commented test, prints
five characters. -/
theorem fiveWide_not_iso :
    (printf (fun _ => [65, 66, 67, 68]) [37, 54, 46, 53, 115] [0] (fun _ => true) []) =
        (.ok 5, [[65, 66, 67, 68], [32]]) ∧
      isoString ⟨⟨false, false, false, false, false⟩, 6, 5⟩ [65, 66, 67, 68] =
        [32, 32, 65, 66, 67, 68] := by decide +kernel

/-- `'+'` or a blank. -/
def plusText (flags : Flags) : List UInt8 :=
  if flags.plus = true then [43] else if flags.space = true then [32] else []

theorem shows_printPlus (flags : Flags) : Shows (printPlus flags) (plusText flags) () := by
  unfold printPlus plusText
  cases flags.plus with
  | true => exact shows_print [43]
  | false => exact (shows_print [32]).when _

theorem length_plusText (flags : Flags) :
    (plusText flags).length = if flags.plus = true ∨ flags.space = true then 1 else 0 := by
  unfold plusText
  cases flags.plus <;> cases flags.space <;> rfl

/-- The prefix of the flag `#`. -/
def prefixText (letter : UInt8) (flags : Flags) : List UInt8 :=
  if flags.alternate = true then [48, letter] else []

/-- The digits of an unsigned conversion, with the zeros its precision asks for. -/
def digitPart (digit : Nat → UInt8) (base : Nat) (precision : Int) (num : Nat) : List UInt8 :=
  if precision = 0 ∧ num = 0 then []
  else
    List.replicate (precision.toNat - (numeralText digit base num).length) 48 ++
      numeralText digit base num

/-- `%o`, `%x`, `%X` and `%u`. -/
def unsignedText (digit : Nat → UInt8) (base : Nat) (letter : UInt8) (num : Nat) : List UInt8 :=
  padded s.flags (unsigned s.width) (plusText s.flags ++ prefixText letter s.flags)
    (digitPart digit base s.precision num)

theorem shows_printPrefix (letter : UInt8) : Shows (printPrefix letter) [48, letter] () :=
  (shows_print [48]).bind (shows_print [letter])

theorem length_digitPart (digit : Nat → UInt8) {base num : Nat} (precision : Int) (len : Nat)
    (lenIs : len = if precision = 0 ∧ num = 0 then 0 else (numeralText digit base num).length) :
    (digitPart digit base precision num).length = max precision.toNat len := by
  unfold digitPart
  split
  · rename_i both
    rw [lenIs, if_pos both, both.1]
    rfl
  · rename_i some
    rw [lenIs, if_neg some, List.length_append, List.length_replicate]
    omega

theorem field_convertUnsigned (asked : Fits s.width) (precision : Fits s.precision)
    (digit : Nat → UInt8) {base : Nat} (letter : UInt8) {num : Nat} (two : 2 ≤ base)
    (bound : num < 2 ^ 32) (character : digit 0 = 48) :
    Field (fun maxrem => convertUnsigned digit base letter s maxrem num)
      (unsignedText s digit base letter num) := by
  have short := length_numeralText digit two bound
  unfold convertUnsigned
  rw [countDigits_eq digit two bound]
  dsimp only
  -- the lengths the conversion works out, each under its own name
  obtain ⟨len, lenIs⟩ : ∃ n, n =
    if s.precision = 0 ∧ num = 0 then 0 else (numeralText digit base num).length := ⟨_, rfl⟩
  obtain ⟨lenPrec, lenPrecIs⟩ : ∃ n, n =
    if 0 ≤ s.precision ∧ len < unsigned s.precision then unsigned s.precision else len := ⟨_, rfl⟩
  obtain ⟨lenWidth, lenWidthIs⟩ : ∃ n, n =
    lenPrec + (if s.flags.plus = true ∨ s.flags.space = true then 1 else 0) +
      (if s.flags.alternate = true then 2 else 0) := ⟨_, rfl⟩
  rw [← lenIs, ← lenPrecIs, ← lenWidthIs]
  have digitsLength := length_digitPart digit s.precision len lenIs
  have lenBound : len ≤ 32 := by
    rw [lenIs]
    split <;> omega
  have precIs : lenPrec = max s.precision.toNat len := by
    rw [lenPrecIs]
    split
    · rename_i both
      have := unsigned_of_nonneg precision both.1
      omega
    · rename_i none
      by_cases positive : 0 ≤ s.precision
      · have := unsigned_of_nonneg precision positive
        omega
      · omega
  have precBound : lenPrec < 2 ^ 31 := by
    have := precision.2
    omega
  have prefixLength : (prefixText letter s.flags).length =
      if s.flags.alternate = true then 2 else 0 := by
    unfold prefixText
    split <;> rfl
  have textLength : ((plusText s.flags ++ prefixText letter s.flags) ++
      digitPart digit base s.precision num).length = lenWidth := by
    rw [List.length_append, List.length_append, length_plusText, prefixLength, digitsLength, lenWidthIs,
      precIs]
    omega
  have widthBound : lenWidth < 2 ^ 32 := by
    rw [lenWidthIs]
    split <;> split <;> omega
  obtain ⟨fits, wide⟩ := numberWidth s asked widthBound
  obtain ⟨w, wIs⟩ : ∃ w, w = if unsigned s.width < lenWidth then int32 lenWidth else s.width := ⟨_, rfl⟩
  rw [← wIs] at fits wide ⊢
  have fillIs : sub32 (unsigned w) lenWidth = unsigned s.width - lenWidth := by
    rw [sub32_of_le (by omega) (unsigned_lt w)]
    omega
  have whole : (unsignedText s digit base letter num).length = unsigned w := by
    unfold unsignedText
    rw [length_padded, textLength, wide]
  have digitsText : digitPart digit base s.precision num = List.replicate (lenPrec - len) 48 ++
      (if s.precision = 0 ∧ num = 0 then [] else numeralText digit base num) := by
    have zeros : lenPrec - len = s.precision.toNat - len := by omega
    unfold digitPart
    rw [zeros, lenIs]
    split
    · rename_i both
      rw [both.1]
      rfl
    · rfl
  refine field_room whole fun small => ?_
  have text : unsignedText s digit base letter num =
      (if s.flags.left = false ∧ s.flags.zero = false then
        List.replicate (sub32 (unsigned w) lenWidth) 32 else []) ++
      (plusText s.flags ++ ((if s.flags.alternate = true then [48, letter] else []) ++
      ((if s.flags.left = false ∧ s.flags.zero = true then
        List.replicate (sub32 (unsigned w) lenWidth) 48 else []) ++
      (List.replicate (lenPrec - len) 48 ++
      ((if s.precision = 0 ∧ num = 0 then [] else numeralText digit base num) ++
      ((if s.flags.left = true then List.replicate (sub32 (unsigned w) lenWidth)
        (if s.flags.left = false ∧ s.flags.zero = true then 48 else 32) else []) ++ [])))))) := by
    unfold unsignedText
    rw [padded_places s.flags (fillIs.trans (congrArg (unsigned s.width - ·) textLength.symm)),
      digitsText]
    unfold prefixText
    simp only [List.append_assoc, List.append_nil]
  rw [text, unsigned_small fits small]
  exact ((shows_times _ 32).when _).bind ((shows_printPlus _).bind
    (((shows_printPrefix letter).when _).bind (((shows_times _ 48).when _).bind
      ((shows_times _ 48).bind ((shows_printUnsigned digit two bound character _).bind
        (((shows_times _ _).when _).bind (shows_pure w)))))))

/-- The sign of `%d`. -/
def signText (flags : Flags) (num : Int) : List UInt8 := if 0 ≤ num then plusText flags else [45]

theorem shows_printSign (flags : Flags) (num : Int) :
    Shows (printSign flags num) (signText flags num) () := by
  unfold printSign signText
  split
  · exact shows_printPlus flags
  · exact shows_print [45]

theorem length_signText (flags : Flags) (num : Int) : (signText flags num).length =
    (if (flags.plus = true ∨ flags.space = true) ∧ 0 ≤ num then 1 else 0) +
      (if num < 0 then 1 else 0) := by
  unfold signText
  by_cases positive : 0 ≤ num
  · rw [if_pos positive, length_plusText, if_neg (Int.not_lt.mpr positive)]
    simp only [positive, and_true, Nat.add_zero]
  · rw [if_neg positive, if_neg (fun both => positive both.2), if_pos (by omega)]
    rfl

/-- `%d` and `%i`. -/
def signedText (num : Int) : List UInt8 :=
  padded s.flags (unsigned s.width) (signText s.flags num)
    (numeralText decimalDigit 10 (unsigned num))

theorem field_convertSigned (asked : Fits s.width) (num : Int) :
    Field (fun maxrem => convertSigned s maxrem num) (signedText s num) := by
  have two : 2 ≤ 10 := by decide
  have short := length_numeralText decimalDigit two (unsigned_lt num)
  have signLength := length_signText s.flags num
  unfold convertSigned
  dsimp only
  rw [countDigits_eq decimalDigit two (unsigned_lt num)]
  dsimp only
  obtain ⟨len, lenIs⟩ : ∃ n, n = (numeralText decimalDigit 10 (unsigned num)).length +
    (if (s.flags.plus = true ∨ s.flags.space = true) ∧ 0 ≤ num then 1 else 0) +
      (if num < 0 then 1 else 0) := ⟨_, rfl⟩
  rw [← lenIs]
  have textLength :
      (signText s.flags num ++ numeralText decimalDigit 10 (unsigned num)).length = len := by
    rw [List.length_append, signLength, lenIs]
    omega
  have lenBound : len < 2 ^ 32 := by
    rw [lenIs]
    split <;> split <;> omega
  obtain ⟨fits, wide⟩ := numberWidth s asked lenBound
  obtain ⟨w, wIs⟩ : ∃ w, w = if unsigned s.width < len then int32 len else s.width := ⟨_, rfl⟩
  rw [← wIs] at fits wide ⊢
  have fillIs : sub32 (unsigned w) len = unsigned s.width - len := by
    rw [sub32_of_le (by omega) (unsigned_lt w)]
    omega
  have whole : (signedText s num).length = unsigned w := by
    unfold signedText
    rw [length_padded, textLength, wide]
  refine field_room whole fun small => ?_
  have text : signedText s num =
      (if s.flags.left = false ∧ s.flags.zero = false then
        List.replicate (sub32 (unsigned w) len) 32 else []) ++
      (signText s.flags num ++ ((if s.flags.left = false ∧ s.flags.zero = true then
        List.replicate (sub32 (unsigned w) len) 48 else []) ++
      (numeralText decimalDigit 10 (unsigned num) ++
      ((if s.flags.left = true then List.replicate (sub32 (unsigned w) len)
        (if s.flags.left = false ∧ s.flags.zero = true then 48 else 32) else []) ++ [])))) := by
    unfold signedText
    rw [padded_places s.flags (fillIs.trans (congrArg (unsigned s.width - ·) textLength.symm))]
    simp only [List.append_nil]
  have printed := shows_printUnsigned decimalDigit two (unsigned_lt num) rfl 1
  rw [if_neg (fun both => absurd both.1 (by decide))] at printed
  rw [text, unsigned_small fits small]
  exact ((shows_times _ 32).when _).bind ((shows_printSign _ _).bind
    (((shows_times _ 48).when _).bind (printed.bind
      (((shows_times _ _).when _).bind (shows_pure w)))))

/-- Text that is printed as it stands. -/
theorem field_text (text : List UInt8) {len : Nat} (inside : len ≤ text.length) :
    Field (fun maxrem => do checkRoom maxrem len; print (text.take len); pure (len : Int))
      (text.take len) := by
  have taken : (text.take len).length = len := by
    rw [List.length_take, Nat.min_eq_left inside]
  have body : Shows (do print (text.take len); pure (len : Int)) (text.take len ++ []) (len : Int) :=
    (shows_print _).bind (shows_pure _)
  rw [List.append_nil] at body
  exact field_room taken fun _ => body

end Conversions

end Snfos.Printf
