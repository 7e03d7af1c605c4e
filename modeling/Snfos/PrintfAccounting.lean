import Snfos.PrintfFields
import Mathlib.Algebra.BigOperators.Group.List.Basic

set_option autoImplicit false

/- What each conversion of `printf` emits, and that it comes to the width it returns. -/
namespace Snfos.Printf

/-- The number of characters in the pieces. -/
def total (pieces : List (List UInt8)) : Nat := (pieces.map List.length).sum

section Total

@[simp] theorem total_nil : total [] = 0 := rfl

@[simp] theorem total_cons (p : List UInt8) (ps : List (List UInt8)) :
    total (p :: ps) = p.length + total ps := List.sum_cons

@[simp] theorem total_append (ps qs : List (List UInt8)) : total (ps ++ qs) = total ps + total qs := by
  unfold total
  rw [List.map_append, List.sum_append]

theorem total_reverse (ps : List (List UInt8)) : total ps.reverse = total ps := by
  unfold total
  rw [List.map_reverse, List.sum_reverse]

theorem total_eq (ps : List (List UInt8)) : total ps = ps.flatten.length := List.length_flatten.symm

end Total

section Pieces

abbrev Prints (e : Printing Unit) (ps : List (List UInt8)) : Prop := Emit.Emits .failed e ps (.ok ())

theorem prints_print (data : List UInt8) : Prints (print data) [data] := Emit.emits_piece _ _

theorem prints_times (count : Nat) (c : UInt8) :
    Prints (printTimes count c) (List.replicate count [c]) := Emit.emits_times _ _ _

theorem prints_room {maxrem width : Nat} (room : width ≤ maxrem) : Prints (checkRoom maxrem width) [] := by
  unfold checkRoom
  rw [if_neg (Nat.not_lt.mpr room)]
  exact Emit.emits_done _ ()

/-- A conversion returns -1 before it prints, or what it returns is what it printed and
leaves `written` in range. -/
def Balanced (maxrem : Nat) (e : Printing Int) : Prop :=
  Emit.Emits .failed e [] (.error .failed) ∨
    ∃ ps, Emit.Emits .failed e ps (.ok (total ps : Int)) ∧ total ps ≤ maxrem

variable {maxrem : Nat}

/-- A conversion with a text returns the length of the text. -/
theorem Fills.balanced {e : Printing Int} {text : List UInt8} (fills : Fills maxrem e text) :
    Balanced maxrem e := by
  unfold Fills at fills
  split at fills
  · rename_i room
    obtain ⟨ps, emits, rfl⟩ := fills
    refine Or.inr ⟨ps, ?_, ?_⟩
    · rw [total_eq]
      exact emits
    · rw [total_eq]
      exact room
  · exact Or.inl fills

theorem takeWhile_length (keep : UInt8 → Bool) (str : List UInt8) :
    (str.takeWhile keep).length ≤ str.length := (List.takeWhile_prefix keep).length_le

theorem literalAmount_le {format : List UInt8} (some : format ≠ []) :
    literalAmount format ≤ format.length := by
  obtain ⟨c, rest, rfl⟩ := List.exists_cons_of_ne_nil some
  have inside := takeWhile_length (fun c => c ≠ 0 && c ≠ 37) rest
  unfold literalAmount
  rw [List.tail_cons, List.length_cons]
  omega

end Pieces

section Parsing

theorem parseDigits_fits : ∀ {digits : List UInt8} {n m : Int}, Fits n →
    parseDigits digits n = some m → Fits m := by
  intro digits
  induction digits with
  | nil =>
    intro n m fits parsed
    cases parsed
    exact fits
  | cons c rest ih =>
    intro n m fits parsed
    unfold parseDigits at parsed
    obtain ⟨digit, _, parsed⟩ := Option.bind_eq_some_iff.mp parsed
    exact ih (int32_fits _) parsed

theorem parseFlags_suffix (format : List UInt8) : ∀ set, (parseFlags set format).2 <:+ format := by
  induction format with
  | nil => intro set; exact List.suffix_refl []
  | cons c rest ih =>
    intro set
    have inside : rest <:+ c :: rest := List.suffix_cons c rest
    unfold parseFlags
    split
    · exact (ih _).trans inside
    split
    · exact (ih _).trans inside
    split
    · exact (ih _).trans inside
    split
    · exact (ih _).trans inside
    split
    · exact (ih _).trans inside
    · exact List.suffix_refl _

theorem parseFlags_shorter (format : List UInt8) (flags : Flags) :
    (parseFlags flags format).2.length ≤ format.length :=
  (parseFlags_suffix format flags).length_le

theorem dropWhile_length (skip : UInt8 → Bool) (str : List UInt8) :
    (str.dropWhile skip).length ≤ str.length := (List.dropWhile_suffix skip).length_le

theorem tail_length (str : List UInt8) : str.tail.length ≤ str.length :=
  (List.tail_suffix str).length_le

variable {format rest : List UInt8} {args later : List Nat} {n : Int}

theorem parseNumber_spec (parsed : parseNumber format args = some (n, rest, later)) :
    Fits n ∧ rest.length ≤ format.length := by
  unfold parseNumber at parsed
  split at parsed
  · have parts := Option.some.inj parsed
    rw [Prod.mk.injEq, Prod.mk.injEq] at parts
    rw [← parts.1, ← parts.2.1]
    exact ⟨int32_fits _, tail_length format⟩
  · obtain ⟨m, digits, parsed⟩ := Option.bind_eq_some_iff.mp parsed
    cases parsed
    exact ⟨parseDigits_fits (by unfold Fits; omega) digits, dropWhile_length _ format⟩

theorem parsePrecision_spec (parsed : parsePrecision format args = some (n, rest, later)) :
    Fits n ∧ rest.length ≤ format.length := by
  unfold parsePrecision at parsed
  split at parsed
  · obtain ⟨fits, shorter⟩ := parseNumber_spec parsed
    exact ⟨fits, shorter.trans (tail_length format)⟩
  · cases parsed
    exact ⟨by unfold Fits; omega, Nat.le_refl _⟩

theorem skipLength_shorter (format : List UInt8) : (skipLength format).length ≤ format.length := by
  have once := (dropWhile_length (· = 108) (format.dropWhile (· = 104))).trans
    (dropWhile_length (· = 104) format)
  unfold skipLength
  dsimp only
  split
  · exact (tail_length _).trans once
  · exact once

theorem parseSpec_spec {s : Spec} (parsed : parseSpec format args = some (s, rest, later)) :
    Fits s.width ∧ Fits s.precision ∧ rest.length ≤ format.length := by
  unfold parseSpec at parsed
  obtain ⟨⟨width, afterWidth, argsWidth⟩, asked, parsed⟩ := Option.bind_eq_some_iff.mp parsed
  obtain ⟨⟨precision, afterPrecision, argsPrecision⟩, exactly, parsed⟩ :=
    Option.bind_eq_some_iff.mp parsed
  cases parsed
  obtain ⟨widthFits, widthShorter⟩ := parseNumber_spec asked
  obtain ⟨precisionFits, precisionShorter⟩ := parsePrecision_spec exactly
  exact ⟨widthFits, precisionFits, (skipLength_shorter _).trans
    (precisionShorter.trans (widthShorter.trans (parseFlags_shorter format _)))⟩

end Parsing

/-- What a conversion shows where there is room for it, and the format and the arguments after it. -/
def convertText (strings : Nat → List UInt8) (s : Spec) (begun format : List UInt8) (args : List Nat) :
    List UInt8 × List UInt8 × List Nat :=
  let (word, later) := vaArg args
  let rest := format.tail
  let c := head format
  let len := (begun.takeWhile (· ≠ 0)).length
  if c = 99 then (charText s (UInt8.ofNat word), rest, later)
  else if c = 115 then (stringText s (strings word), rest, later)
  else if c = 111 then (unsignedText s decimalDigit 8 (head rest) word, rest, later)
  else if c = 120 ∨ c = 88 then (unsignedText s (hexDigit c) 16 c word, rest, later)
  else if c = 117 then (unsignedText s decimalDigit 10 (head rest) word, rest, later)
  else if c = 100 ∨ c = 105 then (signedText s (int32 word), rest, later)
  else (begun.take len, begun.drop len, args)

/-- The same of one pass of the loop. -/
def passText (strings : Nat → List UInt8) (format : List UInt8) (args : List Nat) :
    Option (List UInt8 × List UInt8 × List Nat) :=
  if head format ≠ 37 ∨ head format.tail = 37 then
    let format := if head format = 37 then format.tail else format
    some (format.take (literalAmount format), format.drop (literalAmount format), args)
  else do
    let (s, rest, later) ← parseSpec format.tail args
    some (convertText strings s format rest later)

/-- The format comes to something wider than what is left of INT_MAX behind all before it. -/
def Outgrows (strings : Nat → List UInt8) : Nat → List UInt8 → List Nat → Int → Prop
  | 0, _, _, _ => False
  | fuel + 1, format, args, written =>
      head format ≠ 0 ∧
        match passText strings format args with
        | none => False
        | some (text, format, args) =>
            intMax < written + text.length ∨ Outgrows strings fuel format args (written + text.length)

section Passes

variable {strings : Nat → List UInt8} {maxrem : Nat} {format rest : List UInt8}
  {args later : List Nat} {body : Printing Int}

theorem vaArg_lt (args : List Nat) : (vaArg args).1 < 2 ^ 32 := u32_lt _

theorem length_tail_lt (some : head format ≠ 0) : format.tail.length < format.length := by
  cases format with
  | nil => exact absurd rfl some
  | cons c rest => exact Nat.lt_succ_self _

theorem length_drop_lt {len : Nat} (some : head format ≠ 0) (positive : 0 < len) :
    (format.drop len).length < format.length := by
  have := length_tail_lt some
  rw [List.length_drop]
  omega

/-- One conversion, and the format after it. -/
theorem convert_spec (strings : Nat → List UInt8) {s : Spec} (small : (maxrem : Int) ≤ intMax)
    (asked : Fits s.width) (precision : Fits s.precision) (begun format : List UInt8)
    (some : head begun ≠ 0) (shorter : format.length < begun.length) (args : List Nat) :
    Fills maxrem (convert strings s maxrem begun format args).1
        (convertText strings s begun format args).1 ∧
      (convert strings s maxrem begun format args).2 = (convertText strings s begun format args).2 ∧
      (convert strings s maxrem begun format args).2.1.length < begun.length := by
  have word := vaArg_lt args
  have rest := Nat.lt_of_le_of_lt (tail_length format) shorter
  unfold convert convertText
  dsimp only
  split
  · exact ⟨field_convertChar s asked _ maxrem small, rfl, rest⟩
  split
  · exact ⟨field_convertString s asked precision _ maxrem small, rfl, rest⟩
  split
  · exact ⟨field_convertUnsigned s asked precision _ _ (by decide) word rfl maxrem small, rfl, rest⟩
  split
  · exact ⟨field_convertUnsigned s asked precision _ _ (by decide) word rfl maxrem small, rfl, rest⟩
  split
  · exact ⟨field_convertUnsigned s asked precision _ _ (by decide) word rfl maxrem small, rfl, rest⟩
  split
  · exact ⟨field_convertSigned s asked _ maxrem small, rfl, rest⟩
  · refine ⟨field_text begun (takeWhile_length _ begun) maxrem small, rfl, length_drop_lt some ?_⟩
    cases begun with
    | nil => exact absurd rfl some
    | cons c rest =>
      have first : c ≠ 0 := some
      rw [List.takeWhile_cons_of_pos (by simpa using first)]
      exact Nat.succ_pos _

theorem pass_spec (small : (maxrem : Int) ≤ intMax) (some : head format ≠ 0)
    (passed : pass strings maxrem format args = .some (body, rest, later)) :
    ∃ text, passText strings format args = .some (text, rest, later) ∧ Fills maxrem body text ∧
      rest.length < format.length := by
  unfold pass at passed
  unfold passText
  have amount : ∀ format, 0 < literalAmount format := by
    intro format
    unfold literalAmount
    omega
  split at passed
  · rename_i literal
    rw [if_pos literal]
    cases passed
    refine ⟨_, rfl, ?_⟩
    by_cases percent : head format = 37
    · have second : head format.tail ≠ 0 := by
        rcases literal with other | again
        · exact absurd percent other
        · rw [again]
          decide
      have full : format.tail ≠ [] := fun empty => second (by rw [empty]; rfl)
      simp only [if_pos percent]
      exact ⟨field_text format.tail (literalAmount_le full) maxrem small,
        (length_drop_lt second (amount _)).trans (length_tail_lt some)⟩
    · have full : format ≠ [] := fun empty => some (by rw [empty]; rfl)
      simp only [if_neg percent]
      exact ⟨field_text format (literalAmount_le full) maxrem small, length_drop_lt some (amount _)⟩
  · rename_i literal
    rw [if_neg literal]
    obtain ⟨⟨s, afterSpec, argsSpec⟩, parsed, passed⟩ := Option.bind_eq_some_iff.mp passed
    obtain ⟨asked, precision, shorter⟩ := parseSpec_spec parsed
    obtain ⟨fills, same, behind⟩ := convert_spec strings small asked precision format afterSpec some
      (Nat.lt_of_le_of_lt shorter (length_tail_lt some)) argsSpec
    have converted := Option.some.inj passed
    rw [converted] at fills same behind
    refine ⟨_, ?_, fills, behind⟩
    rw [parsed]
    exact congrArg Option.some (Prod.ext rfl same.symm)

theorem passText_none (passed : pass strings maxrem format args = none) :
    passText strings format args = none := by
  unfold pass at passed
  unfold passText
  split at passed
  · cases passed
  · rename_i literal
    rw [if_neg literal]
    cases parsed : parseSpec format.tail args with
    | none => rfl
    | some left =>
      rw [parsed] at passed
      cases passed

end Passes

section Runs

variable (strings : Nat → List UInt8)

/-- How the loop may end that starts with `written` and prints `ps`. -/
def Accounted (written : Int) (ps : List (List UInt8)) : Except Stop Int → Prop
  | .ok n => n = written + total ps
  | .error reason => reason ≠ .overflow

theorem Accounted.returned_iff {written : Int} {ps : List (List UInt8)} {result : Except Stop Int}
    (accounted : Accounted written ps result) (positive : 0 ≤ written) :
    returned result = some (-1) ↔ result = .error .failed := by
  cases result with
  | ok n =>
    have sum : n = written + total ps := accounted
    refine ⟨fun value => ?_, nofun⟩
    have negative : n = -1 := Option.some.inj value
    omega
  | error reason =>
    cases reason with
    | failed => exact ⟨fun _ => rfl, fun _ => rfl⟩
    | never => exact ⟨nofun, nofun⟩
    | overflow => exact ⟨nofun, nofun⟩

/-- What the loop comes to if `print` takes everything. -/
theorem printLoop_emits : ∀ (fuel : Nat) (format : List UInt8) (args : List Nat) (written : Int),
    0 ≤ written → written ≤ intMax → ∃ ps result,
      Emit.Emits .failed (printLoop strings fuel format args written) ps result ∧
        written + total ps ≤ intMax ∧ Accounted written ps result ∧
        (result = .error .failed ↔ Outgrows strings fuel format args written) := by
  intro fuel
  induction fuel with
  | zero =>
    intro format args written _ inside
    exact ⟨[], _, Emit.emits_fail _ _, by rw [total_nil]; omega, nofun, nofun, nofun⟩
  | succ fuel ih =>
    intro format args written positive inside
    have nothing : written + total [] ≤ intMax := by
      rw [total_nil]
      omega
    unfold printLoop Outgrows
    by_cases ended : head format = 0
    · rw [if_pos ended]
      exact ⟨[], _, Emit.emits_done _ written, nothing, (Int.add_zero written).symm, nofun,
        fun more => absurd ended more.1⟩
    rw [if_neg ended, and_iff_right ended]
    have room : (unsigned (intMax - written) : Int) = intMax - written :=
      unsigned_of_nonneg (by unfold Fits intMax at *; omega) (by omega)
    cases passed : pass strings (unsigned (intMax - written)) format args with
    | none =>
      rw [passText_none passed]
      exact ⟨[], _, Emit.emits_fail _ _, nothing, nofun, nofun, nofun⟩
    | some left =>
      obtain ⟨body, rest, later⟩ := left
      obtain ⟨text, texts, fills, _⟩ := pass_spec (by omega) ended passed
      rw [texts]
      dsimp only
      unfold Fills at fills
      split at fills
      · -- the width was checked against what is left of INT_MAX
        obtain ⟨ps, emits, rfl⟩ := fills
        rw [← total_eq] at *
        obtain ⟨qs, result, emitsRest, bound, accounted, outgrows⟩ :=
          ih rest later (written + total ps) (by omega) (by omega)
        have sum : written + total (ps ++ qs) = written + total ps + total qs := by
          rw [total_append]
          omega
        refine ⟨ps ++ qs, result, emits.bind ?_, by omega, ?_, ?_⟩
        · rw [if_neg (by omega)]
          exact emitsRest
        · cases result with
          | ok n => exact Eq.trans accounted sum.symm
          | error reason => exact accounted
        · rw [outgrows, or_iff_right (by omega)]
      · exact ⟨[], _, fills.bind_error, nothing, nofun, fun _ => Or.inl (by omega), fun _ => rfl⟩

/-- Fuel beyond the length of the format changes nothing. -/
theorem printLoop_fuel : ∀ (fuel more : Nat) (format : List UInt8) (args : List Nat) (written : Int),
    0 ≤ written → written ≤ intMax → format.length < fuel → fuel ≤ more →
      printLoop strings more format args written = printLoop strings fuel format args written := by
  intro fuel
  induction fuel with
  | zero => intro more format args written _ _ impossible; omega
  | succ fuel ih =>
    intro more format args written positive inside enough order
    obtain ⟨more, rfl⟩ : ∃ n, more = n + 1 := ⟨more - 1, by omega⟩
    unfold printLoop
    by_cases ended : head format = 0
    · rw [if_pos ended, if_pos ended]
    rw [if_neg ended, if_neg ended]
    have room : (unsigned (intMax - written) : Int) = intMax - written :=
      unsigned_of_nonneg (by unfold Fits intMax at *; omega) (by omega)
    cases passed : pass strings (unsigned (intMax - written)) format args with
    | none => rfl
    | some left =>
      obtain ⟨body, rest, later⟩ := left
      obtain ⟨_, _, fills, shorter⟩ := pass_spec (by omega) ended passed
      dsimp only
      rcases fills.balanced with refused | ⟨ps, emits, fits⟩
      · funext sink log
        exact (refused.bind_error sink log).trans (refused.bind_error sink log).symm
      · have same : printLoop strings more rest later (written + total ps) =
            printLoop strings fuel rest later (written + total ps) :=
          ih more rest later (written + total ps) (by omega) (by omega) (by omega) (by omega)
        funext sink log
        show Emit.andThen body _ sink log = Emit.andThen body _ sink log
        unfold Emit.andThen
        rw [emits, Emit.deliver_result ps (.ok (total ps : Int))]
        cases Emit.deliver Stop.failed sink ps (.ok ()) log with
        | mk outcome log =>
          cases outcome with
          | error reason => rfl
          | ok _ =>
            dsimp only
            rw [if_neg (by omega), if_neg (by omega), same]

/-- Whatever `print` answers, its answers decide how the call ends: if it returns a count
then none was a failure and the count is what was printed, and the first failure is the
last thing the call does. The sum in `written` never overflows. -/
theorem printf_accounts (format : List UInt8) (args : List Nat) (sink : List (List UInt8) → Bool) :
    (printf strings format args sink []).1 ≠ .error .overflow ∧
      (∀ n, returned (printf strings format args sink []).1 = some n → 0 ≤ n →
        Emit.Taken sink [] (printf strings format args sink []).2 ∧
          n = total (printf strings format args sink []).2 ∧ n ≤ intMax) ∧
      ∀ later p earlier, (printf strings format args sink []).2 = later ++ p :: earlier →
        sink (p :: earlier) = false →
          later = [] ∧ returned (printf strings format args sink []).1 = some (-1) := by
  obtain ⟨ps, result, emits, bound, accounted, _⟩ :=
    printLoop_emits strings (format.length + 1) format args 0 (by decide) (by decide)
  have ran : printf strings format args sink [] = Emit.deliver .failed sink ps result [] :=
    emits sink []
  rw [ran]
  rcases Emit.deliver_cases .failed sink ps result [] with
    ⟨taken, ended⟩ | ⟨before, p, after, _, taken, refused, ended⟩
  · rw [ended, List.append_nil]
    refine ⟨?_, ?_, ?_⟩
    · intro overflowed
      dsimp only at overflowed
      rw [overflowed] at accounted
      exact accounted rfl
    · intro n value positive
      cases result with
      | ok m =>
        cases value
        have sum : n = total ps := Eq.trans accounted (Int.zero_add _)
        rw [total_reverse]
        exact ⟨taken, sum, by omega⟩
      | error reason =>
        cases reason with
        | failed =>
          cases value
          exact absurd positive (by decide)
        | never => cases value
        | overflow => cases value
    · intro later p earlier split refused
      dsimp only at split
      rw [split] at taken
      rw [taken.at] at refused
      cases refused
  · rw [ended, List.append_nil]
    refine ⟨nofun, ?_, ?_⟩
    · intro n value positive
      cases value
      exact absurd positive (by decide)
    · intro later q earlier split again
      dsimp only at split
      cases later with
      | nil => exact ⟨rfl, rfl⟩
      | cons first later =>
        obtain ⟨_, split⟩ := List.cons.inj split
        rw [split] at taken
        rw [taken.at] at again
        cases again

end Runs

end Snfos.Printf
