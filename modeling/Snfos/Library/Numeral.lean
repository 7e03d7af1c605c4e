import Mathlib.Data.Nat.Digits.Lemmas
import Mathlib.Data.List.GetD

set_option autoImplicit false

/- Positional numerals, the leading digit first. -/
namespace Numeral

/-- The digits of a number without superfluous zeros. Zero has one digit. -/
def numeral (base n : Nat) : List Nat := if n = 0 then [0] else (Nat.digits base n).reverse

/-- What a row of digits stands for. -/
def value (base : Nat) (digits : List Nat) : Nat := Nat.ofDigits base digits.reverse

section Values

variable {base n m : Nat} {digits : List Nat}

theorem value_numeral (base n : Nat) : value base (numeral base n) = n := by
  unfold value numeral
  split
  · rename_i zero
    rw [zero]
    rfl
  · rw [List.reverse_reverse, Nat.ofDigits_digits]

theorem value_zeros (base count : Nat) (digits : List Nat) :
    value base (List.replicate count 0 ++ digits) = value base digits := by
  unfold value
  rw [List.reverse_append, List.reverse_replicate, Nat.ofDigits_append_replicate_zero]

theorem value_cons (base digit : Nat) (digits : List Nat) :
    value base (digit :: digits) = digit * base ^ digits.length + value base digits := by
  unfold value
  rw [List.reverse_cons, Nat.ofDigits_append, Nat.ofDigits_singleton, List.length_reverse,
    Nat.mul_comm, Nat.add_comm]

theorem numeral_ne_nil (base n : Nat) : numeral base n ≠ [] := by
  unfold numeral
  split
  · exact List.cons_ne_nil 0 []
  · rename_i positive
    rw [ne_eq, List.reverse_eq_nil_iff]
    exact Nat.digits_ne_nil_iff_ne_zero.mpr positive

theorem digit_lt (two : 2 ≤ base) {digit : Nat} (member : digit ∈ numeral base n) : digit < base := by
  unfold numeral at member
  split at member
  · rw [List.mem_singleton.mp member]
    omega
  · exact Nat.digits_lt_base (by omega) (List.mem_reverse.mp member)

/-- Only zero starts with a zero. -/
theorem head_numeral (base : Nat) (positive : n ≠ 0) : (numeral base n).head? ≠ some 0 := by
  have some : Nat.digits base n ≠ [] := Nat.digits_ne_nil_iff_ne_zero.mpr positive
  unfold numeral
  rw [if_neg positive, List.head?_reverse, List.getLast?_eq_some_getLast some, ne_eq,
    Option.some.injEq]
  exact Nat.getLast_digit_ne_zero base positive

/-- The digits of a number with a leading power of the base, read off one by one. -/
theorem numeral_eq_range (two : 2 ≤ base) {k : Nat} (below : n < base ^ (k + 1))
    (above : k = 0 ∨ base ^ k ≤ n) :
    numeral base n = (List.range (k + 1)).reverse.map fun i => n / base ^ i % base := by
  by_cases zero : n = 0
  · have short : k = 0 := by
      rcases above with short | large
      · exact short
      · have : 0 < base ^ k := Nat.pow_pos (by omega)
        omega
    rw [short, zero]
    unfold numeral
    rw [if_pos rfl]
    show [0] = [0 / base ^ 0 % base]
    rw [Nat.zero_div, Nat.zero_mod]
  · have count : (Nat.digits base n).length = k + 1 := by
      rw [Nat.length_digits base n (by omega) zero]
      have log : Nat.log base n = k := by
        rcases above with short | large
        · rw [short, Nat.log_eq_zero_iff]
          rw [short, Nat.zero_add, Nat.pow_one] at below
          exact Or.inl below
        · exact Nat.log_eq_of_pow_le_of_lt_pow large below
      rw [log]
    unfold numeral
    rw [if_neg zero, List.map_reverse]
    refine congrArg List.reverse (List.ext_getElem ?_ ?_)
    · rw [count, List.length_map, List.length_range]
    · intro i inside _
      rw [List.getElem_map, List.getElem_range, ← Nat.getD_digits n i two,
        List.getD_eq_getElem _ _ inside]

theorem length_numeral (two : 2 ≤ base) {k : Nat} (below : n < base ^ (k + 1))
    (above : k = 0 ∨ base ^ k ≤ n) : (numeral base n).length = k + 1 := by
  rw [numeral_eq_range two below above, List.length_map, List.length_reverse, List.length_range]

/-- A number has no more digits than the power it stays below. -/
theorem length_numeral_le (two : 2 ≤ base) {k : Nat} (below : n < base ^ (k + 1)) :
    (numeral base n).length ≤ k + 1 := by
  unfold numeral
  split
  · exact Nat.succ_le_succ (Nat.zero_le k)
  · rename_i positive
    rw [List.length_reverse, Nat.length_digits base n (by omega) positive]
    exact Nat.log_lt_of_lt_pow positive below

end Values

end Numeral
