import Mathlib.Logic.Function.Basic

set_option autoImplicit false

/- A page of text with rows of one width and no last row, and the view of it
through a window of fixed height that follows the row being written. -/
namespace TextPage

/-- `row` and `column` are where the next entry goes. -/
structure Page (α : Type) where
  cells : Nat → Nat → α
  row : Nat
  column : Nat

variable {α : Type} (width height : Nat)

namespace Page

/-- The first row in view: 0 until the row being written would leave the window. -/
def top (p : Page α) : Nat := p.row + 1 - height

def window (p : Page α) (y x : Nat) : α := p.cells (p.top height + y) x

def entered (p : Page α) (entry : α) : Page α :=
  { p with
    cells := Function.update p.cells p.row (Function.update (p.cells p.row) p.column entry)
    column := p.column + 1 }

/-- The start of the next row, which is `blank` if it first scrolls into view here. -/
def nextRow (blank : α) (p : Page α) : Page α where
  cells := if p.row + 1 < height then p.cells
    else Function.update p.cells (p.row + 1) fun _ => blank
  row := p.row + 1
  column := 0

def put (blank entry : α) (p : Page α) : Page α :=
  if p.column + 1 = width then (p.entered entry).nextRow height blank else p.entered entry

section Window

variable {width height}
variable {p : Page α} {blank entry : α}

theorem top_nextRow (full : height ≤ p.row + 1) :
    (p.nextRow height blank).top height = p.top height + 1 := by
  show p.row + 1 + 1 - height = p.row + 1 - height + 1
  omega

theorem window_entered (y x : Nat) (below : p.top height ≤ p.row) :
    (p.entered entry).window height y x =
      if y = p.row - p.top height ∧ x = p.column then entry else p.window height y x := by
  show Function.update p.cells p.row _ (p.top height + y) x = _
  by_cases here : y = p.row - p.top height
  · have back : p.top height + y = p.row := by omega
    rw [back, Function.update_self]
    by_cases same : x = p.column
    · rw [if_pos ⟨here, same⟩, same, Function.update_self]
    · rw [if_neg (fun both => same both.2), Function.update_of_ne same, ← back]
      rfl
  · have other : p.top height + y ≠ p.row := by omega
    rw [Function.update_of_ne other, if_neg (fun both => here both.1)]
    rfl

theorem window_nextRow_fits (fits : p.row + 1 < height) (y x : Nat) :
    (p.nextRow height blank).window height y x = p.window height y x := by
  have still : (p.nextRow height blank).top height = p.top height := by
    show p.row + 1 + 1 - height = p.row + 1 - height
    omega
  show (p.nextRow height blank).cells ((p.nextRow height blank).top height + y) x = _
  rw [still]
  show (if p.row + 1 < height then p.cells else _) _ _ = _
  rw [if_pos fits]
  rfl

/-- A full window moves down one row and shows a blank one at its bottom. -/
theorem window_nextRow_full (full : height ≤ p.row + 1) (y x : Nat)
    (inside : y < height) :
    (p.nextRow height blank).window height y x =
      if y + 1 < height then p.window height (y + 1) x else blank := by
  have moved : (p.nextRow height blank).cells =
      Function.update p.cells (p.row + 1) fun _ => blank := if_neg (by omega)
  have last : p.top height + height = p.row + 1 := by
    unfold top
    omega
  show (p.nextRow height blank).cells ((p.nextRow height blank).top height + y) x = _
  rw [moved, top_nextRow full]
  by_cases shown : y + 1 < height
  · rw [if_pos shown, Function.update_of_ne (by omega)]
    show p.cells (p.top height + 1 + y) x = p.cells (p.top height + (y + 1)) x
    rw [Nat.add_right_comm, Nat.add_assoc]
  · rw [if_neg shown, show p.top height + 1 + y = p.row + 1 by omega, Function.update_self]

end Window

end Page

end TextPage
