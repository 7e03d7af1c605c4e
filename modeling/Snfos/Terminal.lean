import Mathlib.Logic.Function.Basic
import Snfos.Word
import Snfos.Library.TextPage

set_option autoImplicit false

/- The text terminal of `tty.c`. -/
namespace Snfos

open TextPage

/-- `written` are the indexes stored to; the cursor bytes are what the controller
was last sent. -/
structure Terminal where
  row : Nat
  column : Nat
  color : UInt8
  buffer : Nat → UInt16
  cursorHigh : UInt8
  cursorLow : UInt8
  written : List Nat

def vgaWidth : Nat := 80

def vgaHeight : Nat := 25

def vgaEntryColor (fg bg : UInt8) : UInt8 := fg ||| bg <<< 4

def vgaEntry (uc color : UInt8) : UInt16 := uc.toUInt16 ||| color.toUInt16 <<< 8

/-- `vga_entry(' ', color)`. -/
def vgaBlank (color : UInt8) : UInt16 := vgaEntry 32 color

namespace Terminal

def store (index : Nat) (entry : UInt16) (t : Terminal) : Terminal :=
  { t with buffer := Function.update t.buffer index entry, written := index :: t.written }

def updateCursor (t : Terminal) : Terminal :=
  let index := u32 (u32 (t.row * vgaWidth) + t.column)
  { t with cursorHigh := UInt8.ofNat (index / 2 ^ 8), cursorLow := UInt8.ofNat (index &&& 0x00FF) }

/-- The body of a row loop, `count` times. -/
def forColumns (count : Nat) (body : Nat → Terminal → Terminal) (t : Terminal) : Terminal :=
  (List.range count).foldl (fun t x => body x t) t

def clearRow (y : Nat) : Terminal → Terminal :=
  forColumns vgaWidth fun x t => t.store (y * vgaWidth + x) (vgaBlank t.color)

def copyRow (y : Nat) : Terminal → Terminal :=
  forColumns vgaWidth fun x t =>
    t.store (y * vgaWidth + x) (t.buffer (y * vgaWidth + x + vgaWidth))

def terminalInitialize (t : Terminal) : Terminal :=
  let t := { t with row := 0, column := 0, color := vgaEntryColor 7 0 }
  ((List.range vgaHeight).foldl (fun t y => t.clearRow y) t).updateCursor

def terminalSetcolor (color : UInt8) (t : Terminal) : Terminal := { t with color := color }

def scroll (t : Terminal) : Terminal :=
  let t := { t with row := sub32 t.row 1 }
  ((List.range (vgaHeight - 1)).foldl (fun t y => t.copyRow y) t).clearRow t.row

def incTerminalRow (t : Terminal) : Terminal :=
  let t := { t with row := u32 (t.row + 1) }
  if t.row = vgaHeight then t.scroll else t

def terminalPutentryat (c color : UInt8) (x y : Nat) (t : Terminal) : Terminal :=
  t.store (u32 (u32 (y * vgaWidth) + x)) (vgaEntry c color)

/-- `'\n'` is 10. -/
def terminalPutchar (c : UInt8) (t : Terminal) : Terminal :=
  if c ≠ 10 then
    let t := t.terminalPutentryat c t.color t.column t.row
    let t := { t with column := u32 (t.column + 1) }
    (if t.column = vgaWidth then incTerminalRow { t with column := 0 } else t).updateCursor
  else (incTerminalRow { t with column := 0 }).updateCursor

def terminalWrite (data : List UInt8) (t : Terminal) : Terminal :=
  data.foldl (fun t c => t.terminalPutchar c) t

end Terminal

inductive TerminalCall
  | putchar (c : UInt8)
  | setcolor (color : UInt8)

namespace TerminalCall

def run (t : Terminal) : TerminalCall → Terminal
  | putchar c => t.terminalPutchar c
  | setcolor color => t.terminalSetcolor color

def runAll (t : Terminal) (calls : List TerminalCall) : Terminal := calls.foldl run t

end TerminalCall

/-- What the terminal is for: a page that keeps all its rows, and the colour to
write in. -/
structure Sheet where
  page : Page UInt16
  color : UInt8

namespace Sheet

/-- An empty page in light grey on black. -/
def start : Sheet where
  page := { cells := fun _ _ => vgaBlank 7, row := 0, column := 0 }
  color := 7

def write (s : Sheet) : TerminalCall → Sheet
  | .putchar c =>
      { s with
        page := if c = 10 then s.page.nextRow vgaHeight (vgaBlank s.color)
          else s.page.put vgaWidth vgaHeight (vgaBlank s.color) (vgaEntry c s.color) }
  | .setcolor color => { s with color := color }

def writeAll (s : Sheet) (calls : List TerminalCall) : Sheet := calls.foldl write s

end Sheet

/-- The terminal shows the last rows of the page, and its cursor stands where the
page is written next. -/
structure Shows (t : Terminal) (s : Sheet) : Prop where
  row : t.row = s.page.row - s.page.top vgaHeight
  column : t.column = s.page.column
  color : t.color = s.color
  fits : t.column < vgaWidth
  buffer : ∀ y, y < vgaHeight → ∀ x, x < vgaWidth →
    t.buffer (y * vgaWidth + x) = s.page.window vgaHeight y x
  cursor : t.cursorHigh.toNat * 2 ^ 8 + t.cursorLow.toNat = t.row * vgaWidth + t.column
  written : ∀ index ∈ t.written, index < vgaHeight * vgaWidth

section Rows

/-- `t'` is `t` with the buffer `f`, by stores inside the screen. -/
structure Repainted (t t' : Terminal) (f : Nat → UInt16) : Prop where
  row : t'.row = t.row
  column : t'.column = t.column
  color : t'.color = t.color
  buffer : t'.buffer = f
  written : ∀ index ∈ t'.written, index < vgaHeight * vgaWidth ∨ index ∈ t.written

variable {t t' t'' : Terminal} {f g : Nat → UInt16}

theorem Repainted.refl (t : Terminal) : Repainted t t t.buffer :=
  ⟨rfl, rfl, rfl, rfl, fun _ member => Or.inr member⟩

theorem Repainted.trans (first : Repainted t t' f) (second : Repainted t' t'' g) :
    Repainted t t'' g where
  row := second.row.trans first.row
  column := second.column.trans first.column
  color := second.color.trans first.color
  buffer := second.buffer
  written := by
    intro index member
    cases second.written index member with
    | inl inside => exact Or.inl inside
    | inr earlier => exact first.written index earlier

theorem Repainted.store (painted : Repainted t t' f) {index : Nat}
    (inside : index < vgaHeight * vgaWidth) (entry : UInt16) :
    Repainted t (t'.store index entry) (Function.update f index entry) := by
  apply painted.trans
  refine ⟨rfl, rfl, rfl, ?_, ?_⟩
  · show Function.update t'.buffer index entry = _
    rw [painted.buffer]
  · intro i member
    cases List.mem_cons.1 member with
    | inl same => exact Or.inl (same ▸ inside)
    | inr earlier => exact Or.inr earlier

/-- A row loop that stores `g` at each index of row `y` in turn. -/
theorem repainted_forColumns (y : Nat) (inside : y < vgaHeight) (count : Nat)
    (fits : count ≤ vgaWidth) (body : Nat → Terminal → Terminal)
    (stores : ∀ x, x < count → ∀ t' f, Repainted t t' f →
      (∀ index, y * vgaWidth + x ≤ index → f index = t.buffer index) →
      body x t' = t'.store (y * vgaWidth + x) (g (y * vgaWidth + x))) :
    Repainted t (t.forColumns count body) fun index =>
      if y * vgaWidth ≤ index ∧ index < y * vgaWidth + count then g index else t.buffer index := by
  induction count with
  | zero =>
    have same : (fun index => if y * vgaWidth ≤ index ∧ index < y * vgaWidth + 0 then g index
        else t.buffer index) = t.buffer := by
      funext index
      exact if_neg (by omega)
    rw [same]
    exact Repainted.refl t
  | succ count ih =>
    have before := ih (by omega) fun x within => stores x (by omega)
    have last : t.forColumns (count + 1) body = body count (t.forColumns count body) := by
      unfold Terminal.forColumns
      rw [List.range_succ, List.foldl_append]
      rfl
    rw [last, stores count (by omega) _ _ before fun index past => if_neg (by omega)]
    have stored := before.store (show y * vgaWidth + count < vgaHeight * vgaWidth by unfold vgaHeight vgaWidth at *; omega)
      (g (y * vgaWidth + count))
    convert stored using 1
    funext index
    by_cases here : index = y * vgaWidth + count
    · rw [here, Function.update_self, if_pos (by omega)]
    · rw [Function.update_of_ne here]
      exact if_congr (by omega) rfl rfl

theorem repainted_clearRow (painted : Repainted t t' f) (y : Nat) (inside : y < vgaHeight) :
    Repainted t (t'.clearRow y) fun index =>
      if y * vgaWidth ≤ index ∧ index < y * vgaWidth + vgaWidth then vgaBlank t.color
      else f index := by
  have cleared := repainted_forColumns (t := t') (g := fun _ => vgaBlank t'.color) y inside vgaWidth
    (Nat.le_refl _) (fun x t => t.store (y * vgaWidth + x) (vgaBlank t.color)) (by
      intro x _ t'' h reached _
      show t''.store _ (vgaBlank t''.color) = _
      rw [reached.color])
  rw [painted.color, painted.buffer] at cleared
  exact painted.trans cleared

/-- The entries of the row below have not been stored to when they are read. -/
theorem repainted_copyRow (painted : Repainted t t' f) (y : Nat) (inside : y + 1 < vgaHeight) :
    Repainted t (t'.copyRow y) fun index =>
      if y * vgaWidth ≤ index ∧ index < y * vgaWidth + vgaWidth then f (index + vgaWidth)
      else f index := by
  have copied := repainted_forColumns (t := t') (g := fun index => t'.buffer (index + vgaWidth)) y
    (by omega) vgaWidth (Nat.le_refl _)
    (fun x t => t.store (y * vgaWidth + x) (t.buffer (y * vgaWidth + x + vgaWidth))) (by
      intro x _ t'' h reached later
      show t''.store _ (t''.buffer _) = _
      rw [reached.buffer, later _ (by omega)])
  rw [painted.buffer] at copied
  exact painted.trans copied

/-- A loop over rows that paints `g` into one after the other, from the top. -/
theorem repainted_forRows (count : Nat) (fits : count ≤ vgaHeight) (row : Nat → Terminal → Terminal)
    (paints : ∀ y, y < count → ∀ t' f, Repainted t t' f →
      (∀ index, y * vgaWidth ≤ index → f index = t.buffer index) →
      Repainted t (row y t') fun index =>
        if y * vgaWidth ≤ index ∧ index < y * vgaWidth + vgaWidth then g index else f index) :
    Repainted t ((List.range count).foldl (fun t y => row y t) t) fun index =>
      if index < count * vgaWidth then g index else t.buffer index := by
  induction count with
  | zero =>
    have same : (fun index => if index < 0 * vgaWidth then g index else t.buffer index) =
        t.buffer := by
      funext index
      exact if_neg (by omega)
    rw [same]
    exact Repainted.refl t
  | succ count ih =>
    rw [List.range_succ, List.foldl_append, List.foldl_cons, List.foldl_nil]
    have before := ih (by omega) fun y within => paints y (by omega)
    have painted := paints count (by omega) _ _ before fun index later => if_neg (by omega)
    convert painted using 1
    funext index
    have rows : (count + 1) * vgaWidth = count * vgaWidth + vgaWidth := Nat.succ_mul count vgaWidth
    by_cases inside : index < count * vgaWidth
    · rw [if_pos (by omega), if_neg (by omega), if_pos inside]
    · rw [if_neg inside]
      exact if_congr (by omega) rfl rfl

theorem repainted_clearRows (count : Nat) (fits : count ≤ vgaHeight) :
    Repainted t ((List.range count).foldl (fun t y => t.clearRow y) t) fun index =>
      if index < count * vgaWidth then vgaBlank t.color else t.buffer index := by
  apply repainted_forRows count fits fun y t => t.clearRow y
  intro y within t' f painted _
  exact repainted_clearRow painted y (by omega)

/-- The rows move up one by one, from the top. -/
theorem repainted_copyRows (count : Nat) (fits : count < vgaHeight) :
    Repainted t ((List.range count).foldl (fun t y => t.copyRow y) t) fun index =>
      if index < count * vgaWidth then t.buffer (index + vgaWidth) else t.buffer index := by
  apply repainted_forRows (g := fun index => t.buffer (index + vgaWidth)) count (by omega)
    fun y t => t.copyRow y
  intro y within t' f painted later
  have copied := repainted_copyRow painted y (by omega)
  convert copied using 1
  funext index
  by_cases here : y * vgaWidth ≤ index ∧ index < y * vgaWidth + vgaWidth
  · rw [if_pos here, if_pos here, later _ (by omega)]
  · rw [if_neg here, if_neg here]

theorem repainted_scroll (t : Terminal) (last : t.row = vgaHeight) :
    Repainted { t with row := vgaHeight - 1 } t.scroll fun index =>
      if index < (vgaHeight - 1) * vgaWidth then t.buffer (index + vgaWidth)
      else if index < vgaHeight * vgaWidth then vgaBlank t.color else t.buffer index := by
  have back : sub32 t.row 1 = vgaHeight - 1 := by
    rw [last]
    rfl
  have copied := repainted_copyRows (t := { t with row := vgaHeight - 1 }) (vgaHeight - 1) (by decide)
  have cleared := repainted_clearRow copied (vgaHeight - 1) (by decide)
  unfold Terminal.scroll
  rw [back]
  dsimp only
  convert cleared using 1
  funext index
  show _ = if _ then _ else if _ then _ else _
  unfold vgaHeight vgaWidth
  by_cases upper : index < (25 - 1) * 80
  · rw [if_pos upper, if_neg (by omega), if_pos upper]
  · rw [if_neg upper, if_neg upper]
    exact if_congr (by omega) rfl rfl

end Rows

section Steps

variable {t : Terminal} {s : Sheet}

theorem shown_updateCursor (row : t.row = s.page.row - s.page.top vgaHeight)
    (column : t.column = s.page.column) (color : t.color = s.color) (fits : t.column < vgaWidth)
    (buffer : ∀ y, y < vgaHeight → ∀ x, x < vgaWidth →
      t.buffer (y * vgaWidth + x) = s.page.window vgaHeight y x)
    (written : ∀ index ∈ t.written, index < vgaHeight * vgaWidth) :
    Shows t.updateCursor s := by
  refine ⟨row, column, color, fits, buffer, ?_, written⟩
  have inside : t.row < vgaHeight := by
    rw [row]
    unfold Page.top vgaHeight
    omega
  have small : u32 (u32 (t.row * vgaWidth) + t.column) = t.row * vgaWidth + t.column := by
    unfold vgaHeight vgaWidth u32 at *
    omega
  have high : (t.row * vgaWidth + t.column) / 2 ^ 8 < 256 := by
    unfold vgaHeight vgaWidth at *
    omega
  have low : (t.row * vgaWidth + t.column) &&& 0x00FF = (t.row * vgaWidth + t.column) % 2 ^ 8 :=
    Nat.and_two_pow_sub_one_eq_mod _ 8
  show (UInt8.ofNat (u32 (u32 (t.row * vgaWidth) + t.column) / 2 ^ 8)).toNat * 2 ^ 8 +
    (UInt8.ofNat (u32 (u32 (t.row * vgaWidth) + t.column) &&& 0x00FF)).toNat = _
  rw [small, low, UInt8.toNat_ofNat', UInt8.toNat_ofNat', Nat.mod_eq_of_lt high, Nat.mod_mod]
  exact Nat.div_add_mod' _ _

theorem shows_terminalInitialize (t : Terminal) (fresh : t.written = []) :
    Shows t.terminalInitialize Sheet.start := by
  have cleared := repainted_clearRows (t := { t with row := 0, column := 0, color := vgaEntryColor 7 0 })
    vgaHeight (Nat.le_refl _)
  have grey : vgaEntryColor 7 0 = 7 := by decide
  apply shown_updateCursor
  · exact cleared.row
  · exact cleared.column
  · rw [cleared.color]
    exact grey
  · rw [cleared.column]
    show 0 < vgaWidth
    decide
  · intro y inside x within
    rw [cleared.buffer]
    show (if y * vgaWidth + x < vgaHeight * vgaWidth then vgaBlank (vgaEntryColor 7 0) else _) = _
    rw [if_pos (by unfold vgaHeight vgaWidth at *; omega), grey]
    rfl
  · intro index member
    cases cleared.written index member with
    | inl inside => exact inside
    | inr earlier =>
      rw [show ({ t with row := 0, column := 0, color := vgaEntryColor 7 0 } : Terminal).written = []
        from fresh] at earlier
      cases earlier

theorem Shows.row_lt (shows : Shows t s) : t.row < vgaHeight := by
  rw [shows.row]
  unfold Page.top vgaHeight
  omega

/-- The start of the next row, for a terminal that shows the page but for the column. -/
theorem shows_nextRow (row : t.row = s.page.row - s.page.top vgaHeight) (color : t.color = s.color)
    (buffer : ∀ y, y < vgaHeight → ∀ x, x < vgaWidth →
      t.buffer (y * vgaWidth + x) = s.page.window vgaHeight y x)
    (written : ∀ index ∈ t.written, index < vgaHeight * vgaWidth) :
    Shows (Terminal.incTerminalRow { t with column := 0 }).updateCursor
      { s with page := s.page.nextRow vgaHeight (vgaBlank s.color) } := by
  have next : u32 (t.row + 1) = t.row + 1 := by
    apply u32_of_lt
    rw [row]
    unfold Page.top vgaHeight
    omega
  unfold Terminal.incTerminalRow
  dsimp only
  rw [next]
  by_cases full : vgaHeight ≤ s.page.row + 1
  · have last : t.row + 1 = vgaHeight := by
      rw [row]
      unfold Page.top vgaHeight at *
      omega
    rw [if_pos last]
    have moved := repainted_scroll { t with row := t.row + 1, column := 0 } last
    apply shown_updateCursor
    · rw [moved.row]
      show vgaHeight - 1 = s.page.row + 1 - (s.page.row + 1 + 1 - vgaHeight)
      unfold vgaHeight at *
      omega
    · exact moved.column
    · rw [moved.color]
      exact color
    · rw [moved.column]
      show 0 < vgaWidth
      decide
    · intro y inside x within
      rw [moved.buffer, Page.window_nextRow_full full y x inside]
      dsimp only
      by_cases shown : y + 1 < vgaHeight
      · have upper : y * vgaWidth + x < (vgaHeight - 1) * vgaWidth := by
          unfold vgaHeight vgaWidth at *
          omega
        rw [if_pos upper, if_pos shown, ← buffer (y + 1) shown x within]
        congr 1
        unfold vgaWidth
        omega
      · have lower : ¬ y * vgaWidth + x < (vgaHeight - 1) * vgaWidth := by
          unfold vgaHeight vgaWidth at *
          omega
        rw [if_neg lower, if_pos (by unfold vgaHeight vgaWidth at *; omega), if_neg shown, color]
    · intro index member
      cases moved.written index member with
      | inl inside => exact inside
      | inr earlier => exact written index earlier
  · have early : t.row + 1 ≠ vgaHeight := by
      rw [row]
      unfold Page.top vgaHeight at *
      omega
    rw [if_neg early]
    apply shown_updateCursor
    · show t.row + 1 = s.page.row + 1 - (s.page.row + 1 + 1 - vgaHeight)
      rw [row]
      unfold Page.top vgaHeight at *
      omega
    · rfl
    · exact color
    · show 0 < vgaWidth
      decide
    · intro y inside x within
      rw [Page.window_nextRow_fits (by omega)]
      exact buffer y inside x within
    · exact written

theorem shows_terminalPutchar (shows : Shows t s) (c : UInt8) :
    Shows (t.terminalPutchar c) (s.write (.putchar c)) := by
  unfold Terminal.terminalPutchar Sheet.write
  dsimp only
  by_cases newline : c = 10
  · rw [if_neg (by simpa using newline), if_pos newline]
    exact shows_nextRow shows.row shows.color shows.buffer shows.written
  · rw [if_pos newline, if_neg newline]
    have place : u32 (u32 (t.row * vgaWidth) + t.column) = t.row * vgaWidth + t.column := by
      have inside := shows.row_lt
      have within := shows.fits
      unfold vgaHeight vgaWidth u32 at *
      omega
    have right : u32 (t.column + 1) = t.column + 1 := by
      have within := shows.fits
      unfold vgaWidth u32 at *
      omega
    have stored : t.terminalPutentryat c t.color t.column t.row =
        t.store (t.row * vgaWidth + t.column) (vgaEntry c s.color) := by
      unfold Terminal.terminalPutentryat
      rw [place, shows.color]
    rw [stored]
    have buffer : ∀ y, y < vgaHeight → ∀ x, x < vgaWidth →
        (t.store (t.row * vgaWidth + t.column) (vgaEntry c s.color)).buffer (y * vgaWidth + x) =
        (s.page.entered (vgaEntry c s.color)).window vgaHeight y x := by
      intro y inside x within
      have below : s.page.top vgaHeight ≤ s.page.row := by
        unfold Page.top vgaHeight
        omega
      rw [Page.window_entered y x below, ← shows.row, ← shows.column, ← shows.buffer y inside x within]
      show Function.update t.buffer _ _ _ = _
      by_cases here : y = t.row ∧ x = t.column
      · rw [if_pos here, here.1, here.2, Function.update_self]
      · have column := shows.fits
        rw [if_neg here, Function.update_of_ne]
        unfold vgaWidth at *
        omega
    have written : ∀ index ∈ (t.store (t.row * vgaWidth + t.column) (vgaEntry c s.color)).written,
        index < vgaHeight * vgaWidth := by
      intro index member
      cases List.mem_cons.1 member with
      | inl same =>
        have inside := shows.row_lt
        have within := shows.fits
        unfold vgaHeight vgaWidth at *
        omega
      | inr earlier => exact shows.written index earlier
    show Shows (Terminal.updateCursor (if u32 (t.column + 1) = vgaWidth then _ else _)) _
    unfold Page.put
    rw [right, ← shows.column]
    by_cases full : t.column + 1 = vgaWidth
    · rw [if_pos full, if_pos full]
      exact shows_nextRow (s := { s with page := s.page.entered (vgaEntry c s.color) })
        shows.row shows.color buffer written
    · rw [if_neg full, if_neg full]
      apply shown_updateCursor
      · exact shows.row
      · show u32 (t.column + 1) = s.page.column + 1
        rw [right, shows.column]
      · exact shows.color
      · show u32 (t.column + 1) < vgaWidth
        have within := shows.fits
        omega
      · exact buffer
      · exact written

theorem shows_run (shows : Shows t s) (call : TerminalCall) : Shows (call.run t) (s.write call) := by
  cases call with
  | putchar c => exact shows_terminalPutchar shows c
  | setcolor color =>
    exact ⟨shows.row, shows.column, rfl, shows.fits, shows.buffer, shows.cursor, shows.written⟩

theorem shows_runAll (shows : Shows t s) (calls : List TerminalCall) :
    Shows (TerminalCall.runAll t calls) (s.writeAll calls) := by
  induction calls generalizing t s with
  | nil => exact shows
  | cons call rest ih => exact ih (shows_run shows call)

theorem terminalWrite_eq (data : List UInt8) (t : Terminal) :
    t.terminalWrite data = TerminalCall.runAll t (data.map TerminalCall.putchar) := by
  unfold TerminalCall.runAll
  rw [List.foldl_map]
  rfl

end Steps

/-- After any calls the terminal shows the tail of the page they write. -/
theorem terminal_shows_tail (t : Terminal) (calls : List TerminalCall) :
    let done := TerminalCall.runAll (Terminal.terminalInitialize { t with written := [] }) calls
    let page := (Sheet.start.writeAll calls).page
    done.row < 25 ∧ done.column < 80 ∧ (∀ index ∈ done.written, index < 2000) ∧
      page.top 25 + done.row = page.row ∧ done.column = page.column ∧
      (∀ y, y < 25 → ∀ x, x < 80 → done.buffer (y * 80 + x) = page.cells (page.top 25 + y) x) ∧
      done.cursorHigh.toNat * 256 + done.cursorLow.toNat = done.row * 80 + done.column := by
  intro done page
  have shows := shows_runAll (shows_terminalInitialize { t with written := [] } rfl) calls
  have below : page.top 25 ≤ page.row := by
    unfold Page.top
    omega
  refine ⟨shows.row_lt, shows.fits, shows.written, ?_, shows.column, shows.buffer, shows.cursor⟩
  have row : done.row = page.row - page.top 25 := shows.row
  omega

end Snfos
