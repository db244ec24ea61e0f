import CalSci.TextModel
import Mathlib.Tactic.Linarith

/-! The window editor behind `Textbuffer`: a plain line editor and the position of the first cell
shown. `Shows` says that the dozen fields of a `Textbuffer` are those of such a window after a call of
`buffer`; one key of the code is one step of the window, and `buffer` returns exactly when the new
window lies inside the padded text. -/

namespace CalSci.Text

open LineEditor Textbuffer

/-- The number of cells of the padded text: whole rows, at least a full screen. -/
def span (rows cols length : Nat) : Nat := max ((length / cols + 1) * cols) (rows * cols)

/-- A line editor seen through a window that starts at cell `top`. -/
structure View where
  ed : Editor Char
  top : Int

namespace View

variable (rows cols : Nat) (v : View)

/-- The padded text. -/
def page : List Char :=
  v.ed.text ++ marker :: List.replicate (span rows cols v.ed.text.length - (v.ed.text.length + 1)) ' '

def row (i : Nat) : List Char := ((v.page rows cols).drop (v.top + cols * i).toNat).take cols

def shown : List (List Char) := (List.range rows).map (v.row rows cols)

/-- The window lies inside the padded text and starts at a row. -/
structure Inside : Prop where
  nonneg : 0 ≤ v.top
  dvd : (cols : Int) ∣ v.top
  le_span : v.top + rows * cols ≤ span rows cols v.ed.text.length

def OnScreen : Prop := v.top ≤ v.ed.cursor ∧ (v.ed.cursor : Int) < v.top + rows * cols

/-! ### How the window follows the cursor -/

/-- The whole screen, as an area to refresh. -/
def wholeArea : Int × Int := (0, rows * cols)

/-- A move forward wraps to the first window, or scrolls down by a row. -/
def topForward (step : Nat) : Int :=
  if v.ed.text.length < v.ed.cursor + step then 0
  else if v.top + rows * cols ≤ v.ed.cursor + step then v.top + cols
  else v.top

def areaForward (step : Nat) : Int × Int :=
  if v.ed.text.length < v.ed.cursor + step ∨ v.top + rows * cols ≤ v.ed.cursor + step then
    wholeArea rows cols
  else (v.ed.cursor - v.top, (v.ed.cursor + step - v.top) / cols * cols + cols)

/-- A move back wraps to the last window, or scrolls up by a row. -/
def topBack (step : Nat) : Int :=
  if v.ed.cursor < step then span rows cols v.ed.text.length - rows * cols
  else if v.ed.cursor - step < v.top then v.top - cols
  else v.top

def areaBack (step : Nat) (stop : Int) : Int × Int :=
  if v.ed.cursor < step ∨ v.ed.cursor - step < v.top then wholeArea rows cols
  else (v.ed.cursor - step - v.top, stop)

/-- The last row of the window holds the end marker only and disappears with the next deletion. -/
def Shrinks : Prop :=
  (v.ed.text.length : Int) = v.top + rows * cols - cols ∧ rows * cols ≤ v.ed.text.length

instance : Decidable (v.Shrinks rows cols) := by unfold Shrinks; infer_instance

/-- A deletion moves the window back by a row when the last row disappears, on top of what the move of
the cursor did. -/
def topDelete : Int :=
  if v.Shrinks rows cols then v.topBack rows cols 1 - cols else v.topBack rows cols 1

def areaDelete : Int × Int :=
  if v.Shrinks rows cols then wholeArea rows cols else v.areaBack rows cols 1 (rows * cols)

/-- An insertion that leaves the screen puts the cursor on the last row. -/
def topInsert (length : Nat) : Int :=
  if v.top + rows * cols ≤ v.ed.cursor + length then
    (v.ed.cursor + length) - (v.ed.cursor + length) % cols - (rows - 1) * cols
  else v.top

def areaInsert (length : Nat) : Int × Int :=
  if v.top + rows * cols ≤ v.ed.cursor + length then wholeArea rows cols
  else (v.ed.cursor - v.top, rows * cols)

/-- The first cell shown after a key. -/
def topAfter : Key → Int
  | .navL => v.topBack rows cols 1
  | .navR => v.topForward rows cols 1
  | .navU => v.topBack rows cols cols
  | .navD => v.topForward rows cols cols
  | .navB => v.topDelete rows cols
  | .ac => 0
  | .token text => v.topInsert rows cols text.length

/-- The area a key asks to refresh. -/
def areaAfter : Key → Int × Int
  | .navL => v.areaBack rows cols 1 ((v.ed.cursor - v.top) / cols * cols + cols)
  | .navR => v.areaForward rows cols 1
  | .navU => v.areaBack rows cols cols ((v.ed.cursor - v.top) / cols * cols + cols)
  | .navD => v.areaForward rows cols cols
  | .navB => v.areaDelete rows cols
  | .ac => wholeArea rows cols
  | .token text => v.areaInsert rows cols text.length

def press (key : Key) : View := ⟨key.edit cols v.ed, v.topAfter rows cols key⟩

end View

/-- The fields of a `Textbuffer` after a call of `buffer`, for a given window. -/
structure Shows (rows cols : Nat) (v : View) (t : Textbuffer) : Prop where
  rows_eq : t.rows = rows
  cols_eq : t.cols = cols
  text : ∃ pad, t.textBuffer = v.ed.text ++ marker :: pad
  nospace : t.textBufferNospace = v.ed.text.length
  length : t.bufferLength = v.ed.text.length + 1
  cursor : t.menuBufferCursor = v.ed.cursor
  position : t.displayBufferPosition = v.top
  size : t.menuBufferSize = span rows cols v.ed.text.length
  menu : t.menuBuffer = Py.range (span rows cols v.ed.text.length)
  display : t.displayBuffer = Py.rangeFrom v.top (rows * cols)
  spaces : t.noLastSpaces + t.extraSpaces = span rows cols v.ed.text.length - (v.ed.text.length + 1)
  extra_nonneg : 0 ≤ t.extraSpaces
  extra : rows * cols < span rows cols v.ed.text.length → t.extraSpaces = 0

/-- What `buffer` finds: the text closed by its marker, the cursor and the position of the window. -/
structure Edited (rows cols : Nat) (v : View) (t : Textbuffer) : Prop where
  rows_eq : t.rows = rows
  cols_eq : t.cols = cols
  text : t.textBuffer = v.ed.text ++ [marker]
  cursor : t.menuBufferCursor = v.ed.cursor
  position : t.displayBufferPosition = v.top

/-! ### The padded length -/

section Span

variable {rows cols : Nat}

theorem lt_span (hcols : 0 < cols) (length : Nat) : length < span rows cols length := by
  have hmod := Nat.mod_lt length hcols
  have hdiv := Nat.div_add_mod length cols
  have hmul : (length / cols + 1) * cols = cols * (length / cols) + cols := by ring
  unfold span
  omega

theorem cells_le_span (rows cols length : Nat) : rows * cols ≤ span rows cols length := Nat.le_max_right _ _

theorem dvd_span (length : Nat) : cols ∣ span rows cols length := by
  unfold span
  rcases max_choice ((length / cols + 1) * cols) (rows * cols) with h | h <;> rw [h]
  · exact Dvd.intro_left _ rfl
  · exact Dvd.intro_left _ rfl

theorem span_mono (rows cols : Nat) {length length' : Nat} (h : length ≤ length') :
    span rows cols length ≤ span rows cols length' := by
  have hrow : length / cols + 1 ≤ length' / cols + 1 := Nat.succ_le_succ (Nat.div_le_div_right h)
  exact max_le_max (Nat.mul_le_mul_right cols hrow) (Nat.le_refl _)

/-- The last row of a text longer than the screen is the row of its end marker. -/
theorem span_le_of_cells_lt {length : Nat} (h : rows * cols < span rows cols length) :
    span rows cols length ≤ length + cols := by
  have hmod := Nat.div_mul_le_self length cols
  have hmul : (length / cols + 1) * cols = length / cols * cols + cols := by ring
  unfold span at h ⊢
  omega

theorem remainingSpaces_nonneg (hcols : 0 < cols) (length : Int) :
    0 ≤ remainingSpaces cols length := by
  have := Int.emod_lt_of_pos length (show (0 : Int) < cols by omega)
  unfold remainingSpaces
  split <;> omega

/-- A text of `length` characters and its marker, brought up to whole rows. -/
theorem add_remainingSpaces (hcols : 0 < cols) (length : Nat) :
    ((length : Int) + 1) + remainingSpaces cols (length + 1) = ((length / cols + 1) * cols : Nat) := by
  have hdiv := Nat.div_add_mod length cols
  have hlt := Nat.mod_lt length hcols
  have hmod : ((length : Int) + 1) % cols = ((length % cols + 1) % cols : Nat) := by
    rw [Nat.mod_add_mod]
    push_cast
    rfl
  have hmul : (length / cols + 1) * cols = cols * (length / cols) + cols := by ring
  rw [remainingSpaces, hmod, hmul]
  generalize cols * (length / cols) = whole at *
  generalize length % cols = rest at *
  rcases Nat.lt_or_ge (rest + 1) cols with h | h
  · rw [Nat.mod_eq_of_lt h, if_pos (by omega)]
    omega
  · rw [show rest + 1 = cols by omega, Nat.mod_self, if_neg (by simp)]
    omega

/-- The two paddings together bring the text to its span. -/
theorem add_screenSpaces (rows : Nat) (hcols : 0 < cols) (length : Nat) :
    ((length : Int) + 1) + remainingSpaces cols (length + 1)
      + screenSpaces (rows * cols) ((length : Int) + 1 + remainingSpaces cols (length + 1)) =
      span rows cols length := by
  rw [add_remainingSpaces hcols, screenSpaces, span]
  split <;> omega

end Span

end CalSci.Text
