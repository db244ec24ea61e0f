import CalSci.Keys
import CalSci.PySequence
import CalSci.RowScreen
import CalSci.Runs
import Mathlib.Data.List.AList

/-! `Form` of `process_modules/form_buffer.py` and the drawing of its rows by `Tbf.refresh` of
`process_modules/form_buffer_uploader.py`. A row of a form is a label, or an input row, whose name
contains `inp_` and is a key of `input_list`. All input rows share one cursor and one horizontal
offset, those of the selected row. -/

namespace CalSci

/-- `input_list`: the texts of the fields by name. -/
abbrev Inputs := AList fun _ : List Char => List Char

/-- `input_list[name]`. -/
def Inputs.get (inputs : Inputs) (name : List Char) : Except Py.Err (List Char) :=
  match inputs.lookup name with
  | some text => .ok text
  | none => .error .keyError

theorem Inputs.get_of_lookup {inputs : Inputs} {name text : List Char}
    (h : inputs.lookup name = some text) : inputs.get name = .ok text := by
  rw [Inputs.get, h]

/-- `"inp_" in name`. -/
def isInput (name : List Char) : Bool := decide ("inp_".toList <:+: name)

/-- The part of a form an editing key works on: the text of the selected field, `input_cursor` and
`input_display_position`. -/
@[ext]
structure Field where
  text : List Char
  cursor : Int
  position : Int
  deriving DecidableEq, Repr

namespace Field

/-- The branch of `nav_r`, for a field of which `cols` characters are shown. -/
def right (cols : Int) (d : Field) : Field :=
  let cursor := d.cursor + 1
  if cursor = d.text.length then { d with cursor := 0, position := 0 }
  else if cursor = d.position + cols then { d with cursor, position := d.position + 1 }
  else { d with cursor }

/-- The first half of the branch of `nav_l` and `nav_b`. -/
def left (cols : Int) (d : Field) : Field :=
  let cursor := d.cursor - 1
  if cursor < 0 then
    let position := d.text.length - cols
    { d with cursor := d.text.length - 1, position := if position < 0 then 0 else position }
  else if cursor < d.position then { d with cursor, position := d.position - 1 }
  else { d with cursor }

/-- The second half, for `nav_b`: the character at the cursor is cut out, unless it is the last one. -/
def cut (cols : Int) (d : Field) : Field :=
  if d.cursor ≠ d.text.length - 1 then
    let text := Py.sliceTo d.text d.cursor ++ Py.sliceFrom d.text (d.cursor + 1)
    if text.length > cols ∧ (Py.sliceFrom text d.position).length < cols then
      { d with text, position := text.length - cols }
    else if text.length ≤ cols then { d with text, position := 0 }
    else { d with text }
  else d

/-- One insertion at the cursor. -/
def put (cols : Int) (d : Field) (piece : List Char) : Field :=
  let cursor := d.cursor + piece.length
  { text := Py.sliceTo d.text d.cursor ++ piece ++ Py.sliceFrom d.text d.cursor
    cursor
    position := if cursor = d.position + cols then d.position + 1 else d.position }

/-- The last branch: a longer string is inserted character by character. -/
def type (cols : Int) (d : Field) (inp : List Char) : Field :=
  if inp.length > 1 then inp.foldl (fun d chr => d.put cols [chr]) d else d.put cols inp

/-- The branches of `update_buffer` on an input row. -/
def dispatch (cols : Int) (d : Field) : Key → Field
  | .navR => d.right cols
  | .navL => d.left cols
  | .navB => (d.left cols).cut cols
  | .ac => ⟨[' '], 0, 0⟩
  | .token inp => d.type cols inp
  | .navU | .navD => d

/-- A branch, then the text is stripped and closed by one space. -/
def press (cols : Int) (d : Field) (key : Key) : Field :=
  { d.dispatch cols key with text := Py.rstrip (d.dispatch cols key).text ++ [' '] }

end Field

@[ext]
structure Form where
  rows : Int
  inputList : Inputs
  formList : List (List Char)
  inputCursor : Int
  inputDisplayPosition : Int
  inputCols : Int
  actualRows : Int
  refreshRows : Int × Int
  menuDisplaySize : Int
  menuDisplayPosition : Int
  displayBuffer : List (List Char)
  menuCursor : Int
  displayCursor : Int

namespace Form

/-- `__init__`. -/
def init (rows : Int) (inputList : Inputs) (formList : List (List Char)) (menuCursor : Int := 0)
    (menuDisplayPosition : Int := 0) (inputCursor : Int := 0) (inputDisplayPosition : Int := 0)
    (inputCols : Int := 21 - 2) : Form :=
  let actualRows := if (formList.length : Int) ≥ rows then rows else formList.length
  { rows, inputList, formList, inputCursor, inputDisplayPosition, inputCols, actualRows
    refreshRows := (0, actualRows)
    menuDisplaySize := actualRows
    menuDisplayPosition
    displayBuffer := Py.slice formList menuDisplayPosition (menuDisplayPosition + actualRows)
    menuCursor
    displayCursor := menuCursor - menuDisplayPosition }

/-- The branch of `nav_d`. -/
def moveDown (f : Form) : Form :=
  let menuCursor := f.menuCursor + 1
  let f :=
    if menuCursor = f.formList.length then
      { f with menuCursor := 0, menuDisplayPosition := 0, refreshRows := (0, f.actualRows) }
    else if menuCursor - f.menuDisplayPosition = f.actualRows then
      { f with
        menuCursor
        menuDisplayPosition := f.menuDisplayPosition + 1
        refreshRows := (0, f.actualRows) }
    else
      { f with
        menuCursor
        refreshRows :=
          (menuCursor - 1 - f.menuDisplayPosition, menuCursor - f.menuDisplayPosition + 1) }
  { f with inputCursor := 0, inputDisplayPosition := 0 }

/-- The branch of `nav_u`. -/
def moveUp (f : Form) : Form :=
  let menuCursor := f.menuCursor - 1
  let f :=
    if menuCursor < 0 then
      { f with
        menuCursor := f.formList.length - 1
        menuDisplayPosition := f.formList.length - f.actualRows
        refreshRows := (0, f.actualRows) }
    else if menuCursor < f.menuDisplayPosition then
      { f with
        menuCursor
        menuDisplayPosition := f.menuDisplayPosition - 1
        refreshRows := (0, f.actualRows) }
    else
      { f with
        menuCursor
        refreshRows := (menuCursor - f.menuDisplayPosition, menuCursor - f.menuDisplayPosition + 2) }
  { f with inputCursor := 0, inputDisplayPosition := 0 }

/-- The text an editing key starts from: `AC` is the one key that does not read `input_list`. -/
def inputText (f : Form) (name : List Char) : Key → Except Py.Err (List Char)
  | .ac => .ok [' ']
  | _ => f.inputList.get name

/-- The branches of the other keys: they edit the selected row if it is an input row, and do nothing
on a label. -/
def edit (f : Form) (key : Key) : Except Py.Err Form := do
  let name ← Py.item f.formList f.menuCursor
  if isInput name then
    let text ← f.inputText name key
    let field := Field.press f.inputCols ⟨text, f.inputCursor, f.inputDisplayPosition⟩ key
    let row := f.menuCursor - f.menuDisplayPosition
    pure { f with
      refreshRows := (row, row + 1)
      inputList := f.inputList.insert name field.text
      inputCursor := field.cursor
      inputDisplayPosition := field.position }
  else pure f

def redisplay (f : Form) : Form :=
  { f with
    displayBuffer :=
      Py.slice f.formList f.menuDisplayPosition (f.menuDisplayPosition + f.menuDisplaySize)
    displayCursor := f.menuCursor - f.menuDisplayPosition }

def updateBuffer (f : Form) : Key → Except Py.Err Form
  | .navD => .ok f.moveDown.redisplay
  | .navU => .ok f.moveUp.redisplay
  | key => do
      let f ← f.edit key
      pure f.redisplay

def update (f : Form) : Form :=
  let actualRows := if (f.formList.length : Int) ≥ f.rows then f.rows else f.formList.length
  { f with
    actualRows
    refreshRows := (0, actualRows)
    menuDisplaySize := actualRows
    menuDisplayPosition := 0
    displayBuffer := Py.slice f.formList 0 (0 + actualRows)
    menuCursor := 0
    displayCursor := 0 - 0 }

/-- What an app does to show its own form in the shared object. -/
def assign (f : Form) (inputList : Inputs) (formList : List (List Char)) : Form :=
  update { f with inputList, formList }

/-! ### Drawing -/

/-- A character on the screen, and whether it is drawn inverted. -/
abbrev Cell := Char × Bool

/-- `buf_current` before it is padded: the label, or the part of the field the offset selects. -/
def rowText (f : Form) (name : List Char) : Except Py.Err (List Char) :=
  if isInput name then do
    let field ← f.inputList.get name
    pure ("=>".toList ++
      Py.slice field f.inputDisplayPosition (f.inputDisplayPosition + f.inputCols))
  else .ok name

/-- The padding of `refresh`: a text shorter than `inp_cols` is filled up to two columns more. -/
def padRow (cols : Int) (text : List Char) : List Char :=
  if (text.length : Int) < cols then text ++ Py.spaces (cols - text.length + 2) else text

/-- Whether the character `j` of row `i` is inverted: every one of a selected label, and the one at the
cursor of a selected field. -/
def inverted (f : Form) (name : List Char) (i : Int) (j : Nat) : Bool :=
  decide (i = f.displayCursor) &&
    (!isInput name || decide ((j : Int) + f.inputDisplayPosition = f.inputCursor + 2))

def drawRow (f : Form) (i : Int) : Except Py.Err (List Cell) := do
  let name ← Py.item f.displayBuffer i
  let text ← f.rowText name
  pure ((padRow f.inputCols text).mapIdx fun j chr => (chr, f.inverted name i j))

/-- `refresh`: the rows of `refresh_rows` are written over what is on the screen. The state line it
writes on the last page of the display, below the rows of a form, is left out. -/
def refresh (f : Form) (screen : RowScreen.Screen Cell) : Except Py.Err (RowScreen.Screen Cell) :=
  RowScreen.paintRows f.drawRow f.refreshRows.1 f.refreshRows.2 screen

/-- The screen after `clear_display`: nothing is lit, as with a space that is not inverted. -/
def cleared : RowScreen.Screen Cell := fun _ _ => (' ', false)

/-- What `graph` does when it returns from a plot: all rows are to be refreshed, on a cleared display. -/
def redrawAll (f : Form) : Except Py.Err (RowScreen.Screen Cell) :=
  refresh { f with refreshRows := (0, f.actualRows) } cleared

/-- One key as the apps apply it: `update_buffer`, then `refresh`. -/
def press (s : Form × RowScreen.Screen Cell) (key : Key) :
    Except Py.Err (Form × RowScreen.Screen Cell) := do
  let f ← s.1.updateBuffer key
  let screen ← f.refresh s.2
  pure (f, screen)

end Form

end CalSci
