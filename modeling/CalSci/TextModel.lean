import CalSci.Keys
import CalSci.PySequence
import CalSci.Runs

/-! `Textbuffer` of `process_modules/text_buffer.py`: the text with its end marker and padding, the
cursor, and the window of `rows * cols` cells shown on the screen. `update_buffer` and `buffer` are
translated branch by branch; the indices `menu_buffer` and `display_buffer` are the lists the code
builds, so that a window outside the text raises as it does there. -/

namespace CalSci.Text

/-- The character `𖤓` that closes the text. -/
def marker : Char := '𖤓'

/-- The fields of `Textbuffer` (`text_buffer_with_spaces` is set once and never read). -/
structure Textbuffer where
  textBuffer : List Char
  menuBufferSize : Int
  menuBuffer : List Int
  menuBufferCursor : Int
  rows : Nat
  cols : Nat
  displayBufferPosition : Int
  displayBuffer : List Int
  noLastSpaces : Int
  bufferLength : Int
  extraSpaces : Int
  textBufferNospace : Int
  refreshArea : Int × Int
  deriving DecidableEq, Repr

namespace Textbuffer

/-- `rows * cols`, the number of cells on the screen. -/
def cells (t : Textbuffer) : Int := t.rows * t.cols

/-- `remaining_spaces`: the spaces that bring a length up to a multiple of `cols`. -/
def remainingSpaces (cols : Nat) (bufferLength : Int) : Int :=
  if bufferLength % cols ≠ 0 then cols - bufferLength % cols else 0

/-- `extra_spaces`: the further spaces that fill the screen. -/
def screenSpaces (cells menuBufferSize : Int) : Int :=
  if menuBufferSize < cells then cells - menuBufferSize else 0

/-- The assignments of `buffer`: the text is padded to whole rows and to a full screen, and the
indices of the text and of the window are listed anew. A padding of no spaces appends nothing, so the
two guards around the appends are left to `Py.spaces`. -/
def padBuffer (t : Textbuffer) : Textbuffer :=
  let bufferLength : Int := t.textBuffer.length
  let remaining := remainingSpaces t.cols bufferLength
  let extraSpaces := screenSpaces t.cells (bufferLength + remaining)
  let menuBufferSize := bufferLength + remaining + extraSpaces
  let menuBuffer := Py.range menuBufferSize
  { t with
    textBuffer := t.textBuffer ++ Py.spaces remaining ++ Py.spaces extraSpaces
    menuBufferSize, menuBuffer, bufferLength, extraSpaces
    textBufferNospace := bufferLength - 1
    noLastSpaces := remaining
    displayBuffer :=
      Py.slice menuBuffer t.displayBufferPosition (t.displayBufferPosition + t.cells) }

/-- Row `i` of the window, read off the padded text through `display_buffer`. -/
def bufferRow (t : Textbuffer) (i : Nat) : Except Py.Err (List Char) := do
  let first ← Py.item t.displayBuffer (t.cols * i)
  let last ← Py.item t.displayBuffer (t.cols * i + t.cols - 1)
  pure (Py.slice t.textBuffer first (last + 1))

/-- `buffer`: the new state and the list of rows returned. -/
def buffer (t : Textbuffer) : Except Py.Err (Textbuffer × List (List Char)) := do
  let t := t.padBuffer
  let newRowsList ← (List.range t.rows).mapM t.bufferRow
  pure (t, newRowsList)

def allClear (t : Textbuffer) : Textbuffer :=
  { t with
    refreshArea := (0, t.cells)
    textBuffer := [marker]
    textBufferNospace := 0
    menuBufferSize := 1
    menuBuffer := Py.range 1
    menuBufferCursor := 0
    displayBufferPosition := 0
    noLastSpaces := 0 }

/-- The start of a refreshed area: the cell of `position` in the window, as the code spells it. -/
def areaStart (t : Textbuffer) (position : Int) : Int :=
  (position - t.displayBufferPosition) % t.cols
    + (position - t.displayBufferPosition) / t.cols * t.cols

/-- The end of a refreshed area: the end of the row of `position`. -/
def areaEnd (t : Textbuffer) (position : Int) : Int :=
  (position - t.displayBufferPosition) / t.cols * t.cols + t.cols

/-- The branch of `nav_d` and `nav_r`: the cursor goes forward by `step`. -/
def moveForward (t : Textbuffer) (step : Int) : Except Py.Err Textbuffer := do
  let pastBufferCursor := t.menuBufferCursor
  let cursor := pastBufferCursor + step
  if cursor ≥ t.bufferLength then
    pure { t with menuBufferCursor := 0, displayBufferPosition := 0, refreshArea := (0, t.cells) }
  else
    let last ← Py.item t.displayBuffer (-1)
    if cursor > last then
      pure { t with
        menuBufferCursor := cursor
        displayBufferPosition := t.displayBufferPosition + t.cols
        refreshArea := (0, t.cells) }
    else
      pure { t with
        menuBufferCursor := cursor
        refreshArea := (t.areaStart pastBufferCursor, t.areaEnd cursor) }

/-- The first half of the branch of `nav_u`, `nav_l` and `nav_b`: the cursor goes back by `step`, to
the end of the text and the last window when that is before its start. -/
def moveBack (t : Textbuffer) (step txtBufSize : Int) (areaStop : Int) :
    Except Py.Err Textbuffer := do
  let cursor := t.menuBufferCursor - step
  if cursor < 0 then
    pure { t with
      refreshArea := (0, t.cells)
      menuBufferCursor :=
        if txtBufSize ≤ t.cells then t.bufferLength - 1 else txtBufSize - t.noLastSpaces - 1
      displayBufferPosition := txtBufSize - t.cells }
  else
    let first ← Py.item t.displayBuffer 0
    if cursor < first then
      pure { t with
        menuBufferCursor := cursor
        refreshArea := (0, t.cells)
        displayBufferPosition := t.displayBufferPosition - t.cols }
    else
      pure { t with menuBufferCursor := cursor, refreshArea := (t.areaStart cursor, areaStop) }

/-- For `nav_b` the window follows a last row that is about to disappear. -/
def followLastRow (t : Textbuffer) (txtBufSize : Int) : Except Py.Err Textbuffer := do
  let lastCell := txtBufSize - t.noLastSpaces - t.extraSpaces - 1
  let lastRow ← Py.item t.displayBuffer (-t.cols)
  if lastCell = lastRow ∧ lastCell ≥ t.cells then
    pure { t with
      displayBufferPosition := t.displayBufferPosition - t.cols
      refreshArea := (0, t.cells) }
  else pure t

/-- For `nav_b` the character at the cursor is cut out of the text. -/
def cutChar (t : Textbuffer) (goingBottom : Bool) : Textbuffer :=
  { t with
    textBuffer := Py.sliceTo t.textBuffer t.menuBufferCursor
      ++ Py.sliceFrom t.textBuffer (t.menuBufferCursor + 1)
    textBufferNospace :=
      if goingBottom then t.textBufferNospace
      else if t.textBufferNospace - 1 < 0 then 0
      else t.textBufferNospace - 1 }

/-- The last branch: any other string is inserted at the cursor. -/
def insertText (t : Textbuffer) (text : List Char) (txtBufSize : Int) :
    Except Py.Err Textbuffer := do
  let pastBufferCursor := t.menuBufferCursor
  let cursor := t.menuBufferCursor + text.length
  let menuBufferSize := t.menuBufferSize + text.length
  let area := (t.areaStart pastBufferCursor, t.cells)
  let t :=
    { t with
      textBuffer := Py.slice t.textBuffer 0 t.menuBufferCursor ++ text
        ++ Py.slice t.textBuffer t.menuBufferCursor txtBufSize
      textBufferNospace := t.textBufferNospace + text.length
      menuBufferSize
      menuBuffer := Py.range menuBufferSize
      menuBufferCursor := cursor
      refreshArea := area }
  let last ← Py.item t.displayBuffer (-1)
  if cursor > last then
    pure { t with
      displayBufferPosition := cursor - cursor % t.cols - (t.rows - 1) * t.cols
      refreshArea := (0, t.cells) }
  else pure t

def dispatch (t : Textbuffer) (txtBufSize : Int) : Key → Except Py.Err Textbuffer
  | .navD => t.moveForward t.cols
  | .navR => t.moveForward 1
  | .navU => t.moveBack t.cols txtBufSize (t.areaEnd t.menuBufferCursor)
  | .navL => t.moveBack 1 txtBufSize (t.areaEnd t.menuBufferCursor)
  | .navB => do
      let moved ← t.moveBack 1 txtBufSize t.cells
      let followed ← moved.followLastRow txtBufSize
      pure (followed.cutChar (t.menuBufferCursor - 1 < 0))
  | .ac => pure t.allClear
  | .token text => t.insertText text txtBufSize

/-- `update_buffer`: one of the branches, then the text is cut at its length and closed again. -/
def updateBuffer (t : Textbuffer) (text : Key) : Except Py.Err Textbuffer := do
  let t := { t with refreshArea := (0, t.cells) }
  let txtBufSize := (← Py.item t.menuBuffer (-1)) + 1
  let t ← t.dispatch txtBufSize text
  pure { t with textBuffer := Py.slice t.textBuffer 0 t.textBufferNospace ++ [marker] }

/-- `cursor`: the cell of the cursor in the window. -/
def cursor (t : Textbuffer) : Int := t.menuBufferCursor - t.displayBufferPosition

/-- The rows `Tbf.refresh` redraws: `range(ref_ar[0] // cols, ref_ar[1] // cols)`. -/
def Refreshes (t : Textbuffer) (i : Nat) : Prop :=
  t.refreshArea.1 / t.cols ≤ i ∧ (i : Int) < t.refreshArea.2 / t.cols

instance (t : Textbuffer) (i : Nat) : Decidable (t.Refreshes i) := by
  unfold Refreshes
  infer_instance

/-- The characters of a row as `Tbf.refresh` draws them, each with whether it is inverted. -/
def drawRow (t : Textbuffer) (row : List Char) (i : Nat) : List (Char × Bool) :=
  row.mapIdx fun j char => (char, decide ((j : Int) + i * t.cols = t.cursor))

/-- The expression `calculate` evaluates on `ans`: `text_buffer[:text_buffer_nospace]`. -/
def evalText (t : Textbuffer) : List Char := Py.sliceTo t.textBuffer t.textBufferNospace

end Textbuffer

open Textbuffer

/-- `__init__`: the new object, and the rows its own call of `buffer` returned. -/
def init (rows cols : Nat) (textBuffer : List Char := [marker]) :
    Except Py.Err (Textbuffer × List (List Char)) := do
  let textBuffer := if textBuffer ≠ [marker] then textBuffer ++ [marker] else textBuffer
  let t : Textbuffer :=
    { textBuffer
      menuBufferSize := textBuffer.length
      menuBuffer := Py.range textBuffer.length
      menuBufferCursor := 0
      rows, cols
      displayBufferPosition := 0
      displayBuffer := Py.slice (Py.range textBuffer.length) 0 (0 + rows * cols)
      noLastSpaces := 0
      bufferLength := textBuffer.length
      extraSpaces := 0
      textBufferNospace := 0
      refreshArea := (0, rows * cols) }
  let (t, shown) ← t.buffer
  let t ← t.updateBuffer (.token [])
  pure (t, shown)

/-- One key as the apps apply it: `update_buffer`, then `buffer` for the redraw. -/
def press (s : Textbuffer × List (List Char)) (key : Key) :
    Except Py.Err (Textbuffer × List (List Char)) := do
  let t ← s.1.updateBuffer key
  t.buffer

/-- A sequence of keys on a fresh `Textbuffer(rows, cols)`: the object and the rows last returned. -/
def session (rows cols : Nat) (keys : List Key) : Except Py.Err (Textbuffer × List (List Char)) := do
  let fresh ← init rows cols
  Runs.run press fresh keys

/-- What is on the screen: the rows returned by `buffer`, `cursor()` and `display_buffer_position`. -/
structure Picture where
  shown : List (List Char)
  cursor : Int
  position : Int
  deriving DecidableEq, Repr

/-- What `calculate` does on `ans` with the evaluated result: `all_clear`, `update_buffer(res)`, and the
`buffer` of the redraw. -/
def showResult (t : Textbuffer) (res : List Char) : Except Py.Err Picture := do
  let t ← t.allClear.updateBuffer (Key.ofText res)
  let (t, shown) ← t.buffer
  pure ⟨shown, t.cursor, t.displayBufferPosition⟩

end CalSci.Text
