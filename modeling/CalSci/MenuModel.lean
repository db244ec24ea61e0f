import CalSci.Keys
import CalSci.PySequence
import CalSci.RowScreen

/-! `Menu` of `process_modules/menu_buffer.py`: a list of labels, one of which is selected, and the
window of at most `rows` labels shown on the screen; and the drawing of its rows by `Tbf.refresh` of
`process_modules/menu_buffer_uploader.py`. -/

namespace CalSci

structure Menu where
  rows : Int
  cols : Int
  menuList : List (List Char)
  menuCursor : Int
  menuDisplayPosition : Int
  menuDisplaySize : Int
  displayBuffer : List (List Char)
  displayCursor : Int
  refreshRows : Int × Int
  deriving DecidableEq, Repr

namespace Menu

/-- `__init__`. -/
def init (rows cols : Int) (menuList : List (List Char)) (menuCursor : Int := 0)
    (menuDisplayPosition : Int := 0) : Menu :=
  let menuDisplaySize := min rows menuList.length
  { rows, cols, menuList, menuCursor, menuDisplayPosition, menuDisplaySize
    displayBuffer :=
      Py.slice menuList menuDisplayPosition (menuDisplayPosition + menuDisplaySize)
    displayCursor := menuCursor - menuDisplayPosition
    refreshRows := (0, menuDisplaySize) }

def moveDown (m : Menu) : Menu :=
  let menuCursor := m.menuCursor + 1
  if menuCursor = m.menuList.length then
    { m with menuCursor := 0, menuDisplayPosition := 0, refreshRows := (0, m.menuDisplaySize) }
  else if menuCursor - m.menuDisplayPosition = m.menuDisplaySize then
    { m with
      menuCursor
      menuDisplayPosition := m.menuDisplayPosition + 1
      refreshRows := (0, m.menuDisplaySize) }
  else
    { m with
      menuCursor
      refreshRows :=
        (menuCursor - 1 - m.menuDisplayPosition, menuCursor - m.menuDisplayPosition + 1) }

def moveUp (m : Menu) : Menu :=
  let menuCursor := m.menuCursor - 1
  if menuCursor < 0 then
    { m with
      menuCursor := m.menuList.length - 1
      menuDisplayPosition := max 0 (m.menuList.length - m.menuDisplaySize)
      refreshRows := (0, m.menuDisplaySize) }
  else if menuCursor < m.menuDisplayPosition then
    { m with
      menuCursor
      menuDisplayPosition := m.menuDisplayPosition - 1
      refreshRows := (0, m.menuDisplaySize) }
  else
    { m with
      menuCursor
      refreshRows := (menuCursor - m.menuDisplayPosition, menuCursor - m.menuDisplayPosition + 2) }

def redisplay (m : Menu) : Menu :=
  { m with
    displayBuffer :=
      Py.slice m.menuList m.menuDisplayPosition (m.menuDisplayPosition + m.menuDisplaySize)
    displayCursor := m.menuCursor - m.menuDisplayPosition }

def updateBuffer (m : Menu) : Key → Menu
  | .navD => m.moveDown.redisplay
  | .navU => m.moveUp.redisplay
  | _ => m.redisplay

def update (m : Menu) : Menu :=
  let menuDisplaySize := min m.rows m.menuList.length
  { m with
    menuCursor := 0
    menuDisplayPosition := 0
    menuDisplaySize
    displayBuffer := Py.slice m.menuList 0 (0 + menuDisplaySize)
    displayCursor := 0 - 0
    refreshRows := (0, menuDisplaySize) }

/-! ### Drawing -/

/-- `buf[i] += " " * (cols - len(buf[i]))`. -/
def padRow (cols : Int) (text : List Char) : List Char := text ++ Py.spaces (cols - text.length)

/-- The characters `refresh` writes for row `i`, each with whether it is inverted. -/
def drawRow (m : Menu) (i : Int) : Except Py.Err (List (Char × Bool)) := do
  let text ← Py.item m.displayBuffer i
  pure ((padRow m.cols text).map fun chr => (chr, decide (i = m.displayCursor)))

/-- `refresh`. It pads the rows of `display_buffer` in place, where padding them again adds nothing, so
the object is left as it is; the state line below the rows of a menu is left out. -/
def refresh (m : Menu) (screen : RowScreen.Screen (Char × Bool)) :
    Except Py.Err (RowScreen.Screen (Char × Bool)) :=
  RowScreen.paintRows m.drawRow m.refreshRows.1 m.refreshRows.2 screen

end Menu

/-- The shared menu and what is on the screen. -/
abbrev MenuPane := Menu × RowScreen.Screen (Char × Bool)

namespace MenuPane

/-- The shared `Menu()` at boot. An app starts by giving it a list and calling `update`, which sets every
attribute but `rows` and `cols` anew. -/
def boot : MenuPane :=
  (Menu.init 7 21 ["label_0".toList, "label_1".toList, "label_2".toList], fun _ _ => (' ', false))

def clear (p : MenuPane) : MenuPane := (p.1, fun _ _ => (' ', false))

/-- What an app does to show its own list: `menu.menu_list = list`, `menu.update()`, and a redraw. -/
def assign (p : MenuPane) (list : List (List Char)) : Except Py.Err MenuPane := do
  let m := Menu.update { p.1 with menuList := list }
  let screen ← m.refresh p.2
  pure (m, screen)

/-- One key as the apps apply it: `update_buffer`, then `refresh`. -/
def press (p : MenuPane) (key : Key) : Except Py.Err MenuPane := do
  let m := p.1.updateBuffer key
  let screen ← m.refresh p.2
  pure (m, screen)

end MenuPane

end CalSci
