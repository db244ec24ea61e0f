import CalSci.LineEditor

/-! The strings the keypad delivers to `update_buffer`: five navigation words, the clear word, and any
other string, which is text to insert. -/

namespace CalSci

open LineEditor

/-- A string given to `update_buffer`, as the code tells them apart. -/
inductive Key where
  | navL
  | navR
  | navU
  | navD
  | navB
  | ac
  | token (text : List Char)
  deriving DecidableEq, Repr

namespace Key

/-- The comparisons the buffers make on the string they are given. -/
def ofText (text : List Char) : Key :=
  if text = "nav_l".toList then .navL
  else if text = "nav_r".toList then .navR
  else if text = "nav_u".toList then .navU
  else if text = "nav_d".toList then .navD
  else if text = "nav_b".toList then .navB
  else if text = "AC".toList then .ac
  else .token text

/-- A plain editor on a screen of `cols` columns, one key at a time. -/
def edit (cols : Nat) (e : Editor Char) : Key → Editor Char
  | .navL => e.back 1
  | .navR => e.forward 1
  | .navU => e.back cols
  | .navD => e.forward cols
  | .navB => e.backspace
  | .ac => Editor.empty
  | .token text => e.insert text

/-- A plain editor of one line, which has no other row to go to. -/
def editLine (e : Editor Char) (key : Key) : Editor Char := key.edit 0 e

end Key

end CalSci
