import Mathlib.Data.List.Basic

/-! The plain line editor: a list of characters and a cursor between its two ends. It is the
specification the screen editors are compared with, and says nothing of padding, windows or redraws.
The characters are of an arbitrary type. -/

namespace LineEditor

/-- A text with a cursor in `0..length`. -/
@[ext]
structure Editor (α : Type) where
  text : List α
  cursor : Nat
  cursor_le : cursor ≤ text.length

namespace Editor

variable {α : Type}

def empty : Editor α := ⟨[], 0, Nat.zero_le _⟩

/-- Inserts `word` whole at the cursor, which ends after it. -/
def insert (e : Editor α) (word : List α) : Editor α where
  text := e.text.take e.cursor ++ word ++ e.text.drop e.cursor
  cursor := e.cursor + word.length
  cursor_le := by
    have := e.cursor_le
    simp
    omega

/-- Removes the character before the cursor; at position 0 removes nothing and goes to the end. -/
def backspace (e : Editor α) : Editor α :=
  if h : e.cursor = 0 then ⟨e.text, e.text.length, Nat.le_refl _⟩
  else ⟨e.text.eraseIdx (e.cursor - 1), e.cursor - 1, by
    have := e.cursor_le
    rw [List.length_eraseIdx_of_lt (by omega)]
    omega⟩

/-- Moves back by `step`, to the end when that would be before the text. -/
def back (e : Editor α) (step : Nat) : Editor α :=
  if e.cursor < step then ⟨e.text, e.text.length, Nat.le_refl _⟩
  else ⟨e.text, e.cursor - step, by have := e.cursor_le; omega⟩

/-- Moves forward by `step`, to the start when that would pass the end. -/
def forward (e : Editor α) (step : Nat) : Editor α :=
  if h : e.text.length < e.cursor + step then ⟨e.text, 0, Nat.zero_le _⟩
  else ⟨e.text, e.cursor + step, by omega⟩

@[simp] theorem text_back (e : Editor α) (step : Nat) : (e.back step).text = e.text := by
  unfold back
  split <;> rfl

@[simp] theorem text_forward (e : Editor α) (step : Nat) : (e.forward step).text = e.text := by
  unfold forward
  split <;> rfl

@[simp] theorem text_insert (e : Editor α) (word : List α) :
    (e.insert word).text = e.text.take e.cursor ++ word ++ e.text.drop e.cursor := rfl

@[simp] theorem cursor_insert (e : Editor α) (word : List α) :
    (e.insert word).cursor = e.cursor + word.length := rfl

theorem cursor_back (e : Editor α) (step : Nat) :
    (e.back step).cursor = if e.cursor < step then e.text.length else e.cursor - step := by
  unfold back
  split <;> rfl

theorem cursor_forward (e : Editor α) (step : Nat) :
    (e.forward step).cursor = if e.text.length < e.cursor + step then 0 else e.cursor + step := by
  unfold forward
  split <;> rfl

theorem backspace_of_zero {e : Editor α} (h : e.cursor = 0) :
    e.backspace = ⟨e.text, e.text.length, Nat.le_refl _⟩ := by
  rw [backspace, dif_pos h]

theorem text_backspace_of_pos {e : Editor α} (h : 0 < e.cursor) :
    e.backspace.text = e.text.eraseIdx (e.cursor - 1) := by
  rw [backspace, dif_neg (by omega)]

theorem cursor_backspace_of_pos {e : Editor α} (h : 0 < e.cursor) :
    e.backspace.cursor = e.cursor - 1 := by
  rw [backspace, dif_neg (by omega)]

theorem length_insert (e : Editor α) (word : List α) :
    (e.insert word).text.length = e.text.length + word.length := by
  have := e.cursor_le
  simp
  omega

theorem length_backspace_of_pos {e : Editor α} (h : 0 < e.cursor) :
    e.backspace.text.length = e.text.length - 1 := by
  have := e.cursor_le
  rw [text_backspace_of_pos h, List.length_eraseIdx_of_lt (by omega)]

end Editor

end LineEditor
