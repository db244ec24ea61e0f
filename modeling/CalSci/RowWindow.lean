import Mathlib.Order.Nat

/-! A window of rows over a list of entries, one of which is selected. The window follows the
selection, which wraps around at both ends of the list. The type carries the invariant: the selected
entry is always in the window and the window always in the list. -/

namespace RowWindow

/-- `size` rows of a list of `len` entries, from the entry `top` on, with the entry `cursor` selected. -/
@[ext]
structure Window where
  len : Nat
  size : Nat
  cursor : Nat
  top : Nat
  top_le : top ≤ cursor
  cursor_lt : cursor < top + size
  bottom_le : top + size ≤ len

namespace Window

/-- The first `size` rows, with the first entry selected. -/
def start (len size : Nat) (hpos : 0 < size) (hle : size ≤ len) : Window :=
  ⟨len, size, 0, 0, Nat.le_refl _, by omega, by omega⟩

/-- The row of the window that shows the selected entry. -/
def row (w : Window) : Nat := w.cursor - w.top

/-- Selects the next entry; from the last one, the first. -/
def down (w : Window) : Window where
  len := w.len
  size := w.size
  cursor := if w.cursor + 1 = w.len then 0 else w.cursor + 1
  top := if w.cursor + 1 = w.len then 0
    else if w.cursor + 1 = w.top + w.size then w.top + 1 else w.top
  top_le := by
    have := w.top_le
    split_ifs <;> omega
  cursor_lt := by
    have := w.top_le
    have := w.cursor_lt
    split_ifs <;> omega
  bottom_le := by
    have := w.cursor_lt
    have := w.bottom_le
    split_ifs <;> omega

/-- Selects the previous entry; from the first one, the last. -/
def up (w : Window) : Window where
  len := w.len
  size := w.size
  cursor := if w.cursor = 0 then w.len - 1 else w.cursor - 1
  top := if w.cursor = 0 then w.len - w.size
    else if w.cursor = w.top then w.top - 1 else w.top
  top_le := by
    have := w.top_le
    have := w.cursor_lt
    have := w.bottom_le
    split_ifs <;> omega
  cursor_lt := by
    have := w.top_le
    have := w.cursor_lt
    have := w.bottom_le
    split_ifs <;> omega
  bottom_le := by
    have := w.top_le
    have := w.bottom_le
    split_ifs <;> omega

variable (w : Window)

theorem cursor_lt_len : w.cursor < w.len := w.cursor_lt.trans_le w.bottom_le

theorem row_lt : w.row < w.size := by
  have := w.top_le
  have := w.cursor_lt
  unfold row
  omega

theorem top_add_row : w.top + w.row = w.cursor := by
  have := w.top_le
  unfold row
  omega

/-- The rows to be drawn again after `down`: all of them when the window moves, otherwise the row that
loses the selection and the one that gains it. -/
def downRows : Nat × Nat :=
  if w.cursor + 1 = w.len ∨ w.cursor + 1 = w.top + w.size then (0, w.size) else (w.row, w.row + 2)

def upRows : Nat × Nat :=
  if w.cursor = 0 ∨ w.cursor = w.top then (0, w.size) else (w.row - 1, w.row + 1)

/-- The three ways to go down: around to the first entry, with the window, or inside it. -/
theorem down_cases :
    (w.cursor + 1 = w.len ∧ w.down.cursor = 0 ∧ w.down.top = 0 ∧ w.downRows = (0, w.size)) ∨
    (w.cursor + 1 ≠ w.len ∧ w.cursor + 1 = w.top + w.size ∧ w.down.cursor = w.cursor + 1 ∧
      w.down.top = w.top + 1 ∧ w.downRows = (0, w.size)) ∨
    (w.cursor + 1 ≠ w.len ∧ w.cursor + 1 ≠ w.top + w.size ∧ w.down.cursor = w.cursor + 1 ∧
      w.down.top = w.top ∧ w.downRows = (w.row, w.row + 2)) := by
  by_cases hwrap : w.cursor + 1 = w.len
  · exact .inl ⟨hwrap, if_pos hwrap, if_pos hwrap, if_pos (.inl hwrap)⟩
  · by_cases hscroll : w.cursor + 1 = w.top + w.size
    · exact .inr (.inl ⟨hwrap, hscroll, if_neg hwrap, (if_neg hwrap).trans (if_pos hscroll),
        if_pos (.inr hscroll)⟩)
    · exact .inr (.inr ⟨hwrap, hscroll, if_neg hwrap, (if_neg hwrap).trans (if_neg hscroll),
        if_neg (not_or.mpr ⟨hwrap, hscroll⟩)⟩)

/-- The three ways to go up. -/
theorem up_cases :
    (w.cursor = 0 ∧ w.up.cursor = w.len - 1 ∧ w.up.top = w.len - w.size ∧ w.upRows = (0, w.size)) ∨
    (w.cursor ≠ 0 ∧ w.cursor = w.top ∧ w.up.cursor = w.cursor - 1 ∧ w.up.top = w.top - 1 ∧
      w.upRows = (0, w.size)) ∨
    (w.cursor ≠ 0 ∧ w.cursor ≠ w.top ∧ w.up.cursor = w.cursor - 1 ∧ w.up.top = w.top ∧
      w.upRows = (w.row - 1, w.row + 1)) := by
  by_cases hwrap : w.cursor = 0
  · exact .inl ⟨hwrap, if_pos hwrap, if_pos hwrap, if_pos (.inl hwrap)⟩
  · by_cases hscroll : w.cursor = w.top
    · exact .inr (.inl ⟨hwrap, hscroll, if_neg hwrap, (if_neg hwrap).trans (if_pos hscroll),
        if_pos (.inr hscroll)⟩)
    · exact .inr (.inr ⟨hwrap, hscroll, if_neg hwrap, (if_neg hwrap).trans (if_neg hscroll),
        if_neg (not_or.mpr ⟨hwrap, hscroll⟩)⟩)

theorem downRows_le : w.downRows.2 ≤ w.size := by
  have := w.top_add_row
  have := w.row_lt
  obtain ⟨-, -, -, hrows⟩ | ⟨-, -, -, -, hrows⟩ | ⟨-, hscroll, -, -, hrows⟩ := w.down_cases
  · rw [hrows]
  · rw [hrows]
  · rw [hrows]
    dsimp only
    omega

theorem upRows_le : w.upRows.2 ≤ w.size := by
  have := w.row_lt
  obtain ⟨-, -, -, hrows⟩ | ⟨-, -, -, -, hrows⟩ | ⟨-, -, -, -, hrows⟩ := w.up_cases
  · rw [hrows]
  · rw [hrows]
  · rw [hrows]
    dsimp only
    omega

variable {w}

/-- A row outside `downRows` shows the same entry as before, and not the selected one either time. -/
theorem down_outside {i : Nat} (hi : i < w.size) (hout : i < w.downRows.1 ∨ w.downRows.2 ≤ i) :
    w.down.top = w.top ∧ i ≠ w.row ∧ i ≠ w.down.row := by
  have hrow : w.down.row = w.down.cursor - w.down.top := rfl
  have hrow' : w.row = w.cursor - w.top := rfl
  have := w.top_le
  obtain ⟨-, -, -, hrows⟩ | ⟨-, -, -, -, hrows⟩ | ⟨-, -, hcursor, htop, hrows⟩ := w.down_cases
  · rw [hrows] at hout
    omega
  · rw [hrows] at hout
    omega
  · rw [hrows] at hout
    dsimp only at hout
    exact ⟨htop, by omega, by omega⟩

/-- A row outside `upRows` shows the same entry as before, and not the selected one either time. -/
theorem up_outside {i : Nat} (hi : i < w.size) (hout : i < w.upRows.1 ∨ w.upRows.2 ≤ i) :
    w.up.top = w.top ∧ i ≠ w.row ∧ i ≠ w.up.row := by
  have hrow : w.up.row = w.up.cursor - w.up.top := rfl
  have hrow' : w.row = w.cursor - w.top := rfl
  have := w.top_le
  obtain ⟨-, -, -, hrows⟩ | ⟨-, -, -, -, hrows⟩ | ⟨-, hscroll, hcursor, htop, hrows⟩ := w.up_cases
  · rw [hrows] at hout
    omega
  · rw [hrows] at hout
    omega
  · rw [hrows] at hout
    dsimp only at hout
    exact ⟨htop, by omega, by omega⟩

end Window

end RowWindow
