import CalSci.PanelRows

/-! Redrawing a menu. As long as the list is not empty, the rows to be refreshed are rows of the window,
and neither a new list nor a key raises. -/

namespace CalSci

open RowWindow

namespace Menu

variable {m : Menu} {rows : Int} {w : Window}

/-- The rows to be refreshed are rows of the window. -/
structure Drawable (m : Menu) (rows : Int) (w : Window) : Prop where
  shows : m.panel.Shows rows w
  first_nonneg : 0 ≤ m.refreshRows.1
  last_le : m.refreshRows.2 ≤ w.size

theorem drawRow_of_item {i : Int} {text : List Char} (h : Py.item m.displayBuffer i = .ok text) :
    m.drawRow i = .ok ((padRow m.cols text).map fun chr => (chr, decide (i = m.displayCursor))) := by
  rw [drawRow, h]
  rfl

theorem Drawable.refresh (h : m.Drawable rows w) (screen : RowScreen.Screen (Char × Bool)) :
    ∃ screen', m.refresh screen = .ok screen' := by
  have hrow : ∀ i, ∃ cells, m.refreshRows.1 ≤ i → i < m.refreshRows.2 → m.drawRow i = .ok cells := by
    intro i
    by_cases hi : m.refreshRows.1 ≤ i ∧ i < m.refreshRows.2
    · have hfirst := h.first_nonneg
      have hlast := h.last_le
      obtain ⟨n, rfl⟩ := Int.eq_ofNat_of_zero_le (show 0 ≤ i by omega)
      obtain ⟨entry, hentry, -⟩ := h.shows.item_buffer (show n < w.size by omega)
      exact ⟨_, fun _ _ => drawRow_of_item hentry⟩
    · exact ⟨[], fun hfirst hlast => absurd ⟨hfirst, hlast⟩ hi⟩
  choose cells hcells using hrow
  exact ⟨_, RowScreen.paintRows_eq hcells screen⟩

/-- A key keeps the rows to be refreshed inside the window. -/
theorem Drawable.updateBuffer (h : m.Drawable rows w) (key : Key) :
    (m.updateBuffer key).Drawable rows (key.moves w) := by
  have hshows := updateBuffer_shows h.shows key
  cases key with
  | navD =>
      have hle := w.downRows_le
      refine ⟨hshows, ?_, ?_⟩
      · rw [Menu.updateBuffer, moveDown_eq h.shows]
        exact Int.natCast_nonneg _
      · rw [Menu.updateBuffer, moveDown_eq h.shows]
        exact Int.ofNat_le.mpr hle
  | navU =>
      have hle := w.upRows_le
      refine ⟨hshows, ?_, ?_⟩
      · rw [Menu.updateBuffer, moveUp_eq h.shows]
        exact Int.natCast_nonneg _
      · rw [Menu.updateBuffer, moveUp_eq h.shows]
        exact Int.ofNat_le.mpr hle
  | navL | navR | navB | ac | token =>
      refine ⟨hshows, ?_, ?_⟩
      · rw [Menu.updateBuffer, redisplay_eq h.shows]
        · exact h.first_nonneg
        all_goals simp
      · rw [Menu.updateBuffer, redisplay_eq h.shows]
        · exact h.last_le
        all_goals simp

/-- A list that is not empty is shown from its start. -/
theorem drawable_update (m : Menu) (hrows : 1 ≤ m.rows) (hlist : m.menuList ≠ []) :
    ∃ w, m.update.Drawable m.rows w ∧ w.top = 0 ∧ w.cursor = 0 := by
  obtain ⟨w, hw⟩ := Panel.start_shows hrows hlist
  have hshows : m.update.panel.Shows m.rows w := hw
  have hposition : (0 : Int) = w.top := hw.position
  have hcursor : (0 : Int) = w.cursor := hw.cursor
  exact ⟨w, ⟨hshows, le_refl 0, hw.size.ge⟩, by omega, by omega⟩

end Menu

namespace MenuPane

variable {p : MenuPane} {rows : Int} {w : Window}

/-- Showing a list that is not empty does not raise. -/
theorem assign_drawable (hrows : 1 ≤ p.1.rows) {list : List (List Char)} (hlist : list ≠ []) :
    ∃ p' w, p.assign list = .ok p' ∧ p'.1 = Menu.update { p.1 with menuList := list } ∧
      p'.1.Drawable p.1.rows w ∧ w.top = 0 ∧ w.cursor = 0 := by
  obtain ⟨w, hw, htop, hcursor⟩ := Menu.drawable_update { p.1 with menuList := list } hrows hlist
  obtain ⟨screen, hscreen⟩ := hw.refresh p.2
  refine ⟨(Menu.update { p.1 with menuList := list }, screen), w, ?_, rfl, hw, htop, hcursor⟩
  rw [assign, hscreen]
  rfl

/-- A key on such a list does not raise. -/
theorem press_drawable (h : p.1.Drawable rows w) (key : Key) :
    ∃ p', p.press key = .ok p' ∧ p'.1 = p.1.updateBuffer key ∧ p'.1.Drawable rows (key.moves w) := by
  have h' := h.updateBuffer key
  obtain ⟨screen, hscreen⟩ := h'.refresh p.2
  refine ⟨(p.1.updateBuffer key, screen), ?_, rfl, h'⟩
  rw [press, hscreen]
  rfl

end MenuPane

end CalSci
