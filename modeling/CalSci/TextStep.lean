import CalSci.TextWindow

/-! One key of `Textbuffer` is one step of the window editor: each branch of `update_buffer` is
computed on a buffer that shows a window, and `buffer` either shows the new window or raises. -/

namespace CalSci.Text

open LineEditor Textbuffer

variable {rows cols : Nat} {v : View} {t : Textbuffer}

theorem Textbuffer.areaStart_eq (t : Textbuffer) (position : Int) :
    t.areaStart position = position - t.displayBufferPosition := by
  rw [areaStart, Int.emod_add_ediv_mul]

theorem View.shrinks_iff : v.Shrinks rows cols ↔ (v.ed.text.length : Int) = v.top + rows * cols - cols ∧
    (v.ed.text.length : Int) ≥ rows * cols := by
  unfold Shrinks
  constructor
  · exact fun h => ⟨h.1, by exact_mod_cast h.2⟩
  · exact fun h => ⟨h.1, by exact_mod_cast h.2⟩

/-- An insertion, given the last index of the window the object remembers. -/
theorem Textbuffer.insertText_of_last (text : List Char) (txtBufSize : Int) {last : Int}
    (hlast : Py.item t.displayBuffer (-1) = .ok last) :
    t.insertText text txtBufSize = .ok { t with
      textBuffer := Py.slice t.textBuffer 0 t.menuBufferCursor ++ text
        ++ Py.slice t.textBuffer t.menuBufferCursor txtBufSize
      textBufferNospace := t.textBufferNospace + text.length
      menuBufferSize := t.menuBufferSize + text.length
      menuBuffer := Py.range (t.menuBufferSize + text.length)
      menuBufferCursor := t.menuBufferCursor + text.length
      displayBufferPosition :=
        if t.menuBufferCursor + text.length > last then
          t.menuBufferCursor + text.length - (t.menuBufferCursor + text.length) % t.cols
            - (t.rows - 1) * t.cols
        else t.displayBufferPosition
      refreshArea :=
        if t.menuBufferCursor + text.length > last then (0, t.cells)
        else (t.areaStart t.menuBufferCursor, t.cells) } := by
  rw [insertText]
  simp only [hlast]
  by_cases hscroll : t.menuBufferCursor + text.length > last
  · rw [if_pos hscroll, if_pos hscroll]
    exact if_pos hscroll
  · rw [if_neg hscroll, if_neg hscroll]
    exact if_neg hscroll

namespace Shows

theorem cells_eq (h : Shows rows cols v t) : t.cells = rows * cols := by
  rw [cells, h.rows_eq, h.cols_eq]

/-- `txt_buf_size`, read off the last index of `menu_buffer`. -/
theorem item_menu (h : Shows rows cols v t) (hcols : 0 < cols) :
    Py.item t.menuBuffer (-1) = .ok ((span rows cols v.ed.text.length : Int) - 1) := by
  have hpos : 0 < span rows cols v.ed.text.length := Nat.zero_lt_of_lt (lt_span hcols _)
  rw [h.menu, Py.range, Int.toNat_natCast, Py.item_rangeFrom_neg 0 (by omega) (by omega), zero_add]

theorem item_last (h : Shows rows cols v t) (hcells : 0 < rows * cols) :
    Py.item t.displayBuffer (-1) = .ok (v.top + rows * cols - 1) := by
  rw [h.display, Py.item_rangeFrom_neg v.top (by omega) (by omega)]
  push_cast
  rfl

theorem item_first (h : Shows rows cols v t) (hcells : 0 < rows * cols) :
    Py.item t.displayBuffer 0 = .ok v.top := by
  rw [h.display, Py.item_rangeFrom v.top (le_refl 0) (by omega), add_zero]

theorem item_lastRow (h : Shows rows cols v t) (hcols : 0 < cols) (hrows : 0 < rows) :
    Py.item t.displayBuffer (-t.cols) = .ok (v.top + rows * cols - cols) := by
  have hle : cols ≤ rows * cols := Nat.le_mul_of_pos_left cols hrows
  rw [h.display, h.cols_eq, Py.item_rangeFrom_neg v.top (by omega) (by omega)]
  push_cast
  rfl

/-! ### The branches of `update_buffer` -/

theorem moveForward_eq (h : Shows rows cols v t) (hcells : 0 < rows * cols) (step : Nat) :
    t.moveForward step = .ok { t with
      menuBufferCursor := (v.ed.forward step).cursor
      displayBufferPosition := v.topForward rows cols step
      refreshArea := v.areaForward rows cols step } := by
  rw [moveForward, Editor.cursor_forward, View.topForward, View.areaForward, View.wholeArea,
    h.item_last hcells, h.cells_eq, h.cursor, h.length, h.position, h.cols_eq]
  by_cases hwrap : v.ed.text.length < v.ed.cursor + step
  · rw [if_pos (by omega), if_pos hwrap, if_pos hwrap, if_pos (Or.inl hwrap)]
    rfl
  · rw [if_neg (by omega), if_neg hwrap, if_neg hwrap]
    by_cases hscroll : v.top + rows * cols ≤ v.ed.cursor + step
    · rw [if_pos hscroll, if_pos (Or.inr hscroll)]
      change (if _ then _ else _) = _
      rw [if_pos (by omega)]
      rfl
    · rw [if_neg hscroll, if_neg (by tauto)]
      change (if _ then _ else _) = _
      rw [if_neg (by omega), areaStart_eq, areaEnd, h.position, h.cols_eq]
      rfl

/-- Both formulas for wrapping to the bottom give the end of the text. -/
theorem bottom_eq (h : Shows rows cols v t) :
    (if (span rows cols v.ed.text.length : Int) ≤ t.cells then t.bufferLength - 1
      else (span rows cols v.ed.text.length : Int) - t.noLastSpaces - 1) = v.ed.text.length := by
  have hspaces := h.spaces
  rw [h.cells_eq, h.length]
  split
  · omega
  · have hextra := h.extra (by omega)
    omega

theorem moveBack_eq (h : Shows rows cols v t) (hcells : 0 < rows * cols) (step : Nat) (stop : Int) :
    t.moveBack step (span rows cols v.ed.text.length) stop = .ok { t with
      menuBufferCursor := (v.ed.back step).cursor
      displayBufferPosition := v.topBack rows cols step
      refreshArea := v.areaBack rows cols step stop } := by
  rw [moveBack, h.bottom_eq, Editor.cursor_back, View.topBack, View.areaBack, View.wholeArea,
    h.item_first hcells, h.cells_eq, h.cursor, h.position, h.cols_eq]
  by_cases hwrap : v.ed.cursor < step
  · rw [if_pos (by omega), if_pos hwrap, if_pos hwrap, if_pos (Or.inl hwrap)]
    rfl
  · have hcast : ((v.ed.cursor - step : Nat) : Int) = v.ed.cursor - step := by omega
    rw [if_neg (by omega), if_neg hwrap, if_neg hwrap, hcast]
    change (if _ then _ else _) = _
    by_cases hscroll : (v.ed.cursor : Int) - step < v.top
    · rw [if_pos hscroll, if_pos hscroll, if_pos (Or.inr hscroll)]
      rfl
    · rw [if_neg hscroll, if_neg hscroll, if_neg (by tauto), areaStart_eq, h.position]
      rfl

/-- `followLastRow` after the move of the cursor: it still reads the window from before the key. -/
theorem followLastRow_eq (h : Shows rows cols v t) (hrows : 0 < rows) (hcols : 0 < cols)
    (cursor position : Int) (area : Int × Int) :
    followLastRow { t with
        menuBufferCursor := cursor, displayBufferPosition := position, refreshArea := area }
      (span rows cols v.ed.text.length) = .ok { t with
        menuBufferCursor := cursor
        displayBufferPosition := if v.Shrinks rows cols then position - cols else position
        refreshArea := if v.Shrinks rows cols then View.wholeArea rows cols else area } := by
  have hlast : (span rows cols v.ed.text.length : Int) - t.noLastSpaces - t.extraSpaces - 1 =
      v.ed.text.length := by
    have := h.spaces
    omega
  have hcells : cells { t with
      menuBufferCursor := cursor, displayBufferPosition := position, refreshArea := area } =
      rows * cols := h.cells_eq
  rw [followLastRow, hcells]
  simp only [hlast, h.item_lastRow hcols hrows]
  change (if _ then _ else _) = _
  by_cases hs : v.Shrinks rows cols
  · rw [if_pos (View.shrinks_iff.mp hs), if_pos hs, if_pos hs, View.wholeArea, h.cols_eq]
    rfl
  · rw [if_neg (mt View.shrinks_iff.mpr hs), if_neg hs, if_neg hs]
    rfl

theorem insertText_eq (h : Shows rows cols v t) (hcells : 0 < rows * cols) (text : List Char) :
    t.insertText text (span rows cols v.ed.text.length) = .ok { t with
      textBuffer := Py.slice t.textBuffer 0 v.ed.cursor ++ text
        ++ Py.slice t.textBuffer v.ed.cursor (span rows cols v.ed.text.length)
      textBufferNospace := v.ed.text.length + text.length
      menuBufferSize := t.menuBufferSize + text.length
      menuBuffer := Py.range (t.menuBufferSize + text.length)
      menuBufferCursor := v.ed.cursor + text.length
      displayBufferPosition := v.topInsert rows cols text.length
      refreshArea := v.areaInsert rows cols text.length } := by
  rw [insertText_of_last text _ (h.item_last hcells), View.topInsert, View.areaInsert, View.wholeArea,
    h.cells_eq, h.cursor, h.nospace, areaStart_eq, h.position, h.cols_eq, h.rows_eq]
  by_cases hscroll : v.top + rows * cols ≤ v.ed.cursor + text.length
  · rw [if_pos (by omega), if_pos (by omega), if_pos hscroll, if_pos hscroll]
  · rw [if_neg (by omega), if_neg (by omega), if_neg hscroll, if_neg hscroll]

/-- `update_buffer` starts by asking for a full refresh, which the rest of the state ignores. -/
theorem withArea (h : Shows rows cols v t) (area : Int × Int) :
    Shows rows cols v { t with refreshArea := area } where
  __ := h

/-! ### The text after a key -/

/-- Cutting the text at its length drops the old marker and the padding. -/
theorem slice_text (h : Shows rows cols v t) :
    Py.slice t.textBuffer 0 v.ed.text.length = v.ed.text := by
  obtain ⟨pad, hpad⟩ := h.text
  rw [hpad, Py.slice_of_nonneg _ (le_refl 0) (Int.natCast_nonneg _)]
  simp

theorem slice_insert (h : Shows rows cols v t) (hcols : 0 < cols) (text : List Char) :
    Py.slice (Py.slice t.textBuffer 0 v.ed.cursor ++ text
        ++ Py.slice t.textBuffer v.ed.cursor (span rows cols v.ed.text.length)) 0
      (v.ed.text.length + text.length) = (v.ed.insert text).text := by
  obtain ⟨pad, hpad⟩ := h.text
  have hcursor := v.ed.cursor_le
  have hspan : v.ed.text.length ≤ span rows cols v.ed.text.length := (lt_span hcols _).le
  have hbefore : Py.slice t.textBuffer 0 v.ed.cursor = v.ed.text.take v.ed.cursor := by
    rw [hpad, Py.slice_of_nonneg _ (le_refl 0) (Int.natCast_nonneg _), Int.toNat_natCast,
      Int.toNat_zero, List.drop_zero, List.take_append_of_le_length hcursor]
  have hafter : Py.slice t.textBuffer v.ed.cursor (span rows cols v.ed.text.length) =
      v.ed.text.drop v.ed.cursor ++
        (marker :: pad).take (span rows cols v.ed.text.length - v.ed.text.length) := by
    rw [hpad, Py.slice_of_nonneg _ (Int.natCast_nonneg _) (Int.natCast_nonneg _), Int.toNat_natCast,
      Int.toNat_natCast, List.take_append, List.take_of_length_le hspan,
      List.drop_append_of_le_length hcursor]
  rw [hbefore, hafter, ← List.append_assoc, ← Editor.text_insert,
    Py.slice_of_nonneg _ (le_refl 0) (by omega), Int.toNat_zero, List.drop_zero]
  apply List.take_left'
  rw [Editor.length_insert]
  omega

/-- Cutting the character before the cursor. -/
theorem slice_erase (h : Shows rows cols v t) (hpos : 0 < v.ed.cursor) :
    Py.slice (t.textBuffer.take (v.ed.cursor - 1) ++ t.textBuffer.drop v.ed.cursor) 0
      ((v.ed.text.length - 1 : Nat) : Int) = v.ed.text.eraseIdx (v.ed.cursor - 1) := by
  obtain ⟨pad, hpad⟩ := h.text
  have hcursor := v.ed.cursor_le
  have hbefore : t.textBuffer.take (v.ed.cursor - 1) = v.ed.text.take (v.ed.cursor - 1) := by
    rw [hpad, List.take_append_of_le_length (by omega)]
  have hafter : t.textBuffer.drop v.ed.cursor = v.ed.text.drop v.ed.cursor ++ marker :: pad := by
    rw [hpad, List.drop_append_of_le_length hcursor]
  have herase : v.ed.text.take (v.ed.cursor - 1) ++ v.ed.text.drop v.ed.cursor =
      v.ed.text.eraseIdx (v.ed.cursor - 1) := by
    rw [List.eraseIdx_eq_take_drop_succ, show v.ed.cursor - 1 + 1 = v.ed.cursor by omega]
  rw [hbefore, hafter, ← List.append_assoc, herase, Py.slice_of_nonneg _ (le_refl 0) (by omega),
    Int.toNat_zero, List.drop_zero, Int.toNat_natCast]
  apply List.take_left'
  rw [List.length_eraseIdx_of_lt (by omega)]

/-- At the end of the text only the marker is cut out. -/
theorem slice_bottom (h : Shows rows cols v t) :
    Py.slice (t.textBuffer.take v.ed.text.length ++ t.textBuffer.drop (v.ed.text.length + 1)) 0
      v.ed.text.length = v.ed.text := by
  obtain ⟨pad, hpad⟩ := h.text
  rw [hpad, Py.slice_of_nonneg _ (le_refl 0) (Int.natCast_nonneg _)]
  simp

theorem dispatch_navB (h : Shows rows cols v t) (hrows : 0 < rows) (hcols : 0 < cols) :
    t.dispatch (span rows cols v.ed.text.length) .navB = .ok (cutChar { t with
      menuBufferCursor := (v.ed.back 1).cursor
      displayBufferPosition := v.topDelete rows cols
      refreshArea := v.areaDelete rows cols } (decide (v.ed.cursor = 0))) := by
  have hcells : 0 < rows * cols := Nat.mul_pos hrows hcols
  have hmove := h.moveBack_eq hcells 1 t.cells
  have hfollow := h.followLastRow_eq hrows hcols (v.ed.back 1).cursor (v.topBack rows cols 1)
    (v.areaBack rows cols 1 t.cells)
  have hbottom : decide (t.menuBufferCursor - 1 < 0) = decide (v.ed.cursor = 0) := by
    rw [h.cursor, decide_eq_decide]
    omega
  rw [dispatch, hbottom, show (1 : Int) = ((1 : Nat) : Int) from rfl, hmove]
  change (followLastRow _ _ >>= _) = _
  rw [hfollow, View.topDelete, View.areaDelete, h.cells_eq]
  rfl

/-- What `nav_b` leaves of the text and where it leaves the cursor. -/
theorem cutChar_text (h : Shows rows cols v t) (position : Int) (area : Int × Int) :
    let t' := cutChar { t with
      menuBufferCursor := (v.ed.back 1).cursor
      displayBufferPosition := position
      refreshArea := area } (decide (v.ed.cursor = 0))
    Py.slice t'.textBuffer 0 t'.textBufferNospace = v.ed.backspace.text ∧
      (v.ed.back 1).cursor = v.ed.backspace.cursor := by
  simp only [cutChar, h.nospace]
  rw [Editor.cursor_back, Py.sliceTo_of_nonneg _ (Int.natCast_nonneg _),
    Py.sliceFrom_of_nonneg _ (by omega)]
  rcases Nat.eq_zero_or_pos v.ed.cursor with hzero | hpos
  · rw [if_pos (by omega), Editor.backspace_of_zero hzero, if_pos (by simpa using hzero),
      Int.toNat_natCast, show ((v.ed.text.length : Int) + 1).toNat = v.ed.text.length + 1 by omega]
    exact ⟨h.slice_bottom, rfl⟩
  · have hnospace : (if (v.ed.text.length : Int) - 1 < 0 then 0 else (v.ed.text.length : Int) - 1) =
        ((v.ed.text.length - 1 : Nat) : Int) := by
      split <;> omega
    rw [if_neg (by omega), if_neg (by simp; omega), hnospace, Editor.text_backspace_of_pos hpos,
      Editor.cursor_backspace_of_pos hpos, Int.toNat_natCast,
      show (((v.ed.cursor - 1 : Nat) : Int) + 1).toNat = v.ed.cursor by omega]
    exact ⟨h.slice_erase hpos, rfl⟩

/-- The branch taken for a key leaves the text, the cursor, the window and the area of the step. -/
theorem dispatch_spec (h : Shows rows cols v t) (hrows : 0 < rows) (hcols : 0 < cols) (key : Key) :
    ∃ t', t.dispatch (span rows cols v.ed.text.length) key = .ok t' ∧ t'.rows = rows ∧ t'.cols = cols ∧
      Py.slice t'.textBuffer 0 t'.textBufferNospace = (key.edit cols v.ed).text ∧
      t'.menuBufferCursor = (key.edit cols v.ed).cursor ∧
      t'.displayBufferPosition = v.topAfter rows cols key ∧
      t'.refreshArea = v.areaAfter rows cols key := by
  have hcells : 0 < rows * cols := Nat.mul_pos hrows hcols
  have htext : Py.slice t.textBuffer 0 t.textBufferNospace = v.ed.text := by
    rw [h.nospace, h.slice_text]
  have harea : t.areaEnd t.menuBufferCursor = (v.ed.cursor - v.top) / cols * cols + cols := by
    rw [areaEnd, h.position, h.cursor, h.cols_eq]
  cases key with
  | navL =>
      refine ⟨_, h.moveBack_eq hcells 1 _, h.rows_eq, h.cols_eq, ?_, rfl, rfl, ?_⟩
      · rw [Key.edit, Editor.text_back]
        exact htext
      · rw [View.areaAfter, ← harea]
  | navR =>
      refine ⟨_, h.moveForward_eq hcells 1, h.rows_eq, h.cols_eq, ?_, rfl, rfl, rfl⟩
      rw [Key.edit, Editor.text_forward]
      exact htext
  | navU =>
      rw [dispatch, h.cols_eq, h.moveBack_eq hcells cols]
      refine ⟨_, rfl, h.rows_eq, h.cols_eq, ?_, rfl, rfl, ?_⟩
      · rw [Key.edit, Editor.text_back]
        exact htext
      · rw [View.areaAfter, ← harea]
  | navD =>
      rw [dispatch, h.cols_eq, h.moveForward_eq hcells cols]
      refine ⟨_, rfl, h.rows_eq, h.cols_eq, ?_, rfl, rfl, rfl⟩
      rw [Key.edit, Editor.text_forward]
      exact htext
  | navB =>
      obtain ⟨hcut, hcursor⟩ := h.cutChar_text (v.topDelete rows cols) (v.areaDelete rows cols)
      exact ⟨_, h.dispatch_navB hrows hcols, h.rows_eq, h.cols_eq, hcut, congrArg _ hcursor, rfl, rfl⟩
  | ac => exact ⟨_, rfl, h.rows_eq, h.cols_eq, rfl, rfl, rfl, congrArg (Prod.mk 0) h.cells_eq⟩
  | token text =>
      refine ⟨_, h.insertText_eq hcells text, h.rows_eq, h.cols_eq, h.slice_insert hcols text, ?_, rfl, rfl⟩
      rw [Key.edit, Editor.cursor_insert]
      push_cast
      rfl

end Shows

/-- One call of `update_buffer` is one step of the window editor. -/
theorem updateBuffer_edited (h : Shows rows cols v t) (hrows : 0 < rows) (hcols : 0 < cols) (key : Key) :
    ∃ t', t.updateBuffer key = .ok t' ∧ Edited rows cols (v.press rows cols key) t' ∧
      t'.refreshArea = v.areaAfter rows cols key := by
  obtain ⟨t', hdispatch, hr, hc, htext, hcursor, hposition, harea⟩ :=
    (h.withArea (0, t.cells)).dispatch_spec hrows hcols key
  have hsize : (span rows cols v.ed.text.length : Int) - 1 + 1 = span rows cols v.ed.text.length := by
    omega
  refine ⟨{ t' with textBuffer := Py.slice t'.textBuffer 0 t'.textBufferNospace ++ [marker] }, ?_,
    ⟨hr, hc, congrArg (· ++ [marker]) htext, hcursor, hposition⟩, harea⟩
  rw [updateBuffer]
  simp only [h.item_menu hcols]
  change (dispatch { t with refreshArea := (0, t.cells) } _ key >>= _) = _
  rw [hsize, hdispatch]
  rfl

/-! ### `buffer` -/

namespace Edited

theorem length_text (h : Edited rows cols v t) :
    (t.textBuffer.length : Int) = (v.ed.text.length : Int) + 1 := by
  rw [h.text]
  simp

theorem cells_eq (h : Edited rows cols v t) : t.cells = rows * cols := by
  rw [cells, h.rows_eq, h.cols_eq]

/-- The padded text is the page of the window. -/
theorem page_eq (hcols : 0 < cols) :
    v.ed.text ++ [marker] ++ Py.spaces (remainingSpaces cols ((v.ed.text.length : Int) + 1))
      ++ Py.spaces (screenSpaces (rows * cols)
        ((v.ed.text.length : Int) + 1 + remainingSpaces cols ((v.ed.text.length : Int) + 1))) =
      v.page rows cols := by
  have hspan := add_screenSpaces rows hcols v.ed.text.length
  have hrem := remainingSpaces_nonneg hcols ((v.ed.text.length : Int) + 1)
  have hscreen : 0 ≤ screenSpaces (rows * cols)
      ((v.ed.text.length : Int) + 1 + remainingSpaces cols ((v.ed.text.length : Int) + 1)) := by
    unfold screenSpaces
    split <;> omega
  simp only [View.page, Py.spaces, List.append_assoc, List.replicate_append_replicate,
    List.cons_append, List.nil_append]
  congr 3
  omega

theorem textBuffer_padBuffer (h : Edited rows cols v t) (hcols : 0 < cols) :
    t.padBuffer.textBuffer = v.page rows cols := by
  simp only [padBuffer, h.length_text, h.cells_eq, h.cols_eq]
  rw [h.text, page_eq hcols]

/-- `buffer` pads an edited text and lists the window; the window is right when it lies inside. -/
theorem padBuffer_shows (h : Edited rows cols v t) (hcols : 0 < cols) (hin : v.Inside rows cols) :
    Shows rows cols v t.padBuffer := by
  have hspan := add_screenSpaces rows hcols v.ed.text.length
  have hwhole := add_remainingSpaces hcols v.ed.text.length
  have hcells : (rows : Int) * cols = (rows * cols : Nat) := by push_cast; rfl
  constructor
  case rows_eq => exact h.rows_eq
  case cols_eq => exact h.cols_eq
  case text => exact ⟨_, h.textBuffer_padBuffer hcols⟩
  case nospace => simp only [padBuffer, h.length_text]; omega
  case length => simp only [padBuffer, h.length_text]
  case cursor => exact h.cursor
  case position => exact h.position
  case size => simp only [padBuffer, h.length_text, h.cells_eq, h.cols_eq, hspan]
  case menu => simp only [padBuffer, h.length_text, h.cells_eq, h.cols_eq, hspan]
  case display =>
    simp only [padBuffer, h.length_text, h.cells_eq, h.cols_eq, hspan, h.position]
    rw [hcells]
    exact Py.slice_range _ hin.nonneg (by rw [← hcells]; exact hin.le_span)
  case spaces =>
    simp only [padBuffer, h.length_text, h.cells_eq, h.cols_eq]
    omega
  case extra_nonneg =>
    simp only [padBuffer, h.length_text, h.cells_eq, h.cols_eq, screenSpaces]
    split <;> omega
  case extra =>
    intro hlt
    simp only [padBuffer, h.length_text, h.cells_eq, h.cols_eq, hwhole]
    rw [screenSpaces, if_neg]
    unfold span at hlt
    omega

theorem bufferRow_eq (h : Edited rows cols v t) (hcols : 0 < cols) (hin : v.Inside rows cols)
    {i : Nat} (hi : i < rows) : t.padBuffer.bufferRow i = .ok (v.row rows cols i) := by
  have hshows := h.padBuffer_shows hcols hin
  have hrow : cols * i + cols ≤ rows * cols := by
    calc cols * i + cols = (i + 1) * cols := by ring
      _ ≤ rows * cols := Nat.mul_le_mul_right cols hi
  have hnonneg : (0 : Int) ≤ v.top + (cols * i : Nat) := by have := hin.nonneg; omega
  have hfirst : Py.item t.padBuffer.displayBuffer ((cols : Int) * i) = .ok (v.top + (cols * i : Nat)) := by
    rw [hshows.display, show (cols : Int) * i = (cols * i : Nat) by push_cast; rfl]
    exact Py.item_rangeFrom v.top (by omega) (by omega)
  have hlast : Py.item t.padBuffer.displayBuffer ((cols : Int) * i + cols - 1) =
      .ok (v.top + ((cols * i : Nat) + cols - 1)) := by
    rw [hshows.display, show (cols : Int) * i = (cols * i : Nat) by push_cast; rfl]
    exact Py.item_rangeFrom v.top (by omega) (by omega)
  rw [bufferRow, hshows.cols_eq, hfirst, hlast, h.textBuffer_padBuffer hcols]
  change Except.ok (Py.slice (v.page rows cols) (v.top + (cols * i : Nat))
    (v.top + ((cols * i : Nat) + cols - 1) + 1)) = _
  rw [Py.slice_of_nonneg _ hnonneg (by omega), List.drop_take, View.row,
    show v.top + (cols : Int) * i = v.top + (cols * i : Nat) by push_cast; rfl]
  congr 2
  omega

/-- `buffer` shows a window inside the padded text. -/
theorem buffer_eq (h : Edited rows cols v t) (hcols : 0 < cols) (hin : v.Inside rows cols) :
    t.buffer = .ok (t.padBuffer, v.shown rows cols) := by
  have hrows : t.padBuffer.rows = rows := h.rows_eq
  rw [buffer]
  simp only [hrows]
  rw [Py.mapM_eq_ok fun i hi => h.bufferRow_eq hcols hin (List.mem_range.mp hi)]
  rfl

theorem buffer_raises_of_row (h : Edited rows cols v t) {i : Nat} (hi : i < rows) {e : Py.Err}
    (hrow : t.padBuffer.bufferRow i = .error e) : ∃ e', t.buffer = .error e' := by
  have hrows : t.padBuffer.rows = rows := h.rows_eq
  rw [buffer]
  simp only [hrows]
  obtain ⟨e', he'⟩ := Py.mapM_eq_error hrow (List.mem_range.mpr hi)
  exact ⟨e', by rw [he']; rfl⟩

/-- `buffer` raises on a window that starts before the text, by at most a screen. -/
theorem buffer_raises_of_neg (h : Edited rows cols v t) (hrows : 0 < rows) (hcols : 0 < cols)
    (hneg : v.top < 0) (hle : -(rows * cols : Int) ≤ v.top) : ∃ e, t.buffer = .error e := by
  have hspan := add_screenSpaces rows hcols v.ed.text.length
  have hcells : rows * cols ≤ span rows cols v.ed.text.length := cells_le_span _ _ _
  have hdisplay : t.padBuffer.displayBuffer = [] := by
    simp only [padBuffer, h.length_text, h.cells_eq, h.cols_eq, hspan, h.position]
    apply Py.slice_eq_nil
    rw [Py.range, Py.length_rangeFrom, Int.toNat_natCast, Py.bound, Py.bound, if_neg (by omega),
      if_pos hneg]
    omega
  refine h.buffer_raises_of_row hrows (show _ = Except.error Py.Err.indexError from ?_)
  rw [bufferRow, hdisplay]
  simp [Py.item]
  rfl

end Edited

end CalSci.Text
