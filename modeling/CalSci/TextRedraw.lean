import CalSci.TextSession

/-! Partial redraws of `Textbuffer`: a key asks for the rows from its first changed cell on, or for the
whole screen when the window moves. Every row outside that area keeps its characters, and the cursor
neither leaves it nor enters it, so that redrawing the area is redrawing the screen. -/

namespace CalSci.Text

open LineEditor Textbuffer

variable {rows cols : Nat} {v : View}

def OutsideArea (cols : Nat) (area : Int × Int) (i : Nat) : Prop :=
  ¬ (area.1 / cols ≤ i ∧ (i : Int) < area.2 / cols)

theorem not_outside_wholeArea (hcols : 0 < cols) {i : Nat} (hi : i < rows) :
    ¬ OutsideArea cols (View.wholeArea rows cols) i := by
  have hdiv : (rows : Int) * cols / cols = rows := Int.mul_ediv_cancel _ (by omega)
  simp only [OutsideArea, View.wholeArea, hdiv, Int.zero_ediv, not_not]
  omega

/-- The end of the area of a row is the next row. -/
theorem area_end_div (hcols : 0 < cols) (row : Int) : (row * cols + cols) / cols = row + 1 := by
  rw [show row * cols + (cols : Int) = (row + 1) * cols by ring, Int.mul_ediv_cancel _ (by omega)]

namespace View

/-- A key leaves row `i` as it was, with the cursor outside of it before and after. -/
structure Keeps (rows cols : Nat) (v v' : View) (i : Nat) : Prop where
  row : v'.row rows cols i = v.row rows cols i
  before : ((v.ed.cursor : Int) - v.top) / cols ≠ i
  after : ((v'.ed.cursor : Int) - v'.top) / cols ≠ i

/-- A window of the same text at the same place has the same rows. -/
theorem row_congr {v v' : View} (htext : v'.ed.text = v.ed.text) (htop : v'.top = v.top) (i : Nat) :
    v'.row rows cols i = v.row rows cols i := by
  rw [row, row, page, page, htext, htop]

/-- The cells of a row above the row of `position` come before `position`. -/
theorem row_end_le {i : Nat} {position : Int} (hcols : 0 < cols)
    (hi : (i : Int) < (position - v.top) / cols) : v.top + cols * i + cols ≤ position := by
  have hle : ((i : Int) + 1) * cols ≤ (position - v.top) / cols * cols :=
    Int.mul_le_mul_of_nonneg_right (by omega) (by omega)
  have hdiv := Int.ediv_mul_le (position - v.top) (show (cols : Int) ≠ 0 by omega)
  have hmul : ((i : Int) + 1) * cols = cols * i + cols := by ring
  omega

/-- Texts that agree before `position` have the same rows above the row of `position`. -/
theorem row_eq_of_take_eq {v v' : View} {i : Nat} (position : Nat) (htop : v'.top = v.top) (hnonneg : 0 ≤ v.top)
    (hcols : 0 < cols) (hi : (i : Int) < ((position : Int) - v.top) / cols)
    (htake : (v'.page rows cols).take position = (v.page rows cols).take position) :
    v'.row rows cols i = v.row rows cols i := by
  have hend := row_end_le hcols hi
  have hmul : (0 : Int) ≤ cols * i := Int.mul_nonneg (by omega) (by omega)
  have hrow : ∀ page : List Char, (page.drop (v.top + cols * i).toNat).take cols =
      ((page.take position).drop (v.top + cols * i).toNat).take cols := by
    intro page
    rw [List.drop_take, List.take_take, Nat.min_eq_left (by omega)]
  rw [row, row, htop, hrow, htake, ← hrow]

theorem keeps_forward (hcols : 0 < cols) (step : Nat) {i : Nat} (hi : i < rows)
    (hout : OutsideArea cols (v.areaForward rows cols step) i) :
    Keeps rows cols v ⟨v.ed.forward step, v.topForward rows cols step⟩ i := by
  unfold areaForward at hout
  split at hout
  · exact absurd hout (not_outside_wholeArea hcols hi)
  · rename_i hstay
    push Not at hstay
    have hcursor : (v.ed.forward step).cursor = v.ed.cursor + step := by
      rw [Editor.cursor_forward, if_neg (by omega)]
    have htop : v.topForward rows cols step = v.top := by
      rw [topForward, if_neg (by omega), if_neg (by omega)]
    have hmono : ((v.ed.cursor : Int) - v.top) / cols ≤ (v.ed.cursor + step - v.top) / cols :=
      Int.ediv_le_ediv (by omega) (by omega)
    simp only [OutsideArea, area_end_div hcols] at hout
    refine ⟨row_congr (Editor.text_forward _ _) htop i, by omega, ?_⟩
    simp only [hcursor, htop]
    push_cast
    omega

theorem keeps_back (hcols : 0 < cols) (step : Nat) {i : Nat} (hi : i < rows)
    (hout : OutsideArea cols (v.areaBack rows cols step ((v.ed.cursor - v.top) / cols * cols + cols)) i) :
    Keeps rows cols v ⟨v.ed.back step, v.topBack rows cols step⟩ i := by
  unfold areaBack at hout
  split at hout
  · exact absurd hout (not_outside_wholeArea hcols hi)
  · rename_i hstay
    push Not at hstay
    have hcursor : ((v.ed.back step).cursor : Int) = v.ed.cursor - step := by
      rw [Editor.cursor_back, if_neg (by omega)]
      omega
    have htop : v.topBack rows cols step = v.top := by
      rw [topBack, if_neg (by omega), if_neg (by omega)]
    have hmono : ((v.ed.cursor : Int) - step - v.top) / cols ≤ (v.ed.cursor - v.top) / cols :=
      Int.ediv_le_ediv (by omega) (by omega)
    simp only [OutsideArea, area_end_div hcols] at hout
    refine ⟨row_congr (Editor.text_back _ _) htop i, by omega, ?_⟩
    simp only [hcursor, htop]
    omega

/-- A page begins with the text it shows. -/
theorem take_page {position : Nat} (h : position ≤ v.ed.text.length) :
    (v.page rows cols).take position = v.ed.text.take position := by
  rw [page, List.take_append_of_le_length h]

theorem keeps_delete (hin : v.Inside rows cols) (hcols : 0 < cols) {i : Nat} (hi : i < rows)
    (hout : OutsideArea cols (v.areaDelete rows cols) i) :
    Keeps rows cols v ⟨v.ed.backspace, v.topDelete rows cols⟩ i := by
  have hrows : (rows : Int) * cols / cols = rows := Int.mul_ediv_cancel _ (by omega)
  unfold areaDelete at hout
  split at hout
  · exact absurd hout (not_outside_wholeArea hcols hi)
  · rename_i hshrinks
    unfold areaBack at hout
    split at hout
    · exact absurd hout (not_outside_wholeArea hcols hi)
    · rename_i hstay
      push Not at hstay
      have hpos : 0 < v.ed.cursor := by omega
      have hle := v.ed.cursor_le
      have htop : v.topDelete rows cols = v.top := by
        rw [topDelete, if_neg hshrinks, topBack, if_neg (by omega), if_neg (by omega)]
      have hcursor : (v.ed.backspace.cursor : Int) = v.ed.cursor - 1 := by
        rw [Editor.cursor_backspace_of_pos hpos]
        omega
      have hcast : ((v.ed.cursor - 1 : Nat) : Int) = (v.ed.cursor : Int) - 1 := by omega
      have habove : (i : Int) < ((v.ed.cursor : Int) - 1 - v.top) / cols := by
        simp only [OutsideArea, hrows, Nat.cast_one] at hout
        omega
      have hmono : ((v.ed.cursor : Int) - 1 - v.top) / cols ≤ (v.ed.cursor - v.top) / cols :=
        Int.ediv_le_ediv (by omega) (by omega)
      have hlength := Editor.length_backspace_of_pos hpos
      refine ⟨?_, by omega, by simp only [hcursor, htop]; omega⟩
      apply row_eq_of_take_eq (v.ed.cursor - 1) htop hin.nonneg hcols (by rwa [hcast])
      have hnew : v.ed.cursor - 1 ≤ v.ed.backspace.text.length := by omega
      have hold : v.ed.cursor - 1 ≤ v.ed.text.length := by omega
      rw [take_page hnew, take_page hold, Editor.text_backspace_of_pos hpos,
        List.eraseIdx_eq_take_drop_succ, List.take_append_of_le_length (by simp; omega),
        List.take_take, Nat.min_self]

theorem keeps_insert (hin : v.Inside rows cols) (hcols : 0 < cols) (text : List Char) {i : Nat}
    (hi : i < rows) (hout : OutsideArea cols (v.areaInsert rows cols text.length) i) :
    Keeps rows cols v ⟨v.ed.insert text, v.topInsert rows cols text.length⟩ i := by
  have hrows : (rows : Int) * cols / cols = rows := Int.mul_ediv_cancel _ (by omega)
  unfold areaInsert at hout
  split at hout
  · exact absurd hout (not_outside_wholeArea hcols hi)
  · rename_i hstay
    have hle := v.ed.cursor_le
    have htop : v.topInsert rows cols text.length = v.top := by rw [topInsert, if_neg hstay]
    have habove : (i : Int) < ((v.ed.cursor : Int) - v.top) / cols := by
      simp only [OutsideArea, hrows] at hout
      omega
    have hmono : ((v.ed.cursor : Int) - v.top) / cols ≤ (v.ed.cursor + text.length - v.top) / cols :=
      Int.ediv_le_ediv (by omega) (by omega)
    refine ⟨row_eq_of_take_eq _ htop hin.nonneg hcols habove ?_, by omega, ?_⟩
    · have hnew : v.ed.cursor ≤ (v.ed.insert text).text.length := by
        rw [Editor.length_insert]
        omega
      rw [take_page hnew, take_page hle, Editor.text_insert, List.append_assoc,
        List.take_append_of_le_length (by simp; omega), List.take_take, Nat.min_self]
    · simp only [Editor.cursor_insert, htop]
      push_cast
      omega

/-- Outside the area a key asks for, the rows and the cursor are left alone. -/
theorem keeps_press (hin : v.Inside rows cols) (hcols : 0 < cols) (key : Key) {i : Nat} (hi : i < rows)
    (hout : OutsideArea cols (v.areaAfter rows cols key) i) :
    Keeps rows cols v (v.press rows cols key) i := by
  cases key with
  | navL => exact keeps_back hcols 1 hi hout
  | navR => exact keeps_forward hcols 1 hi hout
  | navU => exact keeps_back hcols cols hi hout
  | navD => exact keeps_forward hcols cols hi hout
  | navB => exact keeps_delete hin hcols hi hout
  | ac => exact absurd hout (not_outside_wholeArea hcols hi)
  | token text => exact keeps_insert hin hcols text hi hout

end View

/-! ### Redrawing the area is redrawing the screen -/

/-- A row the cursor is not on is drawn without an inverted character. -/
theorem drawRow_of_outside {t : Textbuffer} {row : List Char} {i : Nat} (hcols : 0 < t.cols)
    (hlength : row.length ≤ t.cols) (hcursor : t.cursor / t.cols ≠ i) :
    t.drawRow row i = row.map fun char => (char, false) := by
  rw [drawRow]
  apply List.ext_getElem
  · simp
  · intro j hj hj'
    simp only [List.getElem_mapIdx, List.getElem_map, Prod.mk.injEq, true_and, decide_eq_false_iff_not]
    intro heq
    have hlt : j < t.cols := by
      rw [List.length_mapIdx] at hj
      omega
    apply hcursor
    rw [← heq, Int.add_mul_ediv_right _ _ (by omega), Int.ediv_eq_zero_of_lt (by omega) (by omega), zero_add]

theorem Sound.cursor_eq {s : Textbuffer × List (List Char)} (h : Sound rows cols v s) :
    s.1.cursor = v.ed.cursor - v.top := by
  rw [cursor, h.shows.cursor, h.shows.position]

theorem session_concat_inv {keys : List Key} {key : Key} {s s' : Textbuffer × List (List Char)}
    (h : session rows cols keys = .ok s) (h' : session rows cols (keys ++ [key]) = .ok s') :
    Text.press s key = .ok s' := by
  unfold session at h h'
  cases hinit : init rows cols with
  | error e =>
      rw [hinit] at h
      cases h
  | ok fresh =>
      rw [hinit] at h h'
      change Runs.run Text.press fresh keys = .ok s at h
      change Runs.run Text.press fresh (keys ++ [key]) = .ok s' at h'
      rwa [Runs.run_concat_ok h] at h'

/-- After any keys, the rows the next key does not ask to refresh keep their characters and stay clear
of the cursor; so the screen drawn before the key, redrawn in the asked rows only, is the screen drawn
anew. -/
theorem partial_redraw_sound (rows cols : Nat) (hrows : 1 ≤ rows) (hcols : 1 ≤ cols) (keys : List Key)
    (key : Key) (s s' : Textbuffer × List (List Char)) (h : session rows cols keys = .ok s)
    (h' : session rows cols (keys ++ [key]) = .ok s') (i : Nat) (hi : i < rows) :
    (¬ s'.1.Refreshes i → s'.2[i]? = s.2[i]? ∧ s.1.cursor / cols ≠ i ∧ s'.1.cursor / cols ≠ i) ∧
      (if s'.1.Refreshes i then s'.2[i]?.map fun row => s'.1.drawRow row i
        else s.2[i]?.map fun row => s.1.drawRow row i) = s'.2[i]?.map fun row => s'.1.drawRow row i := by
  obtain ⟨v, hs⟩ : ∃ v, Sound rows cols v s := ⟨_, session_sound hrows hcols h⟩
  obtain ⟨hs', harea⟩ := hs.press_inv hrows hcols (session_concat_inv h h')
  have hkeeps : ¬ s'.1.Refreshes i → View.Keeps rows cols v (v.press rows cols key) i := by
    intro hout
    rw [Refreshes, harea, hs'.shows.cols_eq] at hout
    exact View.keeps_press hs.inside hcols key hi hout
  have hold := hs.returned_getElem hi
  have hnew := hs'.returned_getElem hi
  have hcursor := hs.cursor_eq
  have hcursor' := hs'.cursor_eq
  constructor
  · intro hout
    have hk := hkeeps hout
    exact ⟨by rw [hold, hnew, hk.row], by rw [hcursor]; exact hk.before, by rw [hcursor']; exact hk.after⟩
  · split
    · rfl
    · rename_i hout
      have hk := hkeeps hout
      have hlength := View.length_row hcols hs.inside hi
      rw [hold, hnew, hk.row, Option.map_some, Option.map_some, drawRow_of_outside, drawRow_of_outside]
      · rw [hs'.shows.cols_eq]; exact hcols
      · rw [hlength, hs'.shows.cols_eq]
      · rw [hcursor', hs'.shows.cols_eq]; exact hk.after
      · rw [hs.shows.cols_eq]; exact hcols
      · rw [hlength, hs.shows.cols_eq]
      · rw [hcursor, hs.shows.cols_eq]; exact hk.before

/-- A move inside the second of three rows leaves the first one alone. -/
theorem partial_redraw_sound_first_row :
    ∃ s s', session 3 3 [.token ['a', 'b', 'c', 'd', 'e']] = .ok s ∧
      session 3 3 ([.token ['a', 'b', 'c', 'd', 'e']] ++ [.navL]) = .ok s' ∧ ¬ s'.1.Refreshes 0 ∧
      s'.2[0]? = s.2[0]? ∧ s.1.cursor / 3 ≠ 0 ∧ s'.1.cursor / 3 ≠ 0 := by
  have hout : (session 3 3 ([.token ['a', 'b', 'c', 'd', 'e']] ++ [.navL])).map
      (fun s' => decide (s'.1.Refreshes 0)) = .ok false := by
    decide
  obtain ⟨s, hs⟩ := Runs.exists_ok
    (show (session 3 3 [.token ['a', 'b', 'c', 'd', 'e']]).isOk = true by decide)
  obtain ⟨s', hs'⟩ := Runs.exists_ok
    (show (session 3 3 ([.token ['a', 'b', 'c', 'd', 'e']] ++ [.navL])).isOk = true by decide)
  rw [hs'] at hout
  have hnot : ¬ s'.1.Refreshes 0 := of_decide_eq_false (Except.ok.inj hout)
  exact ⟨s, s', hs, hs', hnot,
    (partial_redraw_sound 3 3 (by decide) (by decide) _ _ s s' hs hs' 0 (by decide)).1 hnot⟩

end CalSci.Text
