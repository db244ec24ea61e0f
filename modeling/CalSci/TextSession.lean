import CalSci.TextInvariant

/-! Whole sessions on a `Textbuffer`: from a fresh object, every key is a step of the window editor
until `buffer` raises, which happens exactly at the overshooting deletion. -/

namespace CalSci.Text

open LineEditor Textbuffer

variable {rows cols : Nat} {v : View} {s : Textbuffer × List (List Char)}

/-- The object shows the window, which lies inside the text, and the rows last returned are its own. -/
structure Sound (rows cols : Nat) (v : View) (s : Textbuffer × List (List Char)) : Prop where
  shows : Shows rows cols v s.1
  inside : v.Inside rows cols
  returned : s.2 = v.shown rows cols

/-- A key that does not overshoot returns the rows of the next window. -/
theorem Sound.press (h : Sound rows cols v s) (hrows : 0 < rows) (hcols : 0 < cols) {key : Key}
    (hok : ¬ (key = .navB ∧ v.Overshoots rows cols)) :
    ∃ s', Text.press s key = .ok s' ∧ Sound rows cols (v.press rows cols key) s' ∧
      s'.1.textBuffer = (v.press rows cols key).page rows cols ∧
      s'.1.refreshArea = v.areaAfter rows cols key := by
  obtain ⟨t, hupdate, hedited, harea⟩ := updateBuffer_edited h.shows hrows hcols key
  have hin := h.inside.press hcols key hok
  refine ⟨(t.padBuffer, (v.press rows cols key).shown rows cols), ?_,
    ⟨hedited.padBuffer_shows hcols hin, hin, rfl⟩, hedited.textBuffer_padBuffer hcols, harea⟩
  rw [Text.press, hupdate]
  exact hedited.buffer_eq hcols hin

/-- The overshooting deletion makes `buffer` raise. -/
theorem Sound.press_raises (h : Sound rows cols v s) (hrows : 0 < rows) (hcols : 0 < cols)
    (hover : v.Overshoots rows cols) : ∃ e, Text.press s .navB = .error e := by
  obtain ⟨t, hupdate, hedited, -⟩ := updateBuffer_edited h.shows hrows hcols .navB
  have htop : (v.press rows cols .navB).top = -cols := View.topDelete_of_overshoots hrows hover
  have hcells : cols ≤ rows * cols := Nat.le_mul_of_pos_left cols hrows
  rw [Text.press, hupdate]
  exact hedited.buffer_raises_of_neg hrows hcols (by rw [htop]; omega) (by rw [htop]; omega)

/-- A key that returned did not overshoot. -/
theorem Sound.press_inv (h : Sound rows cols v s) (hrows : 0 < rows) (hcols : 0 < cols) {key : Key}
    {s' : Textbuffer × List (List Char)} (hpress : Text.press s key = .ok s') :
    Sound rows cols (v.press rows cols key) s' ∧ s'.1.refreshArea = v.areaAfter rows cols key := by
  have hok : ¬ (key = .navB ∧ v.Overshoots rows cols) := by
    rintro ⟨rfl, hover⟩
    obtain ⟨e, he⟩ := h.press_raises hrows hcols hover
    rw [hpress] at he
    cases he
  obtain ⟨s₁, hs₁, hsound, -, harea⟩ := h.press hrows hcols hok
  rw [hpress] at hs₁
  cases hs₁
  exact ⟨hsound, harea⟩

def View.fresh : View := ⟨Editor.empty, 0⟩

/-- The object before `__init__` calls `buffer`. -/
def blank (rows cols : Nat) : Textbuffer :=
  { textBuffer := [marker]
    menuBufferSize := 1
    menuBuffer := Py.range 1
    menuBufferCursor := 0
    rows, cols
    displayBufferPosition := 0
    displayBuffer := Py.slice (Py.range 1) 0 (0 + rows * cols)
    noLastSpaces := 0
    bufferLength := 1
    extraSpaces := 0
    textBufferNospace := 0
    refreshArea := (0, rows * cols) }

theorem blank_edited : Edited rows cols .fresh (blank rows cols) :=
  ⟨rfl, rfl, rfl, rfl, rfl⟩

/-- Inserting nothing in the empty text keeps every field but the padding. -/
theorem updateBuffer_nil {t : Textbuffer} (h : Shows rows cols .fresh t) (hrows : 0 < rows)
    (hcols : 0 < cols) :
    ∃ t', t.updateBuffer (.token []) = .ok t' ∧ Shows rows cols .fresh t' := by
  have hcells : 0 < rows * cols := Nat.mul_pos hrows hcols
  have hpos : (0 : Int) < rows * cols := by exact_mod_cast hcells
  have hsize : (span rows cols 0 : Int) - 1 + 1 = span rows cols 0 := by omega
  have hmenu := h.item_menu hcols
  have hinsert := (h.withArea (0, t.cells)).insertText_eq hcells []
  have htop : View.topInsert rows cols .fresh 0 = 0 := by
    rw [View.topInsert, if_neg]
    · rfl
    · simp only [View.fresh, Editor.empty]
      omega
  simp only [View.fresh, Editor.empty, List.length_nil] at hmenu hinsert htop
  rw [updateBuffer]
  simp only [hmenu]
  change ∃ t', (insertText { t with refreshArea := (0, t.cells) } [] _ >>= _) = _ ∧ _
  rw [hsize, hinsert]
  refine ⟨_, rfl, ?_⟩
  constructor
  case text => exact ⟨[], rfl⟩
  case nospace => rfl
  case cursor => rfl
  case position => exact htop
  case size => exact (add_zero _).trans h.size
  case menu => exact congrArg Py.range ((add_zero _).trans h.size)
  all_goals first
    | exact h.rows_eq
    | exact h.cols_eq
    | exact h.length
    | exact h.display
    | exact h.spaces
    | exact h.extra_nonneg
    | exact h.extra

/-- `__init__` calls `buffer` on the empty text, and inserts nothing in it. -/
theorem init_eq (hcols : 0 < cols) {t : Textbuffer}
    (ht : (blank rows cols).padBuffer.updateBuffer (.token []) = .ok t) :
    init rows cols = .ok (t, View.shown rows cols .fresh) := by
  have hbuffer := (@blank_edited rows cols).buffer_eq hcols View.Inside.empty
  rw [init]
  change (buffer (blank rows cols) >>= _) = _
  rw [hbuffer]
  change (updateBuffer (blank rows cols).padBuffer (.token []) >>= _) = _
  rw [ht]
  rfl

/-- A fresh object shows the empty window. -/
theorem init_sound (hrows : 0 < rows) (hcols : 0 < cols) :
    ∃ s, init rows cols = .ok s ∧ Sound rows cols .fresh s := by
  have hin : View.Inside rows cols .fresh := View.Inside.empty
  obtain ⟨t, ht, hshows⟩ :=
    updateBuffer_nil (blank_edited.padBuffer_shows hcols hin) hrows hcols
  exact ⟨(t, View.shown rows cols .fresh), init_eq hcols ht, hshows, hin, rfl⟩

/-- As long as nothing raises, a session is the run of the window editor on the same keys. -/
theorem session_sound (hrows : 0 < rows) (hcols : 0 < cols) {keys : List Key}
    (h : session rows cols keys = .ok s) :
    Sound rows cols (keys.foldl (View.press rows cols) .fresh) s := by
  obtain ⟨fresh, hfresh, hsound⟩ := init_sound hrows hcols
  rw [session, hfresh] at h
  change Runs.run Text.press fresh keys = .ok s at h
  have hstep : ∀ s v key s', Sound rows cols v s → Text.press s key = .ok s' →
      Sound rows cols (v.press rows cols key) s' :=
    fun _ _ _ _ hs hpress => (hs.press_inv hrows hcols hpress).1
  exact Runs.run_simulates (R := fun s v => Sound rows cols v s) hstep hsound h

/-! ### The screen after every key -/

/-- What a redraw relies on: `rows` rows of `cols` characters, a window at a row boundary inside the
padded text, and a cursor in the text and in the window. -/
structure Healthy (rows cols : Nat) (s : Textbuffer × List (List Char)) : Prop where
  rows_returned : s.2.length = rows
  row_length : ∀ row ∈ s.2, row.length = cols
  position_nonneg : 0 ≤ s.1.displayBufferPosition
  position_dvd : (cols : Int) ∣ s.1.displayBufferPosition
  window_inside : s.1.displayBufferPosition + rows * cols ≤ s.1.textBuffer.length
  cursor_nonneg : 0 ≤ s.1.menuBufferCursor
  cursor_le : s.1.menuBufferCursor ≤ s.1.textBufferNospace
  cursor_after : s.1.displayBufferPosition ≤ s.1.menuBufferCursor
  cursor_before : s.1.menuBufferCursor < s.1.displayBufferPosition + rows * cols

/-- `nav_b` on the first cell of a window scrolled down by one row, over a text that fills the screen
exactly: the cursor leaves the window upwards and the last row disappears with the same key. -/
def ScrollsTwice (rows cols : Nat) (t : Textbuffer) (key : Key) : Prop :=
  key = .navB ∧ t.displayBufferPosition = cols ∧ t.menuBufferCursor = cols ∧
    t.textBufferNospace = rows * cols

theorem View.length_page (hcols : 0 < cols) :
    (v.page rows cols).length = span rows cols v.ed.text.length := by
  have hlt : v.ed.text.length < span rows cols v.ed.text.length := lt_span hcols _
  simp [View.page]
  omega

theorem View.length_row (hcols : 0 < cols) (hin : v.Inside rows cols) {i : Nat} (hi : i < rows) :
    (v.row rows cols i).length = cols := by
  have hrow : cols * i + cols ≤ rows * cols := by
    calc cols * i + cols = (i + 1) * cols := by ring
      _ ≤ rows * cols := Nat.mul_le_mul_right cols hi
  have hnonneg := hin.nonneg
  have hle := hin.le_span
  rw [View.row, List.length_take, List.length_drop, View.length_page hcols,
    show v.top + (cols : Int) * i = v.top + (cols * i : Nat) by push_cast; rfl]
  omega

theorem Sound.returned_getElem (h : Sound rows cols v s) {i : Nat} (hi : i < rows) :
    s.2[i]? = some (v.row rows cols i) := by
  rw [h.returned, View.shown, List.getElem?_map, List.getElem?_range hi, Option.map_some]

theorem Sound.healthy (h : Sound rows cols v s) (hcols : 0 < cols) (hon : v.OnScreen rows cols)
    (hpage : s.1.textBuffer = v.page rows cols) : Healthy rows cols s where
  rows_returned := by rw [h.returned]; simp [View.shown]
  row_length := by
    intro row hrow
    rw [h.returned, View.shown, List.mem_map] at hrow
    obtain ⟨i, hi, rfl⟩ := hrow
    exact View.length_row hcols h.inside (List.mem_range.mp hi)
  position_nonneg := by rw [h.shows.position]; exact h.inside.nonneg
  position_dvd := by rw [h.shows.position]; exact h.inside.dvd
  window_inside := by
    rw [h.shows.position, hpage, View.length_page hcols]
    exact h.inside.le_span
  cursor_nonneg := by rw [h.shows.cursor]; exact Int.natCast_nonneg _
  cursor_le := by
    rw [h.shows.cursor, h.shows.nospace]
    exact_mod_cast v.ed.cursor_le
  cursor_after := by rw [h.shows.position, h.shows.cursor]; exact hon.1
  cursor_before := by rw [h.shows.position, h.shows.cursor]; exact hon.2

/-- With the cursor on the screen, the overshooting deletion is the one described on the fields. -/
theorem Sound.scrollsTwice_iff (h : Sound rows cols v s) (hcols : 0 < cols)
    (hon : v.OnScreen rows cols) (key : Key) :
    ScrollsTwice rows cols s.1 key ↔ key = .navB ∧ v.Overshoots rows cols := by
  have hafter := hon.1
  rw [ScrollsTwice, View.Overshoots, h.shows.position, h.shows.cursor, h.shows.nospace]
  constructor
  · rintro ⟨rfl, htop, hcursor, hlength⟩
    exact ⟨rfl, htop, by exact_mod_cast hlength, by omega, by omega⟩
  · rintro ⟨rfl, htop, hlength, hpos, hle⟩
    exact ⟨rfl, htop, by omega, by exact_mod_cast hlength⟩

/-- The states of a session on two rows or more. -/
def Live (rows cols : Nat) (s : Textbuffer × List (List Char)) : Prop :=
  ∃ v, Sound rows cols v s ∧ v.OnScreen rows cols

theorem Live.press {key : Key} (h : Live rows cols s) (hrows : 2 ≤ rows) (hcols : 0 < cols)
    (hok : ¬ ScrollsTwice rows cols s.1 key) :
    ∃ s', Text.press s key = .ok s' ∧ Live rows cols s' ∧ Healthy rows cols s' := by
  obtain ⟨v, hs, hon⟩ := h
  rw [hs.scrollsTwice_iff hcols hon] at hok
  obtain ⟨s', hpress, hs', hpage, -⟩ := hs.press (by omega) hcols hok
  have hon' := hon.press hs.inside hrows hcols key
  exact ⟨s', hpress, ⟨_, hs', hon'⟩, hs'.healthy hcols hon' hpage⟩

theorem Live.press_raises {key : Key} (h : Live rows cols s) (hrows : 0 < rows) (hcols : 0 < cols)
    (hbad : ScrollsTwice rows cols s.1 key) : ∃ e, Text.press s key = .error e := by
  obtain ⟨v, hs, hon⟩ := h
  obtain ⟨rfl, hover⟩ := (hs.scrollsTwice_iff hcols hon key).mp hbad
  exact hs.press_raises hrows hcols hover

theorem onScreen_fresh (hrows : 0 < rows) (hcols : 0 < cols) : View.OnScreen rows cols .fresh := by
  have hcells : 0 < rows * cols := Nat.mul_pos hrows hcols
  refine ⟨le_refl 0, ?_⟩
  simp only [View.fresh, Editor.empty]
  omega

theorem init_live (hrows : 0 < rows) (hcols : 0 < cols) :
    ∃ s, init rows cols = .ok s ∧ Live rows cols s := by
  obtain ⟨s, hs, hsound⟩ := init_sound hrows hcols
  exact ⟨s, hs, .fresh, hsound, onScreen_fresh hrows hcols⟩

/-- On a screen of two rows or more, every key of a session leaves the screen healthy exactly when no
key is the deletion that scrolls twice. -/
theorem session_healthy_iff (rows cols : Nat) (hrows : 2 ≤ rows) (hcols : 1 ≤ cols)
    (keys : List Key) : ∃ fresh, init rows cols = .ok fresh ∧
      (Runs.AfterEach Text.press (Healthy rows cols) fresh keys ↔
        Runs.StepsMeet Text.press (fun s key => ¬ ScrollsTwice rows cols s.1 key) fresh keys) := by
  obtain ⟨fresh, hfresh, hlive⟩ := init_live (show 0 < rows by omega) hcols
  have hstep : ∀ s key, Live rows cols s → ¬ ScrollsTwice rows cols s.1 key →
      ∃ s', Text.press s key = .ok s' ∧ Live rows cols s' ∧ Healthy rows cols s' :=
    fun s key hs hok => hs.press hrows hcols hok
  have hbad : ∀ s key, Live rows cols s → ¬ ¬ ScrollsTwice rows cols s.1 key →
      ∀ s', Text.press s key = .ok s' → ¬ Healthy rows cols s' := by
    intro s key hs hbad s' hpress
    obtain ⟨e, he⟩ := hs.press_raises (by omega) hcols (not_not.mp hbad)
    rw [hpress] at he
    cases he
  exact ⟨fresh, hfresh, Runs.afterEach_iff_stepsMeet hstep hbad hlive keys⟩

theorem session_healthy_iff_device : (2 ≤ 7 ∧ 1 ≤ 21) ∧ ∃ fresh, init 7 21 = .ok fresh ∧
    (Runs.AfterEach Text.press (Healthy 7 21) fresh [.token ['1', '2'], .navU, .navB, .ac] ↔
      Runs.StepsMeet Text.press (fun s key => ¬ ScrollsTwice 7 21 s.1 key) fresh
        [.token ['1', '2'], .navU, .navB, .ac]) :=
  ⟨by decide, session_healthy_iff 7 21 (by decide) (by decide) _⟩

/-- A text that fills the device's screen, six rows up to the first cell shown, and a backspace:
`buffer` raises. -/
theorem session_raises_on_backspace :
    session 7 21 (.token (List.replicate 147 '1') :: List.replicate 6 .navU ++ [.navB]) =
      .error .indexError := by
  decide +kernel

/-! ### The text and the cursor -/

/-- As long as `buffer` has not raised, a session is the plain editor on the same keys: the string
`calculate` evaluates is the text, and the cursor is its cursor. Only `buffer` can raise. -/
theorem session_refines_editor (rows cols : Nat) (hrows : 1 ≤ rows) (hcols : 1 ≤ cols)
    (keys : List Key) (s : Textbuffer × List (List Char)) (h : session rows cols keys = .ok s) :
    s.1.evalText = (keys.foldl (Key.edit cols) Editor.empty).text ∧
      s.1.menuBufferCursor = (keys.foldl (Key.edit cols) Editor.empty).cursor ∧
      ∀ key, ∃ t, s.1.updateBuffer key = .ok t := by
  have hsound := session_sound hrows hcols h
  have hed : (keys.foldl (View.press rows cols) .fresh).ed =
      keys.foldl (Key.edit cols) Editor.empty :=
    (List.foldl_hom View.ed fun _ _ => rfl).symm
  obtain ⟨pad, hpad⟩ := hsound.shows.text
  rw [← hed]
  refine ⟨?_, hsound.shows.cursor, fun key => ?_⟩
  · rw [evalText, hsound.shows.nospace, Py.sliceTo_of_nonneg _ (Int.natCast_nonneg _), hpad]
    simp
  · obtain ⟨t, ht, -⟩ := updateBuffer_edited hsound.shows hrows hcols key
    exact ⟨t, ht⟩

theorem session_refines_editor_device :
    ∃ s, session 7 21 [.token ['1', '+', '2'], .navL, .navB] = .ok s ∧
      s.1.evalText = ([.token ['1', '+', '2'], .navL, .navB].foldl (Key.edit 21) Editor.empty).text ∧
      s.1.menuBufferCursor =
        ([.token ['1', '+', '2'], .navL, .navB].foldl (Key.edit 21) Editor.empty).cursor ∧
      ∀ key, ∃ t, s.1.updateBuffer key = .ok t := by
  obtain ⟨s, hs⟩ := Runs.exists_ok
    (show (session 7 21 [.token ['1', '+', '2'], .navL, .navB]).isOk = true by decide +kernel)
  exact ⟨s, hs, session_refines_editor 7 21 (by decide) (by decide) _ s hs⟩

end CalSci.Text
