import CalSci.TextSession

/-! Clearing a `Textbuffer`: `all_clear` empties the text but keeps `display_buffer` and
`buffer_length`, which `update_buffer` reads before `buffer` computes them anew. A result is therefore
shown as on a fresh object exactly when the old window, or for a navigation word the old length, does
not decide a branch. -/

namespace CalSci.Text

open LineEditor Textbuffer

variable {rows cols : Nat} {v : View} {t : Textbuffer}

/-- The condition on the state before `all_clear` under which its history is forgotten: for a text, the
old window was the first one, or both windows decide alike whether the text leaves the screen. -/
def ClearForgets (rows cols : Nat) (t : Textbuffer) : Key → Prop
  | .ac => True
  | .navR => t.textBufferNospace < 1
  | .navD => t.textBufferNospace < cols
  | .navL | .navU | .navB => rows * cols = 1 ∧ t.textBufferNospace = 0
  | .token text => t.displayBufferPosition = 0 ∨ text.length < rows * cols ∨
      t.displayBufferPosition + rows * cols ≤ text.length

/-- The two pictures of a result, on the old object and on a fresh one, exist and agree, with the
cursor on the screen. -/
def Agree (rows cols : Nat) (old fresh : Except Py.Err Picture) : Prop :=
  ∃ picture, old = .ok picture ∧ fresh = .ok picture ∧
    0 ≤ picture.cursor ∧ picture.cursor < rows * cols

/-- The result typed in the empty text, shown in the window chosen with an old window in mind. -/
def cleared (rows cols : Nat) (top : Int) (text : List Char) : View where
  ed := ⟨text, text.length, Nat.le_refl _⟩
  top := if top + rows * cols ≤ text.length then
      text.length - text.length % cols - (rows - 1) * cols
    else 0

/-! ### The calls after `all_clear` -/

theorem updateBuffer_allClear (key : Key) :
    t.allClear.updateBuffer key = t.allClear.dispatch 1 key >>= fun t' =>
      .ok { t' with textBuffer := Py.slice t'.textBuffer 0 t'.textBufferNospace ++ [marker] } := rfl

theorem clear_token (h : Shows rows cols v t) (hcells : 0 < rows * cols) (text : List Char) :
    ∃ t', t.allClear.updateBuffer (.token text) = .ok t' ∧
      Edited rows cols (cleared rows cols v.top text) t' := by
  have hlast : Py.item t.allClear.displayBuffer (-1) = .ok (v.top + rows * cols - 1) := h.item_last hcells
  have hcursor : t.allClear.menuBufferCursor + text.length = text.length := zero_add _
  have htext : Py.slice (Py.slice t.allClear.textBuffer 0 t.allClear.menuBufferCursor ++ text ++
      Py.slice t.allClear.textBuffer t.allClear.menuBufferCursor 1) 0
        (t.allClear.textBufferNospace + text.length) = text := by
    change Py.slice ([] ++ text ++ [marker]) 0 (0 + text.length) = text
    rw [List.nil_append, zero_add, Py.slice_of_nonneg _ (le_refl 0) (Int.natCast_nonneg _)]
    simp
  rw [updateBuffer_allClear, dispatch, insertText_of_last text 1 hlast]
  refine ⟨_, rfl, h.rows_eq, h.cols_eq, congrArg (· ++ [marker]) htext, hcursor, ?_⟩
  simp only [hcursor, cleared, show t.allClear.cols = cols from h.cols_eq,
    show t.allClear.rows = rows from h.rows_eq]
  by_cases hscroll : v.top + rows * cols ≤ text.length
  · rw [if_pos (by omega), if_pos hscroll]
  · rw [if_neg (by omega), if_neg hscroll]
    rfl

/-- The cleared window lies inside the result: it is the first one, or the one an insertion into an
empty text would choose. -/
theorem cleared_inside (hcols : 0 < cols) {top : Int} (htop : 0 ≤ top) (text : List Char) :
    (cleared rows cols top text).Inside rows cols := by
  have hcells := cells_le_span rows cols text.length
  by_cases hscroll : top + rows * cols ≤ text.length
  · have hinsert := (@View.Inside.empty rows cols).insert hcols text
    have hed : (Editor.empty.insert text) = (cleared rows cols top text).ed := by
      apply Editor.ext
      · simp [Editor.empty, cleared]
      · simp [Editor.empty, cleared]
    have htop' : View.topInsert rows cols ⟨Editor.empty, 0⟩ text.length =
        (cleared rows cols top text).top := by
      rw [View.topInsert, cleared, if_pos hscroll, if_pos]
      · simp [Editor.empty]
      · simp only [Editor.empty]
        omega
    rwa [hed, htop'] at hinsert
  · have hzero : (cleared rows cols top text).top = 0 := by rw [cleared, if_neg hscroll]
    refine ⟨by rw [hzero], by rw [hzero]; exact dvd_zero _, ?_⟩
    rw [hzero, zero_add]
    exact_mod_cast hcells

/-- Moving forward in the cleared text compares with the old length. -/
theorem clear_forward (h : Shows rows cols v t) (hcells : 0 < rows * cols) (step : Nat) :
    ∃ t', t.allClear.moveForward step = .ok t' ∧
      t'.menuBufferCursor = (if v.ed.text.length < step then 0 else step) ∧
      (v.ed.text.length < step → t'.displayBufferPosition = 0) ∧
      t'.rows = rows ∧ t'.cols = cols ∧ t'.textBuffer = [marker] ∧ t'.textBufferNospace = 0 := by
  have hlast : Py.item t.allClear.displayBuffer (-1) = .ok (v.top + rows * cols - 1) := h.item_last hcells
  have hcursor : t.allClear.menuBufferCursor + step = step := zero_add _
  have hlength : t.allClear.bufferLength = v.ed.text.length + 1 := h.length
  rw [moveForward]
  simp only [hlast, hcursor, hlength]
  by_cases hwrap : v.ed.text.length < step
  · rw [if_pos (by omega), if_pos hwrap]
    exact ⟨_, rfl, rfl, fun _ => rfl, h.rows_eq, h.cols_eq, rfl, rfl⟩
  · rw [if_neg (by omega), if_neg hwrap]
    by_cases hscroll : (step : Int) > v.top + rows * cols - 1
    · exact ⟨_, if_pos hscroll, rfl, fun hlt => absurd hlt hwrap, h.rows_eq, h.cols_eq, rfl, rfl⟩
    · exact ⟨_, if_neg hscroll, rfl, fun hlt => absurd hlt hwrap, h.rows_eq, h.cols_eq, rfl, rfl⟩

/-- The cleared object after a move back: at the old end, in a window before the text. -/
def beforeText (rows cols : Nat) (v : View) (t : Textbuffer) : Textbuffer :=
  { t.allClear with
    refreshArea := (0, t.cells)
    menuBufferCursor := v.ed.text.length
    displayBufferPosition := 1 - rows * cols }

theorem clear_back (h : Shows rows cols v t) (hcells : 0 < rows * cols) {step : Int} (hstep : 0 < step)
    (stop : Int) : t.allClear.moveBack step 1 stop = .ok (beforeText rows cols v t) := by
  have hcursor : t.allClear.menuBufferCursor - step = -step := zero_sub _
  have hend : t.allClear.bufferLength - 1 = v.ed.text.length := by
    change t.bufferLength - 1 = _
    rw [h.length, add_sub_cancel_right]
  have hsize : t.allClear.cells = rows * cols := h.cells_eq
  rw [moveBack]
  simp only [hcursor, hend, hsize]
  rw [if_pos (by omega), if_pos (by omega), beforeText, h.cells_eq]
  rfl

/-- The last row of the old window is never the row of the empty text. -/
theorem followLastRow_beforeText (h : Shows rows cols v t) (hrows : 0 < rows) (hcols : 0 < cols) :
    followLastRow (beforeText rows cols v t) 1 = .ok (beforeText rows cols v t) := by
  have hitem := h.item_lastRow hcols hrows
  have hextra := h.extra_nonneg
  have hcells : 0 < rows * cols := Nat.mul_pos hrows hcols
  have hsize := h.cells_eq
  change (Py.item t.displayBuffer (-t.cols) >>= fun lastRow =>
    if 1 - 0 - t.extraSpaces - 1 = lastRow ∧ 1 - 0 - t.extraSpaces - 1 ≥ t.cells then _ else _) = _
  rw [hitem]
  exact if_neg (by omega)

/-- What `update_buffer` leaves when a word that goes back follows `all_clear`. -/
theorem clear_updateBack (h : Shows rows cols v t) (hrows : 0 < rows) (hcols : 0 < cols) {key : Key}
    (hkey : key = .navL ∨ key = .navU ∨ key = .navB) :
    ∃ t', t.allClear.updateBuffer key = .ok t' ∧ t'.rows = rows ∧ t'.cols = cols ∧
      t'.textBuffer = [marker] ∧ t'.menuBufferCursor = v.ed.text.length ∧
      t'.displayBufferPosition = 1 - rows * cols := by
  have hcells : 0 < rows * cols := Nat.mul_pos hrows hcols
  have hpos : (0 : Int) < t.allClear.cols := by
    change (0 : Int) < t.cols
    rw [h.cols_eq]
    omega
  rw [updateBuffer_allClear]
  rcases hkey with rfl | rfl | rfl
  · rw [dispatch, clear_back h hcells Int.one_pos]
    exact ⟨_, rfl, h.rows_eq, h.cols_eq, rfl, rfl, rfl⟩
  · rw [dispatch, clear_back h hcells hpos]
    exact ⟨_, rfl, h.rows_eq, h.cols_eq, rfl, rfl, rfl⟩
  · rw [dispatch, clear_back h hcells Int.one_pos]
    change ∃ t', ((followLastRow (beforeText rows cols v t) 1 >>= _) >>= _) = _ ∧ _
    rw [followLastRow_beforeText h hrows hcols]
    exact ⟨_, rfl, h.rows_eq, h.cols_eq, rfl, rfl, rfl⟩

theorem clear_updateForward (h : Shows rows cols v t) (hcells : 0 < rows * cols) {key : Key} {step : Nat}
    (hkey : key = .navR ∧ step = 1 ∨ key = .navD ∧ step = cols) :
    ∃ t', t.allClear.updateBuffer key = .ok t' ∧ t'.rows = rows ∧ t'.cols = cols ∧
      t'.textBuffer = [marker] ∧
      t'.menuBufferCursor = (if v.ed.text.length < step then 0 else step) ∧
      (v.ed.text.length < step → t'.displayBufferPosition = 0) := by
  obtain ⟨t', hmove, hcursor, hposition, hr, hc, htext, hnospace⟩ := clear_forward h hcells step
  rw [updateBuffer_allClear]
  have hdispatch : t.allClear.dispatch 1 key = .ok t' := by
    rcases hkey with ⟨rfl, rfl⟩ | ⟨rfl, rfl⟩
    · exact hmove
    · rw [dispatch, show t.allClear.cols = step from h.cols_eq]
      exact hmove
  rw [hdispatch]
  refine ⟨_, rfl, hr, hc, ?_, hcursor, hposition⟩
  rw [htext, hnospace]
  rfl

/-! ### The picture of a result -/

/-- The cursor counted from the start of the text, before and after `buffer`. -/
theorem cursor_of_showResult {t' : Textbuffer} {res : List Char} {picture : Picture}
    (hupdate : t.allClear.updateBuffer (Key.ofText res) = .ok t')
    (h : showResult t res = .ok picture) : picture.cursor + picture.position = t'.menuBufferCursor := by
  rw [showResult, hupdate] at h
  change (t'.buffer >>= _) = _ at h
  rw [buffer] at h
  cases hrows : (List.range t'.padBuffer.rows).mapM t'.padBuffer.bufferRow with
  | error e =>
      simp only [hrows] at h
      cases h
  | ok shown =>
      simp only [hrows] at h
      cases h
      exact sub_add_cancel _ _

theorem showResult_of_edited {t' : Textbuffer} {res : List Char}
    (hupdate : t.allClear.updateBuffer (Key.ofText res) = .ok t') (hedited : Edited rows cols v t')
    (hcols : 0 < cols) (hin : v.Inside rows cols) :
    showResult t res = .ok ⟨v.shown rows cols, v.ed.cursor - v.top, v.top⟩ := by
  have hcursor : t'.padBuffer.cursor = v.ed.cursor - v.top := by
    rw [cursor, ← hedited.cursor, ← hedited.position]
    rfl
  rw [showResult, hupdate]
  change (t'.buffer >>= _) = _
  rw [hedited.buffer_eq hcols hin]
  change Except.ok (Picture.mk _ t'.padBuffer.cursor t'.padBuffer.displayBufferPosition) = _
  rw [hcursor, show t'.padBuffer.displayBufferPosition = v.top from hedited.position]

theorem showResult_raises {t' : Textbuffer} {res : List Char}
    (hupdate : t.allClear.updateBuffer (Key.ofText res) = .ok t') (hedited : Edited rows cols v t')
    (hrows : 0 < rows) (hcols : 0 < cols) (hneg : v.top < 0) (hle : -(rows * cols : Int) ≤ v.top) :
    ∃ e, showResult t res = .error e := by
  obtain ⟨e, he⟩ := hedited.buffer_raises_of_neg hrows hcols hneg hle
  refine ⟨e, ?_⟩
  rw [showResult, hupdate]
  change (t'.buffer >>= _) = _
  rw [he]
  rfl

theorem cleared_onScreen (hcols : 0 < cols) (hrows : 0 < rows) (text : List Char) :
    (cleared rows cols 0 text).OnScreen rows cols := by
  obtain ⟨-, hle, hlt⟩ := sub_emod_bounds hcols (text.length : Int)
  have hcells : cols ≤ rows * cols := Nat.le_mul_of_pos_left cols hrows
  have hmul : ((rows : Int) - 1) * cols = rows * cols - cols := by ring
  unfold View.OnScreen cleared
  simp only
  split <;> omega

/-- The old window and the first one agree on the result exactly under the condition for a text. -/
theorem cleared_eq_iff (hcols : 0 < cols) {top : Int} (htop : 0 ≤ top) (text : List Char) :
    (cleared rows cols top text).top = (cleared rows cols 0 text).top ↔
      (top = 0 ∨ text.length < rows * cols ∨ top + rows * cols ≤ text.length) := by
  obtain ⟨-, hle, hlt⟩ := sub_emod_bounds hcols (text.length : Int)
  have hmul : ((rows : Int) - 1) * cols = rows * cols - cols := by ring
  unfold cleared
  simp only
  refine ⟨?_, ?_⟩
  · intro heq
    by_contra hcond
    push Not at hcond
    obtain ⟨hne, hlong, hshort⟩ := hcond
    rw [if_neg (by omega), if_pos (by omega)] at heq
    omega
  · intro hcond
    split <;> split <;> omega

/-! ### When the old object and a fresh one agree -/

section Agreement

variable {fresh : Textbuffer} {res : List Char}

theorem agree_token (h : Shows rows cols v t) (hf : Shows rows cols .fresh fresh) (hrows : 0 < rows)
    (hcols : 0 < cols) (htop : 0 ≤ v.top) {text : List Char} (hkey : Key.ofText res = .token text) :
    Agree rows cols (showResult t res) (showResult fresh res) ↔
      (v.top = 0 ∨ text.length < rows * cols ∨ v.top + rows * cols ≤ text.length) := by
  have hcells : 0 < rows * cols := Nat.mul_pos hrows hcols
  obtain ⟨t', hupdate, hedited⟩ := clear_token h hcells text
  obtain ⟨f', hupdatef, heditedf⟩ := clear_token hf hcells text
  rw [show View.fresh.top = 0 from rfl] at heditedf
  rw [← hkey] at hupdate hupdatef
  rw [showResult_of_edited hupdate hedited hcols (cleared_inside hcols htop text),
    showResult_of_edited hupdatef heditedf hcols (cleared_inside hcols (le_refl 0) text),
    ← cleared_eq_iff hcols htop]
  refine ⟨?_, ?_⟩
  · rintro ⟨picture, hold, hnew, -⟩
    rw [← hnew] at hold
    exact congrArg Picture.position (Except.ok.inj hold)
  · intro heq
    have hview : cleared rows cols v.top text = cleared rows cols 0 text := by
      rw [View.mk.injEq]
      exact ⟨rfl, heq⟩
    obtain ⟨hon1, hon2⟩ := cleared_onScreen hcols hrows text
    refine ⟨_, by rw [hview], rfl, sub_nonneg.mpr hon1, ?_⟩
    change _ - _ < _
    omega

/-- An empty text in the first window, reached by both objects. -/
theorem agree_of_empty {t' f' : Textbuffer} (hcols : 0 < cols) (hcells : 0 < rows * cols)
    (hupdate : t.allClear.updateBuffer (Key.ofText res) = .ok t') (hedited : Edited rows cols .fresh t')
    (hupdatef : fresh.allClear.updateBuffer (Key.ofText res) = .ok f')
    (heditedf : Edited rows cols .fresh f') :
    Agree rows cols (showResult t res) (showResult fresh res) := by
  refine ⟨_, showResult_of_edited hupdate hedited hcols View.Inside.empty,
    showResult_of_edited hupdatef heditedf hcols View.Inside.empty, le_refl 0, ?_⟩
  change (0 : Int) - 0 < rows * cols
  omega

theorem agree_back (h : Shows rows cols v t) (hf : Shows rows cols .fresh fresh) (hrows : 0 < rows)
    (hcols : 0 < cols)
    (hkey : Key.ofText res = .navL ∨ Key.ofText res = .navU ∨ Key.ofText res = .navB) :
    Agree rows cols (showResult t res) (showResult fresh res) ↔
      (rows * cols = 1 ∧ v.ed.text.length = 0) := by
  have hcells : 0 < rows * cols := Nat.mul_pos hrows hcols
  obtain ⟨t', hupdate, hr, hc, htext, hcursor, hposition⟩ := clear_updateBack h hrows hcols hkey
  obtain ⟨f', hupdatef, hrf, hcf, htextf, hcursorf, hpositionf⟩ := clear_updateBack hf hrows hcols hkey
  have heditedf : Edited rows cols ⟨Editor.empty, 1 - rows * cols⟩ f' :=
    ⟨hrf, hcf, htextf, hcursorf, hpositionf⟩
  refine ⟨?_, ?_⟩
  · rintro ⟨picture, hold, hnew, -⟩
    have hone : rows * cols = 1 := by
      by_contra hne
      obtain ⟨e, he⟩ := showResult_raises hupdatef heditedf hrows hcols
        (by simp only; omega) (by simp only; omega)
      rw [hnew] at he
      cases he
    have hsum := cursor_of_showResult hupdate hold
    rw [cursor_of_showResult hupdatef hnew, hcursorf, hcursor] at hsum
    exact ⟨hone, by exact_mod_cast hsum.symm⟩
  · rintro ⟨hone, hlength⟩
    have hzero : (1 : Int) - rows * cols = 0 := by omega
    rw [hzero] at hposition heditedf
    rw [hlength] at hcursor
    exact agree_of_empty hcols hcells hupdate ⟨hr, hc, htext, hcursor, hposition⟩ hupdatef heditedf

theorem agree_forward (h : Shows rows cols v t) (hf : Shows rows cols .fresh fresh)
    (hcols : 0 < cols) (hcells : 0 < rows * cols) {step : Nat} (hstep : 0 < step)
    (hkey : Key.ofText res = .navR ∧ step = 1 ∨ Key.ofText res = .navD ∧ step = cols) :
    Agree rows cols (showResult t res) (showResult fresh res) ↔ v.ed.text.length < step := by
  obtain ⟨t', hupdate, hr, hc, htext, hcursor, hposition⟩ := clear_updateForward h hcells hkey
  obtain ⟨f', hupdatef, hrf, hcf, htextf, hcursorf, hpositionf⟩ := clear_updateForward hf hcells hkey
  have hlength : (View.fresh.ed.text.length) < step := hstep
  rw [if_pos hlength] at hcursorf
  refine ⟨?_, ?_⟩
  · rintro ⟨picture, hold, hnew, -⟩
    by_contra hnot
    have hsum := cursor_of_showResult hupdate hold
    rw [cursor_of_showResult hupdatef hnew, hcursorf, hcursor, if_neg hnot] at hsum
    omega
  · intro hlt
    rw [if_pos hlt] at hcursor
    exact agree_of_empty hcols hcells hupdate ⟨hr, hc, htext, hcursor, hposition hlt⟩ hupdatef
      ⟨hrf, hcf, htextf, hcursorf, hpositionf hlength⟩

theorem agree_ac (h : Shows rows cols v t) (hf : Shows rows cols .fresh fresh) (hcols : 0 < cols)
    (hcells : 0 < rows * cols) (hkey : Key.ofText res = .ac) :
    Agree rows cols (showResult t res) (showResult fresh res) := by
  have hupdate : ∀ t : Textbuffer, t.allClear.updateBuffer (Key.ofText res) = .ok t.allClear.allClear := by
    intro t
    rw [hkey]
    rfl
  exact agree_of_empty hcols hcells (hupdate t) ⟨h.rows_eq, h.cols_eq, rfl, rfl, rfl⟩ (hupdate fresh)
    ⟨hf.rows_eq, hf.cols_eq, rfl, rfl, rfl⟩

end Agreement

/-- Showing a result after `all_clear` forgets what was typed before, for every reachable state and
every string, exactly under `ClearForgets`. -/
theorem clear_forgets_iff (rows cols : Nat) (hrows : 1 ≤ rows) (hcols : 1 ≤ cols) (keys : List Key)
    (s : Textbuffer × List (List Char)) (h : session rows cols keys = .ok s) (res : List Char) :
    ∃ fresh, init rows cols = .ok fresh ∧
      (Agree rows cols (showResult s.1 res) (showResult fresh.1 res) ↔
        ClearForgets rows cols s.1 (Key.ofText res)) := by
  obtain ⟨v, hs⟩ : ∃ v, Sound rows cols v s := ⟨_, session_sound hrows hcols h⟩
  obtain ⟨fresh, hfresh, hf⟩ := init_sound hrows hcols
  have hcells : 0 < rows * cols := Nat.mul_pos hrows hcols
  refine ⟨fresh, hfresh, ?_⟩
  cases hkey : Key.ofText res with
  | navL =>
      rw [agree_back hs.shows hf.shows hrows hcols (Or.inl hkey), ClearForgets, hs.shows.nospace]
      norm_cast
  | navR =>
      rw [agree_forward hs.shows hf.shows hcols hcells Nat.one_pos (Or.inl ⟨hkey, rfl⟩), ClearForgets,
        hs.shows.nospace]
      norm_cast
  | navU =>
      rw [agree_back hs.shows hf.shows hrows hcols (Or.inr (Or.inl hkey)), ClearForgets, hs.shows.nospace]
      norm_cast
  | navD =>
      rw [agree_forward hs.shows hf.shows hcols hcells hcols (Or.inr ⟨hkey, rfl⟩), ClearForgets,
        hs.shows.nospace]
      norm_cast
  | navB =>
      rw [agree_back hs.shows hf.shows hrows hcols (Or.inr (Or.inr hkey)), ClearForgets, hs.shows.nospace]
      norm_cast
  | ac => exact iff_of_true (agree_ac hs.shows hf.shows hcols hcells hkey) trivial
  | token text =>
      rw [agree_token hs.shows hf.shows hrows hcols hs.inside.nonneg hkey, ClearForgets,
        hs.shows.position]

theorem clear_forgets_iff_device :
    ∃ s, session 7 21 [.token ['6', '*', '7']] = .ok s ∧ ∃ fresh, init 7 21 = .ok fresh ∧
      (Agree 7 21 (showResult s.1 ['4', '2']) (showResult fresh.1 ['4', '2']) ↔
        ClearForgets 7 21 s.1 (Key.ofText ['4', '2'])) := by
  obtain ⟨s, hs⟩ := Runs.exists_ok
    (show (session 7 21 [.token ['6', '*', '7']]).isOk = true by decide +kernel)
  exact ⟨s, hs, clear_forgets_iff 7 21 (by decide) (by decide) _ s hs _⟩

/-- After an expression of 168 characters a result of 150 is shown from the first row on, with the
cursor below the screen; a fresh object shows its end. -/
theorem clear_keeps_old_window :
    (session 7 21 [.token (List.replicate 168 '1')] >>= fun s =>
        showResult s.1 (List.replicate 150 '2')).map (fun p => (p.cursor, p.position)) = .ok (150, 0) ∧
      (init 7 21 >>= fun s =>
        showResult s.1 (List.replicate 150 '2')).map (fun p => (p.cursor, p.position)) = .ok (129, 21) := by
  decide +kernel

end CalSci.Text
