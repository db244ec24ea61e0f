import CalSci.TextStep

/-! The window invariant: a key keeps the window inside the padded text, and on a screen of two rows
or more keeps the cursor in the window, except for one state. A deletion can scroll the window up and
follow a disappearing last row with the same key; from a window scrolled by exactly one row it then
starts one row before the text. -/

namespace CalSci.Text

open LineEditor

/-- Two row boundaries in order are a row apart. -/
theorem add_le_of_lt_of_dvd {cols : Nat} {a b : Int} (ha : (cols : Int) ∣ a) (hb : (cols : Int) ∣ b)
    (hlt : a < b) : a + cols ≤ b := by
  have hle := Int.le_of_dvd (by omega) (Int.dvd_sub hb ha)
  omega

variable {rows cols : Nat} {v : View}

theorem dvd_cells : (cols : Int) ∣ rows * cols := Dvd.intro_left _ rfl

theorem dvd_span_int (length : Nat) : (cols : Int) ∣ span rows cols length :=
  Int.natCast_dvd_natCast.mpr (dvd_span length)

/-- The row of `position`, counted in cells. -/
theorem sub_emod_bounds (hcols : 0 < cols) (position : Int) :
    (cols : Int) ∣ position - position % cols ∧ position - position % cols ≤ position ∧
      position < position - position % cols + cols := by
  have hpos : (0 : Int) < cols := by omega
  have hnonneg := Int.emod_nonneg position (show (cols : Int) ≠ 0 by omega)
  have hlt := Int.emod_lt_of_pos position hpos
  refine ⟨Int.dvd_self_sub_emod, ?_, ?_⟩ <;> omega

/-- The row of a position in the text ends inside the padded text. -/
theorem row_end_le_span (rows : Nat) (hcols : 0 < cols) {position length : Nat} (h : position ≤ length) :
    (position : Int) - (position : Int) % cols + cols ≤ span rows cols length := by
  obtain ⟨hdvd, hle, -⟩ := sub_emod_bounds hcols (position : Int)
  have hlt : length < span rows cols length := lt_span hcols length
  exact add_le_of_lt_of_dvd hdvd (dvd_span_int length) (by omega)

/-- Removing a character removes a row exactly when the marker was alone on the last one. -/
theorem span_pred (rows : Nat) (hcols : 0 < cols) {length : Nat} (hpos : 0 < length) :
    span rows cols length = span rows cols (length - 1) ∨
      (span rows cols length = length + cols ∧ rows * cols ≤ length ∧
        span rows cols (length - 1) = length) := by
  obtain ⟨n, rfl⟩ : ∃ n, length = n + 1 := ⟨length - 1, by omega⟩
  rw [Nat.add_sub_cancel]
  by_cases hdvd : cols ∣ n + 1
  · have hdiv : (n + 1) / cols = n / cols + 1 := Nat.succ_div_of_dvd hdvd
    have hwhole : (n / cols + 1) * cols = n + 1 := by rw [← hdiv, Nat.div_mul_cancel hdvd]
    have hnext : (n / cols + 1 + 1) * cols = n + 1 + cols := by rw [Nat.succ_mul, hwhole]
    unfold span
    rw [hdiv, hnext, hwhole]
    by_cases hle : rows * cols ≤ n + 1
    · exact Or.inr ⟨by omega, hle, by omega⟩
    · obtain ⟨k, hk⟩ := hdvd
      have hlt : cols * k < cols * rows := by rw [← hk, Nat.mul_comm cols rows]; omega
      have hstep : cols * (k + 1) ≤ cols * rows := Nat.mul_le_mul_left cols (Nat.lt_of_mul_lt_mul_left hlt)
      rw [Nat.mul_succ, Nat.mul_comm cols rows, ← hk] at hstep
      exact Or.inl (by omega)
  · unfold span
    rw [Nat.succ_div_of_not_dvd hdvd]
    exact Or.inl rfl

namespace View

/-- The one state in which a deletion moves the window before the text. -/
def Overshoots (rows cols : Nat) (v : View) : Prop :=
  v.top = cols ∧ v.ed.text.length = rows * cols ∧ 0 < v.ed.cursor ∧ v.ed.cursor ≤ cols

/-! ### The window stays inside the text -/

theorem Inside.forward (h : v.Inside rows cols) (step : Nat) :
    Inside rows cols ⟨v.ed.forward step, v.topForward rows cols step⟩ := by
  have hnonneg := h.nonneg
  have hspan := h.le_span
  have hcells := cells_le_span rows cols v.ed.text.length
  unfold topForward
  split
  · refine ⟨le_refl 0, dvd_zero _, ?_⟩
    simp only [Editor.text_forward]
    omega
  · split
    · rename_i hstay hscroll
      refine ⟨by simp only; omega, Int.dvd_add h.dvd (Int.dvd_refl _), ?_⟩
      simp only [Editor.text_forward]
      rcases Nat.eq_zero_or_pos cols with rfl | hcols
      · simpa using hspan
      have hlt : v.ed.text.length < span rows cols v.ed.text.length := lt_span hcols _
      have := add_le_of_lt_of_dvd (Int.dvd_add h.dvd dvd_cells) (dvd_span_int v.ed.text.length)
        (show v.top + rows * cols < (span rows cols v.ed.text.length : Nat) by omega)
      omega
    · exact ⟨hnonneg, h.dvd, by simpa only [Editor.text_forward] using hspan⟩

theorem dvd_topBack (h : v.Inside rows cols) (step : Nat) : (cols : Int) ∣ v.topBack rows cols step := by
  unfold topBack
  split
  · exact Int.dvd_sub (dvd_span_int _) dvd_cells
  · split
    · exact Int.dvd_sub h.dvd (Int.dvd_refl _)
    · exact h.dvd

theorem topBack_nonneg (h : v.Inside rows cols) (step : Nat) : 0 ≤ v.topBack rows cols step := by
  have hnonneg := h.nonneg
  have hcells := cells_le_span rows cols v.ed.text.length
  unfold topBack
  split
  · omega
  · split
    · have := add_le_of_lt_of_dvd (dvd_zero (cols : Int)) h.dvd (by omega)
      omega
    · exact hnonneg

theorem topBack_le_span (h : v.Inside rows cols) (step : Nat) :
    v.topBack rows cols step + rows * cols ≤ span rows cols v.ed.text.length := by
  have hspan := h.le_span
  unfold topBack
  split
  · omega
  · split <;> omega

theorem Inside.back (h : v.Inside rows cols) (step : Nat) :
    Inside rows cols ⟨v.ed.back step, v.topBack rows cols step⟩ :=
  ⟨topBack_nonneg h step, dvd_topBack h step, by
    simpa only [Editor.text_back] using topBack_le_span h step⟩

/-- A window that has lost its last row is at least a row down. -/
theorem cols_le_top_of_shrinks (hs : v.Shrinks rows cols) : (cols : Int) ≤ v.top := by
  have := hs.1
  have := hs.2
  omega

theorem topDelete_nonneg (h : v.Inside rows cols) (hcols : 0 < cols) (hok : ¬ v.Overshoots rows cols) :
    0 ≤ v.topDelete rows cols := by
  have hback := topBack_nonneg h 1
  unfold topDelete
  split
  · rename_i hs
    have hlast := hs.1
    have hlong := hs.2
    have htop := cols_le_top_of_shrinks hs
    unfold topBack
    split
    · have hlt : v.ed.text.length < span rows cols v.ed.text.length := lt_span hcols _
      have := add_le_of_lt_of_dvd dvd_cells (dvd_span_int v.ed.text.length)
        (show (rows : Int) * cols < (span rows cols v.ed.text.length : Nat) by omega)
      omega
    · split
      · -- both moves of the window: the overshooting state is the only one without two rows to spare
        have hne : v.top ≠ cols := fun htop => hok ⟨htop, by omega, by omega, by omega⟩
        have := add_le_of_lt_of_dvd (Int.dvd_refl (cols : Int)) h.dvd (by omega)
        omega
      · omega
  · exact hback

theorem dvd_topDelete (h : v.Inside rows cols) : (cols : Int) ∣ v.topDelete rows cols := by
  unfold topDelete
  split
  · exact Int.dvd_sub (dvd_topBack h 1) (Int.dvd_refl _)
  · exact dvd_topBack h 1

theorem topDelete_le_span (h : v.Inside rows cols) (hcols : 0 < cols) :
    v.topDelete rows cols + rows * cols ≤ span rows cols v.ed.backspace.text.length := by
  have hback := topBack_le_span h 1
  have hspan := h.le_span
  rcases Nat.eq_zero_or_pos v.ed.cursor with hzero | hpos
  · rw [Editor.backspace_of_zero hzero]
    change _ ≤ ((span rows cols v.ed.text.length : Nat) : Int)
    unfold topDelete
    split <;> omega
  · rw [Editor.length_backspace_of_pos hpos]
    have hlength : 0 < v.ed.text.length := Nat.lt_of_lt_of_le hpos v.ed.cursor_le
    have hle : v.topBack rows cols 1 ≤ v.top := by
      unfold topBack
      rw [if_neg (by omega)]
      split <;> omega
    unfold topDelete
    split
    · rename_i hs
      have hlast := hs.1
      have hlt : v.ed.text.length - 1 < span rows cols (v.ed.text.length - 1) := lt_span hcols _
      omega
    · rename_i hs
      rcases span_pred rows hcols hlength with heq | ⟨heq, hlong, hpred⟩
      · rw [← heq]
        exact hback
      · -- the last row disappears and was not shown, so the window ends at least a row above it
        have hne : v.top + rows * cols ≠ (span rows cols v.ed.text.length : Nat) :=
          fun hend => hs ⟨by omega, hlong⟩
        have := add_le_of_lt_of_dvd (Int.dvd_add h.dvd dvd_cells) (dvd_span_int v.ed.text.length)
          (lt_of_le_of_ne hspan hne)
        omega

theorem Inside.delete (h : v.Inside rows cols) (hcols : 0 < cols) (hok : ¬ v.Overshoots rows cols) :
    Inside rows cols ⟨v.ed.backspace, v.topDelete rows cols⟩ :=
  ⟨topDelete_nonneg h hcols hok, dvd_topDelete h, topDelete_le_span h hcols⟩

theorem topDelete_of_overshoots (hrows : 0 < rows) (hover : v.Overshoots rows cols) :
    v.topDelete rows cols = -cols := by
  obtain ⟨htop, hlength, hpos, hle⟩ := hover
  have hcells : cols ≤ rows * cols := Nat.le_mul_of_pos_left cols hrows
  have hs : v.Shrinks rows cols := ⟨by push_cast [hlength, htop]; omega, by omega⟩
  rw [topDelete, if_pos hs, topBack, if_neg (by omega), if_pos (by omega), htop]
  omega

theorem Inside.insert (h : v.Inside rows cols) (hcols : 0 < cols) (text : List Char) :
    Inside rows cols ⟨v.ed.insert text, v.topInsert rows cols text.length⟩ := by
  have hnonneg := h.nonneg
  have hspan := h.le_span
  have hcursor := (v.ed.insert text).cursor_le
  rw [Editor.cursor_insert] at hcursor
  obtain ⟨hdvd, hle, hlt⟩ := sub_emod_bounds hcols ((v.ed.cursor + text.length : Nat) : Int)
  have hend := row_end_le_span rows hcols hcursor
  have hmul : ((rows : Int) - 1) * cols = rows * cols - cols := by ring
  push_cast at hdvd hle hlt hend
  unfold topInsert
  split
  · rename_i hscroll
    have hrow : (rows : Int) * cols - cols < v.ed.cursor + text.length -
        (v.ed.cursor + text.length : Int) % cols := by omega
    have := add_le_of_lt_of_dvd (Int.dvd_sub dvd_cells (Int.dvd_refl _)) hdvd hrow
    refine ⟨by simp only; omega, ?_, by simp only; omega⟩
    simp only [hmul]
    exact Int.dvd_sub hdvd (Int.dvd_sub dvd_cells (Int.dvd_refl _))
  · refine ⟨hnonneg, h.dvd, ?_⟩
    have := span_mono rows cols
      (show v.ed.text.length ≤ (v.ed.insert text).text.length by rw [Editor.length_insert]; omega)
    simp only
    omega

theorem Inside.empty : Inside rows cols ⟨Editor.empty, 0⟩ := by
  have hcells := cells_le_span rows cols (Editor.empty : Editor Char).text.length
  exact ⟨le_refl 0, dvd_zero _, by simp only; omega⟩

/-- A key keeps the window inside the text, except for the overshooting deletion. -/
theorem Inside.press (h : v.Inside rows cols) (hcols : 0 < cols) (key : Key)
    (hok : ¬ (key = .navB ∧ v.Overshoots rows cols)) : Inside rows cols (v.press rows cols key) := by
  cases key with
  | navL => exact h.back 1
  | navR => exact h.forward 1
  | navU => exact h.back cols
  | navD => exact h.forward cols
  | navB => exact h.delete hcols fun hover => hok ⟨rfl, hover⟩
  | ac => exact Inside.empty
  | token text => exact h.insert hcols text

/-! ### The cursor stays on the screen -/

theorem OnScreen.forward (h : v.OnScreen rows cols) (hcells : cols ≤ rows * cols)
    (hpos : 0 < rows * cols) {step : Nat} (hstep : step ≤ cols) :
    OnScreen rows cols ⟨v.ed.forward step, v.topForward rows cols step⟩ := by
  obtain ⟨htop, hlt⟩ := h
  unfold OnScreen topForward
  simp only [Editor.cursor_forward]
  split
  · omega
  · split <;> omega

theorem OnScreen.back (h : v.OnScreen rows cols) (hcells : cols ≤ rows * cols)
    (hcols : 0 < cols) {step : Nat} (hstep : step ≤ cols) :
    OnScreen rows cols ⟨v.ed.back step, v.topBack rows cols step⟩ := by
  obtain ⟨htop, hlt⟩ := h
  have hlength : v.ed.text.length < span rows cols v.ed.text.length := lt_span hcols _
  have hspan := cells_le_span rows cols v.ed.text.length
  unfold OnScreen topBack
  simp only [Editor.cursor_back]
  split
  · have hlast : rows * cols < span rows cols v.ed.text.length →
        span rows cols v.ed.text.length ≤ v.ed.text.length + cols := span_le_of_cells_lt
    omega
  · split <;> omega

theorem OnScreen.delete (h : v.OnScreen rows cols) (hin : v.Inside rows cols)
    (hcells : 2 * cols ≤ rows * cols) (hcols : 0 < cols) :
    OnScreen rows cols ⟨v.ed.backspace, v.topDelete rows cols⟩ := by
  have hback := h.back (by omega) hcols (show 1 ≤ cols by omega)
  have hnonneg := hin.nonneg
  have hcursor := v.ed.cursor_le
  obtain ⟨htop, hlt⟩ := h
  rcases Nat.eq_zero_or_pos v.ed.cursor with hzero | hpos
  · -- with the cursor at the start the first window is shown, and its last row does not disappear
    have hs : ¬ v.Shrinks rows cols := by
      rintro ⟨hlast, hlong⟩
      omega
    rw [topDelete, if_neg hs, Editor.backspace_of_zero hzero]
    rwa [Editor.back, if_pos (by omega)] at hback
  · obtain ⟨hback1, hback2⟩ := hback
    simp only [Editor.cursor_back, if_neg (show ¬ v.ed.cursor < 1 by omega)] at hback1 hback2
    unfold OnScreen topDelete
    simp only [Editor.cursor_backspace_of_pos hpos]
    split
    · rename_i hs
      have hlast := hs.1
      unfold topBack at hback1 hback2 ⊢
      rw [if_neg (by omega)] at hback1 hback2 ⊢
      split <;> omega
    · exact ⟨hback1, hback2⟩

theorem OnScreen.insert (h : v.OnScreen rows cols) (hcells : cols ≤ rows * cols) (hcols : 0 < cols)
    (text : List Char) : OnScreen rows cols ⟨v.ed.insert text, v.topInsert rows cols text.length⟩ := by
  obtain ⟨htop, hlt⟩ := h
  obtain ⟨-, hle, hend⟩ := sub_emod_bounds hcols ((v.ed.cursor + text.length : Nat) : Int)
  have hmul : ((rows : Int) - 1) * cols = rows * cols - cols := by ring
  unfold OnScreen topInsert
  simp only [Editor.cursor_insert]
  push_cast at hle hend ⊢
  split <;> omega

/-- On a screen of two rows or more a key keeps the cursor in the window. -/
theorem OnScreen.press (h : v.OnScreen rows cols) (hin : v.Inside rows cols) (hrows : 2 ≤ rows)
    (hcols : 0 < cols) (key : Key) : OnScreen rows cols (v.press rows cols key) := by
  have hcells : 2 * cols ≤ rows * cols := Nat.mul_le_mul_right cols hrows
  cases key with
  | navL => exact h.back (by omega) hcols hcols
  | navR => exact h.forward (by omega) (by omega) hcols
  | navU => exact h.back (by omega) hcols (Nat.le_refl _)
  | navD => exact h.forward (by omega) (by omega) (Nat.le_refl _)
  | navB => exact h.delete hin hcells hcols
  | ac =>
      refine ⟨le_refl 0, ?_⟩
      change (0 : Int) < 0 + rows * cols
      omega
  | token text => exact h.insert (by omega) hcols text

end View

end CalSci.Text
