import CalSci.FormStep

/-! What a key does to the field of the selected row, in closed form: the text it leaves, and where it scrolls the
offset, from the text, the cursor and the offset before. Nothing is asked of the cursor but that it is not below -1,
where `nav_l` takes it on an empty text: it may have left the text. -/

namespace CalSci

namespace Field

variable {cols : Int} {d : Field}

/-- The offset after a key. -/
def scrolled (cols : Int) (d : Field) : Key → Int
  -- past the end of the text to its start, or one column on at the right edge
  | .navR =>
      if d.cursor + 1 = d.text.length then 0
      else if d.cursor + 1 = d.position + cols then d.position + 1
      else d.position
  -- before the start of the text to its last columns, or one column back at the left edge
  | .navL =>
      if d.cursor ≤ 0 then max 0 (d.text.length - cols)
      else if d.cursor ≤ d.position then d.position - 1
      else d.position
  -- as `nav_l`; where a character goes, the last columns stay filled
  | .navB =>
      if d.cursor ≤ 0 then max 0 (d.text.length - cols)
      else
        let position := if d.cursor ≤ d.position then d.position - 1 else d.position
        if d.cursor = d.text.length then position
        else
          let left : Int := if d.cursor ≤ d.text.length then d.text.length - 1 else d.text.length
          if left ≤ cols then 0 else min position (left - cols)
  | .ac | .navU | .navD => 0
  -- the cursor takes the right edge along
  | .token inp =>
      if inp = [] then if d.cursor = d.position + cols then d.position + 1 else d.position
      else if d.cursor < d.position + cols then max d.position (d.cursor + inp.length - cols + 1)
      else d.position

/-- The text after a key: what is typed goes in at the cursor, `nav_b` takes out the character before it, and white
space at the end becomes one space. -/
def retyped (d : Field) : Key → List Char
  | .ac => [' ']
  | .navB =>
      let text := if 0 < d.cursor ∧ d.cursor ≠ d.text.length then d.text.eraseIdx (d.cursor - 1).toNat else d.text
      Py.rstrip text ++ [' ']
  | .token inp =>
      let text :=
        if 0 ≤ d.cursor then d.text.take d.cursor.toNat ++ inp ++ d.text.drop d.cursor.toNat
        -- from -1 the first character goes in before the last one, the others at the start
        else inp.drop 1 ++ (Py.sliceTo d.text (-1) ++ inp.take 1 ++ Py.sliceFrom d.text (-1))
      Py.rstrip text ++ [' ']
  | .navL | .navR | .navU | .navD => Py.rstrip d.text ++ [' ']

/-! ### Typing -/

/-- Characters typed one after the other, from a cursor that may be past the text. -/
theorem foldl_put (hcursor : 0 ≤ d.cursor) (word : List Char) :
    word.foldl (fun d chr => d.put cols [chr]) d =
      { text := d.text.take d.cursor.toNat ++ word ++ d.text.drop d.cursor.toNat
        cursor := d.cursor + word.length
        position :=
          if word = [] then d.position
          else if d.cursor < d.position + cols then max d.position (d.cursor + word.length - cols + 1)
          else d.position } := by
  induction word generalizing d with
  | nil => simp
  | cons chr word ih =>
      have hput : d.put cols [chr] =
          { text := d.text.take d.cursor.toNat ++ [chr] ++ d.text.drop d.cursor.toNat
            cursor := d.cursor + 1
            position := if d.cursor + 1 = d.position + cols then d.position + 1 else d.position } := by
        rw [put, Py.sliceTo_of_nonneg _ hcursor, Py.sliceFrom_of_nonneg _ hcursor]
        rfl
      rw [List.foldl_cons, hput, ih (by dsimp only; omega)]
      have hnext : (d.cursor + 1).toNat = d.cursor.toNat + 1 := by omega
      apply Field.ext
      · dsimp only
        rw [hnext]
        rcases Nat.le_total d.cursor.toNat d.text.length with hle | hge
        · have htake : (d.text.take d.cursor.toNat ++ [chr]).length = d.cursor.toNat + 1 := by simp; omega
          rw [← htake, List.take_left, List.drop_left]
          simp
        · rw [List.take_of_length_le hge, List.drop_eq_nil_of_le hge, List.append_nil, List.take_of_length_le,
            List.drop_eq_nil_of_le]
          · simp
          · simpa using hge
          · simpa using hge
      · dsimp only
        rw [List.length_cons]
        omega
      · dsimp only
        rw [List.length_cons, if_neg (List.cons_ne_nil chr word)]
        by_cases hword : word = []
        · subst hword
          rw [if_pos rfl, List.length_nil]
          split_ifs <;> omega
        · rw [if_neg hword]
          split_ifs <;> omega

/-- From the cursor -1 the first character goes before the last one. -/
theorem put_minus_one (hcursor : d.cursor = -1) (chr : Char) : d.put cols [chr] =
    { text := Py.sliceTo d.text (-1) ++ [chr] ++ Py.sliceFrom d.text (-1)
      cursor := 0
      position := if 0 = d.position + cols then d.position + 1 else d.position } := by
  rw [put, hcursor]
  rfl

theorem type_of_ne_nil {inp : List Char} (h : inp ≠ []) :
    d.type cols inp = inp.foldl (fun d chr => d.put cols [chr]) d := by
  match inp, h with
  | [chr], _ => rfl
  | chr :: next :: inp, _ => rw [type, if_pos (by simp)]

theorem type_eq (hcursor : -1 ≤ d.cursor) (hposition : 0 ≤ d.position) (hcols : 0 < cols) (inp : List Char) :
    (d.type cols inp).position = d.scrolled cols (.token inp) ∧
      Py.rstrip (d.type cols inp).text ++ [' '] = d.retyped (.token inp) ∧ -1 ≤ (d.type cols inp).cursor := by
  by_cases hinp : inp = []
  · subst hinp
    have htype : d.type cols [] = d.put cols [] := rfl
    rw [htype, put, scrolled, if_pos rfl, retyped]
    refine ⟨by simp, ?_, by simpa using hcursor⟩
    by_cases hc : 0 ≤ d.cursor
    · rw [if_pos hc, Py.sliceTo_of_nonneg _ hc, Py.sliceFrom_of_nonneg _ hc]
    · rw [if_neg hc, show d.cursor = -1 by omega]
      rfl
  · rw [type_of_ne_nil hinp, scrolled, if_neg hinp, retyped]
    by_cases hc : 0 ≤ d.cursor
    · rw [foldl_put hc, if_neg hinp, if_pos hc]
      exact ⟨rfl, rfl, by dsimp only; omega⟩
    · obtain ⟨chr, word, rfl⟩ := List.exists_cons_of_ne_nil hinp
      have hminus : d.cursor = -1 := by omega
      rw [List.foldl_cons, put_minus_one hminus, if_neg (by omega), foldl_put (le_refl _), if_neg hc]
      refine ⟨?_, by simp, by dsimp only; omega⟩
      dsimp only
      rw [hminus, List.length_cons]
      by_cases hword : word = []
      · subst hword
        rw [if_pos rfl, List.length_nil]
        split_ifs <;> omega
      · rw [if_neg hword]
        split_ifs <;> omega

/-! ### The other keys -/

theorem left_of_nonpos (h : d.cursor ≤ 0) : d.left cols =
    { d with cursor := d.text.length - 1, position := max 0 (d.text.length - cols) } := by
  rw [left]
  dsimp only
  rw [if_pos (by omega)]
  congr 1
  split_ifs <;> omega

theorem left_of_pos (h : 0 < d.cursor) : d.left cols =
    { d with cursor := d.cursor - 1, position := if d.cursor ≤ d.position then d.position - 1 else d.position } := by
  rw [left]
  dsimp only
  rw [if_neg (by omega)]
  split_ifs with hlt hle hle
  · rfl
  · omega
  · omega
  · rfl

/-- The cut takes the character at the cursor out, and fills the last columns. -/
theorem cut_eq (hcursor : 0 ≤ d.cursor) (hposition : 0 ≤ d.position) (hcols : 0 < cols) (h : d.cursor ≠ d.text.length - 1) :
    d.cut cols =
      { text := d.text.eraseIdx d.cursor.toNat
        cursor := d.cursor
        position :=
          if ((d.text.eraseIdx d.cursor.toNat).length : Int) ≤ cols then 0
          else min d.position ((d.text.eraseIdx d.cursor.toNat).length - cols) } := by
  have htext : Py.sliceTo d.text d.cursor ++ Py.sliceFrom d.text (d.cursor + 1) =
      d.text.eraseIdx d.cursor.toNat := by
    rw [Py.sliceTo_of_nonneg _ hcursor, Py.sliceFrom_of_nonneg _ (by omega), List.eraseIdx_eq_take_drop_succ,
      show (d.cursor + 1).toNat = d.cursor.toNat + 1 by omega]
  have hrest : (Py.sliceFrom (d.text.eraseIdx d.cursor.toNat) d.position).length =
      (d.text.eraseIdx d.cursor.toNat).length - d.position.toNat := by
    rw [Py.sliceFrom_of_nonneg _ hposition, List.length_drop]
  rw [cut, if_pos h]
  simp only [htext, hrest]
  generalize (d.text.eraseIdx d.cursor.toNat).length = length
  split_ifs with h1 h2 h3
  · omega
  · rw [min_eq_right (by omega)]
  · rfl
  · rw [min_eq_left (by omega)]

theorem left_cut_eq (hcursor : -1 ≤ d.cursor) (hposition : 0 ≤ d.position) (hcols : 0 < cols) :
    ((d.left cols).cut cols).position = d.scrolled cols .navB ∧
      Py.rstrip ((d.left cols).cut cols).text ++ [' '] = d.retyped .navB ∧ -1 ≤ ((d.left cols).cut cols).cursor := by
  by_cases hc : d.cursor ≤ 0
  · rw [left_of_nonpos hc, cut, if_neg (not_not_intro rfl)]
    refine ⟨?_, ?_, by dsimp only; omega⟩
    · rw [scrolled, if_pos hc]
    · rw [retyped, if_neg (fun h => absurd h.1 (by omega))]
  · have hpos : 0 < d.cursor := by omega
    obtain ⟨back, hback⟩ : ∃ back, (if d.cursor ≤ d.position then d.position - 1 else d.position) = back := ⟨_, rfl⟩
    have hback0 : 0 ≤ back := by
      rw [← hback]
      split_ifs <;> omega
    rw [left_of_pos hpos, scrolled, if_neg hc, retyped]
    dsimp only
    rw [hback]
    by_cases hend : d.cursor = d.text.length
    · rw [cut, if_neg (by dsimp only; omega), if_pos hend, if_neg (fun h => h.2 hend)]
      exact ⟨rfl, rfl, by dsimp only; omega⟩
    · rw [cut_eq (by dsimp only; omega) hback0 hcols (by dsimp only; omega), if_neg hend,
        if_pos (show 0 < d.cursor ∧ d.cursor ≠ d.text.length from ⟨hpos, hend⟩)]
      refine ⟨?_, rfl, by dsimp only; omega⟩
      dsimp only
      have hlength : ((d.text.eraseIdx (d.cursor - 1).toNat).length : Int) =
          if d.cursor ≤ d.text.length then (d.text.length : Int) - 1 else d.text.length := by
        rw [List.length_eraseIdx]
        split_ifs <;> omega
      rw [hlength]

/-- Where a key takes the field. -/
theorem press_eq (hcursor : -1 ≤ d.cursor) (hposition : 0 ≤ d.position) (hcols : 0 < cols) {key : Key}
    (hu : key ≠ .navU) (hd : key ≠ .navD) : (d.press cols key).position = d.scrolled cols key ∧
      (d.press cols key).text = d.retyped key ∧ -1 ≤ (d.press cols key).cursor := by
  cases key with
  | navU => exact absurd rfl hu
  | navD => exact absurd rfl hd
  | ac => exact ⟨rfl, by rw [press, dispatch, retyped]; rfl, by rw [press, dispatch]; decide⟩
  | navB => exact left_cut_eq hcursor hposition hcols
  | token inp => exact type_eq hcursor hposition hcols inp
  | navL =>
      rw [press, dispatch, scrolled, retyped]
      by_cases hc : d.cursor ≤ 0
      · rw [left_of_nonpos hc, if_pos hc]
        exact ⟨rfl, rfl, by dsimp only; omega⟩
      · rw [left_of_pos (by omega), if_neg hc]
        exact ⟨rfl, rfl, by dsimp only; omega⟩
  | navR =>
      rw [press, dispatch, right, scrolled, retyped]
      dsimp only
      split_ifs
      · exact ⟨rfl, rfl, by dsimp only; omega⟩
      · exact ⟨rfl, rfl, by dsimp only; omega⟩
      · exact ⟨rfl, rfl, by dsimp only; omega⟩

theorem scrolled_nonneg (hposition : 0 ≤ d.position) (key : Key) : 0 ≤ d.scrolled cols key := by
  cases key with
  | navU | navD | ac => exact le_refl 0
  | navL | navR | navB | token =>
      simp only [scrolled]
      split_ifs <;> omega

end Field

end CalSci
