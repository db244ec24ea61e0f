import CalSci.FormStep

/-! The input field of a `Form` as a line editor. Every branch of `update_buffer` does to the text and
the cursor what the plain editor does, and keeps the cursor among the columns shown; what may undo this
is only the `rstrip` that follows, which drops the white space at the end of the text but leaves the
cursor where it was. -/

namespace CalSci

open LineEditor

namespace Field

variable {cols : Int} {d : Field} {e : Editor Char}

/-- The field holds the line of a plain editor closed by one space, and the cursor is that of the
editor, among the `cols` characters from the offset on. -/
structure Follows (cols : Int) (d : Field) (e : Editor Char) : Prop where
  text : d.text = e.text ++ [' ']
  cursor : d.cursor = e.cursor
  position_nonneg : 0 ≤ d.position
  position_le : d.position ≤ d.cursor
  cursor_lt : d.cursor < d.position + cols

theorem Follows.length (h : Follows cols d e) : (d.text.length : Int) = e.text.length + 1 := by
  rw [h.text, List.length_append]
  rfl

theorem Follows.cols_pos (h : Follows cols d e) : 0 < cols := by
  have := h.position_le
  have := h.cursor_lt
  omega

theorem Follows.right (h : Follows cols d e) :
    Follows cols (d.right cols) (e.forward 1) := by
  have hlength := h.length
  have hcursor := h.cursor
  have hle := e.cursor_le
  have := h.position_nonneg
  have := h.position_le
  have := h.cursor_lt
  unfold Field.right
  by_cases hwrap : d.cursor + 1 = d.text.length
  · have hcursor' : (e.forward 1).cursor = 0 := by
      rw [Editor.cursor_forward, if_pos (by omega)]
    rw [if_pos hwrap]
    exact ⟨by rw [Editor.text_forward, h.text], by rw [hcursor']; rfl, le_refl 0, le_refl 0,
      by simpa using h.cols_pos⟩
  · have hcursor' : (e.forward 1).cursor = e.cursor + 1 := by
      rw [Editor.cursor_forward, if_neg (by omega)]
    rw [if_neg hwrap]
    by_cases hscroll : d.cursor + 1 = d.position + cols
    · rw [if_pos hscroll]
      refine ⟨by rw [Editor.text_forward, h.text], ?_, ?_, ?_, ?_⟩ <;> dsimp only <;> omega
    · rw [if_neg hscroll]
      refine ⟨by rw [Editor.text_forward, h.text], ?_, ?_, ?_, ?_⟩ <;> dsimp only <;> omega

theorem Follows.left (h : Follows cols d e) :
    Follows cols (d.left cols) (e.back 1) := by
  have hlength := h.length
  have hcursor := h.cursor
  have := h.position_nonneg
  have := h.position_le
  have := h.cursor_lt
  unfold Field.left
  by_cases hwrap : d.cursor - 1 < 0
  · have hcursor' : (e.back 1).cursor = e.text.length := by
      rw [Editor.cursor_back, if_pos (by omega)]
    rw [if_pos hwrap]
    by_cases hshort : (d.text.length : Int) - cols < 0
    · refine ⟨by rw [Editor.text_back, h.text], ?_, ?_, ?_, ?_⟩ <;> simp only [if_pos hshort] <;> omega
    · refine ⟨by rw [Editor.text_back, h.text], ?_, ?_, ?_, ?_⟩ <;> simp only [if_neg hshort] <;> omega
  · have hcursor' : (e.back 1).cursor = e.cursor - 1 := by
      rw [Editor.cursor_back, if_neg (by omega)]
    rw [if_neg hwrap]
    by_cases hscroll : d.cursor - 1 < d.position
    · rw [if_pos hscroll]
      refine ⟨by rw [Editor.text_back, h.text], ?_, ?_, ?_, ?_⟩ <;> dsimp only <;> omega
    · rw [if_neg hscroll]
      refine ⟨by rw [Editor.text_back, h.text], ?_, ?_, ?_, ?_⟩ <;> dsimp only <;> omega

/-- Cutting out the character at the cursor, when that is a character of the line. -/
theorem Follows.cut (h : Follows cols d e) (hlt : e.cursor < e.text.length) {e' : Editor Char}
    (htext : e'.text = e.text.eraseIdx e.cursor) (hcursor' : e'.cursor = e.cursor) :
    Follows cols (d.cut cols) e' := by
  have hlength := h.length
  have hcursor := h.cursor
  have := h.position_nonneg
  have := h.position_le
  have := h.cursor_lt
  have hcut : Py.sliceTo d.text d.cursor ++ Py.sliceFrom d.text (d.cursor + 1) = e'.text ++ [' '] := by
    rw [Py.sliceTo_of_nonneg _ (by omega), Py.sliceFrom_of_nonneg _ (by omega), h.text, htext,
      List.eraseIdx_eq_take_drop_succ, show d.cursor.toNat = e.cursor by omega,
      show (d.cursor + 1).toNat = e.cursor + 1 by omega, List.take_append_of_le_length (by omega),
      List.drop_append_of_le_length (by omega), List.append_assoc]
  have hlength' : ((e'.text ++ [' ']).length : Int) = e.text.length := by
    rw [List.length_append, htext, List.length_eraseIdx_of_lt hlt, List.length_singleton]
    omega
  have hfrom : ((Py.sliceFrom (e'.text ++ [' ']) d.position).length : Int)
      = e.text.length - d.position := by
    rw [Py.sliceFrom_of_nonneg _ h.position_nonneg, List.length_drop]
    omega
  unfold Field.cut
  simp only [hcut, hfrom, hlength']
  rw [if_pos (by omega)]
  -- the window may only move towards the start, and never past the cursor
  by_cases hshrink : (e.text.length : Int) > cols ∧ e.text.length - d.position < cols
  · rw [if_pos hshrink]
    refine ⟨rfl, ?_, ?_, ?_, ?_⟩ <;> dsimp only <;> omega
  · rw [if_neg hshrink]
    by_cases hfits : (e.text.length : Int) ≤ cols
    · rw [if_pos hfits]
      refine ⟨rfl, ?_, ?_, ?_, ?_⟩ <;> dsimp only <;> omega
    · rw [if_neg hfits]
      refine ⟨rfl, ?_, ?_, ?_, ?_⟩ <;> dsimp only <;> omega

theorem Follows.backspace (h : Follows cols d e) :
    Follows cols ((d.left cols).cut cols) e.backspace := by
  have hleft := h.left
  by_cases hzero : e.cursor = 0
  · have hback : e.back 1 = e.backspace := by
      rw [Editor.backspace_of_zero hzero, Editor.back, if_pos (by omega)]
    have hend : (d.left cols).cursor = (d.left cols).text.length - 1 := by
      rw [hleft.cursor, hleft.length, hback, Editor.backspace_of_zero hzero]
      simp
    rw [Field.cut, if_neg (not_not_intro hend), ← hback]
    exact hleft
  · have hpos : 0 < e.cursor := Nat.pos_of_ne_zero hzero
    have hle := e.cursor_le
    have hcursor : (e.back 1).cursor = e.cursor - 1 := by
      rw [Editor.cursor_back, if_neg (by omega)]
    apply hleft.cut
    · rw [hcursor, Editor.text_back]
      omega
    · rw [Editor.text_backspace_of_pos hpos, hcursor, Editor.text_back]
    · rw [Editor.cursor_backspace_of_pos hpos, hcursor]

/-- One insertion of at most one character. -/
theorem Follows.put (h : Follows cols d e) {piece : List Char} (hpiece : piece.length ≤ 1) :
    Follows cols (d.put cols piece) (e.insert piece) := by
  have hcursor := h.cursor
  have hle := e.cursor_le
  have := h.position_nonneg
  have := h.position_le
  have := h.cursor_lt
  have htext : Py.sliceTo d.text d.cursor ++ piece ++ Py.sliceFrom d.text d.cursor
      = (e.insert piece).text ++ [' '] := by
    rw [Py.sliceTo_of_nonneg _ (by omega), Py.sliceFrom_of_nonneg _ (by omega), h.text,
      show d.cursor.toNat = e.cursor by omega, List.take_append_of_le_length hle,
      List.drop_append_of_le_length hle, Editor.text_insert, List.append_assoc, List.append_assoc,
      List.append_assoc]
  by_cases hscroll : d.cursor + piece.length = d.position + cols
  · simp only [Field.put, if_pos hscroll]
    refine ⟨htext, ?_, ?_, ?_, ?_⟩ <;> simp only [Editor.cursor_insert] <;> omega
  · simp only [Field.put, if_neg hscroll]
    refine ⟨htext, ?_, ?_, ?_, ?_⟩ <;> simp only [Editor.cursor_insert] <;> omega

/-- Characters inserted one after the other are a word inserted at once. -/
theorem foldl_insert (e : Editor Char) (word : List Char) :
    word.foldl (fun e chr => e.insert [chr]) e = e.insert word := by
  induction word generalizing e with
  | nil =>
      apply Editor.ext
      · simp
      · simp
  | cons chr word ih =>
      have hle := e.cursor_le
      rw [List.foldl_cons, ih]
      apply Editor.ext
      · have htake : (e.text.take e.cursor ++ [chr]).length = e.cursor + 1 := by simp; omega
        rw [Editor.text_insert, Editor.text_insert, Editor.text_insert, Editor.cursor_insert]
        rw [List.length_singleton, ← htake, List.take_left, List.drop_left]
        simp
      · simp only [Editor.cursor_insert, List.length_cons, List.length_nil]
        omega

theorem Follows.type (h : Follows cols d e) (inp : List Char) :
    Follows cols (d.type cols inp) (e.insert inp) := by
  unfold Field.type
  by_cases hlong : inp.length > 1
  · rw [if_pos hlong, ← foldl_insert]
    clear hlong
    induction inp generalizing d e with
    | nil => exact h
    | cons chr inp ih => exact ih (h.put (by simp))
  · rw [if_neg hlong]
    exact h.put (by omega)

/-- Before the text is stripped, the field has followed the key. -/
theorem Follows.dispatch (h : Follows cols d e) {key : Key} (hu : key ≠ .navU)
    (hd : key ≠ .navD) : Follows cols (d.dispatch cols key) (key.editLine e) := by
  cases key with
  | navL => exact h.left
  | navR => exact h.right
  | navU => exact absurd rfl hu
  | navD => exact absurd rfl hd
  | navB => exact h.backspace
  | ac => exact ⟨rfl, rfl, le_refl 0, le_refl 0, by simpa [Field.dispatch] using h.cols_pos⟩
  | token text => exact h.type text

/-- The strip leaves the field as it is when the line does not end in white space. -/
theorem Follows.press (h : Follows cols d e) {key : Key} (hu : key ≠ .navU)
    (hd : key ≠ .navD) (hends : ¬ Py.EndsInSpace (key.editLine e).text) :
    Follows cols (d.press cols key) (key.editLine e) := by
  have hkey := h.dispatch hu hd
  have htext : Py.rstrip (d.dispatch cols key).text ++ [' '] = (key.editLine e).text ++ [' '] := by
    rw [hkey.text, Py.rstrip_concat_space, Py.rstrip_eq_self_iff.mpr hends]
  exact ⟨htext, hkey.cursor, hkey.position_nonneg, hkey.position_le, hkey.cursor_lt⟩

end Field

namespace Form

variable {f : Form} {name text : List Char}

/-- The property of an input field after a key: the text without its final space and the cursor are
those of the plain editor `e`, the cursor is inside the field, and it is drawn. -/
def Edits (f : Form) (name : List Char) (e : Editor Char) : Prop :=
  ∃ field, f.inputList.lookup name = some field ∧ field = e.text ++ [' '] ∧
    f.inputCursor = e.cursor ∧ 0 ≤ f.inputCursor ∧ f.inputCursor < field.length ∧
    f.inputDisplayPosition ≤ f.inputCursor ∧
    f.inputCursor < f.inputDisplayPosition + f.inputCols

/-- The row `name` is selected and its field follows the plain editor `e`. -/
def Editing (f : Form) (name : List Char) (e : Editor Char) : Prop :=
  ∃ text, f.Selects name text ∧ (f.field text).Follows f.inputCols e

theorem Editing.edits {e : Editor Char} (h : f.Editing name e) : f.Edits name e := by
  obtain ⟨text, hsel, hfollows⟩ := h
  have hlength : (text.length : Int) = e.text.length + 1 := hfollows.length
  have hcursor : f.inputCursor = e.cursor := hfollows.cursor
  have hle := e.cursor_le
  exact ⟨text, hsel.field, hfollows.text, hcursor, by omega, by omega, hfollows.position_le,
    hfollows.cursor_lt⟩

/-- One key: the form returns, and the field follows the editor exactly when the edited line does not
end in white space. -/
theorem Editing.step {e : Editor Char} (h : f.Editing name e) {key : Key} (hu : key ≠ .navU)
    (hd : key ≠ .navD) : ∃ f', f.updateBuffer key = .ok f' ∧
      (¬ Py.EndsInSpace (key.editLine e).text → f'.Editing name (key.editLine e)) ∧
      (f'.Edits name (key.editLine e) → ¬ Py.EndsInSpace (key.editLine e).text) := by
  obtain ⟨text, hsel, hfollows⟩ := h
  refine ⟨_, updateBuffer_of_selects hsel hu hd, fun hends => ?_, fun hedits => ?_⟩
  · exact ⟨_, hsel.edited _, hfollows.press hu hd hends⟩
  · obtain ⟨field, hfield, htext, -⟩ := hedits
    rw [(hsel.edited _).field, Option.some.injEq] at hfield
    rw [← hfield] at htext
    have hstrip := List.append_cancel_right htext
    rw [← hstrip]
    exact Py.not_endsInSpace_rstrip _

/-- An input field just reached behaves as a one-line editor over a run of keys exactly when no key of
the run leaves a line that ends in white space. -/
theorem edits_iff_no_trailing_space (hcols : 1 ≤ f.inputCols) (hrow : f.Selects name (text ++ [' ']))
    (hcursor : f.inputCursor = 0) (hposition : f.inputDisplayPosition = 0) {keys : List Key}
    (hkeys : ∀ key ∈ keys, key ≠ .navU ∧ key ≠ .navD) :
    (∀ first, first <+: keys → ∃ f', Runs.run updateBuffer f first = .ok f' ∧
        f'.Edits name (first.foldl Key.editLine ⟨text, 0, Nat.zero_le _⟩)) ↔
      ∀ first key, first ++ [key] <+: keys →
        ¬ Py.EndsInSpace ((first ++ [key]).foldl Key.editLine ⟨text, 0, Nat.zero_le _⟩).text := by
  have hstart : f.Editing name ⟨text, 0, Nat.zero_le _⟩ := by
    refine ⟨_, hrow, rfl, hcursor, ?_, ?_, ?_⟩ <;> simp only [field] <;> omega
  exact Runs.tracks_iff (fun e => ¬ Py.EndsInSpace e.text)
    (fun (f : Form) e (h : f.Editing name e) => h.edits)
    (fun (f : Form) e _ (h : f.Editing name e) hkey => h.step hkey.1 hkey.2) hstart hkeys

/-- The field `"a "`, on the row of a one-row form just reached. -/
def shortField : Form :=
  init 7 (AList.singleton "inp_0".toList "a ".toList) ["inp_0".toList]

theorem edits_iff_no_trailing_space_shortField :
    shortField.Selects "inp_0".toList ("a".toList ++ [' ']) ∧
    ((∀ first, first <+: [Key.navR, .token [' ']] →
        ∃ f', Runs.run updateBuffer shortField first = .ok f' ∧
          f'.Edits "inp_0".toList (first.foldl Key.editLine ⟨"a".toList, 0, Nat.zero_le _⟩)) ↔
      ∀ first key, first ++ [key] <+: [Key.navR, .token [' ']] →
        ¬ Py.EndsInSpace ((first ++ [key]).foldl Key.editLine ⟨"a".toList, 0, Nat.zero_le _⟩).text) := by
  have hrow : shortField.Selects "inp_0".toList ("a".toList ++ [' ']) :=
    ⟨by decide +kernel, by decide +kernel, by decide +kernel⟩
  exact ⟨hrow, edits_iff_no_trailing_space (by decide) hrow (by decide) (by decide) (by decide)⟩

/-- A space typed after the last character of `"a "` is dropped, and the cursor leaves the field. -/
theorem trailing_space_leaves_field :
    (Runs.run updateBuffer shortField [.navR, .token [' ']]).map
        (fun f => (f.inputList.lookup "inp_0".toList, f.inputCursor)) = .ok (some "a ".toList, 2) ∧
      ¬ ∀ first, first <+: [Key.navR, .token [' ']] →
        ∃ f', Runs.run updateBuffer shortField first = .ok f' ∧
          f'.Edits "inp_0".toList (first.foldl Key.editLine ⟨"a".toList, 0, Nat.zero_le _⟩) := by
  have hrun : (Runs.run updateBuffer shortField [.navR, .token [' ']]).map
      (fun f => (f.inputList.lookup "inp_0".toList, f.inputCursor)) = .ok (some "a ".toList, 2) := by
    decide +kernel
  refine ⟨hrun, fun h => ?_⟩
  obtain ⟨f', hf', field, hfield, -, -, -, hlt, -⟩ := h _ List.prefix_rfl
  rw [hf'] at hrun
  simp only [Except.map, hfield, Except.ok.injEq, Prod.mk.injEq, Option.some.injEq] at hrun
  rw [hrun.1, hrun.2] at hlt
  exact absurd hlt (by decide)

end Form

end CalSci
