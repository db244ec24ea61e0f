import CalSci.FormModel

/-! What `update_buffer` of a `Form` does for a key other than `nav_u` and `nav_d`: on a label row
nothing, on an input row an edit of that row's field. -/

namespace CalSci

namespace Form

variable {f f' : Form} {name text : List Char} {key : Key}

/-- The selected row is the input row `name`, whose field holds `text`. -/
structure Selects (f : Form) (name text : List Char) : Prop where
  row : Py.item f.formList f.menuCursor = .ok name
  input : isInput name = true
  field : f.inputList.lookup name = some text

/-- The selected field with its cursor and its offset. -/
def field (f : Form) (text : List Char) : Field := ⟨text, f.inputCursor, f.inputDisplayPosition⟩

def edited (f : Form) (name : List Char) (d : Field) : Form :=
  { f with
    inputList := f.inputList.insert name d.text
    inputCursor := d.cursor
    inputDisplayPosition := d.position
    refreshRows :=
      (f.menuCursor - f.menuDisplayPosition, f.menuCursor - f.menuDisplayPosition + 1) }

theorem updateBuffer_eq_edit (hu : key ≠ .navU) (hd : key ≠ .navD) :
    f.updateBuffer key = f.edit key >>= fun f => .ok f.redisplay := by
  cases key with
  | navU => exact absurd rfl hu
  | navD => exact absurd rfl hd
  | navL | navR | navB | ac | token => rfl

theorem edit_of_selects (h : f.Selects name text) :
    f.edit key = .ok (f.edited name ((f.field text).press f.inputCols key)) := by
  have hget : f.inputList.get name = .ok text := Inputs.get_of_lookup h.field
  rw [edit, h.row]
  change (if isInput name = true then _ else _) = _
  rw [if_pos h.input]
  cases key with
  | ac => rfl
  | navU | navD | navL | navR | navB | token =>
      rw [inputText, hget]
      · rfl
      · nofun

/-- Whatever the form, an editing key that returns has edited a field or done nothing. -/
theorem edit_cases (h : f.edit key = .ok f') : f' = f ∨ ∃ name d, f' = f.edited name d := by
  unfold edit at h
  cases hname : Py.item f.formList f.menuCursor with
  | error e =>
      rw [hname] at h
      cases h
  | ok name =>
      rw [hname, Runs.ok_bind] at h
      by_cases hinput : isInput name = true
      · rw [if_pos hinput] at h
        cases htext : f.inputText name key with
        | error e =>
            rw [htext] at h
            cases h
        | ok text =>
            rw [htext, Runs.ok_bind] at h
            cases h
            exact .inr ⟨name, _, rfl⟩
      · rw [if_neg hinput] at h
        cases h
        exact .inl rfl

/-- On an input row a key edits the field. -/
theorem updateBuffer_of_selects (h : f.Selects name text) (hu : key ≠ .navU) (hd : key ≠ .navD) :
    f.updateBuffer key
      = .ok (f.edited name ((f.field text).press f.inputCols key)).redisplay := by
  rw [updateBuffer_eq_edit hu hd, edit_of_selects h]
  rfl

/-- On a label row a key does nothing. -/
theorem updateBuffer_of_label (hrow : Py.item f.formList f.menuCursor = .ok name)
    (hlabel : isInput name = false) (hu : key ≠ .navU) (hd : key ≠ .navD) :
    f.updateBuffer key = .ok f.redisplay := by
  rw [updateBuffer_eq_edit hu hd, edit, hrow]
  change (if isInput name = true then _ else _) >>= _ = _
  rw [if_neg (by rw [hlabel]; decide)]
  rfl

/-- An edit leaves the same row selected. -/
theorem Selects.edited (h : f.Selects name text) (d : Field) :
    (f.edited name d).redisplay.Selects name d.text :=
  ⟨h.row, h.input, AList.lookup_insert _⟩

end Form

end CalSci
