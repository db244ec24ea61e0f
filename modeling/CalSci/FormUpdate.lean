import CalSci.FormStep

/-! The shared `Form` object handed from one app to the next. `update` starts the rows afresh, but keeps
`input_cursor` and `input_display_position`, which the next keys and the drawing of every field read.
An app therefore gets the form of a fresh object exactly when the last one left both at 0. -/

namespace CalSci

namespace Form

variable {rows : Int} {f f' : Form}

/-- The states of the shared object: keys, assignments of lists or of their entries, `update` calls, and
the `refresh_rows` that `graph` sets for a full redraw. -/
inductive Reachable (rows : Int) : Form → Prop
  | fresh (inputs : Inputs) (list : List (List Char)) : Reachable rows (init rows inputs list)
  | key {f f' : Form} {key : Key} (hf : Reachable rows f) (hkey : f.updateBuffer key = .ok f') :
      Reachable rows f'
  | lists {f : Form} (hf : Reachable rows f) (inputs : Inputs) (list : List (List Char)) :
      Reachable rows { f with inputList := inputs, formList := list }
  | update {f : Form} (hf : Reachable rows f) : Reachable rows f.update
  | redraw {f : Form} (hf : Reachable rows f) :
      Reachable rows { f with refreshRows := (0, f.actualRows) }

/-- What is seen of a form: the rows `refresh` draws, the cursors, the offset and the fields. -/
structure Observation where
  drawn : Except Py.Err (List (Int × List Cell))
  menuCursor : Int
  inputCursor : Int
  inputDisplayPosition : Int
  fields : Inputs

def observe (f : Form) : Observation where
  drawn := (Py.rangeFrom f.refreshRows.1 (f.refreshRows.2 - f.refreshRows.1).toNat).mapM fun i => do
    let cells ← f.drawRow i
    pure (i, cells)
  menuCursor := f.menuCursor
  inputCursor := f.inputCursor
  inputDisplayPosition := f.inputDisplayPosition
  fields := f.inputList

theorem moveDown_fixed (f : Form) :
    f.moveDown.rows = f.rows ∧ f.moveDown.inputCols = f.inputCols := by
  simp only [moveDown]
  split_ifs <;> exact ⟨rfl, rfl⟩

theorem moveUp_fixed (f : Form) : f.moveUp.rows = f.rows ∧ f.moveUp.inputCols = f.inputCols := by
  simp only [moveUp]
  split_ifs <;> exact ⟨rfl, rfl⟩

/-- No key changes `rows` or `input_cols`. -/
theorem updateBuffer_fixed {key : Key} (h : f.updateBuffer key = .ok f') :
    f'.rows = f.rows ∧ f'.inputCols = f.inputCols := by
  by_cases hd : key = .navD
  · subst hd
    cases h
    exact f.moveDown_fixed
  by_cases hu : key = .navU
  · subst hu
    cases h
    exact f.moveUp_fixed
  rw [updateBuffer_eq_edit hu hd] at h
  cases hedit : f.edit key with
  | error e =>
      rw [hedit] at h
      cases h
  | ok g =>
      rw [hedit] at h
      cases h
      obtain rfl | ⟨name, d, rfl⟩ := edit_cases hedit
      · exact ⟨rfl, rfl⟩
      · exact ⟨rfl, rfl⟩

theorem Reachable.fixed (h : Reachable rows f) : f.rows = rows ∧ f.inputCols = 21 - 2 := by
  induction h with
  | fresh inputs list => exact ⟨rfl, rfl⟩
  | key _ hkey ih =>
      obtain ⟨hrows, hcols⟩ := updateBuffer_fixed hkey
      exact ⟨hrows.trans ih.1, hcols.trans ih.2⟩
  | lists _ _ _ ih => exact ih
  | update _ ih => exact ih
  | redraw _ ih => exact ih

theorem Reachable.run (h : Reachable rows f) {keys : List Key}
    (hrun : Runs.run updateBuffer f keys = .ok f') : Reachable rows f' :=
  Runs.run_invariant (fun _ _ _ hf hkey => hf.key hkey) h hrun

/-- After new lists and `update`, the form differs from a fresh one in two fields at most. -/
theorem assign_eq (h : Reachable rows f) (inputs : Inputs) (list : List (List Char)) :
    f.assign inputs list = { init rows inputs list with
      inputCursor := f.inputCursor
      inputDisplayPosition := f.inputDisplayPosition } := by
  obtain ⟨hrows, hcols⟩ := h.fixed
  simp only [assign, update, init, hrows, hcols]

/-- The history of the object is forgotten, for every further sequence of keys, exactly when the cursor
and the offset of the field it was left in are 0. -/
theorem update_forgets_iff (h : Reachable rows f) (inputs : Inputs) (list : List (List Char))
    (keys : List Key) :
    (∀ first, first <+: keys →
        (Runs.run updateBuffer (f.assign inputs list) first).map observe =
          (Runs.run updateBuffer (init rows inputs list) first).map observe) ↔
      f.inputCursor = 0 ∧ f.inputDisplayPosition = 0 := by
  rw [assign_eq h]
  constructor
  · intro hsame
    have hstart := hsame [] List.nil_prefix
    simp only [Runs.run_nil, Except.map, Except.ok.injEq] at hstart
    exact ⟨congrArg Observation.inputCursor hstart, congrArg Observation.inputDisplayPosition hstart⟩
  · rintro ⟨hcursor, hposition⟩ first -
    rw [hcursor, hposition]
    rfl

/-- A form with one field, as an app leaves it after 19 characters were typed there. -/
def leftScrolled : Except Py.Err Form :=
  Runs.run updateBuffer
    (init 7 (AList.singleton "inp_0".toList " ".toList) ["name:".toList, "inp_0".toList])
    [.navD, .token (List.replicate 19 '1')]

theorem update_forgets_iff_leftScrolled : ∃ f, leftScrolled = .ok f ∧ Reachable 7 f ∧
    ((∀ first, first <+: [Key.navR] →
        (Runs.run updateBuffer
            (f.assign (AList.singleton "inp_0".toList "5 ".toList) ["inp_0".toList]) first).map observe =
          (Runs.run updateBuffer
            (init 7 (AList.singleton "inp_0".toList "5 ".toList) ["inp_0".toList]) first).map observe) ↔
      f.inputCursor = 0 ∧ f.inputDisplayPosition = 0) := by
  obtain ⟨f, hf⟩ := Runs.exists_ok (show leftScrolled.isOk = true by decide +kernel)
  have hreach : Reachable 7 f := (Reachable.fresh _ _).run hf
  exact ⟨f, hf, hreach, update_forgets_iff hreach _ _ _⟩

/-- The first cells of the first row, the cursor and the offset. -/
def firstRow (f : Form) : Except Py.Err (List Cell × Int × Int) :=
  (f.drawRow 0).map fun cells => (cells.take 3, f.inputCursor, f.inputDisplayPosition)

/-- The next app's field holds `5`, which a fresh form shows; the shared form draws it from the offset
of the field that was left, and with the cursor of that field. -/
theorem update_keeps_offset :
    (leftScrolled >>= fun f =>
        (f.assign (AList.singleton "inp_0".toList "5 ".toList) ["inp_0".toList]).firstRow) =
      .ok ([('=', false), ('>', false), (' ', false)], 19, 1) ∧
    (init 7 (AList.singleton "inp_0".toList "5 ".toList) ["inp_0".toList]).firstRow =
      .ok ([('=', false), ('>', false), ('5', true)], 0, 0) ∧
    ∃ f, leftScrolled = .ok f ∧ Reachable 7 f ∧
      ¬ ∀ keys, (Runs.run updateBuffer
          (f.assign (AList.singleton "inp_0".toList "5 ".toList) ["inp_0".toList]) keys).map observe =
        (Runs.run updateBuffer
          (init 7 (AList.singleton "inp_0".toList "5 ".toList) ["inp_0".toList]) keys).map observe := by
  refine ⟨by decide +kernel, by decide +kernel, ?_⟩
  obtain ⟨f, hf⟩ := Runs.exists_ok (show leftScrolled.isOk = true by decide +kernel)
  have hcursor : leftScrolled.map Form.inputCursor = .ok 19 := by decide +kernel
  rw [hf] at hcursor
  refine ⟨f, hf, (Reachable.fresh _ _).run hf, fun hsame => ?_⟩
  have hstart := hsame []
  simp only [Runs.run_nil, Except.map, Except.ok.injEq] at hstart hcursor
  have hzero : f.inputCursor = 0 := congrArg Observation.inputCursor hstart
  rw [hzero] at hcursor
  exact absurd hcursor (by decide)

end Form

end CalSci
