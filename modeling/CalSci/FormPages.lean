import CalSci.FormRedraw
import CalSci.FormUpdate
import CalSci.LcdText

/-! The pages of the display a redraw of a `Form` writes. `refresh` of `form_buffer_uploader.Tbf` pads a
text shorter than `inp_cols` to two columns more; a text of `inp_cols` characters, or one more, is sent as
it is and leaves the end of the page as it was. A row is written in full exactly when its text has
another length. -/

namespace CalSci.Form

open RowWindow Lcd

variable {f : Form} {rows : Int} {w : Window}

/-- `refresh` of `form_buffer_uploader.Tbf`, as the stream it sends to the display. -/
def refreshPages (f : Form) (state : List Char) : Except Py.Err (List (Transfer UInt8)) :=
  upload (fun i => do
    let cells ← f.drawRow i
    pure (render cells)) f.refreshRows.1 f.refreshRows.2 state

def Refreshes (f : Form) (i : Nat) : Prop := f.refreshRows.1 ≤ i ∧ (i : Int) < f.refreshRows.2

/-- Every refreshed row is sent as 21 characters of six bytes, so that columns 0 to 125 of its page are
those of the form, whatever the display held. -/
def WritesWholeRows (f : Form) (stream : List (Transfer UInt8)) : Prop :=
  ∀ i : Nat, f.Refreshes i → ∃ cells, f.drawRow i = .ok cells ∧ cells.length = 21 ∧
    ∀ (c : Controller) (C : Nat), C < 126 → (c.run stream).ram i C = (render cells).getD C 0

/-- A label has neither 19 nor 20 characters, and of a field neither 17 nor 18 are shown. -/
def PadsOrFills (f : Form) (name : List Char) : Prop :=
  if isInput name then ∀ field, f.inputList.get name = .ok field →
    (Py.slice field f.inputDisplayPosition (f.inputDisplayPosition + f.inputCols)).length ∉ [17, 18]
  else name.length ∉ [19, 20]

/-- The labels fit in a row of the display. -/
def LabelsFit (f : Form) : Prop := ∀ name ∈ f.formList, isInput name = false → name.length ≤ 21

instance (f : Form) : Decidable f.LabelsFit :=
  inferInstanceAs (Decidable (∀ name ∈ f.formList, isInput name = false → name.length ≤ 21))

/-! ### The text of a row -/

theorem length_slice_le (xs : List Char) (start : Int) {n : Nat} :
    (Py.slice xs start (start + n)).length ≤ n := by
  rw [Py.slice, List.length_drop, List.length_take]
  simp only [Py.bound]
  split_ifs <;> omega

/-- Of the texts that fit, only those of 19 or 20 characters do not come out at 21. -/
theorem length_padRow_iff {text : List Char} (h : text.length ≤ 21) :
    (padRow 19 text).length = 21 ↔ text.length ∉ [19, 20] := by
  rw [length_padRow, padded]
  simp only [List.mem_cons, List.not_mem_nil, or_false, not_or]
  split_ifs <;> omega

theorem length_padRow_le {text : List Char} (h : text.length ≤ 21) : (padRow 19 text).length ≤ 21 := by
  rw [length_padRow, padded]
  split_ifs <;> omega

/-! ### The rows of a form -/

/-- An entry that is drawn on the display is never longer than a row, and fills it exactly when it is
padded or has the full length. -/
theorem length_entryText_le (hcols : f.inputCols = 19) (hfit : f.LabelsFit) (hcovers : f.inputList.Covers f.formList)
    {name : List Char} (hmem : name ∈ f.formList) :
    (f.entryText name).length ≤ 21 ∧ ((f.entryText name).length = 21 ↔ f.PadsOrFills name) := by
  rw [entryText, PadsOrFills, hcols]
  cases hinput : isInput name with
  | false =>
      rw [if_neg Bool.false_ne_true, if_neg Bool.false_ne_true]
      exact ⟨length_padRow_le (hfit name hmem hinput), length_padRow_iff (hfit name hmem hinput)⟩
  | true =>
      obtain ⟨field, hfield⟩ :=
        Option.isSome_iff_exists.mp (AList.lookup_isSome.mpr (hcovers name hmem hinput))
      have hget : ∀ field', f.inputList.get name = .ok field' ↔ field = field' := by
        intro field'
        rw [Inputs.get_of_lookup hfield, Except.ok.injEq]
      have hslice := length_slice_le field f.inputDisplayPosition (n := 19)
      obtain ⟨text, htext⟩ : ∃ text, Py.slice field f.inputDisplayPosition (f.inputDisplayPosition + 19)
        = text := ⟨_, rfl⟩
      rw [Nat.cast_ofNat, htext] at hslice
      have hlen : ("=>".toList ++ text).length = text.length + 2 := by
        rw [List.length_append]
        exact Nat.add_comm _ _
      rw [if_pos rfl, if_pos rfl, hfield, Option.getD_some, htext, length_padRow_iff (by omega), hlen]
      refine ⟨length_padRow_le (by omega), ?_⟩
      simp only [hget, forall_eq', htext, List.mem_cons, List.not_mem_nil, or_false]
      omega

/-- The state in which a form is redrawn. -/
structure Ready (rows : Int) (f : Form) : Prop where
  shows : ∃ w, f.Shows rows w ∧ f.InRange w
  cols : f.inputCols = 19

theorem Ready.key (h : f.Ready rows) (key : Key) :
    ∃ f', f.updateBuffer key = .ok f' ∧ f'.Ready rows := by
  obtain ⟨w, hshows, hrange⟩ := h.shows
  obtain ⟨f', hstep, hshows', hrange', -⟩ := updateBuffer_redraws hshows hrange key
  exact ⟨f', hstep, ⟨_, hshows', hrange'⟩, (updateBuffer_fixed hstep).2.trans h.cols⟩

/-- A form with a new list is ready. -/
theorem ready_of_start (hrows : 1 ≤ rows) {list : List (List Char)} (hlist : list ≠ [])
    (hpanel : f.panel = .start rows list) (hactual : f.actualRows = f.menuDisplaySize)
    (hcovers : f.inputList.Covers f.formList) (hrefresh : f.refreshRows = (0, f.actualRows))
    (hcols : f.inputCols = 19) : f.Ready rows := by
  obtain ⟨w, hw⟩ := Panel.start_shows hrows hlist
  rw [← hpanel] at hw
  refine ⟨⟨w, ⟨hw, hactual, hcovers⟩, ?_⟩, hcols⟩
  rw [InRange, hrefresh, hactual]
  exact ⟨le_refl 0, hw.size.symm.le⟩

/-- Every sequence of keys and new lists leaves a form that is ready. -/
theorem ready_run (hrows : 1 ≤ rows) {list : List (List Char)} (hlist : list ≠ []) {inputs : Inputs}
    (hcovers : inputs.Covers list) {ops : List PanelOp} (hops : ∀ op ∈ ops, op.NonEmpty ∧ op.Covered) :
    ∃ f, Runs.run Form.apply (init rows inputs list) ops = .ok f ∧ f.Ready rows := by
  induction ops using List.reverseRecOn with
  | nil => exact ⟨_, rfl, ready_of_start hrows hlist (panel_init rows inputs list) rfl hcovers rfl rfl⟩
  | append_singleton ops op ih =>
      obtain ⟨f, hrun, hf⟩ := ih fun op' hmem => hops op' (List.mem_append_left _ hmem)
      rw [Runs.run_concat_ok hrun]
      cases op with
      | key key => exact hf.key key
      | assign new fields =>
          obtain ⟨hne, hcovered⟩ := hops (.assign new fields) (by simp)
          obtain ⟨w, hshows, -⟩ := hf.shows
          have hpanel : (f.assign fields new).panel = .start rows new := by
            rw [panel_assign, show f.rows = rows from hshows.panel.rows_eq]
          exact ⟨_, rfl, ready_of_start hrows hne hpanel rfl hcovered rfl hf.cols⟩

/-! ### The pages -/

/-- What a redraw sends for a row. -/
theorem Ready.pages (h : f.Ready rows) (hrows : rows ≤ 7) (hfit : f.LabelsFit) (state : List Char) :
    ∃ stream, f.refreshPages state = .ok stream ∧ ∀ i : Nat, f.Refreshes i →
      ∃ name cells, Py.item f.displayBuffer i = .ok name ∧ f.drawRow i = .ok cells ∧
        (cells.length = 21 ↔ f.PadsOrFills name) ∧
        ∀ (c : Controller) (C : Nat), (c.run stream).ram i C =
          if C < 6 * cells.length then (render cells).getD C 0 else c.ram i C := by
  obtain ⟨w, hshows, hlow, hhigh⟩ := h.shows
  have hsize : (w.size : Int) ≤ rows := by
    rw [hshows.panel.size, hshows.panel.size_eq]
    exact min_le_left _ _
  have hlength : ∀ i : Nat, i < w.size → (f.rowCells w i).length ≤ 21 ∧
      ((f.rowCells w i).length = 21 ↔ f.PadsOrFills (f.entry (w.top + i))) := by
    intro i hi
    rw [rowCells, length_entryCells, Int.toNat_natCast]
    exact length_entryText_le h.cols hfit hshows.covers (item_displayBuffer hshows hi).2
  have hrow : ∀ i, f.refreshRows.1 ≤ i → i < f.refreshRows.2 →
      (do let cells ← f.drawRow i; pure (render cells)) = Except.ok (render (f.rowCells w i)) ∧
        (render (f.rowCells w i)).length < 256 := by
    intro i h0 hi
    obtain ⟨n, rfl⟩ := Int.eq_ofNat_of_zero_le (hlow.trans h0)
    refine ⟨by rw [drawRow_eq hshows (by omega) (by omega)]; rfl, ?_⟩
    have := (hlength n (by omega)).1
    rw [length_render]
    omega
  obtain ⟨stream, hstream, hram⟩ := upload_ram hrow hlow (by omega) state
  refine ⟨stream, hstream, fun i hi => ?_⟩
  have hn : i < w.size := by
    have := hi.2
    omega
  refine ⟨_, _, (item_displayBuffer hshows hn).1, drawRow_eq hshows (by omega) (by omega),
    (hlength i hn).2, fun c C => ?_⟩
  rw [hram c i C (by omega), length_render]
  by_cases hC : C < 6 * (f.rowCells w i).length
  · rw [if_pos ⟨hi, hC⟩, if_pos hC]
  · rw [if_neg (fun h => hC h.2), if_neg hC]

/-- After any sequence of keys and new lists, every refreshed row of the form is written in full exactly
when its label does not have 19 or 20 characters, or the part of its field that is shown 17 or 18. -/
theorem form_rows_whole_iff {rows : Int} (hlow : 1 ≤ rows) (hhigh : rows ≤ 7) {list : List (List Char)}
    (hlist : list ≠ []) {inputs : Inputs} (hcovers : inputs.Covers list) {ops : List PanelOp}
    (hops : ∀ op ∈ ops, op.NonEmpty ∧ op.Covered) (state : List Char) :
    ∃ f, Runs.run Form.apply (init rows inputs list) ops = .ok f ∧
      (f.LabelsFit → ∃ stream, f.refreshPages state = .ok stream ∧
        (f.WritesWholeRows stream ↔ ∀ i : Nat, f.Refreshes i → ∀ name,
          Py.item f.displayBuffer i = .ok name → f.PadsOrFills name)) := by
  obtain ⟨f, hrun, hready⟩ := ready_run hlow hlist hcovers hops
  refine ⟨f, hrun, fun hfit => ?_⟩
  obtain ⟨stream, hstream, hpages⟩ := hready.pages hhigh hfit state
  refine ⟨stream, hstream, ?_⟩
  constructor
  · intro hwhole i hi name hname
    obtain ⟨name', cells, hname', hcells, hiff, -⟩ := hpages i hi
    obtain ⟨cells', hcells', hlength, -⟩ := hwhole i hi
    obtain rfl : cells = cells' := Except.ok.inj (hcells.symm.trans hcells')
    obtain rfl : name = name' := Except.ok.inj (hname.symm.trans hname')
    exact hiff.mp hlength
  · intro hpads i hi
    obtain ⟨name, cells, hname, hcells, hiff, hram⟩ := hpages i hi
    have hlength := hiff.mpr (hpads i hi name hname)
    refine ⟨cells, hcells, hlength, fun c C hC => ?_⟩
    rw [hram, if_pos (by omega)]

/-- A label and an empty field, and the rows redrawn when the field is selected. -/
theorem form_rows_whole_password :
    let list := ["Password:".toList, "inp_0".toList]
    let inputs : Inputs := AList.singleton "inp_0".toList " ".toList
    ∃ f, Runs.run Form.apply (init 7 inputs list) [.key .navD] = .ok f ∧
      ∃ stream, f.refreshPages "default".toList = .ok stream ∧ f.WritesWholeRows stream := by
  intro list inputs
  have hcovers : inputs.Covers list := by decide +kernel
  have hops : ∀ op ∈ [PanelOp.key .navD], op.NonEmpty ∧ op.Covered := by decide +kernel
  obtain ⟨f, hrun, hiff⟩ := form_rows_whole_iff (show (1 : Int) ≤ 7 by decide) (by decide)
    (show list ≠ [] from List.cons_ne_nil _ _) hcovers hops "default".toList
  obtain rfl : (init 7 inputs list).moveDown.redisplay = f := Except.ok.inj hrun
  obtain ⟨stream, hstream, hwhole⟩ := hiff (by decide +kernel)
  refine ⟨_, hrun, stream, hstream, hwhole.mpr ?_⟩
  rintro i ⟨-, hi⟩ name hname
  have hlt : (i : Int) < 2 := hi
  obtain rfl | rfl : i = 0 ∨ i = 1 := by omega
  · obtain rfl : "Password:".toList = name := Except.ok.inj hname
    rw [PadsOrFills, if_neg (by decide +kernel)]
    decide
  · obtain rfl : "inp_0".toList = name := Except.ok.inj hname
    rw [PadsOrFills, if_pos (by decide +kernel)]
    intro field hfield
    obtain rfl : " ".toList = field := Except.ok.inj hfield
    decide +kernel

/-- Sixteen characters are typed in a field: its row is sent as nineteen characters, not as 21. -/
theorem form_rows_sixteen_typed :
    let inputs : Inputs := AList.singleton "inp_0".toList " ".toList
    let ops := [PanelOp.key (.token (List.replicate 16 '1'))]
    ¬ ∀ f, Runs.run Form.apply (init 7 inputs ["inp_0".toList]) ops = .ok f →
      ∃ stream, f.refreshPages "default".toList = .ok stream ∧ f.WritesWholeRows stream := by
  intro inputs ops h
  obtain ⟨f, hrun⟩ := Runs.exists_ok
    (show (Runs.run Form.apply (init 7 inputs ["inp_0".toList]) ops).isOk = true by decide +kernel)
  obtain ⟨stream, -, hwhole⟩ := h f hrun
  have hrow : (Runs.run Form.apply (init 7 inputs ["inp_0".toList]) ops).map
      (fun f => (f.refreshRows, (f.drawRow 0).map List.length)) = .ok ((0, 1), .ok 19) := by
    decide +kernel
  rw [hrun] at hrow
  obtain ⟨hrows, hlength⟩ := Prod.mk.inj (Except.ok.inj hrow)
  obtain ⟨cells, hcells, hfull, -⟩ := hwhole 0 (by rw [Refreshes, hrows]; decide)
  rw [Nat.cast_zero] at hcells
  rw [hcells] at hlength
  have hnineteen : cells.length = 19 := Except.ok.inj hlength
  omega

end CalSci.Form
