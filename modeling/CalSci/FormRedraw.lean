import CalSci.FormScroll
import CalSci.PanelRows

/-! Partial and full redraws of a `Form`. The screen is kept by writing only the rows of `refresh_rows`
after each key. It stays equal to a full redraw exactly as long as two things hold of every key: a key
that scrolls the selected field or leaves it, and with it the one offset of all fields, finds no other
visible field that reads differently from the new offset, and the rows that are written cover what was
lit on them, which a text of 19 or 20 characters, too long to be padded, can break. -/

namespace CalSci

open RowWindow RowScreen

namespace Form

variable {f : Form} {rows : Int} {w : Window}

def entry (f : Form) (k : Nat) : List Char := f.formList.getD k []

/-- The text drawn for an entry, with the padding: a label, or the field from the offset on. -/
def entryText (f : Form) (name : List Char) : List Char :=
  padRow f.inputCols <|
    if isInput name then
      "=>".toList ++ Py.slice ((f.inputList.lookup name).getD []) f.inputDisplayPosition
        (f.inputDisplayPosition + f.inputCols)
    else name

/-- The cells of an entry on a row that is selected or not. -/
def entryCells (f : Form) (name : List Char) (selected : Bool) : List Cell :=
  (f.entryText name).mapIdx fun j chr =>
    (chr, selected && (!isInput name || decide ((j : Int) + f.inputDisplayPosition = f.inputCursor + 2)))

def rowCells (f : Form) (w : Window) (i : Int) : List Cell :=
  f.entryCells (f.entry (w.top + i.toNat)) (decide (i = w.row))

/-- Row `i` of `display_buffer` is an entry of the list. -/
theorem item_displayBuffer (h : f.Shows rows w) {n : Nat} (hn : n < w.size) :
    Py.item f.displayBuffer n = .ok (f.entry (w.top + n)) ∧ f.entry (w.top + n) ∈ f.formList := by
  obtain ⟨name, hbuffer, hlist⟩ := h.panel.item_buffer hn
  have hlen : (w.len : Int) = f.formList.length := h.panel.len
  have hlt : w.top + n < f.formList.length := by
    have := w.bottom_le
    omega
  have hlist' : Py.item f.formList ((w.top + n : Nat) : Int) = .ok name := hlist
  rw [Py.item_of_lt _ hlt, Except.ok.injEq] at hlist'
  have hentry : f.entry (w.top + n) = name := by
    rw [entry, List.getD_eq_getElem _ _ hlt, ← hlist', List.get_eq_getElem]
  rw [hentry]
  refine ⟨hbuffer, ?_⟩
  rw [← hlist']
  exact List.get_mem _ _

theorem drawRow_eq (h : f.Shows rows w) {i : Int} (h0 : 0 ≤ i) (hi : i < w.size) :
    f.drawRow i = .ok (f.rowCells w i) := by
  obtain ⟨n, rfl⟩ := Int.eq_ofNat_of_zero_le h0
  obtain ⟨hbuffer, hmem⟩ := item_displayBuffer h (show n < w.size by omega)
  obtain ⟨name, hentry⟩ : ∃ name, f.entry (w.top + n) = name := ⟨_, rfl⟩
  rw [hentry] at hbuffer hmem
  have hcursor : f.displayCursor = w.row := h.panel.displayCursor_eq
  have htext : f.rowText name = .ok (if isInput name then
      "=>".toList ++ Py.slice ((f.inputList.lookup name).getD []) f.inputDisplayPosition
        (f.inputDisplayPosition + f.inputCols) else name) := by
    rw [rowText]
    cases hinput : isInput name with
    | false => rfl
    | true =>
        obtain ⟨text, hfield⟩ :=
          Option.isSome_iff_exists.mp (AList.lookup_isSome.mpr (h.covers name hmem hinput))
        rw [if_pos rfl, if_pos rfl, Inputs.get_of_lookup hfield, hfield]
        rfl
  rw [drawRow, hbuffer]
  change (f.rowText name >>= _) = _
  rw [htext, rowCells, Int.toNat_natCast, hentry]
  simp only [inverted, hcursor]
  rfl

/-! ### What a redraw writes -/

/-- The screen that shows the rows of the window `w` and nothing else. -/
def full (f : Form) (w : Window) : Screen Cell := fun i =>
  if 0 ≤ i ∧ i < w.size then paint (f.rowCells w i) (cleared i) else cleared i

theorem redrawAll_eq (h : f.Shows rows w) : f.redrawAll = .ok (f.full w) := by
  have hsize : (w.size : Int) = f.actualRows := h.panel.size.trans h.actual.symm
  rw [redrawAll, refresh]
  dsimp only
  rw [← hsize]
  exact paintRows_eq (fun i h0 hi => drawRow_eq h h0 hi) cleared

/-- The rows to be refreshed are rows of the window. -/
def InRange (f : Form) (w : Window) : Prop := 0 ≤ f.refreshRows.1 ∧ f.refreshRows.2 ≤ w.size

theorem refresh_eq (h : f.Shows rows w) (hrange : f.InRange w) (screen : Screen Cell) :
    f.refresh screen = .ok fun i =>
      if f.refreshRows.1 ≤ i ∧ i < f.refreshRows.2 then paint (f.rowCells w i) (screen i)
      else screen i :=
  paintRows_eq (fun _ h0 hi => drawRow_eq h (hrange.1.trans h0) (hi.trans_le hrange.2)) screen

/-! ### The rows after a key -/

/-- The fields, the cursor and the offset after a key: `nav_u` and `nav_d` go to the start of a field,
every other key edits the selected one. -/
def focusAfter (f : Form) : Key → Form
  | .navU | .navD => { f with inputCursor := 0, inputDisplayPosition := 0 }
  | key =>
      match Py.item f.formList f.menuCursor with
      | .ok name =>
          if isInput name then
            f.edited name ((f.field ((f.inputList.lookup name).getD [])).press f.inputCols key)
          else f
      | .error _ => f

/-- The rows of the window `w` that are redrawn after a key. -/
def Redraws (w : Window) : Key → Int → Prop
  | .navD, i => w.downRows.1 ≤ i ∧ i < w.downRows.2
  | .navU, i => w.upRows.1 ≤ i ∧ i < w.upRows.2
  | _, i => i = w.row

/-- The character of an entry that is read in column `j`. -/
def reads (f : Form) (name : List Char) (j : Nat) : Char := (f.entryText name).getD j ' '

/-- Row by row, the redraw after the key is as good as a full one. -/
structure RowsKept (f : Form) (w : Window) (key : Key) : Prop where
  steady : ∀ i : Nat, i < w.size → ¬ Redraws w key i → isInput (f.entry (w.top + i)) = true →
    (f.focusAfter key).reads (f.entry (w.top + i)) = f.reads (f.entry (w.top + i))
  covered : ∀ i : Nat, i < w.size → Redraws w key i →
    ∀ j, ((f.focusAfter key).entryText (f.entry ((key.moves w).top + i))).length ≤ j →
      (f.rowCells w i).getD j (' ', false) = (' ', false)

/-- A key changes neither the list nor the number of columns. -/
theorem focusAfter_fixed (f : Form) (key : Key) :
    (f.focusAfter key).formList = f.formList ∧ (f.focusAfter key).inputCols = f.inputCols := by
  unfold focusAfter
  split
  · exact ⟨rfl, rfl⟩
  · exact ⟨rfl, rfl⟩
  · split
    · split
      · exact ⟨rfl, rfl⟩
      · exact ⟨rfl, rfl⟩
    · exact ⟨rfl, rfl⟩

theorem entry_focusAfter (f : Form) (key : Key) (k : Nat) : (f.focusAfter key).entry k = f.entry k := by
  rw [entry, entry, (f.focusAfter_fixed key).1]

theorem entryText_of_label {name : List Char} (hlabel : isInput name = false) (f : Form) (key : Key) :
    (f.focusAfter key).entryText name = f.entryText name := by
  simp [entryText, hlabel, (f.focusAfter_fixed key).2]

theorem length_entryCells (f : Form) (name : List Char) (selected : Bool) :
    (f.entryCells name selected).length = (f.entryText name).length := by
  simp [entryCells]

/-- A row that is not selected shows its text, and nothing is inverted. -/
theorem paint_unselected (f : Form) (name : List Char) (i : Int) :
    paint (f.entryCells name false) (cleared i) = fun j => (f.reads name j, false) := by
  funext j
  rw [reads]
  rcases Nat.lt_or_ge j (f.entryText name).length with hj | hj
  · have hj' : j < (f.entryCells name false).length := by rwa [length_entryCells]
    rw [paint, List.getD_eq_getElem _ _ hj', List.getD_eq_getElem _ _ hj]
    simp [entryCells]
  · rw [paint_of_le (by rwa [length_entryCells]), List.getD_eq_default _ _ hj]
    rfl

/-- A row that is not redrawn shows the same entry as before, and not the selected one either time. -/
theorem of_not_redraws {key : Key} {i : Nat} (hi : i < w.size) (h : ¬ Redraws w key i) :
    (key.moves w).top = w.top ∧ i ≠ w.row ∧ i ≠ (key.moves w).row := by
  cases key with
  | navD => exact Window.down_outside hi (by simp only [Redraws] at h; omega)
  | navU => exact Window.up_outside hi (by simp only [Redraws] at h; omega)
  | navL | navR | navB | ac | token =>
      have hne : i ≠ w.row := fun heq => h (by rw [heq]; rfl)
      exact ⟨rfl, hne, hne⟩

theorem size_moves (key : Key) (w : Window) : (key.moves w).size = w.size := by
  cases key <;> rfl

theorem len_moves (key : Key) (w : Window) : (key.moves w).len = w.len := by
  cases key <;> rfl

/-! ### One key -/

theorem focusAfter_of_selects {name text : List Char} {key : Key} (h : f.Selects name text)
    (hu : key ≠ .navU) (hd : key ≠ .navD) :
    f.focusAfter key = f.edited name ((f.field text).press f.inputCols key) := by
  cases key with
  | navU => exact absurd rfl hu
  | navD => exact absurd rfl hd
  | navL | navR | navB | ac | token => simp [focusAfter, h.row, h.input, h.field]

theorem focusAfter_of_label {name : List Char} {key : Key}
    (hrow : Py.item f.formList f.menuCursor = .ok name) (hlabel : isInput name = false)
    (hu : key ≠ .navU) (hd : key ≠ .navD) : f.focusAfter key = f := by
  cases key with
  | navU => exact absurd rfl hu
  | navD => exact absurd rfl hd
  | navL | navR | navB | ac | token => simp [focusAfter, hrow, hlabel]

/-- On an input row a key has that row redrawn; on a label it does nothing. -/
theorem redraws_of_stays {key : Key} (h : f.Shows rows w) (hrange : f.InRange w) {f' : Form}
    (hstep : f.updateBuffer key = .ok f') (hu : key ≠ .navU) (hd : key ≠ .navD) :
    f'.InRange w ∧ (∀ i, f'.rowCells w i = (f.focusAfter key).rowCells w i) ∧
      ((f' = f ∧ f.focusAfter key = f) ∨
        ∀ i, f'.refreshRows.1 ≤ i ∧ i < f'.refreshRows.2 ↔ i = w.row) := by
  have hlt := w.row_lt
  have hrow : f.menuCursor - f.menuDisplayPosition = w.row := by
    rw [← h.panel.displayCursor_eq]
    exact h.panel.display.symm
  obtain ⟨name, text, hsel⟩ | ⟨name, hitem, hlabel⟩ := h.selected
  · rw [updateBuffer_of_selects hsel hu hd] at hstep
    cases hstep
    rw [focusAfter_of_selects hsel hu hd]
    have hrows : ((f.edited name ((f.field text).press f.inputCols key)).redisplay).refreshRows
        = ((w.row : Int), (w.row : Int) + 1) := by
      rw [← hrow]
      rfl
    refine ⟨?_, fun _ => rfl, .inr fun i => ?_⟩
    · rw [InRange, hrows]
      dsimp only
      omega
    · rw [hrows]
      dsimp only
      omega
  · rw [updateBuffer_label h hitem hlabel hu hd] at hstep
    cases hstep
    rw [focusAfter_of_label hitem hlabel hu hd]
    exact ⟨hrange, fun _ => rfl, .inl ⟨rfl, rfl⟩⟩

/-- What `update_buffer` leaves for the redraw: the window has moved, the rows look as `focusAfter`
says, and `refresh_rows` are the rows that are redrawn, unless the key did nothing. -/
theorem updateBuffer_redraws (h : f.Shows rows w) (hrange : f.InRange w) (key : Key) :
    ∃ f', f.updateBuffer key = .ok f' ∧ f'.Shows rows (key.moves w) ∧ f'.InRange (key.moves w) ∧
      (∀ i, f'.rowCells (key.moves w) i = (f.focusAfter key).rowCells (key.moves w) i) ∧
      ((f' = f ∧ f.focusAfter key = f ∧ key.moves w = w) ∨
        ∀ i, f'.refreshRows.1 ≤ i ∧ i < f'.refreshRows.2 ↔ Redraws w key i) := by
  obtain ⟨f', hstep, hshows⟩ := updateBuffer_shows h key
  refine ⟨f', hstep, hshows, ?_⟩
  cases key with
  | navD =>
      have hle : (w.downRows.2 : Int) ≤ w.size := by exact_mod_cast w.downRows_le
      rw [updateBuffer, moveDown_eq h] at hstep
      cases hstep
      exact ⟨⟨Int.natCast_nonneg _, hle⟩, fun _ => rfl, .inr fun _ => Iff.rfl⟩
  | navU =>
      have hle : (w.upRows.2 : Int) ≤ w.size := by exact_mod_cast w.upRows_le
      rw [updateBuffer, moveUp_eq h] at hstep
      cases hstep
      exact ⟨⟨Int.natCast_nonneg _, hle⟩, fun _ => rfl, .inr fun _ => Iff.rfl⟩
  | navL | navR | navB | ac | token =>
      obtain ⟨hrange', hcells, hrows⟩ := redraws_of_stays h hrange hstep (by simp) (by simp)
      exact ⟨hrange', hcells, hrows.imp (fun hsame => ⟨hsame.1, hsame.2, rfl⟩) id⟩

/-- A key that does nothing keeps the rows. -/
theorem rowsKept_of_idle {key : Key} (hfocus : f.focusAfter key = f) (hmoves : key.moves w = w) :
    f.RowsKept w key := by
  refine ⟨fun i _ _ _ => by rw [hfocus], fun i _ _ j hj => ?_⟩
  rw [hfocus, hmoves] at hj
  rw [rowCells, Int.toNat_natCast]
  exact List.getD_eq_default _ _ (by rwa [length_entryCells])

/-- A row that is not redrawn is as in a full redraw exactly when it reads the same. -/
theorem row_steady_iff {key : Key} {i : Nat} (hi : i < w.size) (h : ¬ Redraws w key i) :
    paint (f.rowCells w i) (cleared i) =
        paint ((f.focusAfter key).rowCells (key.moves w) i) (cleared i) ↔
      (isInput (f.entry (w.top + i)) = true →
        (f.focusAfter key).reads (f.entry (w.top + i)) = f.reads (f.entry (w.top + i))) := by
  obtain ⟨htop, hrow, hrow'⟩ := of_not_redraws hi h
  have hold : f.rowCells w i = f.entryCells (f.entry (w.top + i)) false := by
    rw [rowCells, Int.toNat_natCast, decide_eq_false (by omega)]
  have hnew : (f.focusAfter key).rowCells (key.moves w) i
      = (f.focusAfter key).entryCells (f.entry (w.top + i)) false := by
    rw [rowCells, Int.toNat_natCast, decide_eq_false (by omega), entry_focusAfter, htop]
  rw [hold, hnew, paint_unselected, paint_unselected]
  refine ⟨?_, ?_⟩
  · intro heq _
    funext j
    exact (congrArg Prod.fst (congrFun heq j)).symm
  · intro hreads
    cases hinput : isInput (f.entry (w.top + i)) with
    | true => rw [hreads hinput]
    | false => simp only [reads, entryText_of_label hinput]

/-- A row that is redrawn is as in a full redraw exactly when nothing is lit beyond its new text. -/
theorem row_covered_iff {key : Key} {i : Nat} :
    paint ((f.focusAfter key).rowCells (key.moves w) i) (paint (f.rowCells w i) (cleared i)) =
        paint ((f.focusAfter key).rowCells (key.moves w) i) (cleared i) ↔
      ∀ j, ((f.focusAfter key).entryText (f.entry ((key.moves w).top + i))).length ≤ j →
        (f.rowCells w i).getD j (' ', false) = (' ', false) := by
  rw [paint_eq_iff, rowCells, length_entryCells, entry_focusAfter, Int.toNat_natCast]
  rfl

/-- Rows written over a full screen make the next full screen exactly when the rows are kept. -/
theorem partial_eq_full_iff {key : Key} {f' : Form}
    (hcells : ∀ i, f'.rowCells (key.moves w) i = (f.focusAfter key).rowCells (key.moves w) i)
    (hrange : f'.InRange (key.moves w))
    (hrows : ∀ i, f'.refreshRows.1 ≤ i ∧ i < f'.refreshRows.2 ↔ Redraws w key i) :
    ((fun i => if f'.refreshRows.1 ≤ i ∧ i < f'.refreshRows.2
        then paint (f'.rowCells (key.moves w) i) (f.full w i) else f.full w i)
      = f'.full (key.moves w)) ↔ f.RowsKept w key := by
  have hsize := size_moves key w
  have hinside : ∀ i : Nat, i < w.size → f.full w i = paint (f.rowCells w i) (cleared i) :=
    fun i hi => if_pos ⟨Int.natCast_nonneg i, by omega⟩
  have hinside' : ∀ i : Nat, i < w.size → f'.full (key.moves w) i
      = paint ((f.focusAfter key).rowCells (key.moves w) i) (cleared i) := by
    intro i hi
    rw [← hcells]
    exact if_pos ⟨Int.natCast_nonneg i, by omega⟩
  refine ⟨?_, ?_⟩
  · intro heq
    refine ⟨fun i hi hnot => ?_, fun i hi hredraws => ?_⟩
    · have hrow := congrFun heq i
      rw [if_neg (fun hin => hnot ((hrows i).mp hin)), hinside i hi, hinside' i hi] at hrow
      exact (row_steady_iff hi hnot).mp hrow
    · have hrow := congrFun heq i
      rw [if_pos ((hrows i).mpr hredraws), hinside i hi, hinside' i hi, hcells] at hrow
      exact row_covered_iff.mp hrow
  · intro hsafe
    funext i
    by_cases hi : 0 ≤ i ∧ i < w.size
    · obtain ⟨n, rfl⟩ := Int.eq_ofNat_of_zero_le hi.1
      have hn : n < w.size := by omega
      by_cases hredraws : Redraws w key n
      · rw [if_pos ((hrows n).mpr hredraws), hinside n hn, hinside' n hn, hcells]
        exact row_covered_iff.mpr (hsafe.covered n hn hredraws)
      · rw [if_neg (fun hin => hredraws ((hrows n).mp hin)), hinside n hn, hinside' n hn]
        exact (row_steady_iff hn hredraws).mpr (hsafe.steady n hn hredraws)
    · -- below the window nothing is ever drawn
      obtain ⟨hlow, hhigh⟩ := hrange
      rw [hsize] at hhigh
      rw [if_neg (by omega), full, if_neg hi, full, hsize, if_neg hi]

/-! ### The condition -/

def textOf (f : Form) (name : List Char) : List Char := (f.inputList.lookup name).getD []

/-- The entry an editing key is for. -/
def selected (f : Form) (w : Window) : List Char := f.entry w.cursor

/-- The offset the next key scrolls the fields to: `nav_u` and `nav_d` go to the start, another key scrolls with
the selected field, and not at all on a label. -/
def offsetAfter (f : Form) (w : Window) : Key → Int
  | .navU | .navD => 0
  | key =>
      if isInput (f.selected w) then (f.field (f.textOf (f.selected w))).scrolled f.inputCols key
      else f.inputDisplayPosition

/-- The text of a field after the next key, which edits the selected one. -/
def textAfter (f : Form) (w : Window) (key : Key) (name : List Char) : List Char :=
  match key with
  | .navU | .navD => f.textOf name
  | key => if name = f.selected w then (f.field (f.textOf name)).retyped key else f.textOf name

/-- The columns a text of `length` characters is padded to. -/
def padded (cols : Int) (length : Nat) : Nat := if (length : Int) < cols then cols.toNat + 2 else length

/-- The columns written for an entry after the next key: all of a label, or the part of the field from the offset on. -/
def widthAfter (f : Form) (w : Window) (key : Key) (name : List Char) : Nat :=
  padded f.inputCols <|
    if isInput name then
      2 + min ((f.textAfter w key name).length - (f.offsetAfter w key).toNat) f.inputCols.toNat
    else name.length

/-- The condition on a form, its window and the next key under which the redraw after the key is as good as a full
one. -/
structure RedrawSafe (f : Form) (w : Window) (key : Key) : Prop where
  /-- In every field on a row that is not redrawn, the columns from the offset the key scrolls to show the characters
  shown now. -/
  steady : ∀ i : Nat, i < w.size → ¬ Redraws w key i → isInput (f.entry (w.top + i)) = true →
    ∀ j : Nat, (j : Int) < f.inputCols →
      (f.textAfter w key (f.entry (w.top + i))).getD ((f.offsetAfter w key).toNat + j) ' ' =
        (f.textOf (f.entry (w.top + i))).getD (f.inputDisplayPosition.toNat + j) ' '
  /-- On a row that is redrawn, nothing is lit now beyond the columns that will be written. -/
  covered : ∀ i : Nat, i < w.size → Redraws w key i →
    ∀ j, f.widthAfter w key (f.entry ((key.moves w).top + i)) ≤ j →
      (f.rowCells w i).getD j (' ', false) = (' ', false)

/-- What every key keeps: the offset is in the text, and the cursor at most one before it. -/
structure Placed (f : Form) : Prop where
  cols : 0 < f.inputCols
  position : 0 ≤ f.inputDisplayPosition
  cursor : -1 ≤ f.inputCursor

/-- The next key does not scroll, no row is listed twice, and every text fits the padding. -/
def Still (f : Form) (w : Window) (key : Key) : Prop :=
  f.offsetAfter w key = f.inputDisplayPosition ∧ f.formList.Nodup ∧ ∀ name ∈ f.formList,
    (f.entryText name).length ≤ f.inputCols.toNat + 2 ∧ f.widthAfter w key name = f.inputCols.toNat + 2

instance (f : Form) (w : Window) (key : Key) : Decidable (f.Still w key) :=
  inferInstanceAs (Decidable (_ ∧ _))

theorem Still.redrawSafe {key : Key} (hstill : f.Still w key) (h : f.Shows rows w) : f.RedrawSafe w key := by
  obtain ⟨hoffset, hnodup, htexts⟩ := hstill
  have hlen : (w.len : Int) = f.formList.length := h.panel.len
  have hmem : ∀ {w' : Window} {i : Nat}, w'.len = w.len → i < w'.size → f.entry (w'.top + i) ∈ f.formList := by
    intro w' i hw' hi
    have hlt : w'.top + i < f.formList.length := by
      have := w'.bottom_le
      omega
    rw [entry, List.getD_eq_getElem _ _ hlt]
    exact List.getElem_mem hlt
  refine ⟨fun i hi hnot _ j _ => ?_, fun i hi _ j hj => ?_⟩
  · rw [hoffset]
    congr 1
    cases key with
    | navU | navD => rfl
    | navL | navR | navB | ac | token =>
        -- another row is another field
        refine if_neg fun heq => hnot ?_
        have := w.cursor_lt_len
        have := w.bottom_le
        have := w.top_add_row
        rw [selected, entry, entry, List.getD_eq_getElem _ _ (by omega), List.getD_eq_getElem _ _ (by omega)] at heq
        have hindex := (hnodup.getElem_inj_iff).mp heq
        change (i : Int) = w.row
        omega
  · rw [(htexts _ (hmem (len_moves key w) (by rw [size_moves]; exact hi))).2] at hj
    rw [rowCells, Int.toNat_natCast]
    apply List.getD_eq_default _ _
    rw [length_entryCells]
    exact (htexts _ (hmem rfl hi)).1.trans hj

theorem selects_of_input (h : f.Shows rows w) (hinput : isInput (f.selected w) = true) :
    f.Selects (f.selected w) (f.textOf (f.selected w)) := by
  have hcursor : f.menuCursor = w.cursor := h.panel.cursor
  have hlen : (w.len : Int) = f.formList.length := h.panel.len
  have hlt : w.cursor < f.formList.length := by
    have := w.cursor_lt_len
    omega
  have hentry : f.selected w = f.formList.get ⟨w.cursor, hlt⟩ := List.getD_eq_getElem _ _ hlt
  have hmem : f.selected w ∈ f.formList := by
    rw [hentry]
    exact List.get_mem _ _
  obtain ⟨text, htext⟩ := Option.isSome_iff_exists.mp (AList.lookup_isSome.mpr (h.covers _ hmem hinput))
  refine ⟨?_, hinput, by rw [textOf, htext]; rfl⟩
  rw [hcursor, hentry, Py.item_of_lt _ hlt]

theorem item_selected (h : f.Shows rows w) : Py.item f.formList f.menuCursor = .ok (f.selected w) := by
  have hcursor : f.menuCursor = w.cursor := h.panel.cursor
  have hlen : (w.len : Int) = f.formList.length := h.panel.len
  have hlt : w.cursor < f.formList.length := by
    have := w.cursor_lt_len
    omega
  rw [hcursor, Py.item_of_lt _ hlt, selected, entry, List.getD_eq_getElem _ _ hlt]
  rfl

theorem offsetAfter_of_edit {key : Key} (hu : key ≠ .navU) (hd : key ≠ .navD) : f.offsetAfter w key =
    if isInput (f.selected w) then (f.field (f.textOf (f.selected w))).scrolled f.inputCols key
    else f.inputDisplayPosition := by
  cases key with
  | navU => exact absurd rfl hu
  | navD => exact absurd rfl hd
  | navL | navR | navB | ac | token => rfl

theorem textAfter_of_edit {key : Key} (hu : key ≠ .navU) (hd : key ≠ .navD) (name : List Char) :
    f.textAfter w key name =
      if name = f.selected w then (f.field (f.textOf name)).retyped key else f.textOf name := by
  cases key with
  | navU => exact absurd rfl hu
  | navD => exact absurd rfl hd
  | navL | navR | navB | ac | token => rfl

/-- The offset and the texts the next key leaves are those said on the state before. -/
theorem focusAfter_eq (h : f.Shows rows w) (hplaced : f.Placed) (key : Key) :
    (f.focusAfter key).inputDisplayPosition = f.offsetAfter w key ∧
      (∀ name, isInput name = true → (f.focusAfter key).textOf name = f.textAfter w key name) ∧
      (f.focusAfter key).Placed := by
  by_cases hu : key = .navU
  · subst hu
    exact ⟨rfl, fun _ _ => rfl, hplaced.cols, le_refl 0, neg_one_lt_zero.le⟩
  by_cases hd : key = .navD
  · subst hd
    exact ⟨rfl, fun _ _ => rfl, hplaced.cols, le_refl 0, neg_one_lt_zero.le⟩
  rw [offsetAfter_of_edit hu hd]
  cases hinput : isInput (f.selected w) with
  | true =>
      obtain ⟨hposition, htext, hcursor⟩ := Field.press_eq (d := f.field (f.textOf (f.selected w))) hplaced.cursor
        hplaced.position hplaced.cols hu hd
      rw [focusAfter_of_selects (selects_of_input h hinput) hu hd, if_pos rfl]
      refine ⟨hposition, fun name _ => ?_, hplaced.cols, ?_, hcursor⟩
      · rw [textAfter_of_edit hu hd]
        by_cases hname : name = f.selected w
        · subst hname
          rw [if_pos rfl, ← htext, textOf, edited, AList.lookup_insert]
          rfl
        · rw [if_neg hname, textOf, edited, AList.lookup_insert_ne hname, textOf]
      · exact (Field.scrolled_nonneg hplaced.position key).trans_eq hposition.symm
  | false =>
      rw [focusAfter_of_label (item_selected h) hinput hu hd, if_neg Bool.false_ne_true]
      refine ⟨rfl, fun name hname => ?_, hplaced⟩
      rw [textAfter_of_edit hu hd, if_neg]
      rintro rfl
      rw [hname] at hinput
      cases hinput

theorem padRow_getD (cols : Int) (text : List Char) (j : Nat) : (padRow cols text).getD j ' ' = text.getD j ' ' := by
  rw [padRow]
  split_ifs
  · rcases Nat.lt_or_ge j text.length with hj | hj
    · rw [List.getD_append _ _ _ _ hj]
    · rw [List.getD_append_right _ _ _ _ hj, List.getD_eq_default _ _ hj, Py.spaces]
      rw [List.getD_eq_getElem?_getD, List.getElem?_replicate]
      split_ifs <;> rfl
  · rfl

theorem length_padRow (cols : Int) (text : List Char) : (padRow cols text).length = padded cols text.length := by
  rw [padRow, padded]
  split_ifs with hshort
  · rw [List.length_append, Py.spaces, List.length_replicate]
    omega
  · rfl

/-- The part of a field that is shown. -/
theorem entryText_input (h : f.Placed) {name : List Char} (hinput : isInput name = true) : f.entryText name =
    padRow f.inputCols ("=>".toList ++
      ((f.textOf name).drop f.inputDisplayPosition.toNat).take f.inputCols.toNat) := by
  have hcols := h.cols
  have hposition := h.position
  rw [entryText, if_pos hinput, Py.slice_of_nonneg _ hposition (by omega), List.drop_take, textOf,
    show (f.inputDisplayPosition + f.inputCols).toNat - f.inputDisplayPosition.toNat = f.inputCols.toNat by omega]

theorem reads_input (h : f.Placed) {name : List Char} (hinput : isInput name = true) {j : Nat}
    (hj : (j : Int) < f.inputCols) :
    f.reads name (j + 2) = (f.textOf name).getD (f.inputDisplayPosition.toNat + j) ' ' := by
  rw [reads, entryText_input h hinput, padRow_getD]
  change (List.take _ _).getD j ' ' = _
  rw [List.getD_eq_getElem?_getD, List.getElem?_take, if_pos (by omega), List.getElem?_drop, List.getD_eq_getElem?_getD]

/-- Two forms read the same in a field exactly when the shown parts of its texts do. -/
theorem reads_eq_iff {g : Form} (hcols : g.inputCols = f.inputCols) (hf : f.Placed) (hg : g.Placed) {name : List Char}
    (hinput : isInput name = true) : g.reads name = f.reads name ↔ ∀ j : Nat, (j : Int) < f.inputCols →
      (g.textOf name).getD (g.inputDisplayPosition.toNat + j) ' ' =
        (f.textOf name).getD (f.inputDisplayPosition.toNat + j) ' ' := by
  refine ⟨?_, ?_⟩
  · intro heq j hj
    rw [← reads_input hf hinput hj, ← reads_input hg hinput (hcols ▸ hj), heq]
  · intro hchars
    funext j
    match j with
    | 0 | 1 =>
        rw [reads, reads, entryText_input hf hinput, entryText_input hg hinput, padRow_getD, padRow_getD]
        rfl
    | j + 2 =>
        by_cases hj : (j : Int) < f.inputCols
        · rw [reads_input hf hinput hj, reads_input hg hinput (hcols ▸ hj), hchars j hj]
        · rw [reads, reads, entryText_input hf hinput, entryText_input hg hinput, padRow_getD, padRow_getD,
            List.getD_eq_default _ _ (by simp; omega), List.getD_eq_default _ _ (by simp; omega)]

theorem length_entryText (h : f.Placed) (name : List Char) : (f.entryText name).length =
    padded f.inputCols
      (if isInput name then 2 + min ((f.textOf name).length - f.inputDisplayPosition.toNat) f.inputCols.toNat
        else name.length) := by
  cases hinput : isInput name with
  | true =>
      rw [entryText_input h hinput, length_padRow, if_pos rfl]
      congr 1
      simp
      omega
  | false =>
      rw [entryText, hinput, if_neg Bool.false_ne_true, length_padRow, if_neg Bool.false_ne_true]

theorem length_focusAfter (h : f.Shows rows w) (hplaced : f.Placed) (key : Key) (name : List Char) :
    ((f.focusAfter key).entryText name).length = f.widthAfter w key name := by
  obtain ⟨hposition, htext, hplaced'⟩ := focusAfter_eq h hplaced key
  rw [length_entryText hplaced', widthAfter, (f.focusAfter_fixed key).2, hposition]
  cases hinput : isInput name with
  | true => rw [htext name hinput]
  | false => rfl

/-- The rows are kept exactly when the state before the key is one from which it is safe to redraw. -/
theorem rowsKept_iff (h : f.Shows rows w) (hplaced : f.Placed) {key : Key} :
    f.RowsKept w key ↔ f.RedrawSafe w key := by
  obtain ⟨hposition, htext, hplaced'⟩ := focusAfter_eq h hplaced key
  have hreads : ∀ i : Nat, isInput (f.entry (w.top + i)) = true →
      ((f.focusAfter key).reads (f.entry (w.top + i)) = f.reads (f.entry (w.top + i)) ↔
        ∀ j : Nat, (j : Int) < f.inputCols →
          (f.textAfter w key (f.entry (w.top + i))).getD ((f.offsetAfter w key).toNat + j) ' ' =
            (f.textOf (f.entry (w.top + i))).getD (f.inputDisplayPosition.toNat + j) ' ') := by
    intro i hinput
    rw [reads_eq_iff (f.focusAfter_fixed key).2 hplaced hplaced' hinput, hposition, htext _ hinput]
  refine ⟨?_, ?_⟩
  · intro hkept
    refine ⟨fun i hi hnot hinput => (hreads i hinput).mp (hkept.steady i hi hnot hinput),
      fun i hi hredraws j hj => hkept.covered i hi hredraws j ?_⟩
    rwa [length_focusAfter h hplaced]
  · intro hsafe
    refine ⟨fun i hi hnot hinput => (hreads i hinput).mpr (hsafe.steady i hi hnot hinput),
      fun i hi hredraws j hj => hsafe.covered i hi hredraws j ?_⟩
    rwa [length_focusAfter h hplaced] at hj

/-- A key leaves the offset and the cursor in place. -/
theorem Placed.updateBuffer (hplaced : f.Placed) (h : f.Shows rows w) {key : Key} {f' : Form}
    (hstep : f.updateBuffer key = .ok f') : f'.Placed := by
  have hfocus := (focusAfter_eq h hplaced key).2.2
  by_cases hu : key = .navU
  · subst hu
    rw [Form.updateBuffer, moveUp_eq h] at hstep
    cases hstep
    exact ⟨hfocus.cols, hfocus.position, hfocus.cursor⟩
  by_cases hd : key = .navD
  · subst hd
    rw [Form.updateBuffer, moveDown_eq h] at hstep
    cases hstep
    exact ⟨hfocus.cols, hfocus.position, hfocus.cursor⟩
  obtain ⟨name, text, hsel⟩ | ⟨name, hitem, hlabel⟩ := h.selected
  · rw [focusAfter_of_selects hsel hu hd] at hfocus
    rw [updateBuffer_of_selects hsel hu hd] at hstep
    cases hstep
    exact ⟨hfocus.cols, hfocus.position, hfocus.cursor⟩
  · rw [updateBuffer_label h hitem hlabel hu hd] at hstep
    cases hstep
    exact hplaced

/-- One key on a screen that is up to date. -/
theorem press_full (h : f.Shows rows w) (hrange : f.InRange w) (hplaced : f.Placed) (key : Key) :
    ∃ f' screen, press (f, f.full w) key = .ok (f', screen) ∧ f'.Shows rows (key.moves w) ∧
      f'.InRange (key.moves w) ∧ f'.Placed ∧ (screen = f'.full (key.moves w) ↔ f.RedrawSafe w key) := by
  obtain ⟨f', hstep, hshows, hrange', hcells, hrows⟩ := updateBuffer_redraws h hrange key
  have hpress : press (f, f.full w) key = .ok (f', fun i =>
      if f'.refreshRows.1 ≤ i ∧ i < f'.refreshRows.2
        then paint (f'.rowCells (key.moves w) i) (f.full w i) else f.full w i) := by
    rw [press, hstep]
    change f'.refresh (f.full w) >>= _ = _
    rw [refresh_eq hshows hrange']
    rfl
  refine ⟨f', _, hpress, hshows, hrange', hplaced.updateBuffer h hstep, ?_⟩
  rw [← rowsKept_iff h hplaced]
  obtain ⟨rfl, hfocus, hmoves⟩ | hrows := hrows
  · -- the rows written again are on the screen already
    refine ⟨fun _ => rowsKept_of_idle hfocus hmoves, fun _ => funext fun i => ?_⟩
    rw [hmoves]
    by_cases hin : f'.refreshRows.1 ≤ i ∧ i < f'.refreshRows.2
    · have hi : 0 ≤ i ∧ i < w.size := ⟨hrange.1.trans hin.1, hin.2.trans_le hrange.2⟩
      rw [if_pos hin, full, if_pos hi, paint_paint]
    · rw [if_neg hin]
  · exact partial_eq_full_iff hcells hrange' hrows

/-! ### Runs -/

/-- The screen is the one a full redraw of the form gives. -/
def Drawn (s : Form × Screen Cell) : Prop := s.1.redrawAll = .ok s.2

/-- The next key is safe to redraw, in the window the form shows. -/
def NextSafe (rows : Int) (s : Form × Screen Cell) (key : Key) : Prop :=
  ∀ w, s.1.Shows rows w → s.1.RedrawSafe w key

theorem shows_unique {w' : Window} (h : f.Shows rows w) (h' : f.Shows rows w') : w' = w := by
  have hlen := h.panel.len.trans h'.panel.len.symm
  have hsize := h.panel.size.trans h'.panel.size.symm
  have hcursor := h.panel.cursor.symm.trans h'.panel.cursor
  have hposition := h.panel.position.symm.trans h'.panel.position
  apply Window.ext <;> omega

theorem drawn_iff {screen : Screen Cell} (h : f.Shows rows w) :
    Drawn (f, screen) ↔ screen = f.full w := by
  rw [Drawn, redrawAll_eq h, Except.ok.injEq, eq_comm]

/-- The invariant of a run: the form shows a window, its offset and its cursor are in place, and the screen is up to
date. -/
def UpToDate (rows : Int) (s : Form × Screen Cell) : Prop :=
  ∃ w, s.1.Shows rows w ∧ s.1.InRange w ∧ s.1.Placed ∧ s.2 = s.1.full w

theorem UpToDate.press {s : Form × Screen Cell} (h : UpToDate rows s) {key : Key}
    (hsafe : NextSafe rows s key) :
    ∃ s', press s key = .ok s' ∧ UpToDate rows s' ∧ Drawn s' := by
  obtain ⟨f, screen⟩ := s
  obtain ⟨w, hshows, hrange, hplaced, hscreen⟩ := h
  dsimp only at hshows hrange hplaced hscreen
  subst hscreen
  obtain ⟨f', screen', hpress, hshows', hrange', hplaced', hiff⟩ := press_full hshows hrange hplaced key
  have hfull := hiff.mpr (hsafe w hshows)
  exact ⟨_, hpress, ⟨_, hshows', hrange', hplaced', hfull⟩, (drawn_iff hshows').mpr hfull⟩

theorem UpToDate.not_drawn {s s' : Form × Screen Cell} (h : UpToDate rows s) {key : Key}
    (hbad : ¬ NextSafe rows s key) (hpress : Form.press s key = .ok s') : ¬ Drawn s' := by
  obtain ⟨f, screen⟩ := s
  obtain ⟨w, hshows, hrange, hplaced, hscreen⟩ := h
  dsimp only at hshows hrange hplaced hscreen
  subst hscreen
  obtain ⟨f', screen', hpress', hshows', -, -, hiff⟩ := press_full hshows hrange hplaced key
  rw [hpress, Except.ok.injEq] at hpress'
  subst hpress'
  intro hdrawn
  apply hbad
  intro w' hshows''
  rw [shows_unique hshows hshows'']
  exact hiff.mp ((drawn_iff hshows').mp hdrawn)

/-- From a fresh form drawn in full, the screen kept by partial redraws is at every step that of a full
redraw exactly when every key of the run was safe to redraw. -/
theorem partial_redraw_iff {rows : Int} (hrows : 1 ≤ rows) {list : List (List Char)}
    (hlist : list ≠ []) {inputs : Inputs} (hcovers : inputs.Covers list) (keys : List Key) :
    ∃ screen, (init rows inputs list).redrawAll = .ok screen ∧
      (Runs.AfterEach press Drawn (init rows inputs list, screen) keys ↔
        Runs.StepsMeet press (NextSafe rows) (init rows inputs list, screen) keys) := by
  obtain ⟨w, hw⟩ := Panel.start_shows hrows hlist
  have hshows : (init rows inputs list).Shows rows w := ⟨by rw [panel_init]; exact hw, rfl, hcovers⟩
  have hrange : (init rows inputs list).InRange w :=
    ⟨le_refl 0, (hshows.panel.size.trans hshows.actual.symm).symm.le⟩
  have hstart : UpToDate rows (init rows inputs list, (init rows inputs list).full w) :=
    ⟨w, hshows, hrange, ⟨show (0 : Int) < 19 by decide, le_refl 0, neg_one_lt_zero.le⟩, rfl⟩
  exact ⟨_, redrawAll_eq hshows, Runs.afterEach_iff_stepsMeet (fun _ _ h hsafe => h.press hsafe)
    (fun _ _ h hbad _ hpress => h.not_drawn hbad hpress) hstart keys⟩

/-- Two fields, the second of which holds a digit. -/
def twoFields : Inputs :=
  (AList.singleton "inp_0".toList " ".toList).insert "inp_1".toList "5 ".toList

/-- A digit typed in the first field, then the second selected: neither key scrolls. -/
theorem partial_redraw_iff_twoFields :
    let f := init 7 twoFields ["inp_0".toList, "inp_1".toList]
    ∃ screen, f.redrawAll = .ok screen ∧ Runs.StepsMeet press (NextSafe 7) (f, screen) [.token ['1'], .navD] ∧
      Runs.AfterEach press Drawn (f, screen) [.token ['1'], .navD] := by
  intro f
  have hcovers : twoFields.Covers ["inp_0".toList, "inp_1".toList] := by decide +kernel
  obtain ⟨screen, hscreen, hiff⟩ := partial_redraw_iff (show (1 : Int) ≤ 7 by decide)
    (List.cons_ne_nil "inp_0".toList ["inp_1".toList]) hcovers [.token ['1'], .navD]
  let w : Window := ⟨2, 2, 0, 0, by decide, by decide, by decide⟩
  have hshows : f.Shows 7 w := ⟨⟨rfl, rfl, rfl, rfl, rfl, rfl, rfl, rfl⟩, rfl, hcovers⟩
  obtain ⟨f', hstep, hshows'⟩ := updateBuffer_shows hshows (.token ['1'])
  have htyped : (match f.updateBuffer (.token ['1']) with
      | .ok f' => decide (f'.Still w .navD)
      | .error _ => false) = true := by
    decide +kernel
  rw [hstep] at htyped
  have hmeets : Runs.StepsMeet press (NextSafe 7) (f, screen) [.token ['1'], .navD] := by
    refine Runs.stepsMeet_cons (fun w' hw' => ?_) fun s hpress => Runs.stepsMeet_cons (fun w' hw' => ?_) fun _ _ =>
      Runs.stepsMeet_nil _ _
    · have htype : f.Still w (.token ['1']) := by decide +kernel
      rw [shows_unique hshows hw']
      exact htype.redrawSafe hshows
    · obtain ⟨f'', hbuffer, hrest⟩ := Runs.ok_of_bind hpress
      obtain ⟨screen', -, hlast⟩ := Runs.ok_of_bind hrest
      cases hlast
      rw [show f.updateBuffer (.token ['1']) = .ok f'' from hbuffer, Except.ok.injEq] at hstep
      subst hstep
      rw [shows_unique hshows' hw']
      exact (of_decide_eq_true htyped).redrawSafe hshows'
  exact ⟨screen, hscreen, hmeets, hiff.mpr hmeets⟩

/-- A cell of the screen as it was kept, and as a full redraw gives it. -/
def compareCell (s : Form × Screen Cell) (i : Int) (j : Nat) : Except Py.Err (Cell × Cell) := do
  let redrawn ← s.1.redrawAll
  pure (s.2 i j, redrawn i j)

theorem Drawn.compareCell {s : Form × Screen Cell} (h : Drawn s) (i : Int) (j : Nat) :
    compareCell s i j = .ok (s.2 i j, s.2 i j) := by
  rw [Form.compareCell, show s.1.redrawAll = .ok s.2 from h]
  rfl

/-- After 19 characters are typed in the first field, the row of the second still shows its digit, and
a full redraw does not: it draws that field from the offset of the first. -/
theorem scrolled_field_leaves_stale_row :
    let f := init 7 twoFields ["inp_0".toList, "inp_1".toList]
    let keys := [Key.token (List.replicate 19 '1')]
    (f.redrawAll >>= fun screen => Runs.run press (f, screen) keys >>= fun s => compareCell s 1 2)
        = .ok (('5', false), (' ', false)) ∧
      ∀ screen, f.redrawAll = .ok screen → ¬ Runs.AfterEach press Drawn (f, screen) keys := by
  intro f keys
  have hcells : (f.redrawAll >>= fun screen => Runs.run press (f, screen) keys >>= fun s =>
      compareCell s 1 2) = .ok (('5', false), (' ', false)) := by
    decide +kernel
  refine ⟨hcells, fun screen hscreen hafter => ?_⟩
  obtain ⟨s, hrun, hdrawn⟩ := hafter [] _ List.prefix_rfl
  rw [List.nil_append] at hrun
  rw [hscreen, Runs.ok_bind, hrun, Runs.ok_bind, hdrawn.compareCell, Except.ok.injEq, Prod.mk.injEq]
    at hcells
  rw [hcells.1] at hcells
  exact absurd hcells.2 (by decide)

end Form

end CalSci
