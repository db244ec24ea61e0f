import CalSci.FormPages

/-! Labels of a form whose texts come from outside: a network name, an answer of a server. `update_buffer` and
`refresh` both take a row for an input row when its text contains `inp_`, and a label is only a label exactly when
its text does not. -/

namespace CalSci.Form

open RowWindow

/-- A position of a form: a text to show, or the name of a field. -/
inductive Slot
  | label (text : List Char)
  | field (name : List Char)
  deriving DecidableEq

/-- What an app puts in `form_list`. -/
def Slot.text : Slot → List Char
  | .label text => text
  | .field name => name

/-- A field's name contains `inp_` and is a key of `input_list`. -/
def Slot.Backed (inputs : Inputs) : Slot → Prop
  | .label _ => True
  | .field name => isInput name = true ∧ name ∈ inputs

instance (inputs : Inputs) : DecidablePred (Slot.Backed inputs)
  | .label _ => inferInstanceAs (Decidable True)
  | .field name => inferInstanceAs (Decidable (isInput name = true ∧ name ∈ inputs.keys))

/-- In this state the form is redrawn without an exception, the labels on the display are drawn as their texts, and on
a selected label an editing key that returns changes no field and no label. -/
structure TreatsLabels (slots : List Slot) (f : Form) : Prop where
  refreshes : ∀ screen, ∃ screen', f.refresh screen = .ok screen'
  renders : ∀ (i k : Nat) text, (i : Int) < f.actualRows → f.menuDisplayPosition + i = k →
    slots[k]? = some (.label text) →
    ∃ cells blanks, f.drawRow i = .ok cells ∧ cells.map Prod.fst = text ++ List.replicate blanks ' '
  inert : ∀ (k : Nat) text key, f.menuCursor = k → slots[k]? = some (.label text) → key ≠ .navU → key ≠ .navD →
    ∀ f', f.updateBuffer key = .ok f' → f'.inputList = f.inputList ∧ f'.formList = f.formList

/-- No sequence of keys raises, and after every one the labels are treated as labels. -/
def LabelsOnly (slots : List Slot) (f : Form) : Prop :=
  ∀ keys, ∃ f', Runs.run updateBuffer f keys = .ok f' ∧ TreatsLabels slots f'

variable {f f' : Form} {rows : Int} {slots : List Slot} {inputs : Inputs}

/-! ### Labels without `inp_` -/

theorem updateBuffer_formList {key : Key} (h : f.updateBuffer key = .ok f') : f'.formList = f.formList := by
  by_cases hd : key = .navD
  · subst hd
    cases h
    simp only [redisplay, moveDown]
    split_ifs <;> rfl
  by_cases hu : key = .navU
  · subst hu
    cases h
    simp only [redisplay, moveUp]
    split_ifs <;> rfl
  rw [updateBuffer_eq_edit hu hd] at h
  cases hedit : f.edit key with
  | error e =>
      rw [hedit] at h
      cases h
  | ok g =>
      rw [hedit] at h
      cases h
      obtain rfl | ⟨name, d, rfl⟩ := edit_cases hedit
      · rfl
      · rfl

theorem padRow_eq (cols : Int) (text : List Char) :
    ∃ blanks, padRow cols text = text ++ List.replicate blanks ' ' := by
  unfold padRow
  split
  · exact ⟨_, rfl⟩
  · exact ⟨0, by simp⟩

theorem entryCells_texts (f : Form) (name : List Char) (selected : Bool) :
    (f.entryCells name selected).map Prod.fst = f.entryText name := by
  apply List.ext_getElem
  · rw [List.length_map, length_entryCells]
  · intro j _ _
    simp [entryCells]

/-- A form that is ready treats as a label whatever is not taken for an input row. -/
theorem Ready.treatsLabels (h : f.Ready rows) (hlist : f.formList = slots.map Slot.text)
    (hlabels : ∀ text, Slot.label text ∈ slots → isInput text = false) : TreatsLabels slots f := by
  obtain ⟨w, hshows, hrange⟩ := h.shows
  have hentry : ∀ (k : Nat) text, slots[k]? = some (.label text) → f.formList[k]? = some text := by
    intro k text hk
    rw [hlist, List.getElem?_map, hk]
    rfl
  have hplain : ∀ (k : Nat) text, slots[k]? = some (.label text) → isInput text = false := fun k text hk =>
    hlabels text (List.mem_of_getElem? hk)
  refine ⟨fun screen => ⟨_, refresh_eq hshows hrange screen⟩, ?_, ?_⟩
  · intro i k text hi hk hslot
    have hposition : f.menuDisplayPosition = w.top := hshows.panel.position
    have hsize : (w.size : Int) = f.actualRows := hshows.panel.size.trans hshows.actual.symm
    obtain ⟨blanks, hblanks⟩ := padRow_eq f.inputCols text
    refine ⟨_, blanks, drawRow_eq hshows (Int.natCast_nonneg i) (by omega), ?_⟩
    have hname : f.entry (w.top + i) = text := by
      rw [entry, show w.top + i = k by omega, List.getD_eq_getElem?_getD, hentry k text hslot]
      rfl
    rw [rowCells, Int.toNat_natCast, hname, entryCells_texts, entryText, hplain k text hslot]
    exact hblanks
  · intro k text key hcursor hslot hu hd f' hkey
    have hlt : k < f.formList.length := (List.getElem?_eq_some_iff.mp (hentry k text hslot)).1
    have hrow : Py.item f.formList f.menuCursor = .ok text := by
      rw [hcursor, Py.item_of_lt _ hlt, List.get_eq_getElem]
      exact congrArg _ (List.getElem?_eq_some_iff.mp (hentry k text hslot)).2
    rw [updateBuffer_of_label hrow (hplain k text hslot) hu hd] at hkey
    cases hkey
    exact ⟨rfl, rfl⟩

theorem covers_of_labels (hfields : ∀ slot ∈ slots, slot.Backed inputs)
    (hlabels : ∀ text, Slot.label text ∈ slots → isInput text = false) : inputs.Covers (slots.map Slot.text) := by
  intro name hmem hinput
  obtain ⟨slot, hslot, rfl⟩ := List.mem_map.mp hmem
  cases slot with
  | label text =>
      have hplain : isInput text = true := hinput
      rw [hlabels text hslot] at hplain
      cases hplain
  | field name => exact (hfields _ hslot).2

/-- The form an app has just assigned is ready. -/
theorem ready_assign (hrows : 1 ≤ rows) (hf : Reachable rows f) (hne : slots ≠ [])
    (hcovers : inputs.Covers (slots.map Slot.text)) : (f.assign inputs (slots.map Slot.text)).Ready rows := by
  obtain ⟨hfixed, hcols⟩ := hf.fixed
  have hlist : slots.map Slot.text ≠ [] := by simpa using hne
  refine ready_of_start hrows hlist ?_ rfl hcovers rfl hcols
  rw [panel_assign, hfixed]

theorem labelsOnly_of_plain (hrows : 1 ≤ rows) (hf : Reachable rows f) (hne : slots ≠ [])
    (hfields : ∀ slot ∈ slots, slot.Backed inputs)
    (hlabels : ∀ text, Slot.label text ∈ slots → isInput text = false) :
    LabelsOnly slots (f.assign inputs (slots.map Slot.text)) := by
  intro keys
  have hkeeps : ∃ f', Runs.run updateBuffer (f.assign inputs (slots.map Slot.text)) keys = .ok f' ∧
      f'.Ready rows ∧ f'.formList = slots.map Slot.text := by
    induction keys using List.reverseRecOn with
    | nil => exact ⟨_, rfl, ready_assign hrows hf hne (covers_of_labels hfields hlabels), rfl⟩
    | append_singleton keys key ih =>
        obtain ⟨f', hrun, hready, hlist⟩ := ih
        obtain ⟨f'', hkey, hready'⟩ := hready.key key
        exact ⟨f'', by rw [Runs.run_concat_ok hrun, hkey], hready', (updateBuffer_formList hkey).trans hlist⟩
  obtain ⟨f', hrun, hready, hlist⟩ := hkeeps
  exact ⟨f', hrun, hready.treatsLabels hlist hlabels⟩

/-! ### A label with `inp_` -/

/-- Every row can be selected. -/
theorem run_navD (hstart : f.menuCursor = 0) {k : Nat} (hk : k < f.formList.length) :
    ∃ f', Runs.run updateBuffer f (List.replicate k .navD) = .ok f' ∧ f'.menuCursor = k ∧
      f'.formList = f.formList ∧ f'.inputList = f.inputList := by
  induction k with
  | zero => exact ⟨f, rfl, hstart, rfl, rfl⟩
  | succ k ih =>
      obtain ⟨f', hrun, hcursor, hlist, hinputs⟩ := ih (by omega)
      refine ⟨f'.moveDown.redisplay, ?_, ?_⟩
      · rw [List.replicate_succ', Runs.run_concat_ok hrun]
        rfl
      · have hnext : f'.menuCursor + 1 ≠ f'.formList.length := by
          rw [hcursor, hlist]
          omega
        simp only [redisplay, moveDown, if_neg hnext]
        split_ifs <;> exact ⟨by rw [hcursor]; push_cast; rfl, hlist, hinputs⟩

/-- An input row without a field raises on every key that reads it. -/
theorem updateBuffer_of_missing {name : List Char} (hrow : Py.item f.formList f.menuCursor = .ok name)
    (hinput : isInput name = true) (hfield : f.inputList.lookup name = none) :
    f.updateBuffer .navR = .error .keyError := by
  rw [updateBuffer_eq_edit (by decide) (by decide), edit, hrow]
  change ((if isInput name = true then _ else _) >>= _) = _
  rw [if_pos hinput, inputText, Inputs.get, hfield]
  · rfl
  · simp

theorem mem_rstrip {c : Char} (hc : Py.isSpace c = false) {s : List Char} (h : c ∈ s) : c ∈ Py.rstrip s := by
  rw [Py.rstrip, List.rdropWhile, List.mem_reverse]
  rw [← List.mem_reverse, ← List.takeWhile_append_dropWhile (p := Py.isSpace) (l := s.reverse), List.mem_append] at h
  rcases h with h | h
  · rw [List.mem_takeWhile_imp h] at hc
    cases hc
  · exact h

/-- An input row with a field: `AC`, or else a digit, changes it. -/
theorem field_changes {name text : List Char} (h : f.Selects name text) :
    ∃ key, key ≠ .navU ∧ key ≠ .navD ∧ ∃ f', f.updateBuffer key = .ok f' ∧ f'.inputList ≠ f.inputList := by
  have hchanged : ∀ key, key ≠ .navU → key ≠ .navD → ((f.field text).press f.inputCols key).text ≠ text →
      ∃ f', f.updateBuffer key = .ok f' ∧ f'.inputList ≠ f.inputList := by
    intro key hu hd hne
    refine ⟨_, updateBuffer_of_selects h hu hd, fun heq => hne ?_⟩
    have hlookup := (h.edited ((f.field text).press f.inputCols key)).field
    rw [heq, h.field] at hlookup
    exact (Option.some.inj hlookup).symm
  by_cases hblank : text = [' ']
  · refine ⟨.token ['1'], by decide, by decide, hchanged _ (by decide) (by decide) fun heq => ?_⟩
    have hmem : '1' ∈ ((f.field text).press f.inputCols (.token ['1'])).text := by
      apply List.mem_append_left
      apply mem_rstrip (by decide)
      simp [Field.dispatch, Field.type, Field.put]
    rw [heq, hblank] at hmem
    exact absurd hmem (by decide)
  · exact ⟨.ac, by decide, by decide, hchanged _ (by decide) (by decide) fun heq => hblank heq.symm⟩

/-- A label that contains `inp_` is somewhere not treated as a label. -/
theorem plain_of_labelsOnly (h : LabelsOnly slots (f.assign inputs (slots.map Slot.text))) {text : List Char}
    (hmem : Slot.label text ∈ slots) : isInput text = false := by
  by_contra hinput
  rw [Bool.not_eq_false] at hinput
  obtain ⟨k, hk, hslot⟩ := List.mem_iff_getElem.mp hmem
  have hlt : k < (slots.map Slot.text).length := by rwa [List.length_map]
  obtain ⟨g, hrun, hcursor, hlist, -⟩ := run_navD (f := f.assign inputs (slots.map Slot.text)) rfl hlt
  have hgetElem : slots[k]? = some (.label text) := by rw [List.getElem?_eq_getElem hk, hslot]
  have hrow : Py.item g.formList g.menuCursor = .ok text := by
    rw [hcursor, show g.formList = slots.map Slot.text from hlist, Py.item_of_lt _ hlt, List.get_eq_getElem,
      List.getElem_map, hslot]
    rfl
  cases hfield : g.inputList.lookup text with
  | none =>
      obtain ⟨f', hraised, -⟩ := h (List.replicate k .navD ++ [.navR])
      rw [Runs.run_concat_ok hrun, updateBuffer_of_missing hrow hinput hfield] at hraised
      cases hraised
  | some field =>
      obtain ⟨g', hrun', htreats⟩ := h (List.replicate k .navD)
      obtain rfl : g = g' := Except.ok.inj (hrun.symm.trans hrun')
      obtain ⟨key, hu, hd, f', hkey, hne⟩ := field_changes ⟨hrow, hinput, hfield⟩
      exact hne (htreats.inert k text key hcursor hgetElem hu hd f' hkey).1

/-- Whatever the object was used for before, the labels of a form are only labels, for every sequence of keys, exactly
when none of them contains `inp_`. -/
theorem labels_only_iff {rows : Int} (hrows : 1 ≤ rows) {f : Form} (hf : Reachable rows f) {slots : List Slot}
    (hne : slots ≠ []) {inputs : Inputs} (hfields : ∀ slot ∈ slots, slot.Backed inputs) :
    LabelsOnly slots (f.assign inputs (slots.map Slot.text)) ↔
      ∀ text, Slot.label text ∈ slots → isInput text = false :=
  ⟨fun h _ hmem => plain_of_labelsOnly h hmem, labelsOnly_of_plain hrows hf hne hfields⟩

/-- The form of `wifi_connector` for a network name. -/
def wifiForm (ssid : List Char) : List Slot :=
  [.label "Password:".toList, .field "inp_0".toList, .label "Wi-Fi Name:".toList, .label ssid]

def wifiInputs : Inputs := AList.singleton "inp_0".toList " ".toList

def sharedForm : Form := init 7 wifiInputs ["label_0".toList, "inp_0".toList]

theorem labels_only_home :
    LabelsOnly (wifiForm "home".toList)
      (sharedForm.assign wifiInputs ((wifiForm "home".toList).map Slot.text)) := by
  refine (labels_only_iff (show (1 : Int) ≤ 7 by decide) (Reachable.fresh wifiInputs _) (List.cons_ne_nil _ _)
    (by decide +kernel)).mpr ?_
  intro text hmem
  have hall : ∀ slot ∈ wifiForm "home".toList, ∀ text, slot = .label text → isInput text = false := by
    intro slot hslot
    simp only [wifiForm, List.mem_cons, List.not_mem_nil, or_false] at hslot
    rintro text rfl
    rcases hslot with heq | heq | heq | heq <;> cases heq <;> decide +kernel
  exact hall _ hmem text rfl

/-- A network named `inp_guest`: the first redraw of the form raises. A network named `inp_0`: on its row the digit 1
is typed into the password. -/
theorem ssid_not_a_label :
    ((sharedForm.assign wifiInputs ((wifiForm "inp_guest".toList).map Slot.text)).refresh cleared).isOk = false ∧
      ¬ LabelsOnly (wifiForm "inp_guest".toList)
        (sharedForm.assign wifiInputs ((wifiForm "inp_guest".toList).map Slot.text)) ∧
      ((Runs.run updateBuffer (sharedForm.assign wifiInputs ((wifiForm "inp_0".toList).map Slot.text))
        [.navU, .token ['1']]).map fun f => f.inputList.lookup "inp_0".toList) = .ok (some "1 ".toList) ∧
      ¬ LabelsOnly (wifiForm "inp_0".toList)
        (sharedForm.assign wifiInputs ((wifiForm "inp_0".toList).map Slot.text)) := by
  have hguest : isInput "inp_guest".toList = true := by decide +kernel
  have hfield : isInput "inp_0".toList = true := by decide +kernel
  refine ⟨by decide +kernel, fun h => ?_, by decide +kernel, fun h => ?_⟩
  · rw [plain_of_labelsOnly h (by simp [wifiForm])] at hguest
    cases hguest
  · have hmem : Slot.label "inp_0".toList ∈ wifiForm "inp_0".toList := by simp [wifiForm]
    rw [plain_of_labelsOnly h hmem] at hfield
    cases hfield

end CalSci.Form
