import CalSci.FormStep
import CalSci.MenuModel
import CalSci.RowWindow

/-! The rows of `Menu` and `Form`. Both classes keep a cursor into a list and a window of at most
`rows` entries around it, each in its own code; both are shown to move as the same abstract window, in
every sequence of keys and of `update` calls. -/

namespace CalSci

open RowWindow

/-- The attributes that `Menu` and `Form` have in common. -/
structure Panel where
  rows : Int
  list : List (List Char)
  cursor : Int
  position : Int
  size : Int
  displayBuffer : List (List Char)
  displayCursor : Int

def Menu.panel (m : Menu) : Panel :=
  ⟨m.rows, m.menuList, m.menuCursor, m.menuDisplayPosition, m.menuDisplaySize, m.displayBuffer,
    m.displayCursor⟩

def Form.panel (f : Form) : Panel :=
  ⟨f.rows, f.formList, f.menuCursor, f.menuDisplayPosition, f.menuDisplaySize, f.displayBuffer,
    f.displayCursor⟩

def Key.moves (w : Window) : Key → Window
  | .navD => w.down
  | .navU => w.up
  | _ => w

namespace Panel

variable {p : Panel} {rows : Int} {w : Window}

/-- The panel shows the rows of the abstract window `w`. -/
structure Shows (p : Panel) (rows : Int) (w : Window) : Prop where
  rows_eq : p.rows = rows
  len : (w.len : Int) = p.list.length
  size : (w.size : Int) = p.size
  size_eq : p.size = min rows p.list.length
  cursor : p.cursor = w.cursor
  position : p.position = w.top
  buffer : p.displayBuffer = Py.slice p.list p.position (p.position + p.size)
  display : p.displayCursor = p.cursor - p.position

/-- The window lies in the list and holds the cursor, and what is displayed is that part of the list,
with the selected entry at the display cursor. -/
structure Windowed (rows : Int) (p : Panel) : Prop where
  cursor_nonneg : 0 ≤ p.cursor
  cursor_lt : p.cursor < p.list.length
  position_nonneg : 0 ≤ p.position
  position_le : p.position ≤ p.cursor
  cursor_lt_bottom : p.cursor < p.position + min rows p.list.length
  bottom_le : p.position + min rows p.list.length ≤ p.list.length
  buffer : p.displayBuffer = Py.slice p.list p.position (p.position + min rows p.list.length)
  selected : ∃ entry, Py.item p.displayBuffer p.displayCursor = .ok entry ∧
    Py.item p.list p.cursor = .ok entry

/-- Row `i` of the window shows the entry `top + i`. -/
theorem Shows.item_buffer (h : p.Shows rows w) {i : Nat} (hi : i < w.size) :
    ∃ entry, Py.item p.displayBuffer i = .ok entry ∧
      Py.item p.list ((w.top + i : Nat) : Int) = .ok entry := by
  have hlen := h.len
  have hsize := h.size
  have hposition := h.position
  have hbottom := w.bottom_le
  have hslice : p.displayBuffer = (p.list.take (w.top + w.size)).drop w.top := by
    rw [h.buffer, Py.slice_of_nonneg _ (by omega) (by omega)]
    congr 2 <;> omega
  have hlist : w.top + i < p.list.length := by omega
  have hbuffer : i < p.displayBuffer.length := by
    rw [hslice, List.length_drop, List.length_take]
    omega
  refine ⟨p.list.get ⟨w.top + i, hlist⟩, ?_, Py.item_of_lt _ hlist⟩
  rw [Py.item_of_lt _ hbuffer]
  simp only [hslice, List.get_eq_getElem, List.getElem_drop, List.getElem_take]

theorem Shows.displayCursor_eq (h : p.Shows rows w) : p.displayCursor = w.row := by
  have hcursor := h.cursor
  have hposition := h.position
  have htop := w.top_add_row
  rw [h.display]
  omega

theorem Shows.windowed (h : p.Shows rows w) : p.Windowed rows := by
  have hlen := h.len
  have hsize := h.size
  have hcursor := h.cursor
  have hposition := h.position
  have htop := w.top_le
  have hlt := w.cursor_lt
  have hbottom := w.bottom_le
  obtain ⟨entry, hbuffer, hlist⟩ := h.item_buffer w.row_lt
  rw [w.top_add_row, ← hcursor] at hlist
  rw [← h.displayCursor_eq] at hbuffer
  refine ⟨by omega, by omega, by omega, by omega, ?_, ?_, ?_, entry, hbuffer, hlist⟩
  · rw [← h.size_eq]
    omega
  · rw [← h.size_eq]
    omega
  · rw [← h.size_eq]
    exact h.buffer

/-- A row that is not selected before or after shows the same entry when the window has not moved. -/
theorem Shows.row_unchanged {p' : Panel} {w' : Window} (h : p.Shows rows w) (h' : p'.Shows rows w')
    (hlist : p'.list = p.list) (hsize : w'.size = w.size) {i : Nat} (hi : i < w.size)
    (hrow : w'.top = w.top ∧ i ≠ w.row ∧ i ≠ w'.row) :
    Py.item p'.displayBuffer i = Py.item p.displayBuffer i ∧
      ((i : Int) = p'.displayCursor ↔ (i : Int) = p.displayCursor) := by
  obtain ⟨htop, hne, hne'⟩ := hrow
  obtain ⟨entry, hbuffer, hentry⟩ := h.item_buffer hi
  obtain ⟨entry', hbuffer', hentry'⟩ := h'.item_buffer (hsize ▸ hi)
  rw [hlist, htop, hentry] at hentry'
  rw [hbuffer, hbuffer', hentry', h.displayCursor_eq, h'.displayCursor_eq]
  refine ⟨rfl, ?_⟩
  omega

def start (rows : Int) (list : List (List Char)) : Panel :=
  ⟨rows, list, 0, 0, min rows list.length, Py.slice list 0 (0 + min rows list.length), 0 - 0⟩

theorem start_shows {list : List (List Char)} (hrows : 1 ≤ rows) (hlist : list ≠ []) :
    ∃ w, (start rows list).Shows rows w := by
  have hpos := List.length_pos_of_ne_nil hlist
  refine ⟨.start list.length (min rows list.length).toNat (by omega) (by omega), rfl, rfl, ?_, rfl,
    rfl, rfl, rfl, rfl⟩
  change ((min rows list.length).toNat : Int) = min rows list.length
  omega

end Panel

/-! ### Menu -/

namespace Menu

variable {m : Menu} {rows : Int} {w : Window}

theorem moveDown_eq (h : m.panel.Shows rows w) :
    m.moveDown = { m with
      menuCursor := w.down.cursor
      menuDisplayPosition := w.down.top
      refreshRows := (w.downRows.1, w.downRows.2) } := by
  have hcursor : m.menuCursor = w.cursor := h.cursor
  have hposition : m.menuDisplayPosition = w.top := h.position
  have hsize : (w.size : Int) = m.menuDisplaySize := h.size
  have hlen : (w.len : Int) = m.menuList.length := h.len
  have hrow := w.top_add_row
  unfold moveDown
  obtain ⟨hwrap, hc, ht, hr⟩ | ⟨hwrap, hscroll, hc, ht, hr⟩ | ⟨hwrap, hscroll, hc, ht, hr⟩ := w.down_cases
  · rw [if_pos (by omega), hc, ht, hr, hsize]
    rfl
  · rw [if_neg (by omega), if_pos (by omega), hc, ht, hr, hsize, hcursor, hposition]
    rfl
  · rw [if_neg (by omega), if_neg (by omega), hc, ht, hr, hcursor, hposition]
    congr 2 <;> push_cast <;> omega

theorem moveUp_eq (h : m.panel.Shows rows w) :
    m.moveUp = { m with
      menuCursor := w.up.cursor
      menuDisplayPosition := w.up.top
      refreshRows := (w.upRows.1, w.upRows.2) } := by
  have hcursor : m.menuCursor = w.cursor := h.cursor
  have hposition : m.menuDisplayPosition = w.top := h.position
  have hsize : (w.size : Int) = m.menuDisplaySize := h.size
  have hlen : (w.len : Int) = m.menuList.length := h.len
  have hbottom := w.bottom_le
  have hpos := w.cursor_lt_len
  have hrow := w.top_add_row
  unfold moveUp
  obtain ⟨hwrap, hc, ht, hr⟩ | ⟨hwrap, hscroll, hc, ht, hr⟩ | ⟨hwrap, hscroll, hc, ht, hr⟩ := w.up_cases
  · rw [if_pos (by omega), hc, ht, hr, ← hsize]
    congr 1 <;> omega
  · rw [if_neg (by omega), if_pos (by omega), hc, ht, hr, ← hsize, hcursor, hposition]
    congr 1 <;> omega
  · rw [if_neg (by omega), if_neg (by omega), hc, ht, hr, hcursor, hposition]
    congr 2 <;> omega

theorem shows_redisplay (hrows : m.rows = rows) (hsize : m.menuDisplaySize = min rows m.menuList.length)
    (hlen : (w.len : Int) = m.menuList.length) (hw : (w.size : Int) = m.menuDisplaySize)
    (hcursor : m.menuCursor = w.cursor) (hposition : m.menuDisplayPosition = w.top) :
    m.redisplay.panel.Shows rows w :=
  ⟨hrows, hlen, hw, hsize, hcursor, hposition, rfl, rfl⟩

theorem redisplay_eq (h : m.panel.Shows rows w) : m.redisplay = m := by
  have hbuffer : m.displayBuffer = Py.slice m.menuList m.menuDisplayPosition
      (m.menuDisplayPosition + m.menuDisplaySize) := h.buffer
  have hdisplay : m.displayCursor = m.menuCursor - m.menuDisplayPosition := h.display
  rw [redisplay, ← hbuffer, ← hdisplay]

/-- One key moves the window of a menu as the abstract one. -/
theorem updateBuffer_shows (h : m.panel.Shows rows w) (key : Key) :
    (m.updateBuffer key).panel.Shows rows (key.moves w) := by
  cases key with
  | navD =>
      rw [updateBuffer, moveDown_eq h]
      exact shows_redisplay h.rows_eq h.size_eq h.len h.size rfl rfl
  | navU =>
      rw [updateBuffer, moveUp_eq h]
      exact shows_redisplay h.rows_eq h.size_eq h.len h.size rfl rfl
  | navL | navR | navB | ac | token =>
      rw [updateBuffer, redisplay_eq h]
      · exact h
      all_goals nofun

/-- After a key, the rows of the window outside `refresh_rows` have the same text and the same
highlight as before it. -/
theorem updateBuffer_outside (h : m.panel.Shows rows w) (key : Key) {i : Int} (h0 : 0 ≤ i)
    (hi : i < m.menuDisplaySize)
    (hout : i < (m.updateBuffer key).refreshRows.1 ∨ (m.updateBuffer key).refreshRows.2 ≤ i) :
    Py.item (m.updateBuffer key).displayBuffer i = Py.item m.displayBuffer i ∧
      (i = (m.updateBuffer key).displayCursor ↔ i = m.displayCursor) := by
  have hsize : (w.size : Int) = m.menuDisplaySize := h.size
  obtain ⟨n, rfl⟩ := Int.eq_ofNat_of_zero_le h0
  have hn : n < w.size := by omega
  have h' := updateBuffer_shows h key
  cases key with
  | navD =>
      have hrows : (m.updateBuffer .navD).refreshRows = ((w.downRows.1 : Int), (w.downRows.2 : Int)) := by
        rw [updateBuffer, moveDown_eq h]
        rfl
      have hlist : (m.updateBuffer .navD).menuList = m.menuList := by
        rw [updateBuffer, moveDown_eq h]
        rfl
      rw [hrows] at hout
      exact h.row_unchanged h' hlist rfl hn (Window.down_outside hn (by omega))
  | navU =>
      have hrows : (m.updateBuffer .navU).refreshRows = ((w.upRows.1 : Int), (w.upRows.2 : Int)) := by
        rw [updateBuffer, moveUp_eq h]
        rfl
      have hlist : (m.updateBuffer .navU).menuList = m.menuList := by
        rw [updateBuffer, moveUp_eq h]
        rfl
      rw [hrows] at hout
      exact h.row_unchanged h' hlist rfl hn (Window.up_outside hn (by omega))
  | navL | navR | navB | ac | token =>
      rw [updateBuffer, redisplay_eq h]
      · exact ⟨rfl, Iff.rfl⟩
      all_goals nofun

end Menu

/-! ### Form -/

/-- Every input row of the list has a field. -/
def Inputs.Covers (inputs : Inputs) (list : List (List Char)) : Prop :=
  ∀ name ∈ list, isInput name = true → name ∈ inputs

instance (inputs : Inputs) (list : List (List Char)) : Decidable (inputs.Covers list) :=
  inferInstanceAs (Decidable (∀ name ∈ list, isInput name = true → name ∈ inputs.keys))

namespace Form

variable {f : Form} {rows : Int} {w : Window}

/-- The form shows the rows of the abstract window `w`, and its input rows have fields. -/
structure Shows (f : Form) (rows : Int) (w : Window) : Prop where
  panel : f.panel.Shows rows w
  actual : f.actualRows = f.menuDisplaySize
  covers : f.inputList.Covers f.formList

theorem moveDown_eq (h : f.Shows rows w) :
    f.moveDown = { f with
      menuCursor := w.down.cursor
      menuDisplayPosition := w.down.top
      refreshRows := (w.downRows.1, w.downRows.2)
      inputCursor := 0
      inputDisplayPosition := 0 } := by
  have hcursor : f.menuCursor = w.cursor := h.panel.cursor
  have hposition : f.menuDisplayPosition = w.top := h.panel.position
  have hsize : (w.size : Int) = f.actualRows := h.panel.size.trans h.actual.symm
  have hlen : (w.len : Int) = f.formList.length := h.panel.len
  have hrow := w.top_add_row
  simp only [moveDown]
  obtain ⟨hwrap, hc, ht, hr⟩ | ⟨hwrap, hscroll, hc, ht, hr⟩ | ⟨hwrap, hscroll, hc, ht, hr⟩ := w.down_cases
  · rw [if_pos (by omega), hc, ht, hr, hsize]
    rfl
  · rw [if_neg (by omega), if_pos (by omega), hc, ht, hr, hsize, hcursor, hposition]
    rfl
  · rw [if_neg (by omega), if_neg (by omega), hc, ht, hr, hcursor, hposition]
    dsimp only
    congr 2 <;> push_cast <;> omega

theorem moveUp_eq (h : f.Shows rows w) :
    f.moveUp = { f with
      menuCursor := w.up.cursor
      menuDisplayPosition := w.up.top
      refreshRows := (w.upRows.1, w.upRows.2)
      inputCursor := 0
      inputDisplayPosition := 0 } := by
  have hcursor : f.menuCursor = w.cursor := h.panel.cursor
  have hposition : f.menuDisplayPosition = w.top := h.panel.position
  have hsize : (w.size : Int) = f.actualRows := h.panel.size.trans h.actual.symm
  have hlen : (w.len : Int) = f.formList.length := h.panel.len
  have hbottom := w.bottom_le
  have hpos := w.cursor_lt_len
  have hrow := w.top_add_row
  simp only [moveUp]
  obtain ⟨hwrap, hc, ht, hr⟩ | ⟨hwrap, hscroll, hc, ht, hr⟩ | ⟨hwrap, hscroll, hc, ht, hr⟩ := w.up_cases
  · rw [if_pos (by omega), hc, ht, hr, ← hsize]
    dsimp only
    congr 1 <;> omega
  · rw [if_neg (by omega), if_pos (by omega), hc, ht, hr, ← hsize, hcursor, hposition]
    dsimp only
    congr 1 <;> omega
  · rw [if_neg (by omega), if_neg (by omega), hc, ht, hr, hcursor, hposition]
    dsimp only
    congr 2 <;> omega

theorem redisplay_eq (h : f.panel.Shows rows w) : f.redisplay = f := by
  have hbuffer : f.displayBuffer = Py.slice f.formList f.menuDisplayPosition
      (f.menuDisplayPosition + f.menuDisplaySize) := h.buffer
  have hdisplay : f.displayCursor = f.menuCursor - f.menuDisplayPosition := h.display
  rw [redisplay, ← hbuffer, ← hdisplay]

/-- The selected row is an input row with a field, or a label. -/
theorem Shows.selected (h : f.Shows rows w) : (∃ name text, f.Selects name text) ∨
    ∃ name, Py.item f.formList f.menuCursor = .ok name ∧ isInput name = false := by
  have hlen : (w.len : Int) = f.formList.length := h.panel.len
  have hcursor : f.menuCursor = w.cursor := h.panel.cursor
  have hlt : w.cursor < f.formList.length := by
    have := w.cursor_lt_len
    omega
  have hrow := Py.item_of_lt f.formList hlt
  rw [← hcursor] at hrow
  cases hinput : isInput (f.formList.get ⟨w.cursor, hlt⟩) with
  | false => exact .inr ⟨_, hrow, hinput⟩
  | true =>
      have hmem := h.covers _ (List.get_mem _ _) hinput
      obtain ⟨text, htext⟩ := Option.isSome_iff_exists.mp (AList.lookup_isSome.mpr hmem)
      exact .inl ⟨_, text, hrow, hinput, htext⟩

theorem updateBuffer_label (h : f.Shows rows w) {name : List Char} {key : Key}
    (hrow : Py.item f.formList f.menuCursor = .ok name) (hlabel : isInput name = false)
    (hu : key ≠ .navU) (hd : key ≠ .navD) : f.updateBuffer key = .ok f := by
  rw [updateBuffer_of_label hrow hlabel hu hd, redisplay_eq h.panel]

/-- A key other than `nav_u` and `nav_d` returns, and leaves the window where it is. -/
theorem updateBuffer_stays (h : f.Shows rows w) {key : Key} (hu : key ≠ .navU) (hd : key ≠ .navD) :
    ∃ f', f.updateBuffer key = .ok f' ∧ f'.Shows rows w := by
  have hp := h.panel
  obtain ⟨name, text, hsel⟩ | ⟨name, hrow, hlabel⟩ := h.selected
  · refine ⟨_, updateBuffer_of_selects hsel hu hd,
      ⟨hp.rows_eq, hp.len, hp.size, hp.size_eq, hp.cursor, hp.position, rfl, rfl⟩, h.actual, ?_⟩
    intro other hmem hinput
    exact (AList.mem_insert _).mpr (.inr (h.covers other hmem hinput))
  · exact ⟨f, updateBuffer_label h hrow hlabel hu hd, h⟩

/-- One key returns, and moves the window of a form as the abstract one. -/
theorem updateBuffer_shows (h : f.Shows rows w) (key : Key) :
    ∃ f', f.updateBuffer key = .ok f' ∧ f'.Shows rows (key.moves w) := by
  have hp := h.panel
  cases key with
  | navD =>
      rw [updateBuffer, moveDown_eq h]
      exact ⟨_, rfl, ⟨hp.rows_eq, hp.len, hp.size, hp.size_eq, rfl, rfl, rfl, rfl⟩, h.actual, h.covers⟩
  | navU =>
      rw [updateBuffer, moveUp_eq h]
      exact ⟨_, rfl, ⟨hp.rows_eq, hp.len, hp.size, hp.size_eq, rfl, rfl, rfl, rfl⟩, h.actual, h.covers⟩
  | navL | navR | navB | ac | token => exact updateBuffer_stays h nofun nofun

/-- `actual_rows` is the size of a menu's window. -/
theorem actualRows_eq (rows : Int) (list : List (List Char)) :
    (if (list.length : Int) ≥ rows then rows else list.length) = min rows list.length := by
  split_ifs with h
  · rw [min_eq_left h]
  · rw [min_eq_right (by omega)]

theorem panel_init (rows : Int) (inputs : Inputs) (list : List (List Char)) :
    (init rows inputs list).panel = .start rows list := by
  simp only [panel, init, actualRows_eq]
  rfl

theorem panel_assign (inputs : Inputs) (list : List (List Char)) :
    (f.assign inputs list).panel = .start f.rows list := by
  simp only [panel, assign, update, actualRows_eq]
  rfl

end Form

/-! ### Sequences of keys and updates -/

/-- What an app does with the shared panel: a key, or another list followed by `update()`. -/
inductive PanelOp where
  | key (key : Key)
  | assign (list : List (List Char)) (inputs : Inputs)

def PanelOp.NonEmpty : PanelOp → Prop
  | .key _ => True
  | .assign list _ => list ≠ []

instance : (op : PanelOp) → Decidable op.NonEmpty
  | .key _ => inferInstanceAs (Decidable True)
  | .assign list _ => inferInstanceAs (Decidable (list ≠ []))

/-- The new list's input rows have fields. -/
def PanelOp.Covered : PanelOp → Prop
  | .key _ => True
  | .assign list inputs => inputs.Covers list

instance : (op : PanelOp) → Decidable op.Covered
  | .key _ => inferInstanceAs (Decidable True)
  | .assign list inputs => inferInstanceAs (Decidable (inputs.Covers list))

def Menu.apply (m : Menu) : PanelOp → Menu
  | .key key => m.updateBuffer key
  | .assign list _ => update { m with menuList := list }

def Form.apply (f : Form) : PanelOp → Except Py.Err Form
  | .key key => f.updateBuffer key
  | .assign list inputs => .ok (f.assign inputs list)

theorem Menu.panel_assign (m : Menu) (list : List (List Char)) (inputs : Inputs) :
    (m.apply (.assign list inputs)).panel = .start m.rows list := rfl

/-- After any such sequence the menu and the form show the same abstract window. -/
theorem panels_show {rows : Int} (hrows : 1 ≤ rows) {list : List (List Char)} (hlist : list ≠ [])
    (cols : Int) (inputs : Inputs) {ops : List PanelOp} (hops : ∀ op ∈ ops, op.NonEmpty) :
    ∃ w, (ops.foldl Menu.apply (Menu.init rows cols list)).panel.Shows rows w ∧
      (inputs.Covers list → (∀ op ∈ ops, op.Covered) →
        ∃ form, Runs.run Form.apply (Form.init rows inputs list) ops = .ok form ∧
          form.Shows rows w) := by
  induction ops using List.reverseRecOn with
  | nil =>
      obtain ⟨w, hw⟩ := Panel.start_shows hrows hlist
      refine ⟨w, hw, fun hcovers _ => ⟨_, rfl, ?_, rfl, hcovers⟩⟩
      rw [Form.panel_init]
      exact hw
  | append_singleton ops op ih =>
      obtain ⟨w, hmenu, hform⟩ := ih fun op' hmem => hops op' (List.mem_append_left _ hmem)
      rw [List.foldl_append, List.foldl_cons, List.foldl_nil]
      cases op with
      | key key =>
          refine ⟨key.moves w, Menu.updateBuffer_shows hmenu key, fun hcovers hcovered => ?_⟩
          obtain ⟨form, hrun, hshows⟩ := hform hcovers fun op' hmem =>
            hcovered op' (List.mem_append_left _ hmem)
          rw [Runs.run_concat_ok hrun]
          exact Form.updateBuffer_shows hshows key
      | assign new fields =>
          -- both objects start again, whatever their windows were
          obtain ⟨w', hw'⟩ := Panel.start_shows hrows (hops (.assign new fields) (by simp))
          refine ⟨w', ?_, fun hcovers hcovered => ?_⟩
          · rw [Menu.panel_assign, show Menu.rows _ = rows from hmenu.rows_eq]
            exact hw'
          · obtain ⟨form, hrun, hshows⟩ := hform hcovers fun op' hmem =>
              hcovered op' (List.mem_append_left _ hmem)
            rw [Runs.run_concat_ok hrun]
            refine ⟨_, rfl, ?_, rfl, hcovered (.assign new fields) (by simp)⟩
            rw [Form.panel_assign, show form.rows = rows from hshows.panel.rows_eq]
            exact hw'

/-- The rows of menus and forms: after every sequence of keys and updates the window is in the list and
holds the cursor, the same for a menu and a form, and a key changes no row of a menu outside
`refresh_rows`. -/
theorem panel_rows_windowed {rows : Int} (hrows : 1 ≤ rows) {list : List (List Char)}
    (hlist : list ≠ []) (cols : Int) (inputs : Inputs) {ops : List PanelOp}
    (hops : ∀ op ∈ ops, op.NonEmpty) :
    (ops.foldl Menu.apply (Menu.init rows cols list)).panel.Windowed rows ∧
    (∀ key i, 0 ≤ i → i < (ops.foldl Menu.apply (Menu.init rows cols list)).menuDisplaySize →
      let before := ops.foldl Menu.apply (Menu.init rows cols list)
      let after := before.updateBuffer key
      i < after.refreshRows.1 ∨ after.refreshRows.2 ≤ i →
        Py.item after.displayBuffer i = Py.item before.displayBuffer i ∧
          (i = after.displayCursor ↔ i = before.displayCursor)) ∧
    (inputs.Covers list → (∀ op ∈ ops, op.Covered) →
      ∃ form, Runs.run Form.apply (Form.init rows inputs list) ops = .ok form ∧
        form.panel.Windowed rows ∧
        form.menuCursor = (ops.foldl Menu.apply (Menu.init rows cols list)).menuCursor ∧
        form.menuDisplayPosition =
          (ops.foldl Menu.apply (Menu.init rows cols list)).menuDisplayPosition) := by
  obtain ⟨w, hmenu, hform⟩ := panels_show hrows hlist cols inputs hops
  refine ⟨hmenu.windowed, fun key i h0 hi hout => Menu.updateBuffer_outside hmenu key h0 hi hout,
    fun hcovers hcovered => ?_⟩
  obtain ⟨form, hrun, hshows⟩ := hform hcovers hcovered
  refine ⟨form, hrun, hshows.panel.windowed, ?_, ?_⟩
  · exact hshows.panel.cursor.trans hmenu.cursor.symm
  · exact hshows.panel.position.trans hmenu.position.symm

/-- Three rows of a list of four entries with a field, left by a step up from the first entry, then a
list with only labels. -/
theorem panel_rows_windowed_short :
    let list := ["a".toList, "inp_0".toList, "b".toList, "c".toList]
    let inputs : Inputs := AList.singleton "inp_0".toList " ".toList
    let ops := [PanelOp.key .navU, .assign ["d".toList] ∅, .key .navD]
    ((ops.foldl Menu.apply (Menu.init 3 21 list)).panel.Windowed 3) ∧
      ∃ form, Runs.run Form.apply (Form.init 3 inputs list) ops = .ok form ∧
        form.panel.Windowed 3 := by
  intro list inputs ops
  have hops : ∀ op ∈ ops, op.NonEmpty := by decide +kernel
  have hcovers : inputs.Covers list := by decide +kernel
  have hcovered : ∀ op ∈ ops, op.Covered := by decide +kernel
  obtain ⟨hmenu, -, hform⟩ := panel_rows_windowed (show (1 : Int) ≤ 3 by decide)
    (show list ≠ [] from List.cons_ne_nil _ _) 21 inputs hops
  obtain ⟨form, hrun, hwindowed, -⟩ := hform hcovers hcovered
  exact ⟨hmenu, form, hrun, hwindowed⟩

end CalSci
