import CalSci.MenuRedraw
import CalSci.WifiModel

/-! Choosing a network in `wifi_app`. The name is read at the row of the selected entry on the screen, not
at its place in the list: it is the selected one while the window stands at the start of the list. A name that is not
UTF-8 ends the scan with an exception; an empty scan makes `ok` raise, and `nav_d` when it leaves the first row. What is
chosen in the end is read off the keys with a plain window over the scan. -/

namespace CalSci.Wifi

open RowWindow Runs

/-! ### Labels -/

theorem length_toString_succ {i : Nat} (hi : i < 9) : (toString (i + 1)).toList.length = 1 := by
  have hall : ∀ j : Fin 9, (toString (j.val + 1)).toList.length = 1 := by decide +kernel
  exact hall ⟨i, hi⟩

/-- The label of one of the first nine entries without its first three characters is the name. -/
theorem sliceFrom_label {i : Nat} (hi : i < 9) (ssid : List Char) :
    Py.sliceFrom ((toString (i + 1)).toList ++ ". ".toList ++ ssid) 3 = ssid := by
  rw [Py.sliceFrom_of_nonneg _ (by omega)]
  have hlen : ((toString (i + 1)).toList ++ ". ".toList).length = 3 := by
    rw [List.length_append, length_toString_succ hi]
    rfl
  change List.drop 3 _ = ssid
  rw [← hlen, List.drop_left]

theorem length_labels (scan : List (List Char)) : (labels scan).length = scan.length := by
  rw [labels, List.length_mapIdx]

theorem item_labels {scan : List (List Char)} {i : Nat} (hi : i < scan.length) :
    Py.item (labels scan) (i : Int) =
      .ok ((toString (i + 1)).toList ++ ". ".toList ++ scan.get ⟨i, hi⟩) := by
  have hlen : i < (labels scan).length := by
    rw [length_labels]
    exact hi
  rw [Py.item_of_lt _ hlen]
  simp only [labels, List.get_eq_getElem, List.getElem_mapIdx]

/-- At most 15 networks are shown. -/
theorem length_menuList (names : List (List Char)) :
    (Choosing.menuList names).length = min 15 names.length := by
  unfold Choosing.menuList
  split_ifs
  · rw [Py.sliceTo_of_nonneg _ (by omega), List.length_take]
    rfl
  · omega

/-! ### The states of a session -/

/-- The menu of an empty list: the cursor is at 0, or at -1 after `nav_u`. -/
structure EmptyMenu (m : Menu) : Prop where
  list : m.menuList = []
  size : m.menuDisplaySize = 0
  position : m.menuDisplayPosition = 0
  cursor : m.menuCursor = 0 ∨ m.menuCursor = -1
  rows : m.refreshRows = (0, 0)

/-- The menu shows the names of the scan, at most 15 of them. -/
structure ScanMenu (scan : List (List Char)) (m : Menu) (w : Window) : Prop where
  drawable : m.Drawable 7 w
  list : m.menuList = Choosing.menuList (labels scan)

/-- The name that was chosen is that of the selected entry. -/
def PicksSelected (scan : List (List Char)) (s : Choosing) : Prop :=
  ∀ ssid, s.choice = some (.chosen ssid) → Py.item scan s.pane.1.menuCursor = .ok ssid

/-- What holds of a session as long as the right network is chosen. -/
structure ChoosingInv (scan : List (List Char)) (s : Choosing) : Prop where
  names : s.networkNames = labels scan
  empty : scan = [] → s.choice = none → EmptyMenu s.pane.1
  shows : scan ≠ [] → s.choice = none → ∃ w, ScanMenu scan s.pane.1 w
  picks : PicksSelected scan s

/-- The next key does not raise on an empty list, and `ok` finds the selected name in the row of the
screen. -/
def RowIsSelected (scan : List (List Char)) (s : Choosing) (inp : List Char) : Prop :=
  s.choice = none →
    (scan = [] → inp ≠ "ok".toList ∧ (inp = "nav_d".toList → s.pane.1.menuCursor ≠ 0)) ∧
    (scan ≠ [] → inp = "ok".toList →
      Py.item scan s.pane.1.displayCursor = Py.item scan s.pane.1.menuCursor)

/-! ### The empty list -/

namespace EmptyMenu

variable {m : Menu}

/-- The menu after a key, from what the key makes of the cursor. -/
theorem redisplay (h : EmptyMenu m) {cursor : Int} (hcursor : cursor = 0 ∨ cursor = -1) :
    EmptyMenu (Menu.redisplay
      { m with menuCursor := cursor, menuDisplayPosition := 0, refreshRows := (0, 0) }) :=
  ⟨h.list, h.size, rfl, hcursor, rfl⟩

theorem updateBuffer (h : EmptyMenu m) (key : Key) (hkey : key = .navD → m.menuCursor ≠ 0) :
    EmptyMenu (m.updateBuffer key) := by
  have hlist := h.list
  have hsize := h.size
  have hlen : (m.menuList.length : Int) = 0 := by rw [hlist]; rfl
  have hstays : EmptyMenu m.redisplay := ⟨hlist, hsize, h.position, h.cursor, h.rows⟩
  cases key with
  | navD =>
      have hcursor : m.menuCursor = -1 := h.cursor.resolve_left (hkey rfl)
      have hmove : m.moveDown = { m with
          menuCursor := 0, menuDisplayPosition := 0, refreshRows := (0, 0) } := by
        unfold Menu.moveDown
        rw [if_pos (by omega), hsize]
      rw [Menu.updateBuffer, hmove]
      exact h.redisplay (.inl rfl)
  | navU =>
      have hmove : m.moveUp = { m with
          menuCursor := -1, menuDisplayPosition := 0, refreshRows := (0, 0) } := by
        unfold Menu.moveUp
        rw [if_pos (by have := h.cursor; omega), hlen, hsize]
        rfl
      rw [Menu.updateBuffer, hmove]
      exact h.redisplay (.inr rfl)
  | navL | navR | navB | ac | token => exact hstays

theorem refresh (h : EmptyMenu m) (screen : RowScreen.Screen (Char × Bool)) :
    m.refresh screen = .ok screen := by
  rw [Menu.refresh, h.rows]
  rfl

theorem press {p : MenuPane} (h : EmptyMenu p.1) (key : Key)
    (hkey : key = .navD → p.1.menuCursor ≠ 0) : ∃ p', p.press key = .ok p' ∧ EmptyMenu p'.1 := by
  refine ⟨(p.1.updateBuffer key, p.2), ?_, h.updateBuffer key hkey⟩
  rw [MenuPane.press, (h.updateBuffer key hkey).refresh]
  rfl

/-- From the first row `nav_d` asks for two rows of a list that has none. -/
theorem press_raises {p : MenuPane} (h : EmptyMenu p.1) (hcursor : p.1.menuCursor = 0) :
    p.press .navD = .error .indexError := by
  have hlen : (p.1.menuList.length : Int) = 0 := by rw [h.list]; rfl
  have hsize := h.size
  have hposition := h.position
  have hmove : p.1.moveDown =
      { p.1 with menuCursor := 1, menuDisplayPosition := 0, refreshRows := (0, 2) } := by
    unfold Menu.moveDown
    rw [if_neg (by omega), if_neg (by omega), hcursor, hposition]
    rfl
  have hbuffer : (p.1.updateBuffer .navD).displayBuffer = [] := by
    rw [Menu.updateBuffer, hmove]
    change Py.slice p.1.menuList _ _ = []
    rw [h.list, Py.slice, List.take_nil, List.drop_nil]
  have hrows : (p.1.updateBuffer .navD).refreshRows = (0, 2) := by
    rw [Menu.updateBuffer, hmove]
    rfl
  have hdraw : (p.1.updateBuffer .navD).drawRow 0 = .error .indexError := by
    rw [Menu.drawRow, hbuffer]
    rfl
  have hrefresh : (p.1.updateBuffer .navD).refresh p.2 = .error .indexError := by
    rw [Menu.refresh, hrows]
    change (RowScreen.paintRow _ p.2 0 >>= _) = _
    rw [RowScreen.paintRow, hdraw]
    rfl
  rw [MenuPane.press, hrefresh]
  rfl

end EmptyMenu

/-! ### A list that is not empty -/

theorem menuList_updateBuffer (m : Menu) (key : Key) : (m.updateBuffer key).menuList = m.menuList := by
  cases key with
  | navD =>
      change m.moveDown.menuList = m.menuList
      simp only [Menu.moveDown]
      split_ifs <;> rfl
  | navU =>
      change m.moveUp.menuList = m.menuList
      simp only [Menu.moveUp]
      split_ifs <;> rfl
  | navL | navR | navB | ac | token => rfl

namespace ScanMenu

variable {scan : List (List Char)} {m : Menu} {w : Window}

theorem updateBuffer (h : ScanMenu scan m w) (key : Key) :
    ScanMenu scan (m.updateBuffer key) (key.moves w) :=
  ⟨h.drawable.updateBuffer key, (menuList_updateBuffer m key).trans h.list⟩

theorem press {p : MenuPane} (h : ScanMenu scan p.1 w) (key : Key) :
    ∃ p', p.press key = .ok p' ∧ ScanMenu scan p'.1 (key.moves w) := by
  obtain ⟨p', hpress, heq, hdrawable⟩ := MenuPane.press_drawable h.drawable key
  exact ⟨p', hpress, hdrawable, by rw [heq, menuList_updateBuffer, h.list]⟩

/-- The selected entry is one of the scan, and its row one of the first seven. -/
theorem bounds (h : ScanMenu scan m w) :
    w.cursor < scan.length ∧ w.row < scan.length ∧ w.row < 7 := by
  have hlen : (w.len : Int) = m.menuList.length := h.drawable.shows.len
  have hsize : (w.size : Int) = min 7 (m.menuList.length : Int) :=
    h.drawable.shows.size.trans h.drawable.shows.size_eq
  have hlist := length_menuList (labels scan)
  rw [h.list] at hlen hsize
  rw [length_labels] at hlist
  have hcursor := w.cursor_lt_len
  have hrow := w.row_lt
  omega

theorem displayCursor_eq (h : ScanMenu scan m w) : m.displayCursor = w.row :=
  h.drawable.shows.displayCursor_eq

/-- `ok` takes the name in the row of the screen. -/
theorem item_row (h : ScanMenu scan m w) : ∃ ssid, scan[w.row]? = some ssid ∧
    Py.item scan m.displayCursor = .ok ssid ∧
    ∃ name, Py.item (labels scan) m.displayCursor = .ok name ∧ Py.sliceFrom name 3 = ssid := by
  obtain ⟨-, hrow, hseven⟩ := h.bounds
  rw [h.displayCursor_eq]
  exact ⟨_, List.getElem?_eq_getElem hrow, Py.item_of_lt scan hrow, _, item_labels hrow,
    sliceFrom_label (by omega) _⟩

/-- The end of the loop body moves the window by the key. -/
theorem redraw {s : Choosing} (h : ScanMenu scan s.pane.1 w) (inp : List Char) :
    ∃ pane, s.redraw inp = .ok { s with pane } ∧ ScanMenu scan pane.1 ((Key.ofText inp).moves w) := by
  obtain ⟨pane, hpress, hshows⟩ := h.press (Key.ofText inp)
  refine ⟨pane, ?_, hshows⟩
  rw [Choosing.redraw, hpress]
  rfl

end ScanMenu

/-! ### One key -/

theorem ofText_eq_navD {inp : List Char} (h : Key.ofText inp = .navD) : inp = "nav_d".toList := by
  by_contra hne
  unfold Key.ofText at h
  rw [if_neg hne] at h
  split_ifs at h

variable {scan : List (List Char)} {s : Choosing}

/-- The end of the loop body, on a list that is not empty or away from the failing key. -/
theorem ChoosingInv.redraw (h : ChoosingInv scan s) (hchoice : s.choice = none) (inp : List Char)
    (hkey : scan = [] → inp = "nav_d".toList → s.pane.1.menuCursor ≠ 0) :
    ∃ s', s.redraw inp = .ok s' ∧ ChoosingInv scan s' := by
  by_cases hscan : scan = []
  · obtain ⟨pane, hpress, hempty⟩ := (h.empty hscan hchoice).press (Key.ofText inp)
      fun hnavD => hkey hscan (ofText_eq_navD hnavD)
    refine ⟨{ s with pane }, ?_, h.names, fun _ _ => hempty, fun hne => absurd hscan hne, ?_⟩
    · rw [Choosing.redraw, hpress]
      rfl
    · intro ssid hchosen
      rw [show s.choice = none from hchoice] at hchosen
      cases hchosen
  · obtain ⟨w, hw⟩ := h.shows hscan hchoice
    obtain ⟨pane, hredraw, hshows⟩ := hw.redraw inp
    refine ⟨_, hredraw, h.names, fun heq => absurd heq hscan, fun _ _ => ⟨_, hshows⟩, ?_⟩
    intro ssid hchosen
    rw [show s.choice = none from hchoice] at hchosen
    cases hchosen

/-- Leaving without a choice. -/
theorem ChoosingInv.close (h : ChoosingInv scan s) {choice : Choice}
    (hchoice : ∀ ssid, choice ≠ .chosen ssid) : ChoosingInv scan { s with choice := some choice } := by
  refine ⟨h.names, nofun, nofun, fun ssid hchosen => ?_⟩
  exact absurd (Option.some.inj hchosen) (hchoice ssid)

/-- A key that meets the condition returns, and chooses the selected network if it chooses one. -/
theorem ChoosingInv.step (h : ChoosingInv scan s) {inp : List Char} (hrow : RowIsSelected scan s inp) :
    ∃ s', s.step inp = .ok s' ∧ ChoosingInv scan s' := by
  unfold Choosing.step
  by_cases hover : s.choice.isSome = true
  · rw [if_pos hover]
    exact ⟨s, rfl, h⟩
  · rw [if_neg hover]
    have hchoice : s.choice = none := Option.not_isSome_iff_eq_none.mp hover
    obtain ⟨hempty, hselected⟩ := hrow hchoice
    split_ifs with hok hback hmode hoff
    · have hscan : scan ≠ [] := fun hnil => (hempty hnil).1 hok
      obtain ⟨w, hw⟩ := h.shows hscan hchoice
      obtain ⟨ssid, -, hssid, name, hname, hslice⟩ := hw.item_row
      rw [h.names, hname]
      refine ⟨_, rfl, rfl, nofun, nofun, fun ssid' hchosen => ?_⟩
      cases Choice.chosen.inj (Option.some.inj hchosen)
      rw [hslice, ← hssid]
      exact (hselected hscan hok).symm
    · exact ⟨_, rfl, h.close nofun⟩
    · have hmoved : ChoosingInv scan
          { s with pane := (s.pane.1.updateBuffer (Key.ofText []), s.pane.2) } := by
        refine ⟨h.names, fun hnil _ => ?_, fun hne _ => ?_, fun ssid hchosen => ?_⟩
        · exact (h.empty hnil hchoice).updateBuffer (Key.ofText []) nofun
        · obtain ⟨w, hw⟩ := h.shows hne hchoice
          exact ⟨_, hw.updateBuffer (Key.ofText [])⟩
        · rw [show s.choice = none from hchoice] at hchosen
          cases hchosen
      apply hmoved.redraw hchoice inp
      intro _ hnavD
      rw [hnavD] at hmode
      exact absurd hmode (by decide)
    · exact ⟨_, rfl, h.close nofun⟩
    · exact h.redraw hchoice inp fun hnil hnavD => (hempty hnil).2 hnavD

/-- A key that fails the condition raises, or chooses another network. -/
theorem ChoosingInv.step_wrong (h : ChoosingInv scan s) {inp : List Char}
    (hrow : ¬ RowIsSelected scan s inp) {s' : Choosing} (hstep : s.step inp = .ok s') :
    ¬ PicksSelected scan s' := by
  intro hpicks
  apply hrow
  intro hchoice
  unfold Choosing.step at hstep
  rw [hchoice, if_neg (by simp)] at hstep
  refine ⟨fun hscan => ?_, fun hscan hok => ?_⟩
  · have hempty := h.empty hscan hchoice
    refine ⟨fun hok => ?_, fun hnavD hcursor => ?_⟩
    · rw [if_pos hok, h.names, hscan, show labels [] = [] from rfl, Py.item_nil] at hstep
      cases hstep
    · subst hnavD
      rw [if_neg (by decide), if_neg (by decide), if_neg (by decide), if_neg (by decide)] at hstep
      rw [Choosing.redraw, show Key.ofText "nav_d".toList = .navD from by decide,
        hempty.press_raises hcursor] at hstep
      cases hstep
  · obtain ⟨w, hw⟩ := h.shows hscan hchoice
    obtain ⟨ssid, -, hssid, name, hname, hslice⟩ := hw.item_row
    rw [if_pos hok, h.names, hname] at hstep
    cases hstep
    have hpicked := hpicks _ rfl
    rw [hslice] at hpicked
    rw [hssid, ← hpicked]

/-! ### Sessions -/

/-- The rows of a scan as they are shown first: seven at most, with the first entry selected. -/
def scanWindow (scan : List (List Char)) (h : scan ≠ []) : Window :=
  have hpos := List.length_pos_of_ne_nil h
  .start (min 15 scan.length) (min 7 scan.length) (by omega) (by omega)

variable {chars : List UInt8 → List Char} {bytes : List (List UInt8)}

theorem scanNetworks_of_utf8 (h : ∀ ssid ∈ bytes, utf8Check 0 ssid = true) :
    scanNetworks chars bytes = .ok (labels (bytes.map chars)) := by
  have hdecode : ∀ ssid ∈ bytes, decode chars ssid = .ok (chars ssid) := fun ssid hmem => if_pos (h ssid hmem)
  rw [scanNetworks, mapM_ok hdecode]
  rfl

theorem utf8_of_scanNetworks {names : List (List Char)} (h : scanNetworks chars bytes = .ok names)
    (ssid : List UInt8) (hmem : ssid ∈ bytes) : utf8Check 0 ssid = true := by
  obtain ⟨ssids, hdecoded, -⟩ := ok_of_bind h
  obtain ⟨text, htext⟩ := mapM_element hdecoded hmem
  by_contra hcheck
  rw [decode, if_neg hcheck] at htext
  cases htext

theorem start_of_assign {pane pane' : MenuPane} (hscan : scanNetworks chars bytes = .ok (labels scan))
    (hassign : MenuPane.boot.clear.assign ["Scanning...".toList] = .ok pane)
    (hassign' : pane.assign (Choosing.menuList (labels scan)) = .ok pane') :
    Choosing.start chars bytes = .ok ⟨labels scan, pane', none⟩ := by
  rw [Choosing.start, hassign, ok_bind, hscan, ok_bind, hassign']
  rfl

/-- The first list shown is never empty. -/
theorem scanning_shown : ∃ pane, MenuPane.boot.clear.assign ["Scanning...".toList] = .ok pane ∧
    pane.1.rows = 7 := by
  obtain ⟨pane, w, hassign, hpane, -⟩ := MenuPane.assign_drawable (p := MenuPane.boot.clear)
    (by decide) (List.cons_ne_nil "Scanning...".toList [])
  exact ⟨pane, hassign, by rw [hpane]; rfl⟩

/-- A session on a scan that is not empty starts with the first rows. -/
theorem start_scanMenu (hnetworks : scanNetworks chars bytes = .ok (labels scan)) (hscan : scan ≠ []) :
    ∃ pane, Choosing.start chars bytes = .ok ⟨labels scan, pane, none⟩ ∧
      ScanMenu scan pane.1 (scanWindow scan hscan) := by
  obtain ⟨pane, hassign, hrows⟩ := scanning_shown
  have hlength : (Choosing.menuList (labels scan)).length = min 15 scan.length := by
    rw [length_menuList, length_labels]
  have hnames : Choosing.menuList (labels scan) ≠ [] := by
    intro hnil
    have hpos := List.length_pos_of_ne_nil hscan
    rw [hnil, List.length_nil] at hlength
    omega
  obtain ⟨pane', w, hassign', hpane', hdrawable, htop, hcursor⟩ :=
    MenuPane.assign_drawable (p := pane) (by rw [hrows]; decide) hnames
  rw [hrows] at hdrawable
  have hlist : pane'.1.menuList = Choosing.menuList (labels scan) := by rw [hpane']; rfl
  have hlen : (w.len : Int) = pane'.1.menuList.length := hdrawable.shows.len
  have hsize : (w.size : Int) = min 7 (pane'.1.menuList.length : Int) :=
    hdrawable.shows.size.trans hdrawable.shows.size_eq
  rw [hlist, hlength] at hlen hsize
  have hw : w = scanWindow scan hscan := by
    ext
    · change w.len = min 15 scan.length
      omega
    · change w.size = min 7 scan.length
      omega
    · exact hcursor
    · exact htop
  exact ⟨pane', start_of_assign hnetworks hassign hassign', hw ▸ hdrawable, hlist⟩

theorem start_inv (hnetworks : scanNetworks chars bytes = .ok (labels scan)) :
    ∃ s, Choosing.start chars bytes = .ok s ∧ ChoosingInv scan s := by
  by_cases hscan : scan = []
  · subst hscan
    obtain ⟨pane, hassign, hrows⟩ := scanning_shown
    have hsize : min pane.1.rows (([] : List (List Char)).length : Int) = 0 := by
      rw [hrows]
      rfl
    have hempty : EmptyMenu (Menu.update { pane.1 with menuList := [] }) :=
      ⟨rfl, hsize, rfl, .inl rfl, congrArg (Prod.mk 0) hsize⟩
    have hassign' : pane.assign (Choosing.menuList (labels [])) =
        .ok (Menu.update { pane.1 with menuList := [] }, pane.2) := by
      change (Menu.refresh (Menu.update { pane.1 with menuList := [] }) pane.2 >>= _) = _
      rw [hempty.refresh]
      rfl
    have hstart := start_of_assign hnetworks hassign hassign'
    exact ⟨_, hstart, rfl, fun _ _ => hempty, fun hne => absurd rfl hne, nofun⟩
  · obtain ⟨pane, hstart, hmenu⟩ := start_scanMenu hnetworks hscan
    exact ⟨_, hstart, rfl, fun hnil => absurd hnil hscan, fun _ _ => ⟨_, hmenu⟩, nofun⟩

/-- A scan with a name that is not UTF-8 ends the session before it shows a network. -/
theorem utf8_of_start (hstart : Choosing.start chars bytes = .ok s) (ssid : List UInt8) (hmem : ssid ∈ bytes) :
    utf8Check 0 ssid = true := by
  obtain ⟨pane, -, hrest⟩ := ok_of_bind hstart
  obtain ⟨names, hnetworks, -⟩ := ok_of_bind hrest
  exact utf8_of_scanNetworks hnetworks ssid hmem

/-- For every scan and every sequence of keys, nothing raises and a network that is chosen is the selected one, exactly
when every name of the scan is UTF-8 and each key meets the condition: on an empty scan `ok` is not pressed, nor `nav_d`
on the first row, and on any other `ok` is pressed only where the row of the screen and the place in the list hold the
same name. -/
theorem wifi_app_choice_iff (chars : List UInt8 → List Char) (bytes : List (List UInt8)) (inputs : List (List Char)) :
    (∃ s, Choosing.start chars bytes = .ok s ∧
      AfterEach Choosing.step (PicksSelected (bytes.map chars)) s inputs) ↔
      (∀ ssid ∈ bytes, utf8Check 0 ssid = true) ∧
        ∀ s, Choosing.start chars bytes = .ok s →
          StepsMeet Choosing.step (RowIsSelected (bytes.map chars)) s inputs := by
  by_cases hutf8 : ∀ ssid ∈ bytes, utf8Check 0 ssid = true
  · obtain ⟨s, hstart, hinv⟩ := start_inv (scanNetworks_of_utf8 hutf8)
    have hiff : AfterEach Choosing.step (PicksSelected (bytes.map chars)) s inputs ↔
        StepsMeet Choosing.step (RowIsSelected (bytes.map chars)) s inputs := by
      refine afterEach_iff_stepsMeet ?_ ?_ hinv inputs
      · intro s inp h hrow
        obtain ⟨s', hstep, hinv'⟩ := h.step hrow
        exact ⟨s', hstep, hinv', hinv'.picks⟩
      · intro s inp h hrow s' hstep
        exact h.step_wrong hrow hstep
    constructor
    · rintro ⟨s', hstart', hafter⟩
      obtain rfl : s = s' := Except.ok.inj (hstart.symm.trans hstart')
      refine ⟨hutf8, fun s' hstart' => ?_⟩
      obtain rfl : s = s' := Except.ok.inj (hstart.symm.trans hstart')
      exact hiff.mp hafter
    · exact fun ⟨_, hmeet⟩ => ⟨s, hstart, hiff.mpr (hmeet s hstart)⟩
  · refine iff_of_false ?_ fun h => hutf8 h.1
    rintro ⟨s, hstart, -⟩
    exact hutf8 (utf8_of_start hstart)

def ascii (bytes : List UInt8) : List Char := bytes.map fun b => Char.ofNat b.toNat

/-- Eight networks, and `ok` on the last one, for which the window has moved by one row; `ok` on an empty scan; and a
network whose name is the byte 255. -/
theorem wifi_app_choice_scrolled :
    let scan : List (List UInt8) := [[97], [98], [99], [100], [101], [102], [103], [104]]
    let inputs := ["nav_d", "nav_d", "nav_d", "nav_d", "nav_d", "nav_d", "nav_d", "ok"].map String.toList
    (¬ ∃ s, Choosing.start ascii scan = .ok s ∧
        AfterEach Choosing.step (PicksSelected (scan.map ascii)) s inputs) ∧
      (¬ ∃ s, Choosing.start ascii [] = .ok s ∧
        AfterEach Choosing.step (PicksSelected []) s ["ok".toList]) ∧
      ¬ ∃ s, Choosing.start ascii [[255]] = .ok s ∧
        AfterEach Choosing.step (PicksSelected ([[255]].map ascii)) s [] := by
  intro scan inputs
  refine ⟨?_, ?_, ?_⟩
  · rintro ⟨s, hstart, h⟩
    obtain ⟨s', hrun, hpicks⟩ := h inputs.dropLast "ok".toList (List.prefix_refl _)
    have happ : wifiApp ascii scan inputs = .ok s' := by
      rw [wifiApp, hstart]
      exact hrun
    have hchoice : (wifiApp ascii scan inputs).map Choosing.choice = .ok (some (.chosen "g".toList)) := by
      decide +kernel
    have hcursor : (wifiApp ascii scan inputs).map (fun s => Py.item (scan.map ascii) s.pane.1.menuCursor) =
        .ok (.ok "h".toList) := by
      decide +kernel
    rw [happ] at hchoice hcursor
    have hselected := (hpicks _ (Except.ok.inj hchoice)).symm.trans (Except.ok.inj hcursor)
    exact absurd hselected (by decide)
  · rintro ⟨s, hstart, h⟩
    obtain ⟨s', hrun, -⟩ := h [] "ok".toList (List.prefix_refl _)
    have happ : wifiApp ascii [] ["ok".toList] = .ok s' := by
      rw [wifiApp, hstart]
      exact hrun
    have hraises : (wifiApp ascii [] ["ok".toList]).map Choosing.choice = .error .indexError := by
      decide +kernel
    rw [happ] at hraises
    cases hraises
  · rintro ⟨s, hstart, -⟩
    exact absurd (utf8_of_start hstart [255] (List.mem_singleton_self _)) (by decide)

/-! ### What is chosen -/

/-- The row of the screen in which the keys of a session press `ok`, before they end it otherwise. -/
def okRow (w : Window) : List (List Char) → Option Nat
  | [] => none
  | inp :: inputs =>
      if inp = "ok".toList then some w.row
      else if inp = "back".toList ∨ inp = "off".toList then none
      else okRow ((Key.ofText inp).moves w) inputs

/-- The name of the scan in that row; a name that is not UTF-8 lets none be picked. -/
def picked (chars : List UInt8 → List Char) (bytes : List (List UInt8)) (inputs : List (List Char)) :
    Option (List Char) :=
  if bytes.all (utf8Check 0) then
    let scan := bytes.map chars
    if h : scan = [] then none
    else (okRow (scanWindow scan h) inputs).bind fun i => scan[i]?
  else none

/-- A session that is over takes no more keys. -/
theorem run_over (h : s.choice.isSome = true) (inputs : List (List Char)) :
    run Choosing.step s inputs = .ok s := by
  induction inputs with
  | nil => rfl
  | cons inp inputs ih =>
      have hstep : s.step inp = .ok s := by
        rw [Choosing.step, if_pos h]
        rfl
      rw [run_cons_ok hstep]
      exact ih

/-- A key that neither chooses nor ends the session moves the window. -/
theorem ScanMenu.step {w : Window} (h : ScanMenu scan s.pane.1 w) (hchoice : s.choice = none)
    {inp : List Char} (hok : inp ≠ "ok".toList) (hend : ¬ (inp = "back".toList ∨ inp = "off".toList)) :
    ∃ pane, s.step inp = .ok { s with pane } ∧ ScanMenu scan pane.1 ((Key.ofText inp).moves w) := by
  obtain ⟨hback, hoff⟩ := not_or.mp hend
  have hopen : ¬ s.choice.isSome = true := by rw [hchoice]; exact nofun
  rw [Choosing.step, if_neg hopen, if_neg hok, if_neg hback]
  by_cases hmode : inp = "alpha".toList ∨ inp = "beta".toList
  · rw [if_pos hmode]
    exact (h.updateBuffer (Key.ofText [])).redraw
      (s := { s with pane := (s.pane.1.updateBuffer (Key.ofText []), s.pane.2) }) inp
  · rw [if_neg hmode, if_neg hoff]
    exact h.redraw inp

/-- A session on a list that is not empty returns, and chooses the name in the row of `ok`. -/
theorem ScanMenu.run {w : Window} (h : ScanMenu scan s.pane.1 w)
    (hnames : s.networkNames = labels scan) (hchoice : s.choice = none)
    (inputs : List (List Char)) :
    ∃ s', Runs.run Choosing.step s inputs = .ok s' ∧
      ∀ ssid, s'.choice = some (.chosen ssid) ↔
        (okRow w inputs).bind (fun i => scan[i]?) = some ssid := by
  induction inputs generalizing s w with
  | nil =>
      refine ⟨s, rfl, fun ssid => ?_⟩
      rw [hchoice]
      exact iff_of_false nofun nofun
  | cons inp inputs ih =>
      have hopen : ¬ s.choice.isSome = true := by rw [hchoice]; exact nofun
      rw [okRow]
      by_cases hok : inp = "ok".toList
      · obtain ⟨name, hrow, -, label, hlabel, hslice⟩ := h.item_row
        have hstep : s.step inp = .ok { s with choice := some (.chosen name) } := by
          rw [Choosing.step, if_neg hopen, if_pos hok, hnames, hlabel, ← hslice]
          rfl
        refine ⟨_, (run_cons_ok hstep inputs).trans (run_over rfl inputs), fun ssid => ?_⟩
        rw [if_pos hok, Option.bind_some, hrow, Option.some.injEq, Choice.chosen.injEq, Option.some.injEq]
      · rw [if_neg hok]
        by_cases hend : inp = "back".toList ∨ inp = "off".toList
        · rw [if_pos hend]
          obtain ⟨choice, hstep, hleft⟩ : ∃ choice, s.step inp = .ok { s with choice := some choice } ∧
              ∀ ssid, choice ≠ .chosen ssid := by
            rcases hend with rfl | rfl
            · exact ⟨.left, by rw [Choosing.step, if_neg hopen]; rfl, nofun⟩
            · exact ⟨.asleep, by rw [Choosing.step, if_neg hopen]; rfl, nofun⟩
          refine ⟨_, (run_cons_ok hstep inputs).trans (run_over rfl inputs), fun ssid => ?_⟩
          exact iff_of_false (fun heq => hleft ssid (Option.some.inj heq)) nofun
        · rw [if_neg hend]
          obtain ⟨pane, hstep, hmenu⟩ := h.step hchoice hok hend
          rw [run_cons_ok hstep]
          exact ih (s := { s with pane }) hmenu hnames hchoice

/-- The end of the loop body changes nothing but the menu. -/
theorem redraw_inv {s' : Choosing} {inp : List Char} (h : s.redraw inp = .ok s') :
    ∃ pane, s' = { s with pane } := by
  rw [Choosing.redraw] at h
  cases hpress : s.pane.press (Key.ofText inp) with
  | error e =>
      rw [hpress] at h
      cases h
  | ok pane =>
      rw [hpress] at h
      exact ⟨pane, (Except.ok.inj h).symm⟩

structure Unchosen (s : Choosing) : Prop where
  names : s.networkNames = []
  choice : ∀ ssid, s.choice ≠ some (.chosen ssid)

theorem Unchosen.step (h : Unchosen s) {inp : List Char} {s' : Choosing} (hstep : s.step inp = .ok s') :
    Unchosen s' := by
  unfold Choosing.step at hstep
  split_ifs at hstep with hover hok hback hmode hoff
  · obtain rfl : s = s' := Except.ok.inj hstep
    exact h
  · rw [h.names, Py.item_nil] at hstep
    cases hstep
  · obtain rfl := Except.ok.inj hstep
    exact ⟨h.names, fun ssid hchosen => by cases hchosen⟩
  · obtain ⟨pane, rfl⟩ := redraw_inv hstep
    exact ⟨h.names, h.choice⟩
  · obtain rfl := Except.ok.inj hstep
    exact ⟨h.names, fun ssid hchosen => by cases hchosen⟩
  · obtain ⟨pane, rfl⟩ := redraw_inv hstep
    exact ⟨h.names, h.choice⟩

/-- For every scan and every sequence of keys, `wifi_app` returns and chooses the name that is picked, or
raises and there is none. -/
theorem wifiApp_picked (chars : List UInt8 → List Char) (bytes : List (List UInt8)) (inputs : List (List Char)) :
    (∃ s, wifiApp chars bytes inputs = .ok s ∧
      ∀ ssid, s.choice = some (.chosen ssid) ↔ picked chars bytes inputs = some ssid) ∨
    (∃ e, wifiApp chars bytes inputs = .error e) ∧ picked chars bytes inputs = none := by
  by_cases hall : bytes.all (utf8Check 0) = true
  · have hnetworks : scanNetworks chars bytes = .ok (labels (bytes.map chars)) :=
      scanNetworks_of_utf8 (List.all_eq_true.mp hall)
    rw [picked, if_pos hall]
    generalize bytes.map chars = scan at hnetworks ⊢
    dsimp only
    by_cases hscan : scan = []
    · rw [dif_pos hscan]
      cases hrun : wifiApp chars bytes inputs with
      | error e => exact .inr ⟨⟨e, rfl⟩, rfl⟩
      | ok s =>
          obtain ⟨s₀, hstart, hinv⟩ := start_inv hnetworks
          rw [wifiApp, hstart] at hrun
          have hopen : Unchosen s₀ := by
            refine ⟨by rw [hinv.names, hscan]; rfl, fun ssid hchosen => ?_⟩
            have hitem := hinv.picks ssid hchosen
            rw [hscan, Py.item_nil] at hitem
            cases hitem
          have hnone : Unchosen s := run_invariant (fun _ _ _ h => h.step) hopen hrun
          exact .inl ⟨s, rfl, fun ssid => iff_of_false (hnone.choice ssid) nofun⟩
    · obtain ⟨pane, hstart, hmenu⟩ := start_scanMenu hnetworks hscan
      obtain ⟨s, hrun, hchoice⟩ := hmenu.run (s := ⟨labels scan, pane, none⟩) rfl rfl inputs
      refine .inl ⟨s, ?_, ?_⟩
      · rw [wifiApp, hstart]
        exact hrun
      · rw [dif_neg hscan]
        exact hchoice
  · rw [picked, if_neg hall]
    refine .inr ⟨?_, rfl⟩
    cases hrun : wifiApp chars bytes inputs with
    | error e => exact ⟨e, rfl⟩
    | ok s =>
        obtain ⟨s₀, hstart, -⟩ := ok_of_bind hrun
        exact absurd (List.all_eq_true.mpr (utf8_of_start hstart)) hall

end CalSci.Wifi
