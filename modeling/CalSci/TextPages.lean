import CalSci.LcdText
import CalSci.TextSession

/-! The pages of the display a redraw of a `Textbuffer` writes. `refresh` of `text_buffer_uploader.Tbf`
draws a row character by character, but of a row of white space without the cursor it writes the first
six columns only. A refreshed page then shows its row exactly when the rest of the page shows it already. -/

namespace CalSci.Text

open Lcd Textbuffer

namespace Textbuffer

/-- The bytes `refresh` sends for row `i` of `buf`. -/
def uploadRow (t : Textbuffer) (buf : List (List Char)) (i : Int) : Except Py.Err (List UInt8) := do
  let row ← Py.item buf i
  if Py.strip row ≠ [] ∨ t.cursor / t.cols = i then
    pure (render (row.mapIdx fun j chr => (chr, decide ((j : Int) + i * t.cols = t.cursor))))
  else pure (List.replicate 6 0)

/-- `refresh` of `text_buffer_uploader.Tbf`: the object and the rows after its call of `buffer`, and the
stream sent to the display. -/
def refreshPages (t : Textbuffer) (state : List Char) :
    Except Py.Err ((Textbuffer × List (List Char)) × List (Transfer UInt8)) := do
  let s ← t.buffer
  let stream ← upload (s.1.uploadRow s.2) (s.1.refreshArea.1 / s.1.cols) (s.1.refreshArea.2 / s.1.cols) state
  pure (s, stream)

end Textbuffer

/-- A key between two redraws: the first one calls `buffer`, the key `update_buffer`. -/
def redrawKey (t : Textbuffer) (key : Key) : Except Py.Err Textbuffer := do
  let s ← t.buffer
  s.1.updateBuffer key

/-- The `Textbuffer` a redraw finds after a sequence of keys on a fresh one, with a redraw before each. -/
def beforeRedraw (rows cols : Nat) (keys : List Key) : Except Py.Err Textbuffer := do
  let fresh ← init rows cols
  Runs.run redrawKey fresh.1 keys

/-- Each refreshed page holds the rendering of its row. -/
def Rendered (s : Textbuffer × List (List Char)) (ram : Nat → Nat → UInt8) : Prop :=
  ∀ i : Nat, s.1.Refreshes i → ∃ row, s.2[i]? = some row ∧
    ∀ C, C < 6 * s.1.cols → ram i C = (render (s.1.drawRow row i)).getD C 0

/-- A row that takes the short way: white space only, and not the row of the cursor. -/
def Blank (t : Textbuffer) (row : List Char) (i : Nat) : Prop :=
  Py.strip row = [] ∧ t.cursor / t.cols ≠ i

instance (t : Textbuffer) (row : List Char) (i : Nat) : Decidable (Blank t row i) :=
  inferInstanceAs (Decidable (_ ∧ _))

/-- Each refreshed row that takes the short way begins with a space, and from column 6 on its page holds
the rendering of the row already. -/
def BlanksShown (s : Textbuffer × List (List Char)) (ram : Nat → Nat → UInt8) : Prop :=
  ∀ i : Nat, s.1.Refreshes i → ∀ row, s.2[i]? = some row → Blank s.1 row i →
    row[0]? = some ' ' ∧ ∀ C, 6 ≤ C → C < 6 * s.1.cols → ram i C = (render (s.1.drawRow row i)).getD C 0

variable {rows cols : Nat} {v : View}

/-! ### The area to be refreshed -/

/-- The end of the row of a cell on the screen. -/
theorem row_end_le_cells (hcols : 0 < cols) {x : Int} (hx : x < rows * cols) :
    x / cols * cols + cols ≤ rows * cols := by
  have hle := Int.ediv_mul_le x (show (cols : Int) ≠ 0 by omega)
  exact add_le_of_lt_of_dvd (Dvd.intro_left _ rfl) dvd_cells (by omega)

/-- With the cursor on the screen, a key asks to refresh rows of the screen only. -/
theorem areaAfter_inside (hon : v.OnScreen rows cols) (hcols : 0 < cols) (key : Key) :
    0 ≤ (v.areaAfter rows cols key).1 ∧ (v.areaAfter rows cols key).2 ≤ rows * cols := by
  obtain ⟨hafter, hbefore⟩ := hon
  have hend := row_end_le_cells hcols (show (v.ed.cursor : Int) - v.top < rows * cols by omega)
  have hforward : ∀ step, 0 ≤ (v.areaForward rows cols step).1 ∧
      (v.areaForward rows cols step).2 ≤ rows * cols := by
    intro step
    rw [View.areaForward]
    split
    · exact ⟨le_refl 0, le_refl _⟩
    · have := row_end_le_cells hcols (show (v.ed.cursor : Int) + step - v.top < rows * cols by omega)
      exact ⟨by dsimp only; omega, this⟩
  have hback : ∀ step stop, stop ≤ (rows * cols : Int) → 0 ≤ (v.areaBack rows cols step stop).1 ∧
      (v.areaBack rows cols step stop).2 ≤ rows * cols := by
    intro step stop hstop
    rw [View.areaBack]
    split
    · exact ⟨le_refl 0, le_refl _⟩
    · exact ⟨by dsimp only; omega, hstop⟩
  cases key with
  | navL => exact hback 1 _ hend
  | navR => exact hforward 1
  | navU => exact hback cols _ hend
  | navD => exact hforward cols
  | navB =>
      rw [View.areaAfter, View.areaDelete]
      split
      · exact ⟨le_refl 0, le_refl _⟩
      · exact hback 1 _ (le_refl _)
  | ac => exact ⟨le_refl 0, le_refl _⟩
  | token text =>
      rw [View.areaAfter, View.areaInsert]
      split
      · exact ⟨le_refl 0, le_refl _⟩
      · exact ⟨by dsimp only; omega, le_refl _⟩

/-! ### The rows to be drawn -/

/-- What a redraw finds after its call of `buffer`. -/
structure Drawable (rows cols : Nat) (v : View) (s : Textbuffer × List (List Char)) : Prop where
  sound : Sound rows cols v s
  screen : v.OnScreen rows cols
  first : 0 ≤ s.1.refreshArea.1
  last : s.1.refreshArea.2 ≤ rows * cols

/-- If `buffer` returns, its rows can be drawn. -/
def Redrawable (rows cols : Nat) (t : Textbuffer) : Prop :=
  ∀ s, t.buffer = .ok s → ∃ v, Drawable rows cols v s

/-- A fresh object. -/
theorem redrawable_init (hrows : 2 ≤ rows) (hcols : 0 < cols) :
    ∃ fresh, init rows cols = .ok fresh ∧ Redrawable rows cols fresh.1 := by
  obtain ⟨t, ht, hedited, harea⟩ := updateBuffer_edited
    (blank_edited.padBuffer_shows hcols View.Inside.empty) (show 0 < rows by omega) hcols (.token [])
  refine ⟨_, init_eq hcols ht, fun s hbuffer => ?_⟩
  have hon := onScreen_fresh (show 0 < rows by omega) hcols
  have hin := View.Inside.press (@View.Inside.empty rows cols) hcols (.token []) (by simp)
  rw [hedited.buffer_eq hcols hin] at hbuffer
  cases hbuffer
  obtain ⟨hfirst, hlast⟩ := areaAfter_inside hon hcols (.token [])
  rw [← harea] at hfirst hlast
  exact ⟨_, ⟨hedited.padBuffer_shows hcols hin, hin, rfl⟩,
    hon.press View.Inside.empty hrows hcols (.token []), hfirst, hlast⟩

/-- One key after a redraw. -/
theorem Drawable.key {s s' : Textbuffer × List (List Char)} (h : Drawable rows cols v s) (hrows : 2 ≤ rows)
    (hcols : 0 < cols) {key : Key} {t' : Textbuffer} (hkey : s.1.updateBuffer key = .ok t')
    (hbuffer : t'.buffer = .ok s') : Drawable rows cols (v.press rows cols key) s' := by
  have hpress : Text.press s key = .ok s' := by
    rw [Text.press, hkey]
    exact hbuffer
  obtain ⟨hsound, harea⟩ := h.sound.press_inv (by omega) hcols hpress
  obtain ⟨hfirst, hlast⟩ := areaAfter_inside h.screen hcols key
  rw [← harea] at hfirst hlast
  exact ⟨hsound, h.screen.press h.sound.inside hrows hcols key, hfirst, hlast⟩

theorem Redrawable.key {t t' : Textbuffer} (h : Redrawable rows cols t) (hrows : 2 ≤ rows) (hcols : 0 < cols)
    {key : Key} (hkey : redrawKey t key = .ok t') : Redrawable rows cols t' := by
  intro s' hbuffer'
  cases hbuffer : t.buffer with
  | error e =>
      rw [redrawKey, hbuffer] at hkey
      cases hkey
  | ok s =>
      rw [redrawKey, hbuffer] at hkey
      obtain ⟨v, hv⟩ := h s hbuffer
      exact ⟨_, hv.key hrows hcols hkey hbuffer'⟩

theorem redrawable_beforeRedraw (hrows : 2 ≤ rows) (hcols : 0 < cols) {keys : List Key} {t : Textbuffer}
    (h : beforeRedraw rows cols keys = .ok t) : Redrawable rows cols t := by
  obtain ⟨fresh, hfresh, hstart⟩ := redrawable_init hrows hcols
  rw [beforeRedraw, hfresh] at h
  have hstep : ∀ t key t', Redrawable rows cols t → redrawKey t key = .ok t' → Redrawable rows cols t' :=
    fun _ _ _ ht hkey => ht.key hrows hcols hkey
  exact Runs.run_invariant hstep hstart h

namespace Drawable

variable {s : Textbuffer × List (List Char)}

theorem refreshes_lt (h : Drawable rows cols v s) (hcols : 0 < cols) {i : Int}
    (hi : i < s.1.refreshArea.2 / s.1.cols) : i < rows := by
  rw [h.sound.shows.cols_eq] at hi
  have hle := Int.ediv_le_ediv (show (0 : Int) < cols by omega) h.last
  rw [Int.mul_ediv_cancel _ (by omega)] at hle
  omega

theorem first_nonneg (h : Drawable rows cols v s) (hcols : 0 < cols) :
    0 ≤ s.1.refreshArea.1 / s.1.cols := by
  rw [h.sound.shows.cols_eq]
  exact Int.ediv_nonneg h.first (by omega)

/-- The bytes of row `i`, in full or the short way. -/
def bytes (s : Textbuffer × List (List Char)) (row : List Char) (i : Nat) : List UInt8 :=
  if Py.strip row ≠ [] ∨ s.1.cursor / s.1.cols = i then render (s.1.drawRow row i) else List.replicate 6 0

theorem uploadRow_eq (h : Drawable rows cols v s) {i : Nat} (hi : i < rows) :
    s.1.uploadRow s.2 i = .ok (bytes s (v.row rows cols i) i) := by
  have hitem : Py.item s.2 i = .ok (v.row rows cols i) := by
    obtain ⟨hlt, hget⟩ := List.getElem?_eq_some_iff.mp (h.sound.returned_getElem hi)
    rw [Py.item_of_lt _ hlt, List.get_eq_getElem, hget]
  rw [uploadRow, hitem, bytes]
  change (if _ then _ else _) = _
  split
  · rfl
  · rfl

theorem length_drawRow (h : Drawable rows cols v s) (hcols : 0 < cols) {i : Nat} (hi : i < rows) :
    (s.1.drawRow (v.row rows cols i) i).length = cols := by
  rw [drawRow, List.length_mapIdx, View.length_row hcols h.sound.inside hi]

theorem length_bytes_lt (h : Drawable rows cols v s) (hcols : 0 < cols) (hfits : 6 * cols < 256) {i : Nat}
    (hi : i < rows) : (bytes s (v.row rows cols i) i).length < 256 := by
  rw [bytes]
  split
  · rw [length_render, h.length_drawRow hcols hi]
    exact hfits
  · rw [List.length_replicate]
    omega

/-- What a redraw leaves on the refreshed pages. -/
theorem refreshPages_ram (h : Drawable rows cols v s) {t : Textbuffer} (hbuffer : t.buffer = .ok s)
    (hrows : rows ≤ 7) (hcols : 0 < cols) (hfits : 6 * cols < 256) (state : List Char) :
    ∃ stream, t.refreshPages state = .ok (s, stream) ∧ ∀ (c : Controller) (i : Nat), s.1.Refreshes i →
      i < rows ∧ ∀ C, (c.run stream).ram i C = if C < (bytes s (v.row rows cols i) i).length
        then (bytes s (v.row rows cols i) i).getD C 0 else c.ram i C := by
  have hrow : ∀ i, s.1.refreshArea.1 / s.1.cols ≤ i → i < s.1.refreshArea.2 / s.1.cols →
      s.1.uploadRow s.2 i = .ok (bytes s (v.row rows cols i.toNat) i.toNat) ∧
        (bytes s (v.row rows cols i.toNat) i.toNat).length < 256 := by
    intro i h0 hi
    have hlt := h.refreshes_lt hcols hi
    obtain ⟨n, rfl⟩ := Int.eq_ofNat_of_zero_le ((h.first_nonneg hcols).trans h0)
    rw [Int.toNat_natCast]
    exact ⟨h.uploadRow_eq (by omega), h.length_bytes_lt hcols hfits (by omega)⟩
  have hstop : s.1.refreshArea.2 / s.1.cols ≤ 7 := by
    by_contra hgt
    have := h.refreshes_lt hcols (show (7 : Int) < s.1.refreshArea.2 / s.1.cols by omega)
    omega
  obtain ⟨stream, hstream, hram⟩ := upload_ram hrow (h.first_nonneg hcols) hstop state
  refine ⟨stream, ?_, fun c i hi => ?_⟩
  · rw [refreshPages, hbuffer]
    change (upload _ _ _ _ >>= _) = _
    rw [hstream]
    rfl
  · have hlt := h.refreshes_lt hcols hi.2
    refine ⟨by omega, fun C => ?_⟩
    rw [hram c i C (by omega), Int.toNat_natCast]
    by_cases hC : C < (bytes s (v.row rows cols i) i).length
    · rw [if_pos ⟨hi, hC⟩, if_pos hC]
    · rw [if_neg (fun h => hC h.2), if_neg hC]

end Drawable

/-! ### The short way -/

/-- Of the white space only the space is in the font. -/
theorem cellBytes_of_isSpace {chr : Char} (h : Py.isSpace chr = true) (hne : chr ≠ ' ') :
    cellBytes (chr, false) = cellBytes ('*', false) := by
  have hstar : ['\t', '\n', '\r', '\x0b', '\x0c'].map (fun chr => cellBytes (chr, false)) =
      List.replicate 5 (cellBytes ('*', false)) := by
    decide +kernel
  have hmem : chr ∈ ['\t', '\n', '\r', '\x0b', '\x0c'] := by
    simpa [Py.isSpace, hne, or_assoc] using h
  have hdrawn := List.mem_map_of_mem (f := fun chr => cellBytes (chr, false)) hmem
  rw [hstar] at hdrawn
  exact List.eq_of_mem_replicate hdrawn

/-- The space is drawn as nothing, a tab or a line break is not. -/
theorem cellBytes_eq_zero_iff {chr : Char} (h : Py.isSpace chr = true) :
    (∀ C, C < 6 → (cellBytes (chr, false)).getD C 0 = 0) ↔ chr = ' ' := by
  constructor
  · intro hzero
    by_contra hne
    have hfirst := hzero 0 (by omega)
    rw [cellBytes_of_isSpace h hne] at hfirst
    exact absurd hfirst (by decide +kernel)
  · rintro rfl C hC
    rw [cellBytes_space, List.getD_replicate _ hC]

/-- The first character of a row without the cursor. -/
theorem render_drawRow {t : Textbuffer} (hcols : 0 < t.cols) {i : Nat} (hcursor : t.cursor / t.cols ≠ i)
    (chr : Char) (row : List Char) :
    ∃ rest, render (t.drawRow (chr :: row) i) = cellBytes (chr, false) ++ rest := by
  have hne : ¬ (((0 : Nat) : Int) + i * t.cols = t.cursor) := by
    intro heq
    apply hcursor
    rw [← heq, Nat.cast_zero, zero_add, Int.mul_ediv_cancel _ (by omega)]
  rw [drawRow, List.mapIdx_cons, decide_eq_false hne]
  exact ⟨_, List.flatMap_cons⟩

/-- One page: the new bytes over the old ones are the rendering of the row exactly when the row is drawn
in full, or the old bytes make up for it. -/
theorem Drawable.page_iff {s : Textbuffer × List (List Char)} (h : Drawable rows cols v s) (hcols : 0 < cols)
    {i : Nat} (hi : i < rows) (old : Nat → UInt8) :
    (∀ C, C < 6 * cols → (if C < (bytes s (v.row rows cols i) i).length
        then (bytes s (v.row rows cols i) i).getD C 0 else old C) =
          (render (s.1.drawRow (v.row rows cols i) i)).getD C 0) ↔
      (Blank s.1 (v.row rows cols i) i → (v.row rows cols i)[0]? = some ' ' ∧
        ∀ C, 6 ≤ C → C < 6 * cols → old C = (render (s.1.drawRow (v.row rows cols i) i)).getD C 0) := by
  have hlength := h.length_drawRow hcols hi
  have hrow := View.length_row hcols h.sound.inside hi
  have hcols' : 0 < s.1.cols := by rwa [h.sound.shows.cols_eq]
  generalize v.row rows cols i = row at hlength hrow ⊢
  by_cases hblank : Blank s.1 row i
  · obtain ⟨hstrip, hcursor⟩ := hblank
    have hbytes : bytes s row i = List.replicate 6 0 := if_neg (by rw [not_or, not_not]; exact ⟨hstrip, hcursor⟩)
    rw [hbytes, List.length_replicate]
    cases row with
    | nil =>
        rw [List.length_nil] at hrow
        omega
    | cons chr row =>
        obtain ⟨rest, hrender⟩ := render_drawRow hcols' hcursor chr row
        have hhead := cellBytes_eq_zero_iff (Py.isSpace_of_strip hstrip chr List.mem_cons_self)
        have hfirst : ∀ C, C < 6 → (render (s.1.drawRow (chr :: row) i)).getD C 0
            = (cellBytes (chr, false)).getD C 0 := by
          intro C hC
          rw [hrender, List.getD_append _ _ _ _ (by rwa [length_cellBytes])]
        constructor
        · intro hall _
          refine ⟨congrArg some (hhead.mp fun C hC => ?_), fun C h6 hC => ?_⟩
          · rw [← hfirst C hC, ← hall C (by omega), if_pos hC, List.getD_replicate _ hC]
          · rw [← hall C hC, if_neg (by omega)]
        · intro hshown C hC
          obtain ⟨hspace, hold⟩ := hshown ⟨hstrip, hcursor⟩
          by_cases h6 : C < 6
          · rw [if_pos h6, List.getD_replicate _ h6, hfirst C h6]
            exact (hhead.mpr (Option.some.inj hspace) C h6).symm
          · rw [if_neg h6]
            exact hold C (by omega) hC
  · have hbytes : bytes s row i = render (s.1.drawRow row i) :=
      if_pos (by rw [Blank, not_and_or, not_not] at hblank; exact hblank)
    refine iff_of_true (fun C hC => ?_) fun hyes => absurd hyes hblank
    rw [hbytes, if_pos (by rw [length_render, hlength]; exact hC)]

/-- After any keys and over any display content, each refreshed page holds the rendering of its row exactly
when the rows that take the short way begin with a space and are shown already from column 6 on. -/
theorem text_pages_rendered_iff {rows cols : Nat} (hlow : 2 ≤ rows) (hhigh : rows ≤ 7) (hcols : 1 ≤ cols)
    (hfits : 6 * cols < 256) {keys : List Key} {t : Textbuffer} (ht : beforeRedraw rows cols keys = .ok t)
    {s : Textbuffer × List (List Char)} (hbuffer : t.buffer = .ok s) (state : List Char) :
    ∃ stream, t.refreshPages state = .ok (s, stream) ∧
      ∀ c : Controller, Rendered s (c.run stream).ram ↔ BlanksShown s c.ram := by
  obtain ⟨v, hv⟩ := redrawable_beforeRedraw hlow hcols ht s hbuffer
  obtain ⟨stream, hstream, hram⟩ := hv.refreshPages_ram hbuffer hhigh hcols hfits state
  have hcols' := hv.sound.shows.cols_eq
  refine ⟨stream, hstream, fun c => forall₂_congr fun i hi => ?_⟩
  obtain ⟨hlt, hpage⟩ := hram c i hi
  rw [hv.sound.returned_getElem hlt, hcols']
  have hiff := hv.page_iff hcols hlt (c.ram i)
  simp only [← hpage] at hiff
  constructor
  · rintro ⟨row, hrow, hall⟩ row' hrow' hblank
    cases hrow
    cases hrow'
    exact hiff.mp hall hblank
  · intro hshown
    exact ⟨_, rfl, hiff.mpr (hshown _ rfl)⟩

/-- Two digits on the screen of the device: the six rows below them are blank, and shown on a display
that was cleared. -/
theorem text_pages_rendered_digits :
    ∃ t s stream, beforeRedraw 7 21 [.token ['1', '2']] = .ok t ∧ t.buffer = .ok s ∧
      t.refreshPages "default".toList = .ok (s, stream) ∧
      Rendered s ((Controller.mk (fun _ _ => 0) 0 0).run stream).ram := by
  obtain ⟨t, ht⟩ := Runs.exists_ok
    (show (beforeRedraw 7 21 [.token ['1', '2']]).isOk = true by decide +kernel)
  obtain ⟨s, hs⟩ := Runs.exists_ok (show t.buffer.isOk = true by
    have hok : (beforeRedraw 7 21 [.token ['1', '2']] >>= buffer).isOk = true := by decide +kernel
    rwa [ht] at hok)
  obtain ⟨stream, hstream, hiff⟩ := text_pages_rendered_iff (by decide) (by decide) (by decide) (by decide)
    ht hs "default".toList
  refine ⟨t, s, stream, ht, hs, hstream, (hiff _).mpr ?_⟩
  have hshown : (beforeRedraw 7 21 [.token ['1', '2']] >>= buffer).map (fun s =>
      decide (∀ i < s.2.length, ∀ row ∈ s.2[i]?, Blank s.1 row i →
        row[0]? = some ' ' ∧ render (s.1.drawRow row i) = List.replicate 126 0)) = .ok true := by
    decide +kernel
  rw [ht] at hshown
  change t.buffer.map _ = _ at hshown
  rw [hs] at hshown
  intro i _ row hrow hblank
  obtain ⟨hlt, -⟩ := List.getElem?_eq_some_iff.mp hrow
  obtain ⟨hspace, hzero⟩ := of_decide_eq_true (Except.ok.inj hshown) i hlt row hrow hblank
  refine ⟨hspace, fun C _ _ => ?_⟩
  rw [hzero, List.getD_eq_getElem?_getD, List.getElem?_getD_replicate_default_eq]

/-- The display of the device after twenty-two characters are typed. -/
def typedDisplay : Except Py.Err Controller := do
  let t ← beforeRedraw 7 21 [.token (List.replicate 22 'a')]
  let drawn ← t.refreshPages "default".toList
  pure ((Controller.mk (fun _ _ => 0) 0 0).run drawn.2)

/-- They are cleared with `AC`: the second row is blank then, and of its page only the first six columns
are wiped, so that the old cursor stays. -/
theorem text_pages_stale_row :
    ∃ t s c stream, beforeRedraw 7 21 [.token (List.replicate 22 'a'), .ac] = .ok t ∧ typedDisplay = .ok c ∧
      t.refreshPages "default".toList = .ok (s, stream) ∧ ¬ Rendered s (c.run stream).ram := by
  obtain ⟨t, ht⟩ := Runs.exists_ok
    (show (beforeRedraw 7 21 [.token (List.replicate 22 'a'), .ac]).isOk = true by decide +kernel)
  obtain ⟨c, hc⟩ := Runs.exists_ok (show typedDisplay.isOk = true by decide +kernel)
  obtain ⟨drawn, hdrawn⟩ := Runs.exists_ok (show (t.refreshPages "default".toList).isOk = true by
    have hok : (beforeRedraw 7 21 [.token (List.replicate 22 'a'), .ac] >>= fun t =>
      t.refreshPages "default".toList).isOk = true := by decide +kernel
    rwa [ht] at hok)
  refine ⟨t, drawn.1, c, drawn.2, ht, hc, hdrawn, fun hrendered => ?_⟩
  have hcell : (beforeRedraw 7 21 [.token (List.replicate 22 'a'), .ac] >>= fun t =>
      t.refreshPages "default".toList >>= fun drawn => typedDisplay.map fun c =>
        (decide (drawn.1.1.Refreshes 1), drawn.1.1.cols,
          drawn.1.2[1]?.map fun row => (render (drawn.1.1.drawRow row 1)).getD 6 0,
          (c.run drawn.2).ram 1 6)) = .ok (true, 21, some 0, 0xFF) := by decide +kernel
  rw [ht, Runs.ok_bind, hdrawn, Runs.ok_bind, hc] at hcell
  simp only [Except.map, Except.ok.injEq, Prod.mk.injEq] at hcell
  obtain ⟨hrefreshes, hcols, hnew, hold⟩ := hcell
  obtain ⟨row, hrow, hall⟩ := hrendered 1 (of_decide_eq_true hrefreshes)
  rw [hrow, Option.map_some, Option.some.injEq] at hnew
  have hsix := hall 6 (by rw [hcols]; omega)
  rw [hold, hnew] at hsix
  exact absurd hsix (by decide)

end CalSci.Text
