import CalSci.LcdDraw

/-! Rows of characters on the display: the font of `data_modules/characters.py`, and what the `refresh`
methods of the three `Tbf` classes have in common. Each row of a range goes to its own page from column 0
on, six bytes a character, and the state line goes to page 7. -/

namespace CalSci.Lcd

def chr5x8Data : List (Char × List UInt8) :=
  [(' ', [0x00, 0x00, 0x00, 0x00, 0x00]), ('!', [0x00, 0x00, 0x5F, 0x00, 0x00]),
    ('\x22', [0x00, 0x07, 0x00, 0x07, 0x00]), ('#', [0x14, 0x7F, 0x14, 0x7F, 0x14]),
    ('$', [0x24, 0x2A, 0x7F, 0x2A, 0x12]), ('%', [0x23, 0x13, 0x08, 0x64, 0x62]),
    ('&', [0x36, 0x49, 0x55, 0x22, 0x50]), ('\x27', [0x00, 0x05, 0x03, 0x00, 0x00]),
    ('(', [0x00, 0x1C, 0x22, 0x41, 0x00]), (')', [0x00, 0x41, 0x22, 0x1C, 0x00]),
    ('*', [0x14, 0x08, 0x3E, 0x08, 0x14]), ('+', [0x08, 0x08, 0x3E, 0x08, 0x08]),
    (',', [0x00, 0x50, 0x30, 0x00, 0x00]), ('-', [0x08, 0x08, 0x08, 0x08, 0x08]),
    ('.', [0x00, 0x60, 0x60, 0x00, 0x00]), ('/', [0x20, 0x10, 0x08, 0x04, 0x02]),
    ('0', [0x3E, 0x51, 0x49, 0x45, 0x3E]), ('1', [0x00, 0x42, 0x7F, 0x40, 0x00]),
    ('2', [0x42, 0x61, 0x51, 0x49, 0x46]), ('3', [0x21, 0x41, 0x45, 0x4B, 0x31]),
    ('4', [0x18, 0x14, 0x12, 0x7F, 0x10]), ('5', [0x27, 0x45, 0x45, 0x45, 0x39]),
    ('6', [0x3C, 0x4A, 0x49, 0x49, 0x30]), ('7', [0x01, 0x71, 0x09, 0x05, 0x03]),
    ('8', [0x36, 0x49, 0x49, 0x49, 0x36]), ('9', [0x06, 0x49, 0x49, 0x29, 0x1E]),
    (':', [0x00, 0x36, 0x36, 0x00, 0x00]), (';', [0x00, 0x56, 0x36, 0x00, 0x00]),
    ('<', [0x08, 0x14, 0x22, 0x41, 0x00]), ('=', [0x14, 0x14, 0x14, 0x14, 0x14]),
    ('>', [0x41, 0x22, 0x14, 0x08, 0x00]), ('?', [0x02, 0x01, 0x51, 0x09, 0x06]),
    ('@', [0x32, 0x49, 0x79, 0x41, 0x3E]), ('A', [0x7E, 0x11, 0x11, 0x11, 0x7E]),
    ('B', [0x7F, 0x49, 0x49, 0x49, 0x36]), ('C', [0x3E, 0x41, 0x41, 0x41, 0x22]),
    ('D', [0x7F, 0x41, 0x41, 0x22, 0x1C]), ('E', [0x7F, 0x49, 0x49, 0x49, 0x41]),
    ('F', [0x7F, 0x09, 0x09, 0x09, 0x01]), ('G', [0x3E, 0x41, 0x49, 0x49, 0x7A]),
    ('H', [0x7F, 0x08, 0x08, 0x08, 0x7F]), ('I', [0x00, 0x41, 0x7F, 0x41, 0x00]),
    ('J', [0x20, 0x40, 0x41, 0x3F, 0x01]), ('K', [0x7F, 0x08, 0x14, 0x22, 0x41]),
    ('L', [0x7F, 0x40, 0x40, 0x40, 0x40]), ('M', [0x7F, 0x02, 0x0C, 0x02, 0x7F]),
    ('N', [0x7F, 0x04, 0x08, 0x10, 0x7F]), ('O', [0x3E, 0x41, 0x41, 0x41, 0x3E]),
    ('P', [0x7F, 0x09, 0x09, 0x09, 0x06]), ('Q', [0x3E, 0x41, 0x51, 0x21, 0x5E]),
    ('R', [0x7F, 0x09, 0x19, 0x29, 0x46]), ('S', [0x46, 0x49, 0x49, 0x49, 0x31]),
    ('T', [0x01, 0x01, 0x7F, 0x01, 0x01]), ('U', [0x3F, 0x40, 0x40, 0x40, 0x3F]),
    ('V', [0x1F, 0x20, 0x40, 0x20, 0x1F]), ('W', [0x3F, 0x40, 0x38, 0x40, 0x3F]),
    ('X', [0x63, 0x14, 0x08, 0x14, 0x63]), ('Y', [0x07, 0x08, 0x70, 0x08, 0x07]),
    ('Z', [0x61, 0x51, 0x49, 0x45, 0x43]), ('[', [0x00, 0x7F, 0x41, 0x41, 0x00]),
    ('\x5c', [0x02, 0x04, 0x08, 0x10, 0x20]), (']', [0x00, 0x41, 0x41, 0x7F, 0x00]),
    ('^', [0x04, 0x02, 0x01, 0x02, 0x04]), ('_', [0x40, 0x40, 0x40, 0x40, 0x40]),
    ('\x60', [0x00, 0x03, 0x07, 0x00, 0x00]), ('\x27', [0x00, 0x03, 0x07, 0x00, 0x00]),
    ('´', [0x00, 0x03, 0x07, 0x00, 0x00]), ('a', [0x20, 0x54, 0x54, 0x54, 0x78]),
    ('b', [0x7F, 0x48, 0x44, 0x44, 0x38]), ('c', [0x38, 0x44, 0x44, 0x44, 0x20]),
    ('d', [0x38, 0x44, 0x44, 0x48, 0x7F]), ('e', [0x38, 0x54, 0x54, 0x54, 0x18]),
    ('f', [0x08, 0x7E, 0x09, 0x01, 0x02]), ('g', [0x08, 0x14, 0x54, 0x54, 0x3C]),
    ('h', [0x7F, 0x08, 0x04, 0x04, 0x78]), ('i', [0x00, 0x44, 0x7D, 0x40, 0x00]),
    ('j', [0x20, 0x40, 0x44, 0x3D, 0x00]), ('k', [0x7F, 0x10, 0x28, 0x44, 0x00]),
    ('l', [0x00, 0x41, 0x7F, 0x40, 0x00]), ('m', [0x7C, 0x04, 0x78, 0x04, 0x78]),
    ('n', [0x7C, 0x08, 0x04, 0x04, 0x78]), ('o', [0x38, 0x44, 0x44, 0x44, 0x38]),
    ('p', [0x7C, 0x14, 0x14, 0x14, 0x08]), ('q', [0x08, 0x14, 0x14, 0x18, 0x7C]),
    ('r', [0x7C, 0x08, 0x04, 0x04, 0x08]), ('s', [0x48, 0x54, 0x54, 0x54, 0x20]),
    ('t', [0x04, 0x3F, 0x44, 0x40, 0x20]), ('u', [0x3C, 0x40, 0x40, 0x20, 0x7C]),
    ('v', [0x1C, 0x20, 0x40, 0x20, 0x1C]), ('w', [0x3C, 0x40, 0x30, 0x40, 0x3C]),
    ('x', [0x44, 0x28, 0x10, 0x28, 0x44]), ('y', [0x0C, 0x50, 0x50, 0x50, 0x3C]),
    ('z', [0x44, 0x64, 0x54, 0x4C, 0x44]), ('\x7b', [0x00, 0x08, 0x36, 0x41, 0x00]),
    ('|', [0x00, 0x7F, 0x7F, 0x7F, 0x00]), ('\x7d', [0x00, 0x41, 0x36, 0x08, 0x00]),
    ('~', [0x08, 0x08, 0x2A, 0x1C, 0x08]), ('𖤓', [0x00, 0x00, 0x00, 0x00, 0x00])]

/-- `Chr5X8_data.get(Chr)`: the last one of two entries with the same key counts. -/
def glyph (chr : Char) : Option (List UInt8) := chr5x8Data.reverse.lookup chr

/-- `Chr2bytes`: a character that is not in the font is drawn as `*`. -/
def chr2bytes (chr : Char) : List UInt8 := (glyph chr).getD ((glyph '*').getD [])

def invertLetter (chr : Char) : List UInt8 := (chr2bytes chr).map fun byte => ~~~byte

/-- A character on the screen, and whether it is drawn inverted: the five bytes of the font, and a
separator that is full next to an inverted character. -/
def cellBytes (cell : Char × Bool) : List UInt8 :=
  if cell.2 then invertLetter cell.1 ++ [0xFF] else chr2bytes cell.1 ++ [0x00]

def render (cells : List (Char × Bool)) : List UInt8 := cells.flatMap cellBytes

/-- `set_page_address(i)`, `set_column_address(0)` and one `write_data` for each byte. -/
def sendRow (i : Int) (bytes : List UInt8) : List (Transfer UInt8) :=
  setPageAddress (UInt8.ofInt i) ++ setColumnAddress 0 ++ bytes.map .dat

/-- The end of `refresh`: the characters of `state`, inverted, on page 7. -/
def stateLine (state : List Char) : List (Transfer UInt8) :=
  sendRow 7 (render (state.map fun chr => (chr, true)))

/-- `for i in range(start, stop)`, row `i` is sent to page `i`; then the state line. -/
def upload (row : Int → Except Py.Err (List UInt8)) (start stop : Int) (state : List Char) :
    Except Py.Err (List (Transfer UInt8)) := do
  let rows ← (Py.rangeFrom start (stop - start).toNat).mapM fun i => do
    let bytes ← row i
    pure (sendRow i bytes)
  pure (rows.flatten ++ stateLine state)

/-! ### The font -/

theorem length_chr2bytes (chr : Char) : (chr2bytes chr).length = 5 := by
  have hall : ∀ entry ∈ chr5x8Data, entry.2.length = 5 := by decide +kernel
  have hstar : (glyph '*').getD [] = [0x14, 0x08, 0x3E, 0x08, 0x14] := by decide +kernel
  rw [chr2bytes, hstar]
  cases hglyph : glyph chr with
  | none => rfl
  | some bytes =>
      obtain ⟨before, after, hsplit, -⟩ := List.lookup_eq_some_iff.mp hglyph
      have hmem : (chr, bytes) ∈ chr5x8Data.reverse := by
        rw [hsplit]
        exact List.mem_append_right _ (List.mem_cons_self ..)
      exact hall _ (List.mem_reverse.mp hmem)

theorem length_cellBytes (cell : Char × Bool) : (cellBytes cell).length = 6 := by
  rw [cellBytes]
  split
  · rw [List.length_append, invertLetter, List.length_map, length_chr2bytes]
    rfl
  · rw [List.length_append, length_chr2bytes]
    rfl

theorem length_render (cells : List (Char × Bool)) : (render cells).length = 6 * cells.length := by
  induction cells with
  | nil => rfl
  | cons cell cells ih =>
      rw [render, List.flatMap_cons, List.length_append, length_cellBytes, List.length_cons]
      rw [render] at ih
      omega

theorem cellBytes_space : cellBytes (' ', false) = List.replicate 6 0 := by decide +kernel

/-! ### One row -/

namespace Controller

variable (c : Controller)

/-- Data bytes go to the selected page. -/
theorem run_dat (bytes : List UInt8) :
    (c.run (bytes.map .dat)).page = c.page ∧
      ∀ P, P ≠ c.page → (c.run (bytes.map .dat)).ram P = c.ram P := by
  induction bytes generalizing c with
  | nil => exact ⟨rfl, fun _ _ => rfl⟩
  | cons byte bytes ih =>
      obtain ⟨hpage, hram⟩ := ih (c.store byte)
      refine ⟨hpage, fun P hP => ?_⟩
      have hstore : (c.store byte).ram P = c.ram P := Function.update_of_ne hP _ _
      exact (hram P hP).trans hstore

theorem toNat_ofInt {i : Nat} (hi : i < 16) : (UInt8.ofInt i).toNat % 16 = i := by
  have hmod : ((i : Int) % 2 ^ 8).toNat = i := by omega
  rw [UInt8.ofInt, hmod, UInt8.toNat_ofNat']
  omega

/-- A row of any length leaves the other pages. -/
theorem ram_sendRow_of_ne {i : Nat} (hi : i < 16) (bytes : List UInt8) {P : Nat} (hP : P ≠ i) :
    (c.run (sendRow i bytes)).ram P = c.ram P := by
  rw [sendRow, run_append, run_append, run_setPageAddress, run_setColumnAddress, toNat_ofInt hi]
  exact (run_dat _ bytes).2 P hP

/-- A row that is no longer than the column register allows is written from column 0 on. -/
theorem ram_sendRow {i : Nat} (hi : i < 16) {bytes : List UInt8} (hlen : bytes.length < 256) (C : Nat) :
    (c.run (sendRow i bytes)).ram i C = if C < bytes.length then bytes.getD C 0 else c.ram i C := by
  have hmap : bytes.map Transfer.dat = (List.range bytes.length).map fun k => .dat (bytes.getD k 0) := by
    apply List.ext_getElem
    · simp
    · intro k hk hk'
      simp at hk ⊢
      rw [List.getElem?_eq_getElem hk, Option.getD_some]
  have hzero : (0 : UInt8).toNat + bytes.length < 256 := by
    rw [UInt8.toNat_zero, Nat.zero_add]
    exact hlen
  rw [sendRow, hmap, run_page _ _ _ _ hzero]
  dsimp only
  rw [toNat_ofInt hi, UInt8.toNat_zero, writeRow]
  by_cases hC : C < bytes.length
  · rw [if_pos ⟨rfl, Nat.zero_le C, by omega⟩, if_pos hC, Nat.sub_zero]
  · rw [if_neg (fun h => hC (by omega)), if_neg hC]

/-! ### A range of rows -/

/-- The rows of a range, each on its page. -/
theorem ram_rows (bytes : Int → List UInt8) {start n : Nat}
    (hlen : ∀ i : Nat, start ≤ i → i < start + n → (bytes i).length < 256)
    (hpages : 0 < n → start + n ≤ 16) (P C : Nat) :
    (c.run ((Py.rangeFrom start n).flatMap fun i => sendRow i (bytes i))).ram P C =
      if (start ≤ P ∧ P < start + n) ∧ C < (bytes P).length then (bytes P).getD C 0 else c.ram P C := by
  induction n with
  | zero => exact (if_neg (by omega)).symm
  | succ n ih =>
      have hsplit : Py.rangeFrom start (n + 1) = Py.rangeFrom start n ++ [((start + n : Nat) : Int)] := by
        simp [Py.rangeFrom, List.range_succ]
      have ih := ih (fun i h0 h1 => hlen i h0 (by omega)) (by omega)
      rw [hsplit, List.flatMap_append, run_append, List.flatMap_singleton]
      by_cases hP : P = start + n
      · subst hP
        rw [ram_sendRow _ (by omega) (hlen _ (by omega) (by omega)), ih]
        by_cases hC : C < (bytes (start + n : Nat)).length
        · rw [if_pos hC, if_pos ⟨by omega, hC⟩]
        · rw [if_neg hC, if_neg (by omega), if_neg (fun h => hC h.2)]
      · rw [ram_sendRow_of_ne _ (by omega) _ hP, ih]
        by_cases hin : (start ≤ P ∧ P < start + n) ∧ C < (bytes P).length
        · rw [if_pos hin, if_pos ⟨by omega, hin.2⟩]
        · rw [if_neg hin, if_neg (fun h => hin ⟨by omega, h.2⟩)]

end Controller

/-- What an upload of rows above the state line leaves on their pages: the new bytes, and beyond them the
old ones. -/
theorem upload_ram {row : Int → Except Py.Err (List UInt8)} {bytes : Int → List UInt8} {start stop : Int}
    (hrow : ∀ i, start ≤ i → i < stop → row i = .ok (bytes i) ∧ (bytes i).length < 256)
    (hstart : 0 ≤ start) (hstop : stop ≤ 7) (state : List Char) :
    ∃ stream, upload row start stop state = .ok stream ∧ ∀ (c : Controller) (P C : Nat), P < 7 →
      (c.run stream).ram P C =
        if (start ≤ P ∧ P < stop) ∧ C < (bytes P).length then (bytes P).getD C 0 else c.ram P C := by
  have hrows : (Py.rangeFrom start (stop - start).toNat).mapM (fun i => do
      let bytes ← row i
      pure (sendRow i bytes)) =
        .ok ((Py.rangeFrom start (stop - start).toNat).map fun i => sendRow i (bytes i)) := by
    apply Py.mapM_eq_ok
    intro i hi
    obtain ⟨k, hk, rfl⟩ := List.mem_map.mp hi
    have hlt := List.mem_range.mp hk
    rw [(hrow _ (by omega) (by omega)).1]
    rfl
  refine ⟨_, by rw [upload, hrows]; rfl, fun c P C hP => ?_⟩
  obtain ⟨n, rfl⟩ := Int.eq_ofNat_of_zero_le hstart
  have hseven : stateLine state = sendRow ((7 : Nat) : Int) (render (state.map fun chr => (chr, true))) := rfl
  rw [Controller.run_append, hseven, Controller.ram_sendRow_of_ne _ (by omega) _ (by omega),
    ← List.flatMap_def, Controller.ram_rows _ _ (fun i h0 h1 => (hrow i (by omega) (by omega)).2) (by omega)]
  by_cases hin : ((n : Int) ≤ P ∧ (P : Int) < stop) ∧ C < (bytes P).length
  · rw [if_pos hin, if_pos ⟨by omega, hin.2⟩]
  · rw [if_neg hin, if_neg (fun h => hin ⟨by omega, h.2⟩)]

end CalSci.Lcd
