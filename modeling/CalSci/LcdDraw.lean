import CalSci.LcdModel
import Mathlib.Data.List.GetD
import Mathlib.Logic.Function.Basic

/-! The effect of the driver's streams on the display. The ST7565 controller is modelled by what the
driver relies on: commands that select a page and the two nibbles of the column, and data bytes that are
stored at the current address, after which the column advances. Drawing a buffer then writes a rectangle
of the display RAM and nothing else. -/

namespace CalSci.Lcd

/-- The RAM by page and column, the page register and the 8-bit column register. -/
structure Controller where
  ram : Nat → Nat → UInt8
  page : Nat
  column : Nat

namespace Controller

/-- A command: `0xB0 | n` selects page `n`, `0x10 | h` and `0x00 | l` set a nibble of the column; no
other command changes an address or the RAM. -/
def command (c : Controller) (v : UInt8) : Controller :=
  if v &&& 0xF0 = 0xB0 then { c with page := (v &&& 0x0F).toNat }
  else if v &&& 0xF0 = 0x10 then { c with column := (v &&& 0x0F).toNat * 16 + c.column % 16 }
  else if v &&& 0xF0 = 0x00 then { c with column := c.column / 16 * 16 + (v &&& 0x0F).toNat }
  else c

/-- A data byte is stored, and the column advances by one. -/
def store (c : Controller) (v : UInt8) : Controller :=
  { c with
    ram := Function.update c.ram c.page (Function.update (c.ram c.page) c.column v)
    column := (c.column + 1) % 256 }

def receive (c : Controller) : Transfer UInt8 → Controller
  | .cmd v => c.command v
  | .dat v => c.store v

def run (c : Controller) (stream : List (Transfer UInt8)) : Controller := stream.foldl receive c

theorem run_append (c : Controller) (s t : List (Transfer UInt8)) :
    c.run (s ++ t) = (c.run s).run t := List.foldl_append

end Controller

/-- The RAM with `n` bytes written on one page from the column `col` on. -/
def writeRow (ram : Nat → Nat → UInt8) (page col n : Nat) (f : Nat → UInt8) : Nat → Nat → UInt8 :=
  fun P C => if P = page ∧ col ≤ C ∧ C < col + n then f (C - col) else ram P C

/-- The RAM with a rectangle written: `f p i` on page `page + p`, column `col + i`. -/
def writeRect (ram : Nat → Nat → UInt8) (page col width pages : Nat) (f : Nat → Nat → UInt8) :
    Nat → Nat → UInt8 := fun P C =>
  if (page ≤ P ∧ P < page + pages) ∧ col ≤ C ∧ C < col + width then f (P - page) (C - col) else ram P C

/-- One more row completes a rectangle that is one page larger. -/
theorem writeRow_writeRect (ram : Nat → Nat → UInt8) (page col width pages : Nat)
    (f : Nat → Nat → UInt8) :
    writeRow (writeRect ram page col width pages f) (page + pages) col width (f pages)
      = writeRect ram page col width (pages + 1) f := by
  funext P C
  simp only [writeRow, writeRect]
  by_cases hP : P = page + pages
  · subst hP
    by_cases hC : col ≤ C ∧ C < col + width
    · rw [if_pos ⟨rfl, hC⟩, if_pos ⟨by omega, hC⟩, Nat.add_sub_cancel_left]
    · rw [if_neg (fun h => hC h.2), if_neg (fun h => hC h.2), if_neg (fun h => hC h.2)]
  · rw [if_neg (fun h => hP h.1)]
    by_cases hin : (page ≤ P ∧ P < page + pages) ∧ col ≤ C ∧ C < col + width
    · rw [if_pos hin, if_pos ⟨by omega, hin.2⟩]
    · rw [if_neg hin, if_neg (fun h => hin ⟨by omega, h.2⟩)]

/-! ### Addresses -/

theorem page_command (p : UInt8) :
    (0xB0 ||| (p &&& 0x0F)) &&& 0xF0 = (0xB0 : UInt8) ∧
      ((0xB0 ||| (p &&& 0x0F)) &&& 0x0F : UInt8).toNat = p.toNat % 16 := by
  have h : ∀ n : Fin 256, (0xB0 ||| (UInt8.ofFin n &&& 0x0F)) &&& 0xF0 = (0xB0 : UInt8) ∧
      ((0xB0 ||| (UInt8.ofFin n &&& 0x0F)) &&& 0x0F : UInt8).toNat = (UInt8.ofFin n).toNat % 16 := by
    decide +kernel
  exact h p.toFin

theorem high_command (c : UInt8) :
    ((0x10 : UInt8) ||| (c >>> 4)) &&& 0xF0 = 0x10 ∧
      (((0x10 : UInt8) ||| (c >>> 4)) &&& 0x0F).toNat = c.toNat / 16 := by
  have h : ∀ n : Fin 256, ((0x10 : UInt8) ||| (UInt8.ofFin n >>> 4)) &&& 0xF0 = 0x10 ∧
      (((0x10 : UInt8) ||| (UInt8.ofFin n >>> 4)) &&& 0x0F).toNat = (UInt8.ofFin n).toNat / 16 := by
    decide +kernel
  exact h c.toFin

theorem low_command (c : UInt8) :
    ((0x00 : UInt8) ||| (c &&& 0x0F)) &&& 0xF0 = 0x00 ∧
      (((0x00 : UInt8) ||| (c &&& 0x0F)) &&& 0x0F).toNat = c.toNat % 16 := by
  have h : ∀ n : Fin 256, ((0x00 : UInt8) ||| (UInt8.ofFin n &&& 0x0F)) &&& 0xF0 = 0x00 ∧
      (((0x00 : UInt8) ||| (UInt8.ofFin n &&& 0x0F)) &&& 0x0F).toNat = (UInt8.ofFin n).toNat % 16 := by
    decide +kernel
  exact h c.toFin

namespace Controller

variable (c : Controller)

theorem run_setPageAddress (p : UInt8) :
    c.run (setPageAddress p) = { c with page := p.toNat % 16 } := by
  obtain ⟨hhigh, hlow⟩ := page_command p
  change c.command _ = _
  rw [command, if_pos hhigh, hlow]

/-- The two nibbles make up the column, whatever it was before. -/
theorem run_setColumnAddress (col : UInt8) :
    c.run (setColumnAddress col) = { c with column := col.toNat } := by
  obtain ⟨hhigh, hhigh'⟩ := high_command col
  obtain ⟨hlow, hlow'⟩ := low_command col
  change (c.command _).command _ = _
  have hfirst : c.command ((0x10 : UInt8) ||| (col >>> 4))
      = { c with column := col.toNat / 16 * 16 + c.column % 16 } := by
    rw [command, hhigh, if_neg (by decide), if_pos rfl, hhigh']
  rw [hfirst, command, hlow, if_neg (by decide), if_neg (by decide), if_pos rfl, hlow']
  dsimp only
  congr 1
  omega

/-- A row of data bytes is written from the current address on. -/
theorem run_data (f : Nat → UInt8) {n : Nat} (hn : c.column + n < 256) :
    c.run ((List.range n).map fun i => .dat (f i)) =
      { c with ram := writeRow c.ram c.page c.column n f, column := c.column + n } := by
  induction n with
  | zero =>
      have hram : writeRow c.ram c.page c.column 0 f = c.ram := by
        funext P C
        exact if_neg (by omega)
      rw [hram]
      rfl
  | succ n ih =>
      rw [List.range_succ, List.map_append, run_append, ih (by omega)]
      change store _ _ = _
      rw [store]
      dsimp only
      rw [Nat.mod_eq_of_lt (by omega)]
      congr 1
      funext P C
      by_cases hP : P = c.page
      · subst hP
        rw [Function.update_self]
        by_cases hC : C = c.column + n
        · subst hC
          rw [Function.update_self, writeRow, if_pos ⟨rfl, by omega⟩, Nat.add_sub_cancel_left]
        · rw [Function.update_of_ne hC, writeRow, writeRow]
          by_cases hin : c.column ≤ C ∧ C < c.column + n
          · rw [if_pos ⟨rfl, hin⟩, if_pos ⟨rfl, by omega⟩]
          · rw [if_neg (fun h => hin h.2), if_neg (fun h => hin (by omega))]
      · rw [Function.update_of_ne hP, writeRow, writeRow, if_neg (fun h => hP h.1),
          if_neg (fun h => hP h.1)]

/-- One pass of the outer loop. -/
theorem run_page (p col : UInt8) (f : Nat → UInt8) {width : Nat} (hwidth : col.toNat + width < 256) :
    c.run (setPageAddress p ++ setColumnAddress col ++ (List.range width).map fun i => .dat (f i)) =
      ⟨writeRow c.ram (p.toNat % 16) col.toNat width f, p.toNat % 16, col.toNat + width⟩ := by
  rw [run_append, run_append, run_setPageAddress, run_setColumnAddress, run_data]
  exact hwidth

/-- The nested loops write a rectangle. -/
theorem ram_run_drawBufferEx (buf : Nat → UInt8) (page col width pages : UInt8)
    (hpages : page.toNat + pages.toNat ≤ 8) (hcols : col.toNat + width.toNat ≤ 132) :
    (c.run (drawBufferEx buf page col width pages)).ram =
      writeRect c.ram page.toNat col.toNat width.toNat pages.toNat
        fun p i => buf (p * width.toNat + i) := by
  unfold drawBufferEx
  obtain ⟨n, hn⟩ : ∃ n, pages.toNat = n := ⟨_, rfl⟩
  rw [hn] at hpages ⊢
  clear hn
  induction n with
  | zero =>
      funext P C
      exact (if_neg (by omega)).symm
  | succ n ih =>
      have hpage : (UInt8.ofNat (page.toNat + n)).toNat % 16 = page.toNat + n := by
        rw [UInt8.toNat_ofNat']
        omega
      rw [List.range_succ, List.flatMap_append, run_append, List.flatMap_singleton,
        run_page _ _ _ _ (by omega), ih (by omega), hpage, writeRow_writeRect]

end Controller

/-- `clear_display` sends what `draw_buffer_ex` would send for a buffer of zeros. -/
theorem clearDisplay_eq : clearDisplay = drawBufferEx (fun _ => 0) 0 0 128 8 := by
  have hpage : ∀ p : Nat, (0 : UInt8).toNat + p = p := fun p => Nat.zero_add p
  simp only [drawBufferEx, hpage]
  rfl

/-- Drawing a buffer changes the rectangle it is drawn to, byte by byte, and nothing else; clearing the
display is the instance with zeros on pages 0 to 7, columns 0 to 127. -/
theorem draw_writes_rectangle (c : Controller) (page col width pages : UInt8)
    (hpages : page.toNat + pages.toNat ≤ 8) (hcols : col.toNat + width.toNat ≤ 132)
    (bytes : List UInt8) (hlen : bytes.length = width.toNat * pages.toNat) :
    (∀ p i, p < pages.toNat → i < width.toNat →
      bytes[p * width.toNat + i]? = some
        ((c.run (drawBufferEx (fun k => bytes.getD k 0) page col width pages)).ram
          (page.toNat + p) (col.toNat + i))) ∧
    (∀ P C, ¬ ((page.toNat ≤ P ∧ P < page.toNat + pages.toNat) ∧
        col.toNat ≤ C ∧ C < col.toNat + width.toNat) →
      (c.run (drawBufferEx (fun k => bytes.getD k 0) page col width pages)).ram P C = c.ram P C) ∧
    clearDisplay = drawBufferEx (fun _ => 0) 0 0 128 8 ∧
    (∀ P C, (c.run clearDisplay).ram P C = if P < 8 ∧ C < 128 then 0 else c.ram P C) := by
  rw [c.ram_run_drawBufferEx _ page col width pages hpages hcols]
  refine ⟨fun p i hp hi => ?_, fun P C hout => if_neg hout, clearDisplay_eq, fun P C => ?_⟩
  · have hlt : p * width.toNat + i < bytes.length := by
      have hrow : (p + 1) * width.toNat ≤ pages.toNat * width.toNat := Nat.mul_le_mul_right _ hp
      rw [Nat.succ_mul] at hrow
      rw [hlen, Nat.mul_comm width.toNat]
      omega
    rw [writeRect, if_pos (by omega), Nat.add_sub_cancel_left, Nat.add_sub_cancel_left,
      List.getElem?_eq_getElem hlt, List.getD_eq_getElem _ _ hlt]
  · rw [clearDisplay_eq, c.ram_run_drawBufferEx _ 0 0 128 8 (by decide) (by decide), writeRect]
    have hiff : ((UInt8.toNat 0 ≤ P ∧ P < UInt8.toNat 0 + UInt8.toNat 8) ∧
        UInt8.toNat 0 ≤ C ∧ C < UInt8.toNat 0 + UInt8.toNat 128) ↔ P < 8 ∧ C < 128 := by
      simp
    simp only [hiff]

/-- Two bytes on page 1, from column 2 on, over a RAM of ones. -/
theorem draw_writes_rectangle_short :
    let c : Controller := ⟨fun _ _ => 1, 0, 0⟩
    let after := (c.run (drawBufferEx (fun k => [0x0f, 0xf0].getD k 0) 1 2 2 1)).ram
    (∀ p i, p < 1 → i < 2 → [0x0f, 0xf0][p * 2 + i]? = some (after (1 + p) (2 + i))) ∧
      (∀ P C, ¬ ((1 ≤ P ∧ P < 1 + 1) ∧ 2 ≤ C ∧ C < 2 + 2) → after P C = 1) := by
  intro c after
  obtain ⟨hin, hout, -, -⟩ :=
    draw_writes_rectangle c 1 2 2 1 (by decide) (by decide) [0x0f, 0xf0] (by decide)
  exact ⟨hin, hout⟩

end CalSci.Lcd
