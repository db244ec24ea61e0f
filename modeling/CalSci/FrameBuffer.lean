import Mathlib.Data.Finset.Prod
import Mathlib.Data.Finset.Lattice.Fold
import Mathlib.Data.Int.Order.Basic

/-! The drawing calls of `framebuf` the graph app makes, on a buffer of 128 by 64 single bits. A frame is the set of
its lit pixels; drawing in colour 1 only adds pixels, `fill(0)` empties the frame. -/

namespace CalSci.FrameBuffer

/-- A column and a row; drawing calls take any integers and clip. -/
abbrev Pixel := Int × Int

/-- The clipping test made before every `setpixel`. -/
def Onscreen (p : Pixel) : Prop := 0 ≤ p.1 ∧ p.1 < 128 ∧ 0 ≤ p.2 ∧ p.2 < 64

instance : DecidablePred Onscreen := fun p =>
  inferInstanceAs (Decidable (0 ≤ p.1 ∧ p.1 < 128 ∧ 0 ≤ p.2 ∧ p.2 < 64))

/-- The lit pixels of the buffer. -/
abbrev Frame := Finset Pixel

/-- The loop of `line`, `dx` turns along the long direction; `steep` says that the two directions are swapped. -/
def march (steep : Bool) (sx sy dx dy : Int) : Nat → Int → Int → Int → List Pixel
  | 0, _, _, _ => []
  | i + 1, x1, y1, e =>
      -- how often `while (e >= 0) { y1 += sy; e -= 2 * dx; }` turns
      let turns := if 0 ≤ e then e / (2 * dx) + 1 else 0
      (if steep then (y1, x1) else (x1, y1)) ::
        march steep sx sy dx dy i (x1 + sx) (y1 + turns * sy) (e - turns * (2 * dx) + 2 * dy)

/-- The pixels `line` sets, before clipping. -/
def linePixels (x1 y1 x2 y2 : Int) : List Pixel :=
  let dx : Int := (x2 - x1).natAbs
  let sx := if 0 < x2 - x1 then 1 else -1
  let dy : Int := (y2 - y1).natAbs
  let sy := if 0 < y2 - y1 then 1 else -1
  let walked :=
    if dx < dy then march true sy sx dy dx dy.toNat y1 x1 (2 * dx - dy)
    else march false sx sy dx dy dx.toNat x1 y1 (2 * dy - dx)
  walked ++ [(x2, y2)]

/-- `font_petme128_8x8`: the columns of the characters from 32 on, lowest bit at the top. -/
def fontPetme128 : List (List UInt8) :=
  [
    [0x00, 0x00, 0x00, 0x00, 0x00, 0x00, 0x00, 0x00], [0x00, 0x00, 0x00, 0x4f, 0x4f, 0x00, 0x00, 0x00],
    [0x00, 0x07, 0x07, 0x00, 0x00, 0x07, 0x07, 0x00], [0x14, 0x7f, 0x7f, 0x14, 0x14, 0x7f, 0x7f, 0x14],
    [0x00, 0x24, 0x2e, 0x6b, 0x6b, 0x3a, 0x12, 0x00], [0x00, 0x63, 0x33, 0x18, 0x0c, 0x66, 0x63, 0x00],
    [0x00, 0x32, 0x7f, 0x4d, 0x4d, 0x77, 0x72, 0x50], [0x00, 0x00, 0x00, 0x04, 0x06, 0x03, 0x01, 0x00],
    [0x00, 0x00, 0x1c, 0x3e, 0x63, 0x41, 0x00, 0x00], [0x00, 0x00, 0x41, 0x63, 0x3e, 0x1c, 0x00, 0x00],
    [0x08, 0x2a, 0x3e, 0x1c, 0x1c, 0x3e, 0x2a, 0x08], [0x00, 0x08, 0x08, 0x3e, 0x3e, 0x08, 0x08, 0x00],
    [0x00, 0x00, 0x80, 0xe0, 0x60, 0x00, 0x00, 0x00], [0x00, 0x08, 0x08, 0x08, 0x08, 0x08, 0x08, 0x00],
    [0x00, 0x00, 0x00, 0x60, 0x60, 0x00, 0x00, 0x00], [0x00, 0x40, 0x60, 0x30, 0x18, 0x0c, 0x06, 0x02],
    [0x00, 0x3e, 0x7f, 0x49, 0x45, 0x7f, 0x3e, 0x00], [0x00, 0x40, 0x44, 0x7f, 0x7f, 0x40, 0x40, 0x00],
    [0x00, 0x62, 0x73, 0x51, 0x49, 0x4f, 0x46, 0x00], [0x00, 0x22, 0x63, 0x49, 0x49, 0x7f, 0x36, 0x00],
    [0x00, 0x18, 0x18, 0x14, 0x16, 0x7f, 0x7f, 0x10], [0x00, 0x27, 0x67, 0x45, 0x45, 0x7d, 0x39, 0x00],
    [0x00, 0x3e, 0x7f, 0x49, 0x49, 0x7b, 0x32, 0x00], [0x00, 0x03, 0x03, 0x79, 0x7d, 0x07, 0x03, 0x00],
    [0x00, 0x36, 0x7f, 0x49, 0x49, 0x7f, 0x36, 0x00], [0x00, 0x26, 0x6f, 0x49, 0x49, 0x7f, 0x3e, 0x00],
    [0x00, 0x00, 0x00, 0x24, 0x24, 0x00, 0x00, 0x00], [0x00, 0x00, 0x80, 0xe4, 0x64, 0x00, 0x00, 0x00],
    [0x00, 0x08, 0x1c, 0x36, 0x63, 0x41, 0x41, 0x00], [0x00, 0x14, 0x14, 0x14, 0x14, 0x14, 0x14, 0x00],
    [0x00, 0x41, 0x41, 0x63, 0x36, 0x1c, 0x08, 0x00], [0x00, 0x02, 0x03, 0x51, 0x59, 0x0f, 0x06, 0x00],
    [0x00, 0x3e, 0x7f, 0x41, 0x4d, 0x4f, 0x2e, 0x00], [0x00, 0x7c, 0x7e, 0x0b, 0x0b, 0x7e, 0x7c, 0x00],
    [0x00, 0x7f, 0x7f, 0x49, 0x49, 0x7f, 0x36, 0x00], [0x00, 0x3e, 0x7f, 0x41, 0x41, 0x63, 0x22, 0x00],
    [0x00, 0x7f, 0x7f, 0x41, 0x63, 0x3e, 0x1c, 0x00], [0x00, 0x7f, 0x7f, 0x49, 0x49, 0x41, 0x41, 0x00],
    [0x00, 0x7f, 0x7f, 0x09, 0x09, 0x01, 0x01, 0x00], [0x00, 0x3e, 0x7f, 0x41, 0x49, 0x7b, 0x3a, 0x00],
    [0x00, 0x7f, 0x7f, 0x08, 0x08, 0x7f, 0x7f, 0x00], [0x00, 0x00, 0x41, 0x7f, 0x7f, 0x41, 0x00, 0x00],
    [0x00, 0x20, 0x60, 0x41, 0x7f, 0x3f, 0x01, 0x00], [0x00, 0x7f, 0x7f, 0x1c, 0x36, 0x63, 0x41, 0x00],
    [0x00, 0x7f, 0x7f, 0x40, 0x40, 0x40, 0x40, 0x00], [0x00, 0x7f, 0x7f, 0x06, 0x0c, 0x06, 0x7f, 0x7f],
    [0x00, 0x7f, 0x7f, 0x0e, 0x1c, 0x7f, 0x7f, 0x00], [0x00, 0x3e, 0x7f, 0x41, 0x41, 0x7f, 0x3e, 0x00],
    [0x00, 0x7f, 0x7f, 0x09, 0x09, 0x0f, 0x06, 0x00], [0x00, 0x1e, 0x3f, 0x21, 0x61, 0x7f, 0x5e, 0x00],
    [0x00, 0x7f, 0x7f, 0x19, 0x39, 0x6f, 0x46, 0x00], [0x00, 0x26, 0x6f, 0x49, 0x49, 0x7b, 0x32, 0x00],
    [0x00, 0x01, 0x01, 0x7f, 0x7f, 0x01, 0x01, 0x00], [0x00, 0x3f, 0x7f, 0x40, 0x40, 0x7f, 0x3f, 0x00],
    [0x00, 0x1f, 0x3f, 0x60, 0x60, 0x3f, 0x1f, 0x00], [0x00, 0x7f, 0x7f, 0x30, 0x18, 0x30, 0x7f, 0x7f],
    [0x00, 0x63, 0x77, 0x1c, 0x1c, 0x77, 0x63, 0x00], [0x00, 0x07, 0x0f, 0x78, 0x78, 0x0f, 0x07, 0x00],
    [0x00, 0x61, 0x71, 0x59, 0x4d, 0x47, 0x43, 0x00], [0x00, 0x00, 0x7f, 0x7f, 0x41, 0x41, 0x00, 0x00],
    [0x00, 0x02, 0x06, 0x0c, 0x18, 0x30, 0x60, 0x40], [0x00, 0x00, 0x41, 0x41, 0x7f, 0x7f, 0x00, 0x00],
    [0x00, 0x08, 0x0c, 0x06, 0x06, 0x0c, 0x08, 0x00], [0xc0, 0xc0, 0xc0, 0xc0, 0xc0, 0xc0, 0xc0, 0xc0],
    [0x00, 0x00, 0x01, 0x03, 0x06, 0x04, 0x00, 0x00], [0x00, 0x20, 0x74, 0x54, 0x54, 0x7c, 0x78, 0x00],
    [0x00, 0x7f, 0x7f, 0x44, 0x44, 0x7c, 0x38, 0x00], [0x00, 0x38, 0x7c, 0x44, 0x44, 0x6c, 0x28, 0x00],
    [0x00, 0x38, 0x7c, 0x44, 0x44, 0x7f, 0x7f, 0x00], [0x00, 0x38, 0x7c, 0x54, 0x54, 0x5c, 0x58, 0x00],
    [0x00, 0x08, 0x7e, 0x7f, 0x09, 0x03, 0x02, 0x00], [0x00, 0x98, 0xbc, 0xa4, 0xa4, 0xfc, 0x7c, 0x00],
    [0x00, 0x7f, 0x7f, 0x04, 0x04, 0x7c, 0x78, 0x00], [0x00, 0x00, 0x00, 0x7d, 0x7d, 0x00, 0x00, 0x00],
    [0x00, 0x40, 0xc0, 0x80, 0x80, 0xfd, 0x7d, 0x00], [0x00, 0x7f, 0x7f, 0x30, 0x38, 0x6c, 0x44, 0x00],
    [0x00, 0x00, 0x41, 0x7f, 0x7f, 0x40, 0x00, 0x00], [0x00, 0x7c, 0x7c, 0x18, 0x30, 0x18, 0x7c, 0x7c],
    [0x00, 0x7c, 0x7c, 0x04, 0x04, 0x7c, 0x78, 0x00], [0x00, 0x38, 0x7c, 0x44, 0x44, 0x7c, 0x38, 0x00],
    [0x00, 0xfc, 0xfc, 0x24, 0x24, 0x3c, 0x18, 0x00], [0x00, 0x18, 0x3c, 0x24, 0x24, 0xfc, 0xfc, 0x00],
    [0x00, 0x7c, 0x7c, 0x04, 0x04, 0x0c, 0x08, 0x00], [0x00, 0x48, 0x5c, 0x54, 0x54, 0x74, 0x20, 0x00],
    [0x04, 0x04, 0x3f, 0x7f, 0x44, 0x64, 0x20, 0x00], [0x00, 0x3c, 0x7c, 0x40, 0x40, 0x7c, 0x3c, 0x00],
    [0x00, 0x1c, 0x3c, 0x60, 0x60, 0x3c, 0x1c, 0x00], [0x00, 0x1c, 0x7c, 0x30, 0x18, 0x30, 0x7c, 0x1c],
    [0x00, 0x44, 0x6c, 0x38, 0x38, 0x6c, 0x44, 0x00], [0x00, 0x9c, 0xbc, 0xa0, 0xa0, 0xfc, 0x7c, 0x00],
    [0x00, 0x44, 0x64, 0x74, 0x5c, 0x4c, 0x44, 0x00], [0x00, 0x08, 0x08, 0x3e, 0x77, 0x41, 0x41, 0x00],
    [0x00, 0x00, 0x00, 0xff, 0xff, 0x00, 0x00, 0x00], [0x00, 0x41, 0x41, 0x77, 0x3e, 0x08, 0x08, 0x00],
    [0x00, 0x02, 0x03, 0x01, 0x03, 0x02, 0x03, 0x01], [0xaa, 0x55, 0xaa, 0x55, 0xaa, 0x55, 0xaa, 0x55]]

def chrData (chr : UInt8) : List UInt8 :=
  let chr := if chr < 32 ∨ chr > 127 then 127 else chr.toNat
  fontPetme128.getD (chr - 32) []

/-- The pixels of a column of a character, before clipping. -/
def columnPixels (x0 y0 : Int) (vlineData : UInt8) : List Pixel :=
  ((List.range 8).filter vlineData.toNat.testBit).map fun bit => (x0, y0 + bit)

/-- The pixels `text` sets, before clipping; a zero byte ends the text. -/
def textPixels : List UInt8 → Int → Int → List Pixel
  | [], _, _ => []
  | chr :: str, x0, y0 =>
      if chr = 0 then []
      else
        ((chrData chr).zipIdx.flatMap fun column => columnPixels (x0 + column.2) y0 column.1) ++
          textPixels str (x0 + 8) y0

def asciiBytes (str : List Char) : List UInt8 := str.map fun chr => UInt8.ofNat chr.toNat

inductive Command
  | pixel (x y : Int)
  | line (x1 y1 x2 y2 : Int)
  | text (str : List Char) (x0 y0 : Int)
  deriving DecidableEq

/-- The pixels a call sets, before clipping. -/
def Command.pixels : Command → List Pixel
  | .pixel x y => [(x, y)]
  | .line x1 y1 x2 y2 => linePixels x1 y1 x2 y2
  | .text str x0 y0 => textPixels (asciiBytes str) x0 y0

def Command.run (frame : Frame) (call : Command) : Frame := frame ∪ (call.pixels.filter Onscreen).toFinset

def draw (frame : Frame) (calls : List Command) : Frame := calls.foldl Command.run frame

def cleared : Frame := ∅

/-- `p` is an on-screen pixel of one of the calls. -/
def Lights (calls : List Command) (p : Pixel) : Prop := Onscreen p ∧ ∃ call ∈ calls, p ∈ call.pixels

@[simp]
theorem not_mem_cleared (p : Pixel) : p ∉ cleared := Finset.notMem_empty p

theorem Command.mem_run {frame : Frame} {call : Command} {p : Pixel} :
    p ∈ call.run frame ↔ p ∈ frame ∨ Onscreen p ∧ p ∈ call.pixels := by
  rw [Command.run, Finset.mem_union, List.mem_toFinset, List.mem_filter, decide_eq_true_iff,
    and_comm (a := Onscreen p)]

/-- What the calls add to a frame does not depend on the frame. -/
theorem mem_draw {calls : List Command} {frame : Frame} {p : Pixel} :
    p ∈ draw frame calls ↔ p ∈ frame ∨ Lights calls p := by
  induction calls generalizing frame with
  | nil => simp [draw, Lights]
  | cons call calls ih =>
      have hcons : draw frame (call :: calls) = draw (call.run frame) calls := rfl
      rw [hcons, ih, Command.mem_run, or_assoc]
      apply or_congr_right
      simp only [Lights, List.mem_cons, exists_eq_or_imp]
      tauto

theorem mem_draw_cleared {calls : List Command} {p : Pixel} : p ∈ draw cleared calls ↔ Lights calls p := by
  rw [mem_draw]
  simp

theorem lights_append {before after : List Command} {p : Pixel} :
    Lights (before ++ after) p ↔ Lights before p ∨ Lights after p := by
  simp only [Lights, List.mem_append]
  constructor
  · rintro ⟨hon, call, hbefore | hafter, hp⟩
    · exact Or.inl ⟨hon, call, hbefore, hp⟩
    · exact Or.inr ⟨hon, call, hafter, hp⟩
  · rintro (⟨hon, call, hbefore, hp⟩ | ⟨hon, call, hafter, hp⟩)
    · exact ⟨hon, call, Or.inl hbefore, hp⟩
    · exact ⟨hon, call, Or.inr hafter, hp⟩

instance (calls : List Command) : DecidablePred (Lights calls) := fun p =>
  inferInstanceAs (Decidable (Onscreen p ∧ ∃ call ∈ calls, p ∈ call.pixels))

/-- Drawing on a frame gives the picture of an empty frame exactly when everything lit before is lit by the calls
anyway. -/
theorem draw_eq_draw_cleared_iff {calls : List Command} {frame : Frame} :
    draw frame calls = draw cleared calls ↔ ∀ p ∈ frame, Lights calls p := by
  constructor
  · intro heq p hp
    rw [← mem_draw_cleared, ← heq, mem_draw]
    exact Or.inl hp
  · intro hframe
    ext p
    rw [mem_draw, mem_draw_cleared]
    constructor
    · rintro (hp | hp)
      · exact hframe p hp
      · exact hp
    · exact Or.inr

end CalSci.FrameBuffer
