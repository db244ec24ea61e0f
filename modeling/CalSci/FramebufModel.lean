import CalSci.PackedCells
import CalSci.PySequence
import CalSci.FrameBuffer

/-! The bytes behind `framebuf`: `extmod/modframebuf.c` as this firmware has it, with a log of the bytes each
`setpixel` touches. A buffer is the memory from its first byte on, so that a write past its end has a place to go to;
pixels are unsigned integers, the arguments of the drawing calls integers on whose sums no C `int` overflows. -/

namespace CalSci.Framebuf

open PackedCells (Memory)

inductive Format where
  | mvlsb
  | rgb565
  | gs4Hmsb
  | mhlsb
  | mhmsb
  | gs2Hmsb
  | gs8
  deriving DecidableEq, Repr

/-- The numbers `framebuf` gives the formats. -/
def Format.ofInt : Int → Option Format
  | 0 => some mvlsb
  | 1 => some rgb565
  | 2 => some gs4Hmsb
  | 3 => some mhlsb
  | 4 => some mhmsb
  | 5 => some gs2Hmsb
  | 6 => some gs8
  | _ => none

/-- What stays the same in a `FrameBuffer` object; `len` is the length of the buffer it was given. -/
structure Layout where
  format : Format
  width : ℕ
  height : ℕ
  stride : ℕ
  len : ℕ
  deriving DecidableEq, Repr

/-- What drawing changes: the bytes, and the log of their indexes. -/
@[ext]
structure Drawing where
  buf : Memory
  changed : List UInt16 := []
  changedCleared : Bool := false

/-- `(n + k - 1) & ~(k - 1)`. -/
def roundUp (k n : ℕ) : ℕ := (n + (k - 1)) / k * k

/-- The `switch` of `framebuf_make_new_helper`: `stride`, `width_required`, `height_required`, `strides_required`
and `bpp`. -/
def Format.requires (format : Format) (width height stride : ℕ) : ℕ × ℕ × ℕ × ℕ × ℕ :=
  match format with
  | .mvlsb => (stride, width, roundUp 8 height, roundUp 8 height - 8, 1)
  | .mhlsb | .mhmsb => (roundUp 8 stride, roundUp 8 width, height, height - 1, 1)
  | .gs2Hmsb => (roundUp 4 stride, roundUp 4 width, height, height - 1, 2)
  | .gs4Hmsb => (roundUp 2 stride, roundUp 2 width, height, height - 1, 4)
  | .gs8 => (stride, width, height, height - 1, 8)
  | .rgb565 => (stride, width, height, height - 1, 16)

/-- The bits a buffer must hold. -/
def Format.bits (format : Format) (width height stride : ℕ) : ℕ :=
  let (stride, widthRequired, heightRequired, stridesRequired, bpp) := format.requires width height stride
  (stridesRequired * stride + (heightRequired - stridesRequired) * widthRequired) * bpp

/-- `framebuf_make_new_helper`, for a buffer of `len` bytes. `needed` is computed in 32 bits. -/
def makeNew (len : ℕ) (width height format : Int) (stride : Int := width) : Except Py.Err Layout :=
  if width < 1 ∨ height < 1 ∨ width > 0xffff ∨ height > 0xffff ∨ stride > 0xffff ∨ stride < width then
    .error (.valueError "")
  else match Format.ofInt format with
    | none => .error (.valueError "invalid format")
    | some f =>
        let needed := f.bits width.toNat height.toNat stride.toNat % 2 ^ 32 / 8
        if needed > len then .error (.valueError "")
        else .ok ⟨f, width.toNat, height.toNat, (f.requires width.toNat height.toNat stride.toNat).1, len⟩

namespace Drawing

/-- What each `setpixel` does to the log: the first one after `fill` empties it, and the index is kept, in 16 bits,
while there is room. -/
def log (d : Drawing) (capacity index : ℕ) : Drawing :=
  let changed := if d.changedCleared then d.changed else []
  { d with
    changed := if changed.length < capacity then changed ++ [UInt16.ofNat index] else changed
    changedCleared := true }

/-- `*b = f(*b)`. -/
def poke (d : Drawing) (b : ℕ) (f : UInt8 → UInt8) : Drawing :=
  { d with buf := Function.update d.buf b (f (d.buf b)) }

/-- A loop of `n` turns over the bytes from `b` on, `step` apart. -/
def pokes (d : Drawing) (b step : ℕ) (f : UInt8 → UInt8) : ℕ → Drawing
  | 0 => d
  | n + 1 => (d.poke b f).pokes (b + step) step f n

end Drawing

def lit (col : UInt32) : UInt8 := if col = 0 then 0 else 1

/-- `(b & ~(0x01 << offset)) | ((col != 0) << offset)`. -/
def setBit (offset : ℕ) (col : UInt32) (b : UInt8) : UInt8 :=
  (b &&& ~~~((0x01 : UInt8) <<< UInt8.ofNat offset)) ||| (lit col <<< UInt8.ofNat offset)

/-! ### One pixel -/

variable (l : Layout) (d : Drawing)

/-- The way five of the six `setpixel` functions start. -/
def checkedSetpixel (x y index : ℕ) (store : Drawing → Drawing) : Except Py.Err Drawing :=
  if l.width ≤ x ∨ l.height ≤ y then .error (.valueError "pixel out of bounds")
  else .ok (store (d.log l.len index))

/-- The bit of a column in the two horizontal formats. -/
def horizOffset (x : ℕ) : ℕ := if l.format = .mhmsb then x % 8 else 7 - x % 8

def monoHorizSetpixel (x y : ℕ) (col : UInt32) : Except Py.Err Drawing :=
  let index := (x + y * l.stride) / 8
  checkedSetpixel l d x y index (Drawing.poke · index (setBit (horizOffset l x) col))

def monoHorizGetpixel (x y : ℕ) : UInt32 :=
  ((d.buf ((x + y * l.stride) / 8) >>> UInt8.ofNat (horizOffset l x)) &&& 0x01).toUInt32

def mvlsbSetpixel (x y : ℕ) (col : UInt32) : Except Py.Err Drawing :=
  let index := y / 8 * l.stride + x
  checkedSetpixel l d x y index (Drawing.poke · index (setBit (y % 8) col))

def mvlsbGetpixel (x y : ℕ) : UInt32 :=
  ((d.buf (y / 8 * l.stride + x) >>> UInt8.ofNat (y % 8)) &&& 0x01).toUInt32

/-- `rgb565_setpixel`: the high byte first. -/
def rgb565Setpixel (x y : ℕ) (col : UInt32) : Except Py.Err Drawing :=
  let index := 2 * (x + y * l.stride) % 2 ^ 32
  checkedSetpixel l d x y index fun d =>
    (d.poke index fun _ => (col >>> 8).toUInt8).poke (index + 1) fun _ => (col &&& 0xFF).toUInt8

/-- `rgb565_getpixel` reads a `uint16_t`, on a little-endian machine. -/
def rgb565Getpixel (x y : ℕ) : UInt32 :=
  (d.buf (2 * (x + y * l.stride))).toUInt32 + 256 * (d.buf (2 * (x + y * l.stride) + 1)).toUInt32

def gs2HmsbSetpixel (x y : ℕ) (col : UInt32) : Except Py.Err Drawing :=
  let index := x / 4 + y * l.stride
  let shift := UInt8.ofNat (6 - 2 * (x % 4))
  checkedSetpixel l d x y index (Drawing.poke · index fun b =>
    (b &&& ~~~((0x03 : UInt8) <<< shift)) ||| ((col &&& 0x03).toUInt8 <<< shift))

def gs2HmsbGetpixel (x y : ℕ) : UInt32 :=
  ((d.buf ((x + y * l.stride) / 4) >>> UInt8.ofNat (x % 4 * 2)) &&& 0x3).toUInt32

/-- `gs4_hmsb_setpixel`, which checks no bounds. -/
def gs4HmsbSetpixel (x y : ℕ) (col : UInt32) : Except Py.Err Drawing :=
  let index := (x + y * l.stride) / 2
  .ok ((d.log l.len index).poke index fun p =>
    if x % 2 = 1 then (col &&& 0x0F).toUInt8 ||| (p &&& 0xF0) else (col.toUInt8 <<< 4) ||| (p &&& 0x0F))

def gs4HmsbGetpixel (x y : ℕ) : UInt32 :=
  if x % 2 = 1 then (d.buf ((x + y * l.stride) / 2) &&& 0x0f).toUInt32
  else (d.buf ((x + y * l.stride) / 2) >>> 4).toUInt32

def gs8Setpixel (x y : ℕ) (col : UInt32) : Except Py.Err Drawing :=
  let index := x + y * l.stride
  checkedSetpixel l d x y index (Drawing.poke · index fun _ => col.toUInt8)

def gs8Getpixel (x y : ℕ) : UInt32 := (d.buf (x + y * l.stride)).toUInt32

def setpixel (x y : ℕ) (col : UInt32) : Except Py.Err Drawing :=
  match l.format with
  | .mvlsb => mvlsbSetpixel l d x y col
  | .rgb565 => rgb565Setpixel l d x y col
  | .gs2Hmsb => gs2HmsbSetpixel l d x y col
  | .gs4Hmsb => gs4HmsbSetpixel l d x y col
  | .gs8 => gs8Setpixel l d x y col
  | .mhlsb | .mhmsb => monoHorizSetpixel l d x y col

def getpixel (x y : ℕ) : UInt32 :=
  match l.format with
  | .mvlsb => mvlsbGetpixel l d x y
  | .rgb565 => rgb565Getpixel l d x y
  | .gs2Hmsb => gs2HmsbGetpixel l d x y
  | .gs4Hmsb => gs4HmsbGetpixel l d x y
  | .gs8 => gs8Getpixel l d x y
  | .mhlsb | .mhmsb => monoHorizGetpixel l d x y

/-! ### Rectangles -/

/-- `mono_horiz_fill_rect`: column after column. -/
def monoHorizFillRect (d : Drawing) (x y w h : ℕ) (col : UInt32) : Drawing :=
  match w with
  | 0 => d
  | w + 1 =>
      let advance := l.stride / 8
      monoHorizFillRect (d.pokes (x / 8 + y * advance) advance (setBit (horizOffset l x) col) h) (x + 1) y w h col

/-- `mvlsb_fill_rect`: row after row. -/
def mvlsbFillRect (d : Drawing) (x y w h : ℕ) (col : UInt32) : Drawing :=
  match h with
  | 0 => d
  | h + 1 => mvlsbFillRect (d.pokes (y / 8 * l.stride + x) 1 (setBit (y % 8) col) w) x (y + 1) w h col

/-- `*b++ = col` for the `w` pixels of a row; `b` counts `uint16_t`s. -/
def rgb565Row (d : Drawing) (b : ℕ) (col : UInt32) : ℕ → Drawing
  | 0 => d
  | ww + 1 =>
      rgb565Row ((d.poke (2 * b) fun _ => (col &&& 0xFF).toUInt8).poke (2 * b + 1) fun _ => (col >>> 8).toUInt8)
        (b + 1) col ww

def rgb565Rows (d : Drawing) (b w : ℕ) (col : UInt32) : ℕ → Drawing
  | 0 => d
  | h + 1 => rgb565Rows (rgb565Row d b col w) (b + l.stride) w col h

def rgb565FillRect (d : Drawing) (x y w h : ℕ) (col : UInt32) : Drawing :=
  rgb565Rows l d (x + y * l.stride) w col h

/-- `gs2_hmsb_fill_rect`: pixel after pixel. -/
def gs2HmsbFillRect (d : Drawing) (x y w h : ℕ) (col : UInt32) : Except Py.Err Drawing :=
  (List.range' x w).foldlM (fun d xx => (List.range' y h).foldlM (fun d yy => gs2HmsbSetpixel l d xx yy col) d) d

/-- A row of `gs4_hmsb_fill_rect`, and where `pixel_pair` is after it. -/
def gs4HmsbRow (d : Drawing) (pixelPair w : ℕ) (oddX : Bool) (col : UInt8) : Drawing × ℕ :=
  let first := oddX && decide (0 < w)
  let d := if first then d.poke pixelPair fun b => (b &&& 0xf0) ||| col else d
  let pixelPair := if first then pixelPair + 1 else pixelPair
  let ww := if first then w - 1 else w
  let d := d.pokes pixelPair 1 (fun _ => (col <<< 4) ||| col) (ww / 2)
  let pixelPair := pixelPair + ww / 2
  if ww % 2 = 1 then
    (d.poke pixelPair fun b => (col <<< 4) ||| (b &&& 0x0f), if oddX then pixelPair else pixelPair + 1)
  else (d, pixelPair)

def gs4HmsbRows (d : Drawing) (pixelPair w : ℕ) (oddX : Bool) (col : UInt8) : ℕ → Drawing
  | 0 => d
  | h + 1 =>
      let row := gs4HmsbRow d pixelPair w oddX col
      gs4HmsbRows row.1 (row.2 + (l.stride - w) / 2) w oddX col h

def gs4HmsbFillRect (d : Drawing) (x y w h : ℕ) (col : UInt32) : Drawing :=
  gs4HmsbRows l d ((x + y * l.stride) / 2) w (x % 2 = 1) (col &&& 0x0f).toUInt8 h

def gs8Rows (d : Drawing) (pixel w : ℕ) (col : UInt32) : ℕ → Drawing
  | 0 => d
  | h + 1 => gs8Rows (d.pokes pixel 1 (fun _ => col.toUInt8) w) (pixel + l.stride) w col h

def gs8FillRect (d : Drawing) (x y w h : ℕ) (col : UInt32) : Drawing := gs8Rows l d (x + y * l.stride) w col h

def formatFillRect (x y w h : ℕ) (col : UInt32) : Except Py.Err Drawing :=
  match l.format with
  | .mvlsb => .ok (mvlsbFillRect l d x y w h col)
  | .rgb565 => .ok (rgb565FillRect l d x y w h col)
  | .gs2Hmsb => gs2HmsbFillRect l d x y w h col
  | .gs4Hmsb => .ok (gs4HmsbFillRect l d x y w h col)
  | .gs8 => .ok (gs8FillRect l d x y w h col)
  | .mhlsb | .mhmsb => .ok (monoHorizFillRect l d x y w h col)

/-- `fill_rect`: the rectangle is clipped to the buffer. -/
def fillRect (x y w h : Int) (col : UInt32) : Except Py.Err Drawing :=
  if h < 1 ∨ w < 1 ∨ x + w ≤ 0 ∨ y + h ≤ 0 ∨ l.height ≤ y ∨ l.width ≤ x then .ok d
  else
    let xend := min (l.width : Int) (x + w)
    let yend := min (l.height : Int) (y + h)
    let x := max x 0
    let y := max y 0
    formatFillRect l d x.toNat y.toNat (xend - x).toNat (yend - y).toNat col

/-! ### The calls -/

/-- The test made before each `setpixel`. -/
def Layout.Onscreen (x y : Int) : Prop := 0 ≤ x ∧ x < l.width ∧ 0 ≤ y ∧ y < l.height

instance (x y : Int) : Decidable (l.Onscreen x y) :=
  inferInstanceAs (Decidable (0 ≤ x ∧ x < l.width ∧ 0 ≤ y ∧ y < l.height))

/-- `setpixel_checked`, and the same test and call in `pixel`, `line` and `text`. -/
def setpixelChecked (col : UInt32) (p : Int × Int) : Except Py.Err Drawing :=
  if l.Onscreen p.1 p.2 then setpixel l d p.1.toNat p.2.toNat col else .ok d

def setpixels (pixels : List (Int × Int)) (col : UInt32) : Except Py.Err Drawing :=
  pixels.foldlM (fun d => setpixelChecked l d col) d

/-- The coordinates a loop of `scroll` goes through, in its order: away from where the pixels come from. -/
def sweep (size : ℕ) (step : Int) : List ℕ :=
  if step < 0 then List.range (size + step).toNat
  else (List.range (size - step).toNat).map fun k => size - 1 - k

def scrollPixel (xstep ystep : Int) (y x : ℕ) : Except Py.Err Drawing :=
  setpixel l d x y (getpixel l d (x - xstep).toNat (y - ystep).toNat)

def scroll (xstep ystep : Int) : Except Py.Err Drawing :=
  (sweep l.height ystep).foldlM (fun d y => (sweep l.width xstep).foldlM (fun d => scrollPixel l d xstep ystep y) d) d

structure Source where
  layout : Layout
  drawing : Drawing

/-- A pixel of the source of `blit`, looked up in the palette when there is one. -/
def Source.pixel (source : Source) (palette : Option Source) (x y : ℕ) : UInt32 :=
  let col := getpixel source.layout source.drawing x y
  match palette with
  | none => col
  | some palette => getpixel palette.layout palette.drawing col.toNat 0

def blitPixel (source : Source) (palette : Option Source) (key : UInt32) (x y : Int) (y0 x0 : ℕ) :
    Except Py.Err Drawing :=
  let col := source.pixel palette (x0 - x).toNat (y0 - y).toNat
  if col = key then .ok d else setpixel l d x0 y0 col

/-- The first lines of `blit`: the log is emptied as by a `setpixel`. -/
def Drawing.clearLog : Drawing := { d with
  changed := if d.changedCleared then d.changed else []
  changedCleared := true }

/-- `framebuf_blit` from another buffer. -/
def blit (source : Source) (x y : Int) (key : UInt32) (palette : Option Source) : Except Py.Err Drawing :=
  let d := d.clearLog
  if l.width ≤ x ∨ l.height ≤ y ∨ source.layout.width ≤ -x ∨ source.layout.height ≤ -y then .ok d
  else
    let x0 := (max 0 x).toNat
    let y0 := (max 0 y).toNat
    let x0end := (min (l.width : Int) (x + source.layout.width)).toNat
    let y0end := (min (l.height : Int) (y + source.layout.height)).toNat
    (List.range' y0 (y0end - y0)).foldlM (fun d y0 =>
      (List.range' x0 (x0end - x0)).foldlM (fun d => blitPixel l d source palette key x y y0) d) d

inductive Call where
  | fill (col : UInt32)
  | fillRect (x y w h : Int) (col : UInt32)
  | pixel (x y : Int) (col : UInt32)
  | hline (x y w : Int) (col : UInt32)
  | vline (x y h : Int) (col : UInt32)
  | rect (x y w h : Int) (col : UInt32) (filled : Bool)
  | line (x1 y1 x2 y2 : Int) (col : UInt32)
  | text (str : List UInt8) (x0 y0 : Int) (col : UInt32)
  | scroll (xstep ystep : Int)
  | blit (source : Source) (x y : Int) (key : UInt32) (palette : Option Source)

def call : Call → Except Py.Err Drawing
  | .fill col => formatFillRect l { d with changed := [], changedCleared := false } 0 0 l.width l.height col
  | .fillRect x y w h col => fillRect l d x y w h col
  | .pixel x y col => setpixelChecked l d col (x, y)
  | .hline x y w col => fillRect l d x y w 1 col
  | .vline x y h col => fillRect l d x y 1 h col
  | .rect x y w h col true => fillRect l d x y w h col
  | .rect x y w h col false => do
      let d ← fillRect l d x y w 1 col
      let d ← fillRect l d x (y + h - 1) w 1 col
      let d ← fillRect l d x y 1 h col
      fillRect l d (x + w - 1) y 1 h col
  | .line x1 y1 x2 y2 col => setpixels l d (FrameBuffer.linePixels x1 y1 x2 y2) col
  | .text str x0 y0 col => setpixels l d (FrameBuffer.textPixels str x0 y0) col
  | .scroll xstep ystep => scroll l d xstep ystep
  | .blit source x y key palette => blit l d source x y key palette

def getChanges : List UInt16 := d.changed

end CalSci.Framebuf
