import CalSci.PySequence

/-! The ST7565 driver of `c_modules/display`: `st7565.c`, which turns a buffer into a stream of bytes on
the bus, and the entry point `mp_st7565_draw` of `modst7565.c`, which checks the size of the buffer.
Arguments of the entry point are 32-bit integers; the driver takes them as bytes. -/

namespace CalSci.Lcd

/-- A byte on the bus, as `_xfer` sends it: a command, or display data. The data of a stream are bytes,
or the places in a buffer they are read from. -/
inductive Transfer (α : Type) where
  | cmd (v : UInt8)
  | dat (v : α)
  deriving DecidableEq, Repr

/-- A transfer whose data is read from elsewhere. -/
def Transfer.map {α β : Type} (f : α → β) : Transfer α → Transfer β
  | .cmd v => .cmd v
  | .dat v => .dat (f v)

def data {α : Type} (stream : List (Transfer α)) : List α :=
  stream.filterMap fun
    | .cmd _ => none
    | .dat v => some v

variable {α : Type}

/-- `ST7565_WIDTH`. -/
def lcdWidth : Nat := 128

/-- `ST7565_PAGES`. -/
def lcdPages : Nat := 8

/-- `st7565_set_page_address`. -/
def setPageAddress (p : UInt8) : List (Transfer α) := [.cmd (0xB0 ||| (p &&& 0x0F))]

/-- `st7565_set_column_address`. -/
def setColumnAddress (c : UInt8) : List (Transfer α) :=
  [.cmd ((0x10 : UInt8) ||| (c >>> 4)), .cmd ((0x00 : UInt8) ||| (c &&& 0x0F))]

/-- `st7565_clear_display`. -/
def clearDisplay : List (Transfer UInt8) :=
  (List.range lcdPages).flatMap fun p =>
    setPageAddress (UInt8.ofNat p) ++ setColumnAddress 0 ++
      (List.range lcdWidth).map fun _ => .dat 0x00

/-- `st7565_draw_buffer_ex`, with `buf` the memory from the start of the buffer on. The page address
`page + p` is an `int` that is passed on as a byte. -/
def drawBufferEx (buf : Nat → α) (page col width pages : UInt8) : List (Transfer α) :=
  (List.range pages.toNat).flatMap fun p =>
    setPageAddress (UInt8.ofNat (page.toNat + p)) ++ setColumnAddress col ++
      (List.range width.toNat).map fun i => .dat (buf (p * width.toNat + i))

/-- A bytes-like object: its length fits in a `size_t`. -/
structure Buffer where
  bytes : List UInt8
  length_lt : bytes.length < 2 ^ 32

/-- An `mp_int_t` passed as a `uint8_t`. -/
def toByte (v : Int32) : UInt8 := v.toUInt32.toUInt8

/-- `mp_st7565_draw`, which Python calls as `graphics`: the stream it sends, each data byte given by its
index in the buffer. The product is an `int`, and is compared as a `size_t`. -/
def mpDraw (buf : Buffer) (page column : Int32 := 0) (width : Int32 := 128) (pages : Int32 := 8) :
    Except Py.Err (List (Transfer Nat)) :=
  let expectedSize := width * pages
  if UInt32.ofNat buf.bytes.length ≠ expectedSize.toUInt32 then
    .error (.valueError "buffer size mismatch")
  else .ok (drawBufferEx id (toByte page) (toByte column) (toByte width) (toByte pages))

/-! ### The data of a stream -/

/-- The places of a stream, filled with the bytes of a buffer. -/
theorem map_drawBufferEx (buf : Nat → α) (page col width pages : UInt8) :
    (drawBufferEx id page col width pages).map (Transfer.map buf) = drawBufferEx buf page col width pages := by
  unfold drawBufferEx
  rw [List.map_flatMap]
  congr 1
  funext p
  rw [List.map_append, List.map_append, List.map_map]
  rfl

theorem data_append (s t : List (Transfer α)) : data (s ++ t) = data s ++ data t :=
  List.filterMap_append

theorem data_map_dat (f : Nat → α) (l : List Nat) : data (l.map fun i => .dat (f i)) = l.map f := by
  simp [data]

/-- The data of one page. -/
theorem data_page (p c : UInt8) (f : Nat → α) (l : List Nat) :
    data (setPageAddress p ++ setColumnAddress c ++ l.map fun i => .dat (f i)) = l.map f := by
  rw [data_append, data_map_dat]
  rfl

/-- The loops send the buffer from its start, in order, each byte once. -/
theorem data_drawBufferEx (buf : Nat → α) (page col width pages : UInt8) :
    data (drawBufferEx buf page col width pages)
      = (List.range (pages.toNat * width.toNat)).map buf := by
  unfold drawBufferEx
  induction pages.toNat with
  | zero => simp [data]
  | succ n ih =>
      rw [List.range_succ, List.flatMap_append, data_append, ih, List.flatMap_singleton, data_page,
        Nat.succ_mul, List.range_add, List.map_append, List.map_map]
      rfl

end CalSci.Lcd
