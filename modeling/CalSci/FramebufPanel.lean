import CalSci.FramebufCalls
import CalSci.GraphSession
import CalSci.LcdDraw

/-! From the calls of the graph app to the glass. The app draws into a buffer of 1024 bytes, which `graphics` then sends
to the controller; the bits of the display RAM are the pixels of the frame, through all the layers between. -/

namespace CalSci.Framebuf

open PackedCells
open Lcd (Controller Transfer drawBufferEx clearDisplay mpDraw)
open CalSci.FrameBuffer (Frame Command cleared draw)

/-- `FrameBuffer(buffer1, 128, 64, framebuf.MONO_VLSB)`. -/
def panelLayout : Layout := ⟨.mvlsb, 128, 64, 128, 1024⟩

theorem makeNew_panel : makeNew 1024 128 64 0 = .ok panelLayout := rfl

theorem panelLayout_sound : panelLayout.Sound := (makeNew_sound makeNew_panel trivial (by decide)).1

/-- The frame the bytes hold. -/
def Holds (d : Drawing) (frame : Frame) : Prop :=
  ∀ x y : ℕ, x < 128 → y < 64 → (picture panelLayout d (x, y) = 1 ↔ ((x : Int), (y : Int)) ∈ frame)

/-- The display RAM shows a frame: the rows of a page from its lowest bit on. -/
def Displays (c : Controller) (frame : Frame) : Prop :=
  ∀ x y : ℕ, x < 128 → y < 64 → ((c.ram (y / 8) x).toNat.testBit (y % 8) = true ↔ ((x : Int), (y : Int)) ∈ frame)

def toCall : Command → Call
  | .pixel x y => .pixel x y 1
  | .line x1 y1 x2 y2 => .line x1 y1 x2 y2 1
  | .text str x0 y0 => .text (FrameBuffer.asciiBytes str) x0 y0 1

def panelBuffer (d : Drawing) : Lcd.Buffer := ⟨(List.range 1024).map d.buf, by simp⟩

inductive Work (V : Type) where
  | clear
  | plot (func : V → Option V) (window : Graph.Window V)
  | graphics

variable {V : Type} [Graph.Arithmetic V]

structure Screen where
  drawing : Drawing
  controller : Controller

/-- `fb1.fill(0)`, the calls of `plot_function`, `display.clear_display()` and `display.graphics(buffer1)`. -/
def Screen.step (s : Screen) : Work V → Except Py.Err Screen
  | .clear => do
      let drawing ← call panelLayout s.drawing (.fill 0)
      pure { s with drawing }
  | .plot func window => do
      let drawing ← ((Graph.plotFunction func window).1.map toCall).foldlM (call panelLayout) s.drawing
      pure { s with drawing }
  | .graphics => do
      let stream ← mpDraw (panelBuffer s.drawing)
      pure { s with controller := s.controller.run (clearDisplay ++ stream.map (Transfer.map s.drawing.buf)) }

/-- The frame being drawn, and the one that was sent last. -/
structure Viewed where
  frame : Frame
  sent : Option Frame

def Viewed.step (v : Viewed) : Work V → Viewed
  | .clear => { v with frame := cleared }
  | .plot func window => { v with frame := draw v.frame (Graph.plotFunction func window).1 }
  | .graphics => { v with sent := some v.frame }

/-! ### The bits of the buffer -/

theorem bit_take (b : UInt8) {shift : ℕ} (hshift : shift < 8) :
    (take 1 shift b).toUInt32 = 1 ↔ b.toNat.testBit shift = true := by
  rw [take_one hshift]
  cases b.toNat.testBit shift <;> decide

theorem picture_panel {x y : ℕ} (hx : x < 128) (hy : y < 64) (d : Drawing) :
    picture panelLayout d (x, y) = 1 ↔ (d.buf (y / 8 * 128 + x)).toNat.testBit (y % 8) = true := by
  have hon : x < panelLayout.width ∧ y < panelLayout.height := ⟨hx, hy⟩
  rw [picture, if_pos hon, getpixel_eq panelLayout_sound.packed]
  exact bit_take _ (Nat.mod_lt y (by decide))

theorem holds_cleared {d : Drawing} (hzero : ∀ i < 1024, d.buf i = 0) : Holds d cleared := by
  intro x y hx hy
  rw [picture_panel hx hy, hzero _ (by omega)]
  simp

/-- The size of the buffer passes the check of `graphics`. -/
theorem mpDraw_panelBuffer (d : Drawing) : mpDraw (panelBuffer d) = .ok (drawBufferEx id 0 0 128 8) := by
  have hlen : (panelBuffer d).bytes.length = 1024 := by simp [panelBuffer]
  rw [mpDraw, hlen]
  rfl

/-- Sending the buffer shows its frame. -/
theorem Holds.displays {d : Drawing} {frame : Frame} (h : Holds d frame) (c : Controller) :
    Displays (c.run (clearDisplay ++ drawBufferEx d.buf 0 0 128 8)) frame := by
  intro x y hx hy
  rw [← h x y hx hy, picture_panel hx hy, Lcd.Controller.run_append,
    Lcd.Controller.ram_run_drawBufferEx _ d.buf 0 0 128 8 (by decide) (by decide), Lcd.writeRect]
  have hin : ((0 : UInt8).toNat ≤ y / 8 ∧ y / 8 < (0 : UInt8).toNat + (8 : UInt8).toNat) ∧
      (0 : UInt8).toNat ≤ x ∧ x < (0 : UInt8).toNat + (128 : UInt8).toNat := by
    have h8 : (8 : UInt8).toNat = 8 := rfl
    have h128 : (128 : UInt8).toNat = 128 := rfl
    have h0 : (0 : UInt8).toNat = 0 := rfl
    omega
  rw [if_pos hin]
  rfl

/-! ### The calls of the app -/

/-- A call in colour 1 paints the pixels of the app's call. -/
theorem call_toCall (c : Command) (pic : Picture) :
    pic.call panelLayout (toCall c) = pic.paint panelLayout {q | q ∈ c.pixels} 1 := by
  cases c with
  | pixel x y =>
      rw [toCall, Picture.call, FrameBuffer.Command.pixels]
      simp only [List.mem_singleton]
      rfl
  | line x1 y1 x2 y2 => rfl
  | text str x0 y0 => rfl

theorem Holds.run {d : Drawing} {frame : Frame} (h : Holds d frame) (c : Command) :
    ∃ d', call panelLayout d (toCall c) = .ok d' ∧ Holds d' (c.run frame) := by
  obtain ⟨d', hok, hpic, -⟩ := panelLayout_sound.call_shows d (toCall c)
  refine ⟨d', hok, ?_⟩
  intro x y hx hy
  rw [hpic, call_toCall, FrameBuffer.Command.mem_run, Picture.paint]
  have hon : FrameBuffer.Onscreen ((x : Int), (y : Int)) := by
    unfold FrameBuffer.Onscreen
    omega
  split_ifs with hp
  · exact iff_of_true rfl (Or.inr ⟨hon, hp.2.2⟩)
  · rw [h x y hx hy]
    constructor
    · exact Or.inl
    · rintro (hmem | ⟨-, hmem⟩)
      · exact hmem
      · exact absurd ⟨hx, hy, hmem⟩ hp

theorem Holds.draw {d : Drawing} {frame : Frame} (h : Holds d frame) (calls : List Command) :
    ∃ d', (calls.map toCall).foldlM (call panelLayout) d = .ok d' ∧ Holds d' (draw frame calls) := by
  induction calls generalizing d frame with
  | nil => exact ⟨d, rfl, h⟩
  | cons c calls ih =>
      obtain ⟨d', hok, hd'⟩ := h.run c
      obtain ⟨d'', hok', hd''⟩ := ih hd'
      refine ⟨d'', ?_, hd''⟩
      rw [List.map_cons, List.foldlM_cons, hok]
      exact hok'

theorem fill_holds (d : Drawing) : ∃ d', call panelLayout d (.fill 0) = .ok d' ∧ Holds d' cleared := by
  obtain ⟨d', hok, hpic, -⟩ := panelLayout_sound.call_shows d (.fill 0)
  refine ⟨d', hok, ?_⟩
  intro x y hx hy
  rw [hpic, Picture.call, Picture.paint, if_pos ⟨hx, hy, Set.mem_univ _⟩]
  simp only [FrameBuffer.not_mem_cleared, iff_false]
  decide

/-- The screen shows what was drawn: in the buffer the current frame, on the glass the last one sent. -/
structure Screen.Shows (s : Screen) (v : Viewed) : Prop where
  holds : Holds s.drawing v.frame
  displays : ∀ frame, v.sent = some frame → Displays s.controller frame

theorem Screen.step_shows {s : Screen} {v : Viewed} (h : s.Shows v) (work : Work V) :
    ∃ s', s.step work = .ok s' ∧ s'.Shows (v.step work) := by
  cases work with
  | clear =>
      obtain ⟨d', hok, hd'⟩ := fill_holds s.drawing
      refine ⟨⟨d', s.controller⟩, ?_, ⟨hd', h.displays⟩⟩
      rw [Screen.step, hok]
      rfl
  | plot func window =>
      obtain ⟨d', hok, hd'⟩ := h.holds.draw (Graph.plotFunction func window).1
      refine ⟨⟨d', s.controller⟩, ?_, ?_⟩
      · rw [Screen.step, hok]
        rfl
      · rw [Viewed.step]
        refine ⟨?_, h.displays⟩
        dsimp only
        exact hd'
  | graphics =>
      refine ⟨⟨s.drawing, s.controller.run (clearDisplay ++ drawBufferEx s.drawing.buf 0 0 128 8)⟩, ?_, ?_⟩
      · rw [Screen.step, mpDraw_panelBuffer, Runs.ok_bind, Lcd.map_drawBufferEx]
        rfl
      · rw [Viewed.step]
        refine ⟨h.holds, ?_⟩
        intro frame heq
        rw [← Option.some.inj heq]
        dsimp only
        exact h.holds.displays s.controller

/-- Whatever the app clears, plots and sends, no call raises, and every pixel of the glass is lit or dark as in the
frame that was sent last. -/
theorem glass_shows_sent_frame (s : Screen) (hzero : ∀ i < 1024, s.drawing.buf i = 0) (works : List (Work V)) :
    ∃ s', works.foldlM Screen.step s = .ok s' ∧
      ∀ frame, (works.foldl Viewed.step ⟨cleared, none⟩).sent = some frame → Displays s'.controller frame := by
  have hrun : ∀ v : Viewed, s.Shows v → ∃ s', works.foldlM Screen.step s = .ok s' ∧
      s'.Shows (works.foldl Viewed.step v) := by
    clear hzero
    induction works generalizing s with
    | nil => exact fun v hv => ⟨s, rfl, hv⟩
    | cons work works ih =>
        intro v hv
        obtain ⟨s', hok, hs'⟩ := Screen.step_shows hv work
        obtain ⟨s'', hok', hs''⟩ := ih s' (v.step work) hs'
        refine ⟨s'', ?_, hs''⟩
        rw [List.foldlM_cons, hok]
        exact hok'
  obtain ⟨s', hok, hs'⟩ := hrun ⟨cleared, none⟩ ⟨holds_cleared hzero, nofun⟩
  exact ⟨s', hok, hs'.displays⟩

/-- The diagonal, plotted in the window the app starts with; the buffer is emptied only after it was sent. -/
theorem glass_shows_sent_frame_diagonal :
    ∃ s', [Work.plot some Graph.startWindow, .graphics, .clear].foldlM Screen.step
        ⟨{ buf := fun _ => 0 }, ⟨fun _ _ => 0xff, 3, 7⟩⟩ = .ok s' ∧
      Displays s'.controller (draw cleared (Graph.plotFunction some Graph.startWindow).1) := by
  obtain ⟨s', hok, hglass⟩ := glass_shows_sent_frame ⟨{ buf := fun _ => 0 }, ⟨fun _ _ => 0xff, 3, 7⟩⟩
    (fun _ _ => rfl) [.plot some Graph.startWindow, .graphics, .clear]
  refine ⟨s', hok, hglass _ ?_⟩
  simp only [List.foldl_cons, List.foldl_nil, Viewed.step]

end CalSci.Framebuf
