import CalSci.FramebufCalls
import Mathlib.Algebra.BigOperators.Group.List.Basic

/-! The log of changed bytes. `get_changes` gives the bytes a display would have to send again: each `setpixel` since the
last `fill` has written its byte down, as long as the log has room, which is one entry for each byte of the buffer. The
rectangle calls write nothing down. -/

namespace CalSci.Framebuf

open PackedCells

/-- The calls that go through `setpixel`. -/
def Call.Pixelwise : Call → Prop
  | .pixel .. | .line .. | .text .. | .scroll .. | .blit .. => True
  | .fill .. | .fillRect .. | .hline .. | .vline .. | .rect .. => False

/-- Whether a pixel is set. -/
def Layout.cost (l : Layout) (q : Int × Int) : ℕ := if l.Onscreen q.1 q.2 then 1 else 0

/-- The pixels a call sets; a `blit` may leave some of them out. -/
def Call.pixels (l : Layout) : Call → ℕ
  | .pixel x y _ => l.cost (x, y)
  | .line x1 y1 x2 y2 _ => ((FrameBuffer.linePixels x1 y1 x2 y2).map l.cost).sum
  | .text str x0 y0 _ => ((FrameBuffer.textPixels str x0 y0).map l.cost).sum
  | .scroll xstep ystep => (sweep l.height ystep).length * (sweep l.width xstep).length
  | .blit source x y _ _ => (blitOrder l source x y).length
  | _ => 0

/-- At most `n` pixels have been set since `start`, and every byte that has changed since is in the log. -/
structure Logged (l : Layout) (start d : Drawing) (n : ℕ) : Prop where
  fresh : d.changedCleared = false → d.changed = []
  length_le : d.changed.length ≤ n
  inside : ∀ e ∈ d.changed, e.toNat < l.len
  complete : ∀ i, d.buf i ≠ start.buf i → ∃ e ∈ d.changed, e.toNat = i

variable {l : Layout} {start d : Drawing} {n : ℕ}

theorem Logged.mono (h : Logged l start d n) {m : ℕ} (hle : n ≤ m) : Logged l start d m :=
  { h with length_le := h.length_le.trans hle }

/-- What a loop with bodies of known cost adds to the log. -/
theorem Logged.foldlM {κ : Type} {step : Drawing → κ → Except Py.Err Drawing} (cost : κ → ℕ) {inputs : List κ}
    (hstep : ∀ d n, ∀ k ∈ inputs, Logged l start d n → n + cost k ≤ l.len →
      ∃ d', step d k = .ok d' ∧ Logged l start d' (n + cost k))
    (h : Logged l start d n) (hroom : n + (inputs.map cost).sum ≤ l.len) :
    ∃ d', inputs.foldlM step d = .ok d' ∧ Logged l start d' (n + (inputs.map cost).sum) := by
  induction inputs generalizing d n with
  | nil => exact ⟨d, rfl, h⟩
  | cons k inputs ih =>
      rw [List.map_cons, List.sum_cons] at hroom ⊢
      obtain ⟨d', hok, hlogged⟩ := hstep d n k List.mem_cons_self h (by omega)
      obtain ⟨d'', hok', hlogged'⟩ :=
        ih (fun d n k hk => hstep d n k (List.mem_cons_of_mem _ hk)) hlogged (by omega)
      refine ⟨d'', ?_, Nat.add_assoc n _ _ ▸ hlogged'⟩
      rw [List.foldlM_cons, hok]
      exact hok'

section Steps

variable (hl : l.Sound) (hlen : l.len ≤ 65536)

include hl hlen

/-- One pixel: its byte is the only one to change, and goes into the log. -/
theorem Logged.setpixel (h : Logged l start d n) (hroom : n + 1 ≤ l.len) {x y : ℕ} (hx : x < l.width)
    (hy : y < l.height) (col : UInt32) :
    ∃ d', setpixel l d x y col = .ok d' ∧ Logged l start d' (n + 1) := by
  have hkept : (if d.changedCleared then d.changed else []) = d.changed := by
    split_ifs with hcleared
    · rfl
    · exact (h.fresh (by simpa using hcleared)).symm
  have hlength := h.length_le
  have hok : Framebuf.setpixel l d x y col = .ok ⟨write l.format.depth d.buf (l.place x y) (l.format.shade col),
      d.changed ++ [UInt16.ofNat (l.place x y).index], true⟩ := by
    rw [setpixel_eq hl.packed d hx hy col, Drawing.log, hkept, if_pos (by omega)]
  have hindex : (UInt16.ofNat (l.place x y).index).toNat = (l.place x y).index :=
    UInt16.toNat_ofNat_of_lt' ((hl.room x y hx hy).trans_le hlen)
  refine ⟨_, hok, ⟨nofun, ?_, fun e he => ?_, fun i hi => ?_⟩⟩
  · rw [List.length_append, List.length_singleton]
    omega
  · rcases List.mem_append.mp he with hold | hnew
    · exact h.inside e hold
    · rw [List.mem_singleton.mp hnew, hindex]
      exact hl.room x y hx hy
  · by_cases hbyte : i = (l.place x y).index
    · exact ⟨_, List.mem_append_right _ (List.mem_singleton_self _), hindex.trans hbyte.symm⟩
    · have hsame : write l.format.depth d.buf (l.place x y) (l.format.shade col) i = d.buf i := write_of_ne hbyte _
      obtain ⟨e, he, rfl⟩ := h.complete i fun heq => hi (hsame.trans heq)
      exact ⟨e, List.mem_append_left _ he, rfl⟩

theorem Logged.setpixelChecked (h : Logged l start d n) (q : Int × Int) (hroom : n + l.cost q ≤ l.len) (col : UInt32) :
    ∃ d', setpixelChecked l d col q = .ok d' ∧ Logged l start d' (n + l.cost q) := by
  unfold Framebuf.setpixelChecked Layout.cost at *
  split_ifs at hroom ⊢ with hon
  · obtain ⟨hx0, hx, hy0, hy⟩ := hon
    exact h.setpixel hl hlen hroom (by omega) (by omega) col
  · exact ⟨d, rfl, h⟩

theorem Logged.setpixels (h : Logged l start d n) (pixels : List (Int × Int))
    (hroom : n + (pixels.map l.cost).sum ≤ l.len) (col : UInt32) :
    ∃ d', setpixels l d pixels col = .ok d' ∧ Logged l start d' (n + (pixels.map l.cost).sum) :=
  Logged.foldlM _ (fun _ _ q _ h hroom => h.setpixelChecked hl hlen q hroom col) h hroom

theorem Logged.scroll (h : Logged l start d n) (xstep ystep : Int)
    (hroom : n + (sweep l.height ystep).length * (sweep l.width xstep).length ≤ l.len) :
    ∃ d', scroll l d xstep ystep = .ok d' ∧
      Logged l start d' (n + (sweep l.height ystep).length * (sweep l.width xstep).length) := by
  have hrow : ((sweep l.width xstep).map fun _ => 1).sum = (sweep l.width xstep).length := by simp
  have hrows : ((sweep l.height ystep).map fun _ => ((sweep l.width xstep).map fun _ => 1).sum).sum =
      (sweep l.height ystep).length * (sweep l.width xstep).length := by simp
  rw [← hrows] at hroom ⊢
  refine Logged.foldlM _ (fun d n y hy h hroom => Logged.foldlM _ (fun d n x hx h hroom => ?_) h hroom) h hroom
  rw [mem_sweep] at hx hy
  exact h.setpixel hl hlen hroom hx.1 hy.1 _

theorem Logged.blit (h : Logged l start d n) (source : Source) (x y : Int) (key : UInt32) (palette : Option Source)
    (hroom : n + (blitOrder l source x y).length ≤ l.len) :
    ∃ d', blit l d source x y key palette = .ok d' ∧ Logged l start d' (n + (blitOrder l source x y).length) := by
  have hclear : Logged l start d.clearLog n := by
    have hkept : d.clearLog.changed = d.changed := by
      unfold Drawing.clearLog
      split_ifs with hcleared
      · rfl
      · exact (h.fresh (by simpa using hcleared)).symm
    exact { fresh := nofun, length_le := hkept ▸ h.length_le, inside := hkept ▸ h.inside, complete := hkept ▸ h.complete }
  unfold Framebuf.blit
  split_ifs with hnone
  · exact ⟨_, rfl, hclear.mono (Nat.le_add_right _ _)⟩
  · have hcount : (blitOrder l source x y).length =
        ((List.range' (max 0 y).toNat
          ((min (l.height : Int) (y + source.layout.height)).toNat - (max 0 y).toNat)).map fun _ =>
          ((List.range' (max 0 x).toNat
            ((min (l.width : Int) (x + source.layout.width)).toNat - (max 0 x).toNat)).map fun _ => 1).sum).sum := by
      simp [blitOrder]
    rw [hcount] at hroom ⊢
    refine Logged.foldlM _ (fun d n y0 hy0 h hroom => Logged.foldlM _ (fun d n x0 hx0 h hroom => ?_) h hroom) hclear hroom
    rw [mem_range'] at hx0 hy0
    unfold blitPixel
    dsimp only
    split_ifs with hkey
    · exact ⟨d, rfl, h.mono (Nat.le_add_right _ _)⟩
    · exact h.setpixel hl hlen hroom (by omega) (by omega) _

theorem Logged.call (h : Logged l start d n) {c : Call} (hc : c.Pixelwise) (hroom : n + c.pixels l ≤ l.len) :
    ∃ d', call l d c = .ok d' ∧ Logged l start d' (n + c.pixels l) := by
  cases c with
  | pixel x y col => exact h.setpixelChecked hl hlen (x, y) hroom col
  | line x1 y1 x2 y2 col => exact h.setpixels hl hlen _ hroom col
  | text str x0 y0 col => exact h.setpixels hl hlen _ hroom col
  | scroll xstep ystep => exact h.scroll hl hlen xstep ystep hroom
  | blit source x y key palette => exact h.blit hl hlen source x y key palette hroom
  | _ => exact hc.elim

end Steps

/-! ### Rectangles and the log -/

def SameLog (d d' : Drawing) : Prop := d'.changed = d.changed ∧ d'.changedCleared = d.changedCleared

theorem SameLog.trans {d d' d'' : Drawing} (h : SameLog d d') (h' : SameLog d' d'') : SameLog d d'' :=
  ⟨h'.1.trans h.1, h'.2.trans h.2⟩

theorem sameLog_pokes (d : Drawing) (b step : ℕ) (f : UInt8 → UInt8) (n : ℕ) : SameLog d (d.pokes b step f n) := by
  induction n generalizing d b with
  | zero => exact ⟨rfl, rfl⟩
  | succ n ih => exact SameLog.trans ⟨rfl, rfl⟩ (ih (d.poke b f) (b + step))

theorem sameLog_gs4Rest (d : Drawing) (b n : ℕ) (s : UInt8) : SameLog d (gs4Rest d b n s) := by
  unfold gs4Rest
  split_ifs
  · exact (sameLog_pokes _ _ _ _ _).trans ⟨rfl, rfl⟩
  · exact sameLog_pokes _ _ _ _ _

theorem sameLog_gs4HmsbRow (d : Drawing) (b w : ℕ) (oddX : Bool) (s : UInt8) :
    SameLog d (gs4HmsbRow d b w oddX s).1 := by
  cases oddX with
  | false =>
      rw [gs4HmsbRow_even]
      exact sameLog_gs4Rest d b w s
  | true =>
      cases w with
      | zero => exact ⟨rfl, rfl⟩
      | succ n =>
          rw [gs4HmsbRow_odd_succ]
          exact SameLog.trans ⟨rfl, rfl⟩ (sameLog_gs4Rest _ _ _ _)

theorem sameLog_gs4HmsbRows (d : Drawing) (b w : ℕ) (oddX : Bool) (s : UInt8) (h : ℕ) :
    SameLog d (gs4HmsbRows l d b w oddX s h) := by
  induction h generalizing d b with
  | zero => exact ⟨rfl, rfl⟩
  | succ h ih => exact (sameLog_gs4HmsbRow _ _ _ _ _).trans (ih _ _)

theorem sameLog_gs8Rows (d : Drawing) (pixel w : ℕ) (col : UInt32) (h : ℕ) : SameLog d (gs8Rows l d pixel w col h) := by
  induction h generalizing d pixel with
  | zero => exact ⟨rfl, rfl⟩
  | succ h ih => exact (sameLog_pokes _ _ _ _ _).trans (ih _ _)

theorem sameLog_mvlsbFillRect (d : Drawing) (x y w h : ℕ) (col : UInt32) :
    SameLog d (mvlsbFillRect l d x y w h col) := by
  induction h generalizing y d with
  | zero => exact ⟨rfl, rfl⟩
  | succ h ih => exact (sameLog_pokes _ _ _ _ _).trans (ih _ _)

theorem sameLog_monoHorizFillRect (d : Drawing) (x y w h : ℕ) (col : UInt32) :
    SameLog d (monoHorizFillRect l d x y w h col) := by
  induction w generalizing x d with
  | zero => exact ⟨rfl, rfl⟩
  | succ w ih => exact (sameLog_pokes _ _ _ _ _).trans (ih _ _)

/-- The loops over bytes write nothing down. -/
theorem sameLog_formatFillRect (hpacked : l.format.Packed) (d : Drawing) (x y w h : ℕ) (col : UInt32) :
    ∃ d', formatFillRect l d x y w h col = .ok d' ∧ SameLog d d' := by
  unfold formatFillRect
  cases hformat : l.format <;> simp only [hformat, Format.Packed] at hpacked ⊢
  case mvlsb => exact ⟨_, rfl, sameLog_mvlsbFillRect d x y w h col⟩
  case gs4Hmsb => exact ⟨_, rfl, sameLog_gs4HmsbRows d _ w _ _ h⟩
  case gs8 => exact ⟨_, rfl, sameLog_gs8Rows d _ w col h⟩
  case mhlsb => exact ⟨_, rfl, sameLog_monoHorizFillRect d x y w h col⟩
  case mhmsb => exact ⟨_, rfl, sameLog_monoHorizFillRect d x y w h col⟩

/-- After `fill` and any calls that set no more pixels than the buffer has bytes: `get_changes` has every byte that is
not as `fill` left it, and only bytes of the buffer. -/
theorem changes_complete (len : ℕ) (width height format stride : Int) (l : Layout)
    (hnew : makeNew len width height format stride = .ok l) (hpacked : l.format.Packed)
    (hbits : l.format.bits width.toNat height.toNat stride.toNat < 2 ^ 32) (hlen : len ≤ 65536) (d : Drawing)
    (col : UInt32) (calls : List Call) (hcalls : ∀ c ∈ calls, c.Pixelwise)
    (hroom : (calls.map (Call.pixels l)).sum ≤ len) :
    ∃ filled d', call l d (.fill col) = .ok filled ∧ calls.foldlM (call l) filled = .ok d' ∧
      (∀ i, d'.buf i ≠ filled.buf i → ∃ e ∈ getChanges d', e.toNat = i) ∧
      ∀ e ∈ getChanges d', e.toNat < len := by
  obtain ⟨hl, rfl⟩ := makeNew_sound hnew hpacked hbits
  obtain ⟨filled, hfill, hempty, hcleared⟩ :=
    sameLog_formatFillRect hpacked { d with changed := [], changedCleared := false } 0 0 l.width l.height col
  have hstart : Logged l filled filled 0 :=
    ⟨fun _ => hempty, by rw [hempty]; exact Nat.le_refl _, by rw [hempty]; exact nofun, fun i hi => absurd rfl hi⟩
  obtain ⟨d', hok, hlogged⟩ := Logged.foldlM (Call.pixels l)
    (fun _ _ c hc h hroom => h.call hl hlen (hcalls c hc) hroom) hstart (by rwa [Nat.zero_add])
  exact ⟨filled, d', hfill, hok, hlogged.complete, hlogged.inside⟩

/-- Thirty-one pixels on 71 bytes. -/
theorem changes_complete_odd :
    ([Call.line 0 8 12 0 3, .pixel 40 2 1, .text [73] 6 1 9].map (Call.pixels oddLayout)).sum = 31 ∧
      ∃ filled d', call oddLayout { buf := fun _ => 0 } (.fill 7) = .ok filled ∧
        [Call.line 0 8 12 0 3, .pixel 40 2 1, .text [73] 6 1 9].foldlM (call oddLayout) filled = .ok d' ∧
        (∀ i, d'.buf i ≠ filled.buf i → ∃ e ∈ getChanges d', e.toNat = i) ∧
        ∀ e ∈ getChanges d', e.toNat < 71 :=
  ⟨by decide, changes_complete 71 13 9 2 15 oddLayout rfl (by decide) (by decide) (by decide) { buf := fun _ => 0 } 7
    _ (by simp [Call.Pixelwise]) (by decide)⟩

end CalSci.Framebuf
