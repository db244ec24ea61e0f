import CalSci.GraphPlot
import CalSci.Runs

/-! The ok presses of the graph app and the framebuffer they share. A press plots on what the buffer holds; the buffer
is cleared by every replot and on the way back to the form, but not when a plot raises. -/

namespace CalSci.Graph

open CalSci.FrameBuffer

/-- An ok press and what happens until the form is back: the function and window that are read, and the keys pressed
over the plot. -/
structure Press (V : Type) where
  func : V → Option V
  /-- `none` where evaluating one of the four texts raises. -/
  window : Option (Window V)
  /-- Whether the texts evaluate again after the plot. -/
  rereads : Bool := true
  /-- The windows of the zoom and pan keys, `none` where evaluating the texts raises. -/
  replots : List (Option (Window V)) := []

variable {V : Type} [Arithmetic V]

/-- The call of `plot_function`, if its arguments evaluate: the drawing calls, and whether it raises. -/
def Press.plot (a : Press V) : Option (List Command × Bool) := a.window.map (plotFunction a.func)

/-- The buffer that `display.graphics` gets from the press, if it gets one. -/
def Press.sends (frame : Frame) (a : Press V) : Option Frame :=
  match a.plot with
  | none => none
  | some (calls, raised) => if raised then none else some (draw frame calls)

/-- A zoom or pan key: `fb1.fill(0)`, then the plot, outside any `try`. -/
def replot (func : V → Option V) (_ : Frame) (window : Option (Window V)) : Except Left Frame :=
  match window with
  | none => .error .raised
  | some w =>
      let (calls, raised) := plotFunction func w
      if raised then .error .raised else .ok (draw cleared calls)

/-- The loop over the plot, until back: the buffer is cleared at its end. -/
def Press.over (a : Press V) (frame : Frame) : Except Left Frame :=
  if a.rereads then do
    let _ ← a.replots.foldlM (replot a.func) frame
    pure cleared
  else .error .raised

def ok (frame : Frame) (a : Press V) : Except Left Frame :=
  match a.plot with
  | none => .ok frame
  -- `except: continue`
  | some (calls, true) => .ok (draw frame calls)
  | some (calls, false) => a.over (draw frame calls)

/-- What the display gets from the press is what `plot_function` draws on an empty buffer. -/
def ShowsOwnPlot (frame : Frame) (a : Press V) : Prop :=
  ∀ sent calls, a.sends frame = some sent → a.plot = some (calls, false) → sent = draw cleared calls

/-- The curves of the plots that failed since the last plot that was shown. -/
def leave (left : List Command) (a : Press V) : List Command :=
  match a.window with
  | none => left
  | some w =>
      let pen := columns a.func w 128
      if pen.raised then left ++ pen.curve else []

/-- What failed plots have left of their curves. -/
def leftovers (presses : List (Press V)) : List Command := presses.foldl leave []

/-- The buffer holds these calls and, apart from them, at most the axes. -/
def Holds (frame : Frame) (left : List Command) : Prop :=
  (∀ p, Lights left p → p ∈ frame) ∧ ∀ p ∈ frame, Lights axes p ∨ Lights left p

theorem holds_cleared : Holds cleared [] := by
  refine ⟨?_, ?_⟩
  · rintro p ⟨-, call, hcall, -⟩
    cases hcall
  · intro p hp
    exact absurd hp (not_mem_cleared p)

theorem Holds.draw {frame : Frame} {left curve : List Command} (h : Holds frame left) :
    Holds (draw frame (axes ++ curve)) (left ++ curve) := by
  refine ⟨?_, ?_⟩
  · intro p hp
    rw [mem_draw, lights_append]
    rcases lights_append.mp hp with hleft | hcurve
    · exact Or.inl (h.1 p hleft)
    · exact Or.inr (Or.inr hcurve)
  · intro p hp
    rw [mem_draw, lights_append] at hp
    rw [lights_append]
    rcases hp with hframe | haxes | hcurve
    · exact (h.2 p hframe).imp_right Or.inl
    · exact Or.inl haxes
    · exact Or.inr (Or.inr hcurve)

/-- However the plot was left, if the form is back the buffer is empty. -/
theorem over_cleared {a : Press V} {frame frame' : Frame} (h : a.over frame = .ok frame') : frame' = cleared := by
  unfold Press.over at h
  split at h
  · cases hkeys : a.replots.foldlM (replot a.func) frame with
    | error e =>
        rw [hkeys] at h
        cases h
    | ok last =>
        rw [hkeys] at h
        cases h
        rfl
  · cases h

theorem plot_of_window {a : Press V} {w : Window V} {raised : Bool} (hwindow : a.window = some w)
    (hraised : (plotFunction a.func w).2 = raised) : a.plot = some ((plotFunction a.func w).1, raised) := by
  rw [Press.plot, hwindow, Option.map_some, ← hraised]

theorem sends_of_shown {a : Press V} {calls : List Command} (h : a.plot = some (calls, false)) (frame : Frame) :
    a.sends frame = some (draw frame calls) := by
  simp only [Press.sends, h, Bool.false_eq_true, if_false]

theorem ok_of_failed {a : Press V} {calls : List Command} (h : a.plot = some (calls, true)) (frame : Frame) :
    ok frame a = .ok (draw frame calls) := by
  simp only [ok, h]

theorem ok_of_shown {a : Press V} {calls : List Command} (h : a.plot = some (calls, false)) (frame : Frame) :
    ok frame a = a.over (draw frame calls) := by
  simp only [ok, h]

/-- One press keeps the account of what failed plots left. -/
theorem holds_ok (frame : Frame) (left : List Command) (a : Press V) (frame' : Frame) (h : Holds frame left)
    (hok : ok frame a = .ok frame') : Holds frame' (leave left a) := by
  unfold leave
  cases hwindow : a.window with
  | none =>
      simp only [ok, Press.plot, hwindow, Option.map_none] at hok
      obtain rfl := Except.ok.inj hok
      exact h
  | some w =>
      have hcurve : (columns a.func w 128).raised = (plotFunction a.func w).2 := (plotFunction_raised a.func w).symm
      cases hraised : (plotFunction a.func w).2 with
      | true =>
          rw [ok_of_failed (plot_of_window hwindow hraised), plotFunction_calls] at hok
          obtain rfl := Except.ok.inj hok
          simpa only [hcurve, hraised, if_true] using h.draw
      | false =>
          rw [ok_of_shown (plot_of_window hwindow hraised)] at hok
          rw [over_cleared hok]
          simpa only [hcurve, hraised, Bool.false_eq_true, if_false] using holds_cleared

theorem holds_run {presses : List (Press V)} {frame : Frame} (h : Runs.run ok cleared presses = .ok frame) :
    Holds frame (leftovers presses) :=
  Runs.run_simulates holds_ok holds_cleared h

/-- A press shows its own plot alone exactly when what is left in the buffer belongs to that plot. -/
theorem showsOwnPlot_iff {frame : Frame} {left : List Command} (h : Holds frame left) (a : Press V) :
    ShowsOwnPlot frame a ↔ ∀ calls, a.plot = some (calls, false) → ∀ p, Lights left p → Lights calls p := by
  have haxes : ∀ calls, a.plot = some (calls, false) → ∀ p, Lights axes p → Lights calls p := by
    intro calls hplot p hp
    obtain ⟨w, -, hw⟩ := Option.map_eq_some_iff.mp hplot
    obtain ⟨hcalls, -⟩ := Prod.mk.inj hw
    rw [← hcalls, lights_append]
    exact Or.inl hp
  refine ⟨?_, ?_⟩
  · intro hshows calls hplot p hp
    have heq := hshows _ calls (sends_of_shown hplot frame) hplot
    exact draw_eq_draw_cleared_iff.mp heq p (h.1 p hp)
  · intro hcovered sent calls hsent hplot
    rw [sends_of_shown hplot frame] at hsent
    cases hsent
    apply draw_eq_draw_cleared_iff.mpr
    intro p hp
    rcases h.2 p hp with haxis | hleft
    · exact haxes calls hplot p haxis
    · exact hcovered calls hplot p hleft

/-- Along a session every plot that is shown is shown alone exactly when, at each of them, what the plots that failed
since the last shown one had drawn of their curves belongs to the new plot as well. -/
theorem session_shows_own_plots_iff (presses : List (Press V)) :
    Runs.StepsMeet ok ShowsOwnPlot cleared presses ↔
      ∀ first a, first ++ [a] <+: presses → (Runs.run ok cleared first).isOk → ∀ calls, a.plot = some (calls, false) →
        ∀ p, Lights (leftovers first) p → Lights calls p := by
  refine ⟨?_, ?_⟩
  · intro h first a hpre hok
    obtain ⟨frame, hrun⟩ := Runs.exists_ok hok
    exact (showsOwnPlot_iff (holds_run hrun) a).mp (h first a hpre frame hrun)
  · intro h first a hpre frame hrun
    exact (showsOwnPlot_iff (holds_run hrun) a).mpr (h first a hpre (by rw [hrun]; rfl))

/-- The functions `1/x` and `x`. -/
def inverse (x : ℚ) : Option ℚ := if x = 0 then none else some (1 / x)

/-- First `1/x`, which raises at its middle column, then `x`, both in the start window. -/
def failedThenShown : List (Press ℚ) :=
  [{ func := inverse, window := some startWindow }, { func := some, window := some startWindow }]

/-- The plot of `x` is shown with the left half of the curve of `1/x`: pixel (20, 23) is lit. -/
theorem failed_plot_stays : ¬ Runs.StepsMeet ok ShowsOwnPlot cleared failedThenShown := by
  intro h
  have hfailed : (plotFunction inverse startWindow).2 = true := by decide +kernel
  have hshown : (plotFunction some startWindow).2 = false := by decide +kernel
  have hplot₁ := plot_of_window (a := { func := inverse, window := some startWindow }) rfl hfailed
  have hplot₂ := plot_of_window (a := { func := some, window := some startWindow }) rfl hshown
  have hown := h [_] _ (List.prefix_refl _) _ (Runs.run_cons_ok (ok_of_failed hplot₁ cleared) [])
  have hlit : Lights (plotFunction inverse startWindow).1 (20, 23) := by decide +kernel
  have hdark : ¬ Lights (plotFunction some startWindow).1 (20, 23) := by decide +kernel
  apply hdark
  rw [← mem_draw_cleared, ← hown _ _ (sends_of_shown hplot₂ _) hplot₂, mem_draw, mem_draw_cleared]
  exact Or.inl hlit

end CalSci.Graph
