import Mathlib.Data.List.Infix

/-! Runs of a step function that may raise: the state after a list of inputs, invariants over whole
runs, simulation by a total step function, and the exact condition under which a property holds at
every prefix of a run. -/

namespace Runs

variable {σ κ ε τ : Type} {step : σ → κ → Except ε σ}

theorem exists_ok {x : Except ε σ} (h : x.isOk = true) : ∃ s, x = .ok s := by
  cases x with
  | error e => cases h
  | ok s => exact ⟨s, rfl⟩

theorem ok_bind (s : σ) (f : σ → Except ε τ) : (Except.ok s >>= f) = f s := rfl

/-- The state after a list of inputs, or the first exception. -/
def run (step : σ → κ → Except ε σ) (s : σ) (inputs : List κ) : Except ε σ :=
  inputs.foldlM step s

@[simp] theorem run_nil (s : σ) : run step s [] = .ok s := rfl

theorem run_cons_ok {s s' : σ} {k : κ} (h : step s k = .ok s') (inputs : List κ) :
    run step s (k :: inputs) = run step s' inputs := by
  rw [run, List.foldlM_cons, h]
  rfl

theorem run_concat (s : σ) (inputs : List κ) (k : κ) :
    run step s (inputs ++ [k]) = run step s inputs >>= fun s' => step s' k := by
  simp [run, List.foldlM_append]

theorem run_concat_ok {s s' : σ} {inputs : List κ} (h : run step s inputs = .ok s') (k : κ) :
    run step s (inputs ++ [k]) = step s' k := by
  rw [run_concat, h]
  rfl

/-- A run that did not raise did not raise before its last step. -/
theorem run_concat_inv {s s'' : σ} {inputs : List κ} {k : κ}
    (h : run step s (inputs ++ [k]) = .ok s'') :
    ∃ s', run step s inputs = .ok s' ∧ step s' k = .ok s'' := by
  rw [run_concat] at h
  cases hrun : run step s inputs with
  | error e =>
      rw [hrun] at h
      cases h
  | ok s' =>
      rw [hrun] at h
      exact ⟨s', rfl, h⟩

theorem ok_of_bind {x : Except ε σ} {f : σ → Except ε τ} {t : τ} (h : x >>= f = .ok t) :
    ∃ s, x = .ok s ∧ f s = .ok t := by
  cases x with
  | error e => cases h
  | ok s => exact ⟨s, rfl, h⟩

/-- In a loop that has returned, every turn has returned. -/
theorem foldlM_turn {s t : σ} {inputs : List κ} (h : inputs.foldlM step s = .ok t) {k : κ} (hk : k ∈ inputs) :
    ∃ s' t', step s' k = .ok t' := by
  induction inputs generalizing s with
  | nil => cases hk
  | cons k' inputs ih =>
      rw [List.foldlM_cons] at h
      obtain ⟨s', hfirst, hrest⟩ := ok_of_bind h
      rcases List.mem_cons.mp hk with rfl | hmem
      · exact ⟨s, s', hfirst⟩
      · exact ih hrest hmem

/-- A loop none of whose turns raises. -/
theorem foldlM_ok {next : σ → κ → σ} {inputs : List κ} (h : ∀ s, ∀ k ∈ inputs, step s k = .ok (next s k)) (s : σ) :
    inputs.foldlM step s = .ok (inputs.foldl next s) := by
  induction inputs generalizing s with
  | nil => rfl
  | cons k inputs ih =>
      rw [List.foldlM_cons, h s k List.mem_cons_self, ok_bind, List.foldl_cons]
      exact ih (fun s k' hk' => h s k' (List.mem_cons_of_mem k hk')) _

/-- In a comprehension that has returned, every element has been computed. -/
theorem mapM_element {f : κ → Except ε τ} {inputs : List κ} {ts : List τ} (h : inputs.mapM f = .ok ts) {k : κ}
    (hk : k ∈ inputs) : ∃ t, f k = .ok t := by
  induction inputs generalizing ts with
  | nil => cases hk
  | cons k' inputs ih =>
      rw [List.mapM_cons] at h
      obtain ⟨t, hfirst, hrest⟩ := ok_of_bind h
      obtain ⟨ts', hmap, -⟩ := ok_of_bind hrest
      rcases List.mem_cons.mp hk with rfl | hmem
      · exact ⟨t, hfirst⟩
      · exact ih hmap hmem

/-- A comprehension none of whose elements raises. -/
theorem mapM_ok {f : κ → Except ε τ} {g : κ → τ} {inputs : List κ} (h : ∀ k ∈ inputs, f k = .ok (g k)) :
    inputs.mapM f = .ok (inputs.map g) := by
  induction inputs with
  | nil => rfl
  | cons k inputs ih =>
      rw [List.mapM_cons, h k List.mem_cons_self, ok_bind, ih fun k' hk' => h k' (List.mem_cons_of_mem k hk')]
      rfl

/-- What every step that returns preserves, every run that returns preserves. -/
theorem run_invariant {Inv : σ → Prop} (hstep : ∀ s k s', Inv s → step s k = .ok s' → Inv s')
    {s : σ} (hs : Inv s) {inputs : List κ} : ∀ {s'}, run step s inputs = .ok s' → Inv s' := by
  induction inputs using List.reverseRecOn with
  | nil =>
      intro s' h
      cases h
      exact hs
  | append_singleton inputs k ih =>
      intro s'' h
      obtain ⟨s', hrun, hlast⟩ := run_concat_inv h
      exact hstep s' k s'' (ih hrun) hlast

/-- A relation kept by every step that returns relates the ends of the two runs. -/
theorem run_simulates {abs : τ → κ → τ} {R : σ → τ → Prop}
    (hstep : ∀ s a k s', R s a → step s k = .ok s' → R s' (abs a k))
    {s : σ} {a : τ} (hs : R s a) {inputs : List κ} :
    ∀ {s'}, run step s inputs = .ok s' → R s' (inputs.foldl abs a) := by
  induction inputs using List.reverseRecOn with
  | nil =>
      intro s' h
      cases h
      exact hs
  | append_singleton inputs k ih =>
      intro s'' h
      obtain ⟨s', hrun, hlast⟩ := run_concat_inv h
      rw [List.foldl_append]
      exact hstep s' _ k s'' (ih hrun) hlast

/-- No step raises, and `P` holds after every one of them. -/
def AfterEach (step : σ → κ → Except ε σ) (P : σ → Prop) (s : σ) (inputs : List κ) : Prop :=
  ∀ first k, first ++ [k] <+: inputs → ∃ s', run step s (first ++ [k]) = .ok s' ∧ P s'

/-- Every step of the run meets `C`, a condition on the state before the step and its input. -/
def StepsMeet (step : σ → κ → Except ε σ) (C : σ → κ → Prop) (s : σ) (inputs : List κ) : Prop :=
  ∀ first k, first ++ [k] <+: inputs → ∀ s', run step s first = .ok s' → C s' k

theorem stepsMeet_nil (C : σ → κ → Prop) (s : σ) : StepsMeet step C s [] := by
  intro first k hpre
  exact absurd (List.prefix_nil.mp hpre) (by simp)

theorem stepsMeet_cons {C : σ → κ → Prop} {s : σ} {k : κ} {inputs : List κ} (hfirst : C s k)
    (hrest : ∀ s', step s k = .ok s' → StepsMeet step C s' inputs) : StepsMeet step C s (k :: inputs) := by
  intro first k' hpre s' hrun
  cases first with
  | nil =>
      obtain ⟨rfl, -⟩ := List.cons_prefix_cons.mp hpre
      cases hrun
      exact hfirst
  | cons k₀ first =>
      obtain ⟨rfl, hpre'⟩ := List.cons_prefix_cons.mp hpre
      rw [run, List.foldlM_cons] at hrun
      obtain ⟨s₁, hstep, hrun'⟩ := ok_of_bind hrun
      exact hrest s₁ hstep first k' hpre' s' hrun'

/-- If the invariant shows that the next step meets a condition, and such steps return and keep it, then
it holds at every point of the run. -/
theorem invariant_of_next {Inv : σ → Prop} {C : σ → κ → Prop}
    (hstep : ∀ s k, Inv s → C s k → ∃ s', step s k = .ok s' ∧ Inv s') {s : σ} (hs : Inv s)
    {inputs : List κ}
    (hnext : ∀ first k, first ++ [k] <+: inputs → ∀ s', run step s first = .ok s' → Inv s' → C s' k) :
    ∀ first, first <+: inputs → ∃ s', run step s first = .ok s' ∧ Inv s' := by
  intro first
  induction first using List.reverseRecOn with
  | nil => exact fun _ => ⟨s, rfl, hs⟩
  | append_singleton first k ih =>
      intro hpre
      obtain ⟨s', hrun, hinv⟩ := ih ((List.prefix_append first [k]).trans hpre)
      obtain ⟨s'', hlast, hinv'⟩ := hstep s' k hinv (hnext first k hpre s' hrun hinv)
      exact ⟨s'', by rw [run_concat_ok hrun, hlast], hinv'⟩

/-- The condition is exact when a step that meets it has the property, and one that fails it never
returns in a state with the property. -/
theorem afterEach_iff_stepsMeet {Inv P : σ → Prop} {C : σ → κ → Prop}
    (hstep : ∀ s k, Inv s → C s k → ∃ s', step s k = .ok s' ∧ Inv s' ∧ P s')
    (hbad : ∀ s k, Inv s → ¬ C s k → ∀ s', step s k = .ok s' → ¬ P s')
    {s : σ} (hs : Inv s) (inputs : List κ) :
    AfterEach step P s inputs ↔ StepsMeet step C s inputs := by
  have hkeep : ∀ s k, Inv s → C s k → ∃ s', step s k = .ok s' ∧ Inv s' := by
    intro s k hI hC
    obtain ⟨s', hs', hI', -⟩ := hstep s k hI hC
    exact ⟨s', hs', hI'⟩
  refine ⟨?_, ?_⟩
  · intro h
    -- the property after a step shows that the step met the condition
    have hmeets : ∀ first k, first ++ [k] <+: inputs →
        ∀ s', run step s first = .ok s' → Inv s' → C s' k := by
      intro first k hpre s' hrun hI
      obtain ⟨s'', hlast, hPs⟩ := h first k hpre
      rw [run_concat_ok hrun] at hlast
      by_contra hC
      exact hbad s' k hI hC s'' hlast hPs
    intro first k hpre s' hrun
    obtain ⟨s₁, hrun₁, hI⟩ :=
      invariant_of_next hkeep hs hmeets first ((List.prefix_append first [k]).trans hpre)
    rw [hrun] at hrun₁
    cases hrun₁
    exact hmeets first k hpre s' hrun hI
  · intro h first k hpre
    obtain ⟨s', hrun, hI⟩ := invariant_of_next hkeep hs
      (fun first k hpre s' hrun _ => h first k hpre s' hrun) first
      ((List.prefix_append first [k]).trans hpre)
    obtain ⟨s'', hlast, -, hP⟩ := hstep s' k hI (h first k hpre s' hrun)
    exact ⟨s'', by rw [run_concat_ok hrun, hlast], hP⟩

/-- Along a run whose steps meet `C`, an invariant that such steps keep when they return holds. -/
theorem StepsMeet.invariant {Inv : σ → Prop} {C : σ → κ → Prop}
    (hkeep : ∀ s k s', Inv s → C s k → step s k = .ok s' → Inv s') {s : σ} (hs : Inv s) {inputs : List κ}
    (h : StepsMeet step C s inputs) :
    ∀ first, first <+: inputs → ∀ s', run step s first = .ok s' → Inv s' := by
  intro first
  induction first using List.reverseRecOn with
  | nil =>
      intro _ s' hrun
      cases hrun
      exact hs
  | append_singleton first k ih =>
      intro hpre s'' hrun
      obtain ⟨s', hinit, hlast⟩ := run_concat_inv hrun
      have hI := ih ((List.prefix_append first [k]).trans hpre) s' hinit
      exact hkeep s' k s'' hI (h first k hpre s' hinit) hlast

/-- Two properties of a step that agree in the states of an invariant, which the steps with the second
keep when they return, agree on whole runs. -/
theorem stepsMeet_iff {Inv : σ → Prop} {P C : σ → κ → Prop} (hiff : ∀ s k, Inv s → (P s k ↔ C s k))
    (hkeep : ∀ s k s', Inv s → C s k → step s k = .ok s' → Inv s') {s : σ} (hs : Inv s) (inputs : List κ) :
    StepsMeet step P s inputs ↔ StepsMeet step C s inputs := by
  have hkeep' : ∀ s k s', Inv s → P s k → step s k = .ok s' → Inv s' :=
    fun s k s' hI hP => hkeep s k s' hI ((hiff s k hI).mp hP)
  refine ⟨?_, ?_⟩
  · intro h first k hpre s' hrun
    have hI := h.invariant hkeep' hs first ((List.prefix_append first [k]).trans hpre) s' hrun
    exact (hiff s' k hI).mp (h first k hpre s' hrun)
  · intro h first k hpre s' hrun
    have hI := h.invariant hkeep hs first ((List.prefix_append first [k]).trans hpre) s' hrun
    exact (hiff s' k hI).mpr (h first k hpre s' hrun)

/-- A run beside the run of a reference `abs`, over inputs that are `Ok`. When each step returns, keeps
the relation if the reference is then `Good`, and has the property only if it is, the property holds
along the run exactly when the reference is `Good` after every step. -/
theorem tracks_iff {abs : τ → κ → τ} {R P : σ → τ → Prop} {Ok : κ → Prop} (Good : τ → Prop)
    (hR : ∀ s a, R s a → P s a)
    (hstep : ∀ s a k, R s a → Ok k → ∃ s', step s k = .ok s' ∧
      (Good (abs a k) → R s' (abs a k)) ∧ (P s' (abs a k) → Good (abs a k)))
    {s : σ} {a : τ} (hs : R s a) {inputs : List κ} (hok : ∀ k ∈ inputs, Ok k) :
    (∀ first, first <+: inputs → ∃ s', run step s first = .ok s' ∧ P s' (first.foldl abs a)) ↔
      ∀ first k, first ++ [k] <+: inputs → Good ((first ++ [k]).foldl abs a) := by
  have hnext : ∀ first k, first ++ [k] <+: inputs →
      ∀ s', run step s first = .ok s' → R s' (first.foldl abs a) →
      ∃ s'', run step s (first ++ [k]) = .ok s'' ∧
        (Good ((first ++ [k]).foldl abs a) → R s'' ((first ++ [k]).foldl abs a)) ∧
        (P s'' ((first ++ [k]).foldl abs a) → Good ((first ++ [k]).foldl abs a)) := by
    intro first k hpre s' hrun hrel
    rw [run_concat_ok hrun, List.foldl_append]
    exact hstep s' _ k hrel (hok k (hpre.subset (by simp)))
  -- as long as the relation shows that the reference stays good, it holds along the run
  have hrel : (∀ first k, first ++ [k] <+: inputs → ∀ s', run step s first = .ok s' →
        R s' (first.foldl abs a) → Good ((first ++ [k]).foldl abs a)) →
      ∀ first, first <+: inputs → ∃ s', run step s first = .ok s' ∧ R s' (first.foldl abs a) := by
    intro hgood first
    induction first using List.reverseRecOn with
    | nil => exact fun _ => ⟨s, rfl, hs⟩
    | append_singleton first k ih =>
        intro hpre
        obtain ⟨s', hrun, hs'⟩ := ih ((List.prefix_append first [k]).trans hpre)
        obtain ⟨s'', hrun', hkeep, -⟩ := hnext first k hpre s' hrun hs'
        exact ⟨s'', hrun', hkeep (hgood first k hpre s' hrun hs')⟩
  refine ⟨?_, ?_⟩
  · intro h
    have hgood : ∀ first k, first ++ [k] <+: inputs → ∀ s', run step s first = .ok s' →
        R s' (first.foldl abs a) → Good ((first ++ [k]).foldl abs a) := by
      intro first k hpre s' hrun hs'
      obtain ⟨s'', hrun', -, hP⟩ := hnext first k hpre s' hrun hs'
      obtain ⟨s₁, hrun₁, hP₁⟩ := h _ hpre
      rw [hrun'] at hrun₁
      cases hrun₁
      exact hP hP₁
    intro first k hpre
    obtain ⟨s', hrun, hs'⟩ := hrel hgood first ((List.prefix_append first [k]).trans hpre)
    exact hgood first k hpre s' hrun hs'
  · intro h first hpre
    obtain ⟨s', hrun, hs'⟩ := hrel (fun first k hpre _ _ _ => h first k hpre) first hpre
    exact ⟨s', hrun, hR _ _ hs'⟩

/-! ### Steps that return -/

/-- Every step of a run has the property `P`, which may speak of the state before it and of its input. -/
def Each (step : σ → κ → σ) (P : σ → κ → Prop) (s : σ) (inputs : List κ) : Prop :=
  ∀ first k, first ++ [k] <+: inputs → P (first.foldl step s) k

theorem each_nil (step : σ → κ → σ) (P : σ → κ → Prop) (s : σ) : Each step P s [] := by
  intro first k hpre
  exact absurd (List.prefix_nil.mp hpre) (by simp)

theorem each_concat {step : σ → κ → σ} {P : σ → κ → Prop} {s : σ} {inputs : List κ} {k : κ} :
    Each step P s (inputs ++ [k]) ↔ Each step P s inputs ∧ P (inputs.foldl step s) k := by
  refine ⟨?_, ?_⟩
  · intro h
    exact ⟨fun first k' hpre => h first k' (hpre.trans (List.prefix_append _ _)),
      h inputs k (List.prefix_refl _)⟩
  · rintro ⟨hinit, hlast⟩ first k' hpre
    rcases List.prefix_concat_iff.mp hpre with heq | hpre'
    · obtain ⟨rfl, rfl⟩ := List.append_singleton_inj.mp heq
      exact hlast
    · exact hinit first k' hpre'

theorem each_cons {step : σ → κ → σ} {P : σ → κ → Prop} {s : σ} {inputs : List κ} {k : κ} :
    Each step P s (k :: inputs) ↔ P s k ∧ Each step P (step s k) inputs := by
  refine ⟨?_, ?_⟩
  · intro h
    refine ⟨h [] k (List.prefix_append [k] inputs), fun first k' hpre => ?_⟩
    exact h (k :: first) k' (List.cons_prefix_cons.mpr ⟨rfl, hpre⟩)
  · rintro ⟨hfirst, hrest⟩ first k' hpre
    cases first with
    | nil =>
        obtain ⟨rfl, -⟩ := List.cons_prefix_cons.mp hpre
        exact hfirst
    | cons k₀ first =>
        obtain ⟨rfl, hpre'⟩ := List.cons_prefix_cons.mp hpre
        exact hrest first k' hpre'

theorem each_singleton {step : σ → κ → σ} {P : σ → κ → Prop} {s : σ} {k : κ} :
    Each step P s [k] ↔ P s k := by
  rw [each_cons]
  exact and_iff_left (each_nil step P (step s k))

/-- A property of the inputs alone. -/
theorem each_iff_forall_mem {step : σ → κ → σ} {Q : κ → Prop} {s : σ} {inputs : List κ} :
    Each step (fun _ k => Q k) s inputs ↔ ∀ k ∈ inputs, Q k := by
  induction inputs using List.reverseRecOn with
  | nil => exact iff_of_true (each_nil _ _ _) nofun
  | append_singleton inputs k ih =>
      rw [each_concat, ih]
      simp only [List.mem_append, List.mem_singleton]
      refine ⟨?_, ?_⟩
      · rintro ⟨hinit, hlast⟩ k' (hmem | rfl)
        · exact hinit k' hmem
        · exact hlast
      · exact fun hall => ⟨fun k' hmem => hall k' (.inl hmem), hall k (.inr rfl)⟩

/-- Along a run whose steps have `C`, an invariant that such steps keep holds. -/
theorem Each.invariant {step : σ → κ → σ} {Inv : σ → Prop} {C : σ → κ → Prop}
    (hkeep : ∀ s k, Inv s → C s k → Inv (step s k)) {s : σ} (hs : Inv s) {inputs : List κ}
    (h : Each step C s inputs) : ∀ first, first <+: inputs → Inv (first.foldl step s) := by
  intro first
  induction first using List.reverseRecOn with
  | nil => exact fun _ => hs
  | append_singleton first k ih =>
      intro hpre
      rw [List.foldl_append]
      exact hkeep _ k (ih ((List.prefix_append first [k]).trans hpre)) (h first k hpre)

/-- Two properties of a step that agree in the states of an invariant, which the steps with the second
keep, agree on whole runs. -/
theorem each_iff {step : σ → κ → σ} {Inv : σ → Prop} {P C : σ → κ → Prop}
    (hiff : ∀ s k, Inv s → (P s k ↔ C s k)) (hkeep : ∀ s k, Inv s → C s k → Inv (step s k))
    {s : σ} (hs : Inv s) (inputs : List κ) : Each step P s inputs ↔ Each step C s inputs := by
  have hkeep' : ∀ s k, Inv s → P s k → Inv (step s k) :=
    fun s k hI hP => hkeep s k hI ((hiff s k hI).mp hP)
  refine ⟨?_, ?_⟩
  · intro h first k hpre
    have hI := h.invariant hkeep' hs first ((List.prefix_append first [k]).trans hpre)
    exact (hiff _ k hI).mp (h first k hpre)
  · intro h first k hpre
    have hI := h.invariant hkeep hs first ((List.prefix_append first [k]).trans hpre)
    exact (hiff _ k hI).mpr (h first k hpre)

/-! ### Loops with a bound -/

/-- `while guard do step`, at most `n` times. -/
def loop (guard : σ → Bool) (step : σ → σ) : Nat → σ → σ
  | 0, s => s
  | n + 1, s => if guard s then loop guard step n (step s) else s

section Loop

variable {guard : σ → Bool} {next : σ → σ}

theorem loop_succ_of_guard {s : σ} (h : guard s = true) (n : Nat) :
    loop guard next (n + 1) s = loop guard next n (next s) := if_pos h

theorem loop_of_not_guard {s : σ} (h : guard s = false) (n : Nat) : loop guard next n s = s := by
  cases n with
  | zero => rfl
  | succ n => exact if_neg (by rw [h]; exact Bool.false_ne_true)

/-- A loop whose turns make a measure smaller comes to its end within that measure. -/
theorem loop_exits (measure : σ → Nat) (hless : ∀ s, guard s = true → measure (next s) < measure s) {n : Nat}
    {s : σ} (hn : measure s ≤ n) : guard (loop guard next n s) = false := by
  induction n generalizing s with
  | zero =>
      by_contra hguard
      have := hless s (Bool.not_eq_false _ ▸ hguard)
      omega
  | succ n ih =>
      cases hguard : guard s with
      | false => rw [loop_of_not_guard hguard, hguard]
      | true =>
          rw [loop_succ_of_guard hguard]
          have := hless s hguard
          exact ih (by omega)

theorem loop_invariant {Inv : σ → Prop} (hstep : ∀ s, Inv s → guard s = true → Inv (next s)) {s : σ} (h : Inv s)
    (n : Nat) : Inv (loop guard next n s) := by
  induction n generalizing s with
  | zero => exact h
  | succ n ih =>
      cases hguard : guard s with
      | false =>
          rw [loop_of_not_guard hguard]
          exact h
      | true =>
          rw [loop_succ_of_guard hguard]
          exact ih (hstep s h hguard)

/-- Two loops in step: their guards agree on related states, and a turn of both from states of which the
second has `C` keeps them related. -/
theorem loop_simulates {guard' : τ → Bool} {next' : τ → τ} {R : σ → τ → Prop} {C : τ → Prop}
    (hguard : ∀ s t, R s t → guard s = guard' t)
    (hstep : ∀ s t, R s t → guard' t = true → C t → R (next s) (next' t)) {s : σ} {t : τ} (h : R s t)
    (hC : ∀ n, guard' (loop guard' next' n t) = true → C (loop guard' next' n t)) (n : Nat) :
    R (loop guard next n s) (loop guard' next' n t) := by
  induction n generalizing s t with
  | zero => exact h
  | succ n ih =>
      cases ht : guard' t with
      | false =>
          rw [loop_of_not_guard ht, loop_of_not_guard ((hguard s t h).trans ht)]
          exact h
      | true =>
          rw [loop_succ_of_guard ht, loop_succ_of_guard ((hguard s t h).trans ht)]
          apply ih (hstep s t h ht (hC 0 ht))
          intro k hk
          have hlater := hC (k + 1)
          rw [loop_succ_of_guard ht] at hlater
          exact hlater hk

/-- An invariant that a turn keeps from the states with `C`, for a loop all of whose turns are from such. -/
theorem loop_invariant_of {Inv C : σ → Prop} (hstep : ∀ s, Inv s → guard s = true → C s → Inv (next s)) {s : σ}
    (h : Inv s) (hC : ∀ n, guard (loop guard next n s) = true → C (loop guard next n s)) (n : Nat) :
    Inv (loop guard next n s) := by
  have hturn : ∀ s t, s = t ∧ Inv t → guard t = true → C t → next s = next t ∧ Inv (next t) := by
    rintro s t ⟨rfl, hs⟩ hguard hCs
    exact ⟨rfl, hstep s hs hguard hCs⟩
  exact (loop_simulates (R := fun s t => s = t ∧ Inv t) (fun s t hst => by rw [hst.1]) hturn ⟨rfl, h⟩ hC n).2

end Loop

end Runs
