import CalSci.QrDecomposition
import CalSci.RaggedRows

/-! `qr_decomposition_finder` of `qr_decomposition.py` on list objects. Every index and every division is checked. The
loops read all rows in every column before the announced number: rows that are longer give what their first entries
give, and a row that is shorter raises. -/

namespace CalSci.Qr

open GridRows RowObjects

section Model

variable {K : Type} [DivisionRing K] [LinearOrder K]

def columnNormObject (root : K → K) (A rows j : Nat) : Program K K := do
  let norm ← forEach (fun norm i => do return norm + (← getItem A i j) ^ 2) (List.range rows) 0
  pure (root norm)

/-- `for i in range(rows): Q[i][j] = A[i][j] / norm`. -/
def normaliseObject (A rows j : Nat) (norm : K) (Q : Grid K) : Program K (Grid K) :=
  forEach (fun Q i => do
    let x ← getItem A i j
    let y ← divide x norm
    pure (setEntry Q i j y)) (List.range rows) Q

def projectObject (A rows j : Nat) (Q R : Grid K) (k : Nat) : Program K (Grid K) := do
  let dot ← forEach (fun dot i => do return dot + (← getItem A i k) * entry Q i j) (List.range rows) 0
  let R := setEntry R j k dot
  forEach (fun _ i => do
    let x ← getItem A i k
    setItem A i k (x - dot * entry Q i j)) (List.range rows) ()
  pure R

def stepObject (root : K → K) (A rows cols : Nat) (factors : Grid K × Grid K) (j : Nat) :
    Program K (Grid K × Grid K) := do
  let norm ← columnNormObject root A rows j
  if |norm| < tolerance then pure factors
  else do
    let R := setEntry factors.2 j j norm
    let Q ← normaliseObject A rows j norm factors.1
    let R ← forEach (projectObject A rows j Q) (List.range' (j + 1) (cols - (j + 1))) R
    pure (Q, R)

/-- `qr_decomposition_finder` on the matrix object `matrix`. What `is_valid_matrix` says is not used; `Q` and `R` are
lists that nothing else refers to. -/
def qrDecompositionFinderObject (root : K → K) (matrix rows cols : Nat) : Program K (Grid K × Grid K) := do
  let Q := tabulate rows cols fun _ _ => 0
  let R := tabulate cols cols fun _ _ => 0
  let A ← copyRows matrix
  forEach (stepObject root A rows cols) (List.range cols) (Q, R)

end Model

variable {K : Type} [DivisionRing K] {base : Heap K} {A rows cols j : Nat} {m : Grid K}

/-! ### On rows that are long enough -/

section Long

variable {s : QrState K}

theorem columnNormObject_does (root : K → K) (h : Rect (trim cols m) rows cols) (hj : j < cols) :
    Does base A m (columnNormObject root A rows j) (columnNorm root rows (trim cols m) j) m := by
  refine Does.bind (Does.forEach_value (fun norm i hi => ?_) 0) (.pure _)
  exact (Does.getItem_trim h (List.mem_range.mp hi) hj).bind (.pure _)

/-- The object `A` has the entries of the state, in the columns that count. -/
def Copies (rows cols : Nat) (t : QrState K) (m : Grid K) : Prop := Rect t.A rows cols ∧ t.A = trim cols m

theorem projectObject_does (h : Copies rows cols s m) {k : Nat} (hk : k < cols) :
    ∃ m', Does base A m (projectObject A rows j s.Q s.R k) (s.project rows j k).R m' ∧
      Copies rows cols (s.project rows j k) m' := by
  obtain ⟨hrect, hm⟩ := h
  rw [hm] at hrect
  obtain ⟨dot, hdot⟩ : ∃ dot, (List.range rows).foldl (fun dot i => dot + entry s.A i k * entry s.Q i j) 0 = dot :=
    ⟨_, rfl⟩
  have hread : Does base A m (forEach (fun dot i => do return dot + (← getItem A i k) * entry s.Q i j)
      (List.range rows) 0) dot m := by
    rw [← hdot, hm]
    refine Does.forEach_value (fun dot i hi => ?_) 0
    exact (Does.getItem_trim hrect (List.mem_range.mp hi) hk).bind (.pure _)
  obtain ⟨m', hdoes, hrect', hcopy⟩ := Does.updateItems_trim (fun i => i) (fun _ => k)
    (fun i x => x - dot * entry s.Q i j) (fun i (hi : i ∈ List.range rows) => ⟨List.mem_range.mp hi, hk⟩) hrect
  refine ⟨m', ?_, ?_⟩
  · rw [QrState.project, hdot]
    exact hread.bind (hdoes.bind (.pure _))
  · have hA : (s.project rows j k).A = trim cols m' := by
      rw [QrState.project, hdot, hm]
      exact hcopy.symm
    exact ⟨hA ▸ hrect', hA⟩

/-- All columns after column `j`. -/
theorem projectAll_does (h : Copies rows cols s m) {indices : List Nat} (hindices : ∀ k ∈ indices, k < cols) :
    ∃ m', Does base A m (forEach (projectObject A rows j s.Q) indices s.R)
        (indices.foldl (QrState.project rows j) s).R m' ∧
      Copies rows cols (indices.foldl (QrState.project rows j) s) m' ∧
      (indices.foldl (QrState.project rows j) s).Q = s.Q := by
  have hbody : ∀ (t : QrState K) (R m : Grid K) (k : Nat), k ∈ indices →
      Copies rows cols t m ∧ t.Q = s.Q ∧ t.R = R → ∃ R' m', Does base A m (projectObject A rows j s.Q R k) R' m' ∧
        Copies rows cols (t.project rows j k) m' ∧ (t.project rows j k).Q = s.Q ∧ (t.project rows j k).R = R' := by
    rintro t R m k hk ⟨hcopies, hQ, rfl⟩
    obtain ⟨m', hdoes, hcopies'⟩ := projectObject_does hcopies (hindices k hk)
    rw [← hQ]
    exact ⟨_, m', hdoes, hcopies', rfl, rfl⟩
  obtain ⟨R, m', hdoes, hcopies, hQ, rfl⟩ := Does.forEach _ _ hbody ⟨h, rfl, rfl⟩
  exact ⟨m', hdoes, hcopies, hQ⟩

variable [LinearOrder K]

theorem normaliseObject_does (h : Rect s.A rows cols) (hm : s.A = trim cols m) (hj : j < cols) {norm : K}
    (hnorm : norm ≠ 0) : Does base A m (normaliseObject A rows j norm s.Q) (s.normalise rows j norm).Q m := by
  rw [hm] at h
  rw [QrState.normalise, hm]
  apply Does.forEach_value
  intro Q i hi
  exact (Does.getItem_trim h (List.mem_range.mp hi) hj).bind ((Does.divide _ hnorm).bind (.pure _))

variable [IsStrictOrderedRing K]

theorem stepObject_does (root : K → K) (h : Copies rows cols s m) (hj : j < cols) :
    ∃ m', Does base A m (stepObject root A rows cols (s.Q, s.R) j)
      ((s.step root rows cols j).Q, (s.step root rows cols j).R) m' ∧
      Copies rows cols (s.step root rows cols j) m' := by
  obtain ⟨hrect, hm⟩ := h
  have hread : Does base A m (columnNormObject root A rows j) (columnNorm root rows s.A j) m := by
    rw [hm]
    exact columnNormObject_does root (hm ▸ hrect) hj
  rw [QrState.step]
  generalize columnNorm root rows s.A j = norm at hread ⊢
  by_cases hsmall : |norm| < tolerance
  · rw [if_pos hsmall]
    refine ⟨m, hread.bind ?_, hrect, hm⟩
    rw [if_pos hsmall]
    exact .pure _
  · have hne : norm ≠ 0 := by
      rintro rfl
      rw [abs_zero, tolerance] at hsmall
      exact hsmall (by positivity)
    have hcopies : Copies rows cols (s.normalise rows j norm) m := ⟨hrect, hm⟩
    obtain ⟨m', hdoes, hcopies', hQ⟩ := projectAll_does hcopies fun k hk =>
      (mem_range'_sub.mp hk : j + 1 ≤ k ∧ k < cols).2
    rw [if_neg hsmall]
    refine ⟨m', hread.bind ?_, hcopies'⟩
    rw [if_neg hsmall, hQ]
    exact (normaliseObject_does hrect hm hj hne).bind (hdoes.bind (.pure _))

/-- All turns. -/
theorem turns_do (root : K → K) (h : Rect (trim cols m) rows cols) :
    ∃ m', Does base A m (forEach (stepObject root A rows cols) (List.range cols)
      (tabulate rows cols fun _ _ => 0, tabulate cols cols fun _ _ => 0))
      (qrDecompositionFinder root (trim cols m) rows cols) m' := by
  have hbody : ∀ (t : QrState K) (factors : Grid K × Grid K) (m : Grid K) (j : Nat), j ∈ List.range cols →
      Copies rows cols t m ∧ factors = (t.Q, t.R) → ∃ factors' m',
        Does base A m (stepObject root A rows cols factors j) factors' m' ∧
          Copies rows cols (t.step root rows cols j) m' ∧
          factors' = ((t.step root rows cols j).Q, (t.step root rows cols j).R) := by
    rintro t factors m j hj ⟨hcopies, rfl⟩
    obtain ⟨m', hdoes, hcopies'⟩ := stepObject_does root hcopies (List.mem_range.mp hj)
    exact ⟨_, m', hdoes, hcopies', rfl⟩
  have hstart : Copies rows cols (QrState.start rows cols (trim cols m)) m := ⟨h, rfl⟩
  obtain ⟨factors, m', hdoes, -, rfl⟩ := Does.forEach _ _ hbody ⟨hstart, rfl⟩
  exact ⟨m', hdoes⟩

end Long

/-! ### What has been read -/

theorem columnNormObject_yields (root : K → K) :
    Yields base A m (columnNormObject root A rows j) fun _ => ∀ i ∈ List.range rows,
      Reaches (m.map List.length) i j := by
  refine Yields.bind (Yields.forEach (fun _ m' i _ hsame => ?_) 0) fun _ _ _ hall => .pure hall
  exact (Yields.getItem i j).bind fun _ _ _ hreach => .pure (hsame ▸ hreach)

theorem projectObject_yields (Q R : Grid K) (k : Nat) :
    Yields base A m (projectObject A rows j Q R k) fun _ => True := by
  refine Yields.bind (Yields.forEach_keeps (fun _ m' i => ?_) 0) fun dot m' _ _ => ?_
  · exact (Yields.getItem i k).bind fun _ _ _ _ => .pure trivial
  · refine Yields.bind (Yields.forEach_keeps (fun _ m' i => ?_) ()) fun _ _ _ _ => .pure trivial
    exact (Yields.getItem i k).bind fun _ _ _ _ => Yields.setItem i k _

variable [LinearOrder K]

theorem normaliseObject_yields (norm : K) (Q : Grid K) :
    Yields base A m (normaliseObject A rows j norm Q) fun _ => True := by
  apply Yields.forEach_keeps
  intro _ m' i
  exact (Yields.getItem i j).bind fun _ _ _ _ => (Yields.divide _ _).bind fun _ _ _ _ => .pure trivial

/-- When all turns have returned, every row had an entry in every column. -/
theorem turns_yield (root : K → K) (factors : Grid K × Grid K) :
    Yields base A m (forEach (stepObject root A rows cols) (List.range cols) factors) fun _ =>
      ∀ j ∈ List.range cols, ∀ i ∈ List.range rows, Reaches (m.map List.length) i j := by
  apply Yields.forEach
  intro factors m' j _ hsame
  apply (columnNormObject_yields root).bind
  intro norm _ _ hall
  rw [hsame] at hall
  split
  · exact .pure hall
  · apply (normaliseObject_yields norm factors.1).bind
    intro Q _ _ _
    exact (Yields.forEach_keeps (fun R _ k => projectObject_yields Q R k) _).bind fun _ _ _ _ => .pure hall

/-! ### The finder -/

/-- On rows that are long enough the finder returns the factors of their first entries. -/
theorem qrDecompositionFinderObject_run [IsStrictOrderedRing K] (root : K → K) {h : Heap K} {ref : Nat}
    (hshows : h.Shows ref m) (hrect : Rect (trim cols m) rows cols) :
    ∃ h', exec (qrDecompositionFinderObject root ref rows cols) h =
      (.ok (qrDecompositionFinder root (trim cols m) rows cols), h') := by
  obtain ⟨h₁, hcopy, hold⟩ := exec_copyRows hshows
  obtain ⟨m', hdoes⟩ := turns_do root hrect
  obtain ⟨h', hexec, -⟩ := hdoes h₁ hold
  exact ⟨h', by rw [qrDecompositionFinderObject, exec_bind_ok hcopy, hexec]⟩

/-- Where the finder has returned, every row had an entry in every column. -/
theorem qrDecompositionFinderObject_reaches (root : K → K) {h h' : Heap K} {ref : Nat} {factors : Grid K × Grid K}
    (hshows : h.Shows ref m) (hexec : exec (qrDecompositionFinderObject root ref rows cols) h = (.ok factors, h'))
    {i : Nat} (hi : i < rows) (hj : j < cols) : Reaches (m.map List.length) i j := by
  obtain ⟨h₁, hcopy, hold⟩ := exec_copyRows hshows
  rw [qrDecompositionFinderObject, exec_bind_ok hcopy] at hexec
  exact (turns_yield root _ h₁ hold factors h' hexec).1 j (List.mem_range.mpr hj) i (List.mem_range.mpr hi)

/-- `Q` keeps its shape. -/
theorem qrDecompositionFinder_rect (root : K → K) (matrix : Grid K) (rows cols : Nat) :
    Rect (qrDecompositionFinder root matrix rows cols).1 rows cols := by
  have hproject : ∀ (indices : List Nat) (s : QrState K) (j : Nat),
      (indices.foldl (QrState.project rows j) s).Q = s.Q := by
    intro indices s j
    induction indices generalizing s with
    | nil => rfl
    | cons k indices ih => exact ih (s.project rows j k)
  have hnormalise : ∀ (s : QrState K) (j : Nat) (norm : K), Rect s.Q rows cols →
      Rect (s.normalise rows j norm).Q rows cols := by
    intro s j norm hrect
    exact List.foldlRecOn (motive := fun Q : Grid K => Rect Q rows cols) _ _ hrect fun Q hQ i _ => hQ.setEntry i j _
  have hstep : ∀ (s : QrState K) (j : Nat), Rect s.Q rows cols → Rect (s.step root rows cols j).Q rows cols := by
    intro s j hrect
    rw [QrState.step]
    split
    · exact hrect
    · rw [hproject]
      exact hnormalise s j _ hrect
  exact List.foldlRecOn (motive := fun s : QrState K => Rect s.Q rows cols) _ _ (Rect.tabulate rows cols _)
    fun s hs j _ => hstep s j hs

end CalSci.Qr
