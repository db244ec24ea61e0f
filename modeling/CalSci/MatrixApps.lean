import CalSci.EchelonApps
import CalSci.LuDecomposition
import CalSci.MatrixReads
import CalSci.QrObjects

/-! What ok does in the calculator loops of `determinant.py` (for `n > 2`), `matrix_mul_2.py`,
`lu_decomposition.py` and `qr_decomposition.py`: the rows are read from the fields, nothing asks how long they
are, and the loops index them by the announced dimensions. In the last two `is_valid_matrix` is called, but its
answer is not used. -/

namespace CalSci.MatrixApps

open GridRows RowObjects

/-! ### The four apps -/

/-- The calculators, with the dimensions that were announced. -/
inductive MatrixApp
  | determinant (n : Int)
  | matrixMul2 (r1 c1 r2 c2 : Int)
  | luDecomposition (r c : Int)
  | qrDecomposition (r c : Int)

/-- The dimensions with which the app goes on to the rows. -/
def MatrixApp.Accepted : MatrixApp → Prop
  | determinant n => 2 < n
  | matrixMul2 _ c1 r2 _ => c1 = r2
  | luDecomposition r c => r = c
  | qrDecomposition r c => r = c

/-- What the form lists after ok. -/
inductive Answer (N K : Type)
  | determinant (det : Int)
  | product (r1 c2 : Int) (result : Grid Int)
  | lu (l u : Grid N)
  | qr (l u : Grid K)

/-- `" ".join(str(x) for x in row)`. -/
def joined {L : Type} (showNumber : L → List Char) (row : List L) : List Char :=
  [' '].intercalate (row.map showNumber)

/-- `form.form_list`, with the texts of the rounded numbers. -/
def Answer.formList {N K : Type} (showNumber : N → List Char) (showReal : K → List Char) :
    Answer N K → List (List Char)
  | determinant det => ["determinant is:".toList, Py.str det]
  | product r1 c2 result =>
      ["Resulting matirx".toList, "after multiplication:".toList, "Rows = ".toList ++ Py.str r1,
        "Cols = ".toList ++ Py.str c2, "Matrix:".toList] ++ result.map (joined Py.str)
  | lu l u =>
      ["LU Decomposition:".toList, "L Matrix:".toList] ++ l.map (joined showNumber) ++
        "U Matrix:".toList :: u.map (joined showNumber)
  | qr l u =>
      ["QR Decomposition:".toList, "Q Matrix:".toList] ++ l.map (joined showReal) ++
        "R Matrix:".toList :: u.map (joined showReal)

/-- There is a number among what is listed. -/
def Answer.Numeric {N K : Type} : Answer N K → Prop
  | determinant _ => True
  | product _ _ result => ∃ row ∈ result, row ≠ []
  | lu l u => ∃ row ∈ l ++ u, row ≠ []
  | qr l u => ∃ row ∈ l ++ u, row ≠ []

/-- An answer that is made from what a computation returns. -/
theorem exists_answer_iff {N K τ : Type} {x : Except Fault τ} {f : τ → Answer N K} :
    (∃ answer, (do return f (← x) : Except Fault (Answer N K)) = .ok answer ∧ answer.Numeric) ↔
      ∃ t, x = .ok t ∧ (f t).Numeric := by
  refine ⟨?_, ?_⟩
  · rintro ⟨answer, hanswer, hnumeric⟩
    obtain ⟨t, rfl, hf⟩ := Runs.ok_of_bind hanswer
    obtain rfl := Except.ok.inj hf
    exact ⟨t, rfl, hnumeric⟩
  · rintro ⟨t, rfl, hnumeric⟩
    exact ⟨f t, rfl, hnumeric⟩

/-- `for i in range(1, rows + 1): list(map(int, form.input_list[f"inp_{before + i}"].split("+")))`. -/
def readRows (inputs : Int → List Char) (before rows : Int) : Except Fault (Grid Int) :=
  match Py.intRows ((List.range' 1 rows.toNat).map fun i : Nat => inputs (before + i)) with
  | none => .error .valueError
  | some matrix => .ok matrix

/-- The matrices that were entered, each with the number of columns announced for it. -/
def MatrixApp.entered (inputs : Int → List Char) : MatrixApp → Except Fault (List (Grid Int × Int))
  | determinant n => do return [(← readRows inputs 0 n, n)]
  | matrixMul2 r1 c1 r2 c2 => do return [(← readRows inputs 0 r1, c1), (← readRows inputs r1 r2, c2)]
  | luDecomposition r c => do return [(← readRows inputs 0 r, c)]
  | qrDecomposition r c => do return [(← readRows inputs 0 r, c)]

/-! `lu_decomposition_finder` computes with numbers of a type `N`, which the integers of the form are among: the port's
quotients are single floats, and nothing is asked of them but that a zero is below the tolerance. -/

variable (N : Type) [Zero N] [One N] [Sub N] [Mul N] [Div N] [IntCast N] [DecidableEq N] [Lu.PivotTest N]

def cast (K : Type) [IntCast K] (matrix : Grid Int) : Grid K := matrix.map (List.map fun x : Int => (x : K))

/-- The branch of ok in `calculator`: what it lists in the form, or what it raises before it does. -/
def MatrixApp.ok {K : Type} [DivisionRing K] [LinearOrder K] (root : K → K) (inputs : Int → List Char) :
    MatrixApp → Except Fault (Answer N K)
  | determinant n => do
      let matrix ← readRows inputs 0 n
      let det ← Determinants.detCalChecked matrix n.toNat
      return .determinant det
  | matrixMul2 r1 c1 r2 c2 => do
      let matrix1 ← readRows inputs 0 r1
      let matrix2 ← readRows inputs r1 r2
      let result ← Determinants.matrixMul2Checked r1.toNat c1.toNat c2.toNat matrix1 matrix2
      return .product r1 c2 result
  | luDecomposition r c => do
      let matrix ← readRows inputs 0 r
      let factors ← (exec (Lu.luDecompositionFinder 0 r.toNat c.toNat) (Echelon.heapOf (cast N matrix))).1
      return .lu factors.1 factors.2
  | qrDecomposition r c => do
      let matrix ← readRows inputs 0 r
      let factors ← (exec (Qr.qrDecompositionFinderObject root 0 r.toNat c.toNat)
        (Echelon.heapOf (cast K matrix))).1
      return .qr factors.1 factors.2

/-! ### The rows -/

/-- Some row has not the announced number of columns. -/
def Malformed (matrices : List (Grid Int × Int)) : Prop :=
  ∃ entered ∈ matrices, ∃ row ∈ entered.1, (row.length : Int) ≠ entered.2

/-- Some row has less than the announced number of columns. -/
def TooShort (matrices : List (Grid Int × Int)) : Prop :=
  ∃ entered ∈ matrices, ∃ row ∈ entered.1, (row.length : Int) < entered.2

/-- What else keeps an app from listing numbers: a product without entries, and in `lu_decomposition_finder` a pivot,
before the last, below the tolerance. -/
def MatrixApp.Spared (matrices : List (Grid Int × Int)) : MatrixApp → Prop
  | determinant _ => False
  | matrixMul2 r1 _ _ c2 => r1 ≤ 0 ∨ c2 ≤ 0
  | luDecomposition r _ => ∃ entered ∈ matrices, ∃ k, k + 1 < r.toNat ∧ Lu.Small (Lu.pivot (cast N entered.1) k)
  | qrDecomposition _ _ => False

variable {N} {inputs : Int → List Char} {matrix : Grid Int}

theorem readRows_length {before rows : Int} (h : readRows inputs before rows = .ok matrix) :
    matrix.length = rows.toNat := by
  unfold readRows at h
  split at h
  · cases h
  · next hread =>
      obtain rfl := Except.ok.inj h
      rw [Py.length_of_intRows hread, List.length_map, List.length_range']

/-- Rows that are long enough are a matrix of the announced shape, with more to the right of it. -/
theorem longEnough_iff {rows : Nat} {c : Int} (hlength : matrix.length = rows) :
    (∀ row ∈ matrix, c ≤ row.length) ↔ Rect (trim c.toNat matrix) rows c.toNat := by
  rw [trim_rect_iff]
  exact ⟨fun h => ⟨hlength, fun row hrow => Int.toNat_le.mpr (h row hrow)⟩,
    fun h row hrow => Int.toNat_le.mp (h.2 row hrow)⟩

theorem trim_cast_rect (K : Type) [IntCast K] {rows cols : Nat} (h : Rect (trim cols matrix) rows cols) :
    Rect (trim cols (cast K matrix)) rows cols := by
  obtain ⟨hlength, hrows⟩ := trim_rect_iff.mp h
  refine trim_rect_iff.mpr ⟨by rw [cast, List.length_map, hlength], fun row hrow => ?_⟩
  obtain ⟨row', hmem, rfl⟩ := List.mem_map.mp hrow
  rw [List.length_map]
  exact hrows row' hmem

theorem lengths_cast (K : Type) [IntCast K] (matrix : Grid Int) :
    (cast K matrix).map List.length = matrix.map List.length := by
  rw [cast, List.map_map]
  exact List.map_congr_left fun row _ => List.length_map _

/-- A grid with rows and columns has an entry. -/
theorem exists_entry {K : Type} {m : Grid K} {rows cols : Nat} (h : Rect m rows cols) (hrows : 0 < rows)
    (hcols : 0 < cols) : ∃ row ∈ m, row ≠ [] := by
  have hlt : 0 < m.length := by rwa [h.length]
  have hmem := List.getElem_mem hlt
  refine ⟨m[0], hmem, fun hnil => ?_⟩
  have hlength := h.row_length _ hmem
  rw [hnil, List.length_nil] at hlength
  omega

/-! ### When the loops return -/

theorem detCal_returns_iff {n : Int} (hn : 2 < n) (hlength : matrix.length = n.toNat) :
    (∃ det, Determinants.detCalChecked matrix n.toNat = .ok det) ↔ ∀ row ∈ matrix, n ≤ row.length := by
  rw [longEnough_iff hlength]
  refine ⟨?_, ?_⟩
  · rintro ⟨det, hdet⟩
    obtain ⟨k, hk⟩ : ∃ k, n.toNat = k + 3 := ⟨n.toNat - 3, by omega⟩
    rw [hk] at hdet hlength ⊢
    exact trim_rect_of_reaches hlength fun i hi _ => Determinants.detCalChecked_reaches hdet hi (by omega)
  · exact fun hrect => ⟨_, Determinants.detCalChecked_of_trim_rect hrect⟩

theorem matrixMul2_returns_iff {r1 c1 c2 : Int} {matrix1 matrix2 : Grid Int} (hlength1 : matrix1.length = r1.toNat)
    (hlength2 : matrix2.length = c1.toNat) (hr1 : 0 < r1) (hc2 : 0 < c2) :
    (∃ result, Determinants.matrixMul2Checked r1.toNat c1.toNat c2.toNat matrix1 matrix2 = .ok result) ↔
      (∀ row ∈ matrix1, c1 ≤ row.length) ∧ ∀ row ∈ matrix2, c2 ≤ row.length := by
  rw [longEnough_iff hlength1, longEnough_iff hlength2]
  refine ⟨?_, ?_⟩
  · rintro ⟨result, hresult⟩
    have hreads := fun {i j k : Nat} => Determinants.matrixMul2Checked_reaches (i := i) (j := j) (k := k) hresult
    refine ⟨trim_rect_of_reaches hlength1 fun i hi hpos => ?_, trim_rect_of_reaches hlength2 fun k hk hpos => ?_⟩
    · exact (hreads hi (j := 0) (by omega) (by omega)).1
    · exact (hreads (i := 0) (by omega) (by omega) hk).2
  · exact fun ⟨hrect1, hrect2⟩ => ⟨_, Determinants.matrixMul2Checked_of_trim_rect hrect1 hrect2⟩

omit [DecidableEq N] in
theorem smallPivot_iff {n : Nat} (hrect : Rect (trim n matrix) n n) :
    (∃ k, Lu.SmallPivot n (trim n (cast N matrix)) k) ↔ ∃ k, k + 1 < n ∧ Lu.Small (Lu.pivot (cast N matrix) k) := by
  rw [Lu.smallPivot_iff_pivot (trim_cast_rect N hrect)]
  refine exists_congr fun k => and_congr_right fun hk => ?_
  rw [Lu.pivot_trim _ (by omega)]

/-- With a row at least, the factors that are returned have entries. -/
theorem lu_returns_iff {n : Int} (hpos : 0 < n) (hlength : matrix.length = n.toNat) :
    (∃ factors, (exec (Lu.luDecompositionFinder 0 n.toNat n.toNat) (Echelon.heapOf (cast N matrix))).1 =
      .ok factors ∧ ∃ row ∈ factors.1 ++ factors.2, row ≠ []) ↔
      (∀ row ∈ matrix, n ≤ row.length) ∧ ¬ ∃ k, k + 1 < n.toNat ∧ Lu.Small (Lu.pivot (cast N matrix) k) := by
  have hshows := Echelon.heapOf_shows (cast N matrix)
  rw [longEnough_iff hlength]
  refine ⟨?_, ?_⟩
  · rintro ⟨factors, hfactors, -⟩
    have hrect : Rect (trim n.toNat matrix) n.toNat n.toNat := by
      apply trim_rect_of_reaches hlength
      intro i hi _
      have hreach := Lu.luDecompositionFinder_reaches hshows (Prod.ext hfactors rfl) hi
      rwa [lengths_cast] at hreach
    refine ⟨hrect, ?_⟩
    rw [← smallPivot_iff hrect]
    rcases Lu.luDecompositionFinder_run hshows (trim_cast_rect _ hrect) n.toNat with
      ⟨_, _, _, _, _, _, hlarge⟩ | ⟨⟨h', hexec⟩, _⟩
    · exact hlarge
    · rw [hexec] at hfactors
      cases hfactors
  · rintro ⟨hrect, hlarge⟩
    rw [← smallPivot_iff hrect] at hlarge
    rcases Lu.luDecompositionFinder_run hshows (trim_cast_rect _ hrect) n.toNat with
      ⟨L, U, h', hexec, hL, -⟩ | ⟨_, hsmall⟩
    · obtain ⟨row, hrow, hne⟩ := exists_entry hL (by omega) (by omega)
      exact ⟨(L, U), by rw [hexec], row, List.mem_append_left U hrow, hne⟩
    · exact absurd hsmall hlarge

theorem qr_returns_iff {K : Type} [DivisionRing K] [LinearOrder K] [IsStrictOrderedRing K] (root : K → K) {n : Int}
    (hpos : 0 < n) (hlength : matrix.length = n.toNat) :
    (∃ factors, (exec (Qr.qrDecompositionFinderObject root 0 n.toNat n.toNat)
      (Echelon.heapOf (cast K matrix))).1 = .ok factors ∧
      ∃ row ∈ factors.1 ++ factors.2, row ≠ []) ↔ ∀ row ∈ matrix, n ≤ row.length := by
  have hshows := Echelon.heapOf_shows (cast K matrix)
  rw [longEnough_iff hlength]
  refine ⟨?_, ?_⟩
  · rintro ⟨factors, hfactors, -⟩
    apply trim_rect_of_reaches hlength
    intro i hi _
    have hreach := Qr.qrDecompositionFinderObject_reaches root hshows (Prod.ext hfactors rfl) hi
      (by omega : n.toNat - 1 < n.toNat)
    rwa [lengths_cast] at hreach
  · intro hrect
    obtain ⟨h', hexec⟩ := Qr.qrDecompositionFinderObject_run root hshows (trim_cast_rect _ hrect)
    obtain ⟨row, hrow, hne⟩ := exists_entry (Qr.qrDecompositionFinder_rect root
      (trim n.toNat (cast K matrix)) n.toNat n.toNat) (by omega) (by omega)
    exact ⟨_, by rw [hexec], row, List.mem_append_left _ hrow, hne⟩

/-! ### What ok lists -/

theorem not_tooShort_one {c : Int} : ¬ TooShort [(matrix, c)] ↔ ∀ row ∈ matrix, c ≤ row.length := by
  simp [TooShort]

theorem not_tooShort_two {matrix1 matrix2 : Grid Int} {c1 c2 : Int} :
    ¬ TooShort [(matrix1, c1), (matrix2, c2)] ↔
      (∀ row ∈ matrix1, c1 ≤ row.length) ∧ ∀ row ∈ matrix2, c2 ≤ row.length := by
  simp [TooShort]

/-- A malformed matrix has a row, so that its announced number of rows is positive. -/
theorem pos_of_malformed {r c : Int} (h : Malformed [(matrix, c)]) (hlength : matrix.length = r.toNat) : 0 < r := by
  obtain ⟨entered, hmem, row, hrow, -⟩ := h
  obtain rfl := List.mem_singleton.mp hmem
  have hpos : 0 < matrix.length := List.length_pos_of_mem hrow
  omega

/-- Whatever the loops have read, the product has the announced shape. -/
theorem matrixMul2_rect {r1 c1 c2 : Nat} {matrix1 matrix2 result : Grid Int}
    (h : Determinants.matrixMul2Checked r1 c1 c2 matrix1 matrix2 = .ok result) : Rect result r1 c2 := by
  have hloop : ∀ (step : Grid Int → Nat → Except Fault (Grid Int)) {indices : List Nat} {m m' : Grid Int},
      (∀ m k m', Rect m r1 c2 → step m k = .ok m' → Rect m' r1 c2) → Rect m r1 c2 →
      indices.foldlM step m = .ok m' → Rect m' r1 c2 := fun _ _ _ _ hstep hm hrun =>
    Runs.run_invariant hstep hm hrun
  refine hloop _ (fun m i m' hm hrow => ?_) (Rect.tabulate r1 c2 _) h
  refine hloop _ (fun m j m' hm hcolumn => ?_) hm hrow
  refine hloop _ (fun m k m' hm hturn => ?_) hm hcolumn
  obtain ⟨x, -, hrest⟩ := Runs.ok_of_bind hturn
  obtain ⟨y, -, hset⟩ := Runs.ok_of_bind hrest
  obtain rfl := Except.ok.inj hset
  exact hm.setEntry i j _

section Ok

variable {K : Type} [DivisionRing K] [LinearOrder K] {matrices : List (Grid Int × Int)}

theorem ok_determinant_iff (root : K → K) {n : Int} (hn : 2 < n) (hrows : readRows inputs 0 n = .ok matrix) :
    (∃ answer, (MatrixApp.determinant n).ok N root inputs = .ok answer ∧ answer.Numeric) ↔
      ¬ TooShort [(matrix, n)] := by
  rw [MatrixApp.ok, hrows, Runs.ok_bind, exists_answer_iff, not_tooShort_one,
    ← detCal_returns_iff hn (readRows_length hrows)]
  exact exists_congr fun det => and_iff_left trivial

theorem ok_matrixMul2_iff (root : K → K) {r1 c1 c2 : Int} {matrix1 matrix2 : Grid Int}
    (hrows1 : readRows inputs 0 r1 = .ok matrix1) (hrows2 : readRows inputs r1 c1 = .ok matrix2) :
    (∃ answer, (MatrixApp.matrixMul2 r1 c1 c1 c2).ok N root inputs = .ok answer ∧ answer.Numeric) ↔
      ¬ TooShort [(matrix1, c1), (matrix2, c2)] ∧ ¬ (r1 ≤ 0 ∨ c2 ≤ 0) := by
  have hreturns : 0 < r1 → 0 < c2 → _ := matrixMul2_returns_iff (readRows_length hrows1) (readRows_length hrows2)
  rw [MatrixApp.ok, hrows1, Runs.ok_bind, hrows2, Runs.ok_bind, exists_answer_iff, not_tooShort_two]
  refine ⟨?_, ?_⟩
  · -- a row with an entry shows that there are rows and columns
    rintro ⟨result, hresult, row, hrow, hne⟩
    have hrect := matrixMul2_rect hresult
    have hpos : 0 < result.length := List.length_pos_of_mem hrow
    have hwide := List.length_pos_iff.mpr hne
    rw [hrect.length] at hpos
    rw [hrect.row_length row hrow] at hwide
    exact ⟨(hreturns (by omega) (by omega)).mp ⟨result, hresult⟩, by omega⟩
  · rintro ⟨hlong, hspared⟩
    obtain ⟨result, hresult⟩ := (hreturns (by omega) (by omega)).mpr hlong
    exact ⟨result, hresult, exists_entry (matrixMul2_rect hresult) (by omega) (by omega)⟩

variable [IsStrictOrderedRing K]

/-- On a malformed matrix the form lists numbers exactly when no row is too short and nothing else spares the app. -/
theorem ok_numeric_iff (root : K → K) {app : MatrixApp} (haccepted : app.Accepted)
    (hread : app.entered inputs = .ok matrices) (hmalformed : Malformed matrices) :
    (∃ answer, app.ok N root inputs = .ok answer ∧ answer.Numeric) ↔ ¬ TooShort matrices ∧ ¬ app.Spared N matrices := by
  cases app with
  | determinant n =>
      obtain ⟨matrix, hrows, heq⟩ := Runs.ok_of_bind hread
      obtain rfl := Except.ok.inj heq
      rw [ok_determinant_iff root haccepted hrows, MatrixApp.Spared, not_false_iff, and_true]
  | matrixMul2 r1 c1 r2 c2 =>
      obtain ⟨matrix1, hrows1, hrest⟩ := Runs.ok_of_bind hread
      obtain ⟨matrix2, hrows2, heq⟩ := Runs.ok_of_bind hrest
      obtain rfl := Except.ok.inj heq
      obtain rfl : c1 = r2 := haccepted
      exact ok_matrixMul2_iff root hrows1 hrows2
  | luDecomposition r c =>
      obtain ⟨matrix, hrows, heq⟩ := Runs.ok_of_bind hread
      obtain rfl := Except.ok.inj heq
      obtain rfl : r = c := haccepted
      have hlength := readRows_length hrows
      rw [MatrixApp.ok, hrows, Runs.ok_bind, exists_answer_iff, not_tooShort_one, MatrixApp.Spared]
      simp only [List.mem_singleton, exists_eq_left]
      exact lu_returns_iff (pos_of_malformed hmalformed hlength) hlength
  | qrDecomposition r c =>
      obtain ⟨matrix, hrows, heq⟩ := Runs.ok_of_bind hread
      obtain rfl := Except.ok.inj heq
      obtain rfl : r = c := haccepted
      have hlength := readRows_length hrows
      rw [MatrixApp.ok, hrows, Runs.ok_bind, exists_answer_iff, not_tooShort_one, MatrixApp.Spared,
        not_false_iff, and_true]
      exact qr_returns_iff root (pos_of_malformed hmalformed hlength) hlength

/-- For accepted dimensions and entered rows of integers, ok lists no numbers for a malformed matrix exactly when all
rows have the announced length, or some row is too short, or the app is spared otherwise. -/
theorem malformed_unlisted_iff (root : K → K) {app : MatrixApp} (haccepted : app.Accepted)
    (hread : app.entered inputs = .ok matrices) :
    (Malformed matrices → ∀ answer, app.ok N root inputs = .ok answer → ¬ answer.Numeric) ↔
      ¬ Malformed matrices ∨ TooShort matrices ∨ app.Spared N matrices := by
  by_cases hmalformed : Malformed matrices
  · have hlists := ok_numeric_iff (N := N) root haccepted hread hmalformed
    rw [← not_or, ← not_iff_not, not_not] at hlists
    simp only [hmalformed, true_imp_iff, not_true_eq_false, false_or]
    rw [← hlists]
    exact ⟨fun hnone ⟨answer, hok, hnumeric⟩ => hnone answer hok hnumeric,
      fun hnone answer hok hnumeric => hnone ⟨answer, hok, hnumeric⟩⟩
  · exact iff_of_true (fun h => absurd h hmalformed) (.inl hmalformed)

end Ok

/-- The texts of the fields `inp_1`, `inp_2` and so on. -/
def fieldTexts (texts : List (List Char)) (i : Int) : List Char := texts.getD (i - 1).toNat []

/-- A row that is too short for the determinant, and one that is too long above a pivot of zero. -/
theorem malformed_unlisted_short :
    (Malformed [([[1, 0], [0, 1, 0], [0, 0, 1]], 3)] → ∀ answer,
      (MatrixApp.determinant 3).ok ℚ Real.sqrt (fieldTexts ["1+0 ".toList, "0+1+0 ".toList, "0+0+1 ".toList]) =
        .ok answer → ¬ answer.Numeric) ∧
      (Malformed [([[0, 1, 9], [1, 1]], 2)] → ∀ answer,
        (MatrixApp.luDecomposition 2 2).ok ℚ Real.sqrt (fieldTexts ["0+1+9 ".toList, "1+1 ".toList]) = .ok answer →
          ¬ answer.Numeric) := by
  have hread : (MatrixApp.determinant 3).entered
      (fieldTexts ["1+0 ".toList, "0+1+0 ".toList, "0+0+1 ".toList]) =
      .ok [([[1, 0], [0, 1, 0], [0, 0, 1]], 3)] := by decide +kernel
  have hshort : TooShort [([[1, 0], [0, 1, 0], [0, 0, 1]], 3)] :=
    ⟨_, List.mem_singleton_self _, [1, 0], List.mem_cons_self, by decide⟩
  have haccepted : (MatrixApp.determinant 3).Accepted := (by decide : (2 : Int) < 3)
  have hread' : (MatrixApp.luDecomposition 2 2).entered (fieldTexts ["0+1+9 ".toList, "1+1 ".toList]) =
      .ok [([[0, 1, 9], [1, 1]], 2)] := by decide +kernel
  have haccepted' : (MatrixApp.luDecomposition 2 2).Accepted := rfl
  have hspared : (MatrixApp.luDecomposition 2 2).Spared ℚ [([[0, 1, 9], [1, 1]], 2)] :=
    ⟨_, List.mem_singleton_self _, 0, by decide, by decide +kernel⟩
  exact ⟨(malformed_unlisted_iff Real.sqrt haccepted hread).mpr (.inr (.inl hshort)),
    (malformed_unlisted_iff Real.sqrt haccepted' hread').mpr (.inr (.inr hspared))⟩

/-- Three rows of three announced, the first one entered with four: the determinant of the first three columns is
shown. One row of one announced and entered with two: the app for the factors lists them as well. -/
theorem long_row_listed :
    (MatrixApp.determinant 3).entered (fieldTexts ["2+0+0+7 ".toList, "0+1+0 ".toList, "0+0+1 ".toList]) =
        .ok [([[2, 0, 0, 7], [0, 1, 0], [0, 0, 1]], 3)] ∧
      Malformed [([[2, 0, 0, 7], [0, 1, 0], [0, 0, 1]], 3)] ∧
      (MatrixApp.determinant 3).ok ℚ Real.sqrt (fieldTexts ["2+0+0+7 ".toList, "0+1+0 ".toList, "0+0+1 ".toList]) =
        .ok (.determinant 2) ∧
      (Answer.determinant 2 : Answer ℚ ℝ).formList (fun _ => []) (fun _ => []) =
        ["determinant is:".toList, "2".toList] ∧
      ¬ (Malformed [([[2, 0, 0, 7], [0, 1, 0], [0, 0, 1]], 3)] → ∀ answer,
        (MatrixApp.determinant 3).ok ℚ Real.sqrt (fieldTexts ["2+0+0+7 ".toList, "0+1+0 ".toList, "0+0+1 ".toList]) =
          .ok answer → ¬ answer.Numeric) ∧
      ¬ (Malformed [([[5, 7]], 1)] → ∀ answer,
        (MatrixApp.luDecomposition 1 1).ok ℚ Real.sqrt (fieldTexts ["5+7 ".toList]) = .ok answer →
          ¬ answer.Numeric) := by
  have hmalformed : Malformed [([[2, 0, 0, 7], [0, 1, 0], [0, 0, 1]], 3)] :=
    ⟨_, List.mem_singleton_self _, [2, 0, 0, 7], List.mem_cons_self, by decide⟩
  have hrows : readRows (fieldTexts ["2+0+0+7 ".toList, "0+1+0 ".toList, "0+0+1 ".toList]) 0 3 =
      .ok [[2, 0, 0, 7], [0, 1, 0], [0, 0, 1]] := by decide +kernel
  have hok : (MatrixApp.determinant 3).ok ℚ Real.sqrt
      (fieldTexts ["2+0+0+7 ".toList, "0+1+0 ".toList, "0+0+1 ".toList]) = .ok (.determinant 2) := by
    rw [MatrixApp.ok, hrows]
    rfl
  refine ⟨by rw [MatrixApp.entered, hrows]; rfl, hmalformed, hok, by decide, fun h => ?_, fun h => ?_⟩
  · exact h hmalformed _ hok trivial
  · have hmalformed' : Malformed [([[5, 7]], 1)] :=
      ⟨_, List.mem_singleton_self _, [5, 7], List.mem_cons_self, by decide⟩
    have hread : (MatrixApp.luDecomposition 1 1).entered (fieldTexts ["5+7 ".toList]) = .ok [([[5, 7]], 1)] := by
      decide +kernel
    have haccepted : (MatrixApp.luDecomposition 1 1).Accepted := rfl
    obtain ⟨answer, hlu, hnumeric⟩ := (ok_numeric_iff (N := ℚ) Real.sqrt haccepted hread hmalformed').mpr
      ⟨not_tooShort_one.mpr (by decide), by rintro ⟨_, _, k, hk, -⟩; omega⟩
    exact h hmalformed' answer hlu hnumeric

end CalSci.MatrixApps
