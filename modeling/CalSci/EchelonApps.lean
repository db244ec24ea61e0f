import CalSci.EchelonObjects
import CalSci.PyNumbers

/-! What ok does in the calculator loops of `row_echelon_form.py` and `reduced_row_echelon.py`: the rows are read from
the fields, the finder checks their shape and computes, and the caller lists the rows it gets back. For rows that are
refused the finder shows a message and returns `None`, which the caller then goes through like a matrix. -/

namespace CalSci.Echelon

open GridRows RowObjects

inductive EchelonApp
  | rowEchelon
  | reducedRowEchelon

inductive Raised
  | valueError
  | typeError
  | fault (e : Fault)
  deriving DecidableEq

abbrev FormList := List (List Char)

namespace EchelonApp

def title : EchelonApp → FormList
  | rowEchelon => ["Row Echelon Form".toList]
  | reducedRowEchelon => ["Reduced Row Echelon".toList, "Form".toList]

def message : EchelonApp → FormList
  | rowEchelon => ["Row Echelon Form".toList, "not possible".toList]
  | reducedRowEchelon => ["Reduced Row Echelon".toList, "Form not possible".toList]

def program : EchelonApp → Nat → Nat → Nat → Program ℚ Nat
  | rowEchelon => rowEchelonFormObject
  | reducedRowEchelon => reducedRowEchelonFormObject

/-- The form the finder stands for, as a function over grids. -/
def form (matrix : Grid Int) (r c : Nat) : EchelonApp → Option (Grid ℚ)
  | rowEchelon => rowEchelonFormFinder matrix r c
  | reducedRowEchelon => reducedRowEchelonFormFinder (ofInts matrix) r c

end EchelonApp

/-- The objects when the finder is called: the matrix that was read. -/
def heapOf {K : Type} (m : Grid K) : Heap K := ⟨m, [List.range m.length]⟩

/-- The finder: what it returns, `none` for `None`, and the list of the form after it. -/
def EchelonApp.find (app : EchelonApp) (matrix : Grid Int) (r c : Nat) (formList : FormList) :
    Except Raised (Option (Grid ℚ)) × FormList :=
  if isValidMatrix (ofInts matrix) r c then
    match exec (app.program 0 r c) (heapOf (ofInts matrix)) with
    | (.ok ref, h) => (.ok (some (readMatrix h ref)), formList)
    | (.error e, _) => (.error (.fault e), formList)
  else (.ok none, app.message)

/-- `for i in range(1, r + 1): list(map(int, form.input_list[f"inp_{i}"].split("+")))`. -/
def readRows (inputs : Nat → List Char) (r : Nat) : Option (Grid Int) := Py.intRows ((List.range' 1 r).map inputs)

/-- `" ".join(str(x) for x in t)`, with the texts of the rounded numbers. -/
def rowLine (showNumber : ℚ → List Char) (row : List ℚ) : List Char := [' '].intercalate (row.map showNumber)

/-- The branch of ok in `calculator`: whether it raises, and the list of the form. -/
def EchelonApp.ok (app : EchelonApp) (showNumber : ℚ → List Char) (inputs : Nat → List Char) (r c : Nat)
    (formList : FormList) : Except Raised Unit × FormList :=
  match readRows inputs r with
  | none => (.error .valueError, formList)
  | some matrix =>
      match app.find matrix r c formList with
      | (.error e, formList) => (.error e, formList)
      -- the title is assigned before the loop over `None` raises
      | (.ok none, _) => (.error .typeError, app.title)
      | (.ok (some result), _) => (.ok (), app.title ++ result.map (rowLine showNumber))

/-- The press does not raise; rows that are refused leave the message, others the rows of the form. -/
def StaysAlive (app : EchelonApp) (showNumber : ℚ → List Char) (inputs : Nat → List Char) (matrix : Grid Int)
    (r c : Nat) (formList : FormList) : Prop :=
  (isValidMatrix (ofInts matrix) r c = false →
    app.ok showNumber inputs r c formList = (.ok (), app.message)) ∧
  (isValidMatrix (ofInts matrix) r c = true → ∃ result, app.form matrix r c = some result ∧ result.length = r ∧
    app.ok showNumber inputs r c formList = (.ok (), app.title ++ result.map (rowLine showNumber)))

variable {matrix : Grid Int} {r c : Nat}

theorem readRows_length {inputs : Nat → List Char} (h : readRows inputs r = some matrix) : matrix.length = r := by
  rw [Py.length_of_intRows h, List.length_map, List.length_range']

/-- With a column at least, the shape is all that is checked. -/
theorem isValidMatrix_iff (hr : 1 ≤ r) (hc : 1 ≤ c) (hlength : matrix.length = r) :
    isValidMatrix (ofInts matrix) r c = true ↔ ∀ row ∈ matrix, row.length = c := by
  have hrows : (ofInts matrix).all (fun row => decide (row.length = c)) = true ↔ ∀ row ∈ matrix, row.length = c := by
    simp [ofInts]
  constructor
  · intro hvalid
    rw [← hrows]
    unfold isValidMatrix at hvalid
    split at hvalid
    · cases hvalid
    · cases hvalid
    · exact (Bool.and_eq_true_iff.mp hvalid).2
  · intro hshape
    have hrect : Rect matrix r c := ⟨hlength, hshape⟩
    exact isValidMatrix_of_rect (hrect.map _) hr hc

theorem heapOf_shows {K : Type} (m : Grid K) : (heapOf m).Shows 0 m := by
  refine ⟨List.range m.length, rfl, List.ext_getElem? fun i => ?_⟩
  rw [List.getElem?_map, List.getElem?_map]
  rcases Nat.lt_or_ge i m.length with hi | hi
  · rw [List.getElem?_range hi, List.getElem?_eq_getElem hi]
    exact congrArg some (List.getElem?_eq_getElem hi)
  · rw [List.getElem?_eq_none hi, List.getElem?_eq_none (by rwa [List.length_range])]
    rfl

/-- On rows of the announced length the finder returns its form. -/
theorem find_of_rect (app : EchelonApp) (hr : 1 ≤ r) (hc : 1 ≤ c) (h : Rect matrix r c) (formList : FormList) :
    ∃ result, app.form matrix r c = some result ∧ Rect result r c ∧
      app.find matrix r c formList = (.ok (some result), formList) := by
  have hvalid := (isValidMatrix_iff hr hc h.length).mpr h.row_length
  have hrect : Rect (ofInts matrix) r c := h.map _
  cases app with
  | rowEchelon =>
      obtain ⟨ref, h', hexec, hread, hshape⟩ := rowEchelonFormObject_run (heapOf_shows (ofInts matrix)) hrect
      refine ⟨readMatrix h' ref, ?_, hshape, ?_⟩
      · rw [EchelonApp.form, rowEchelonFormFinder, if_pos hvalid, hread]
      · simp only [EchelonApp.find, hvalid, if_true, EchelonApp.program, hexec]
  | reducedRowEchelon =>
      obtain ⟨ref, h', hexec, hread, hshape⟩ := reducedRowEchelonFormObject_run (heapOf_shows (ofInts matrix)) hrect
      refine ⟨readMatrix h' ref, ?_, hshape, ?_⟩
      · rw [EchelonApp.form, reducedRowEchelonFormFinder, if_pos hvalid, hread]
      · simp only [EchelonApp.find, hvalid, if_true, EchelonApp.program, hexec]

/-- For rows that are refused, the loop over `None` raises. -/
theorem ok_of_refused (app : EchelonApp) (showNumber : ℚ → List Char) {inputs : Nat → List Char}
    (hread : readRows inputs r = some matrix) (hrefused : isValidMatrix (ofInts matrix) r c = false)
    (formList : FormList) : app.ok showNumber inputs r c formList = (.error .typeError, app.title) := by
  simp only [EchelonApp.ok, hread, EchelonApp.find, hrefused, Bool.false_eq_true, if_false]

/-- In both apps, ok on entered rows of integers stays alive exactly when all rows have the announced length. -/
theorem echelon_ok_alive_iff (app : EchelonApp) (showNumber : ℚ → List Char) {inputs : Nat → List Char}
    {matrix : Grid Int} {r c : Nat} (hr : 1 ≤ r) (hc : 1 ≤ c) (hread : readRows inputs r = some matrix)
    (formList : FormList) :
    StaysAlive app showNumber inputs matrix r c formList ↔ ∀ row ∈ matrix, row.length = c := by
  have hlength := readRows_length hread
  rw [← isValidMatrix_iff hr hc hlength]
  constructor
  · rintro ⟨hrefused, -⟩
    by_contra hinvalid
    rw [Bool.not_eq_true] at hinvalid
    have hraises := hrefused hinvalid
    rw [ok_of_refused app showNumber hread hinvalid] at hraises
    cases (Prod.mk.inj hraises).1
  · intro hvalid
    have hrect : Rect matrix r c := ⟨hlength, (isValidMatrix_iff hr hc hlength).mp hvalid⟩
    obtain ⟨result, hform, hshape, hfind⟩ := find_of_rect app hr hc hrect formList
    refine ⟨fun hinvalid => ?_, fun _ => ⟨result, hform, hshape.length, ?_⟩⟩
    · rw [hvalid] at hinvalid
      cases hinvalid
    · simp only [EchelonApp.ok, hread, hfind]

/-- The texts of the fields `inp_1`, `inp_2` for two rows. -/
def twoTexts (first second : List Char) (i : Nat) : List Char := if i = 1 then first else second

/-- `str` of a float that is a whole number. -/
def showWhole (x : ℚ) : List Char := Py.str x.num ++ ".0".toList

theorem echelon_ok_alive_two :
    StaysAlive .rowEchelon showWhole (twoTexts "2+4 ".toList "1+3 ".toList) [[2, 4], [1, 3]] 2 2 [] ∧
      StaysAlive .reducedRowEchelon showWhole (twoTexts "2+4 ".toList "1+3 ".toList) [[2, 4], [1, 3]] 2 2 [] := by
  have hread : readRows (twoTexts "2+4 ".toList "1+3 ".toList) 2 = some [[2, 4], [1, 3]] := by decide +kernel
  exact ⟨(echelon_ok_alive_iff .rowEchelon showWhole (by decide) (by decide) hread []).mpr (by decide),
    (echelon_ok_alive_iff .reducedRowEchelon showWhole (by decide) (by decide) hread []).mpr (by decide)⟩

/-- Two rows announced with two entries, the second entered with three: both apps raise instead of keeping their
message. -/
theorem echelon_ok_raises :
    EchelonApp.rowEchelon.ok showWhole (twoTexts "2+4 ".toList "1+3+5 ".toList) 2 2 [] =
        (.error .typeError, EchelonApp.rowEchelon.title) ∧
      ¬ StaysAlive .rowEchelon showWhole (twoTexts "2+4 ".toList "1+3+5 ".toList) [[2, 4], [1, 3, 5]] 2 2 [] ∧
      ¬ StaysAlive .reducedRowEchelon showWhole (twoTexts "2+4 ".toList "1+3+5 ".toList) [[2, 4], [1, 3, 5]]
        2 2 [] := by
  have hread : readRows (twoTexts "2+4 ".toList "1+3+5 ".toList) 2 = some [[2, 4], [1, 3, 5]] := by decide +kernel
  have hrefused : isValidMatrix (ofInts [[2, 4], [1, 3, 5]]) 2 2 = false := by decide +kernel
  have hraises : ∀ app : EchelonApp, app.ok showWhole (twoTexts "2+4 ".toList "1+3+5 ".toList) 2 2 [] =
      (.error .typeError, app.title) := fun app => ok_of_refused app showWhole hread hrefused []
  refine ⟨hraises .rowEchelon, ?_, ?_⟩
  · rintro ⟨hmessage, -⟩
    have hok := hmessage hrefused
    rw [hraises] at hok
    cases (Prod.mk.inj hok).1
  · rintro ⟨hmessage, -⟩
    have hok := hmessage hrefused
    rw [hraises] at hok
    cases (Prod.mk.inj hok).1

end CalSci.Echelon
