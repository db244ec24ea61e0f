import CalSci.GridMatrix
import CalSci.Runs

/-! Matrices as list objects. A matrix is a list of references to rows, and rows are lists that any number of
matrices may refer to; programs read and assign entries, exchange rows, and copy a matrix row by row. A working
copy that a program has made for itself behaves like a grid, and whatever it does to it leaves the older
objects as they are. -/

namespace RowObjects

open GridRows

variable {K : Type}

/-- The list objects, in the order in which they were made. -/
structure Heap (K : Type) where
  rows : List (List K)
  matrices : List (List Nat)

/-- What a program may raise; `unfinished` is the end of a bound on the turns of a loop. -/
inductive Fault
  | indexError
  | zeroDivisionError
  | valueError
  | unfinished
deriving DecidableEq, Repr

/-- Programs that raise keep what they have done to the objects. -/
abbrev Program (K α : Type) := ExceptT Fault (StateM (Heap K)) α

/-- What a program returns or raises, and the objects after it. -/
def exec {α : Type} (program : Program K α) (h : Heap K) : Except Fault α × Heap K := program.run.run h

/-- A program by what it does. -/
def act {α : Type} (f : Heap K → Except Fault α × Heap K) : Program K α := ExceptT.mk fun h => f h

/-- The matrix `ref` has the entries `m`. -/
def Heap.Shows (h : Heap K) (ref : Nat) (m : Grid K) : Prop :=
  ∃ refs, h.matrices[ref]? = some refs ∧ refs.map (fun r => h.rows[r]?) = m.map some

/-! ### Programs -/

/-- The object `matrix[i]`, with its reference. -/
def rowAt (h : Heap K) (ref i : Nat) : Except Fault (Nat × List K) :=
  match h.matrices[ref]? with
  | none => .error .indexError
  | some refs =>
      match refs[i]? with
      | none => .error .indexError
      | some r => .ok (r, h.rows.getD r [])

def rowCount (ref : Nat) : Program K Nat := act fun h => (.ok (h.matrices.getD ref []).length, h)

def rowLength (ref i : Nat) : Program K Nat := act fun h =>
  match rowAt h ref i with
  | .error e => (.error e, h)
  | .ok (_, row) => (.ok row.length, h)

/-- `matrix[i][j]`. -/
def getItem (ref i j : Nat) : Program K K := act fun h =>
  match rowAt h ref i with
  | .error e => (.error e, h)
  | .ok (_, row) =>
      match row[j]? with
      | none => (.error .indexError, h)
      | some x => (.ok x, h)

/-- `matrix[i][j] = x`. -/
def setItem (ref i j : Nat) (x : K) : Program K Unit := act fun h =>
  match rowAt h ref i with
  | .error e => (.error e, h)
  | .ok (r, row) =>
      if j < row.length then (.ok (), { h with rows := h.rows.set r (row.set j x) })
      else (.error .indexError, h)

/-- `matrix[i], matrix[k] = matrix[k], matrix[i]`. -/
def swapItems (ref i k : Nat) : Program K Unit := act fun h =>
  match rowAt h ref i, rowAt h ref k with
  | .ok (r, _), .ok (r', _) =>
      (.ok (), { h with matrices := h.matrices.set ref (((h.matrices.getD ref []).set i r').set k r) })
  | _, _ => (.error .indexError, h)

/-- `[row[:] for row in matrix]`. -/
def copyRows (ref : Nat) : Program K Nat := act fun h =>
  let refs := h.matrices.getD ref []
  (.ok h.matrices.length,
    { rows := h.rows ++ refs.map fun r => h.rows.getD r []
      matrices := h.matrices ++ [List.range' h.rows.length refs.length] })

def divide [Div K] [Zero K] [DecidableEq K] (x y : K) : Program K K :=
  if y = 0 then throw .zeroDivisionError else pure (x / y)

def onlyIf (c : Prop) [Decidable c] (program : Program K Unit) : Program K Unit := if c then program else pure ()

/-- A loop over a list of values, with a state of its own. -/
def forEach {σ ι : Type} (body : σ → ι → Program K σ) : List ι → σ → Program K σ
  | [], s => pure s
  | x :: xs, s => do forEach body xs (← body s x)

/-- `while guard: body`, for at most `n` turns. -/
def whileLoop {σ : Type} (guard : σ → Program K Bool) (body : σ → Program K σ) : Nat → σ → Program K σ
  | 0, s => do if ← guard s then throw .unfinished else pure s
  | n + 1, s => do if ← guard s then whileLoop guard body n (← body s) else pure s

@[simp] theorem exec_act {α : Type} (f : Heap K → Except Fault α × Heap K) (h : Heap K) : exec (act f) h = f h :=
  rfl

theorem exec_bind_ok {α β : Type} {program : Program K α} {h h' : Heap K} {a : α}
    (hexec : exec program h = (.ok a, h')) (next : α → Program K β) :
    exec (program >>= next) h = exec (next a) h' := by
  rw [exec] at hexec
  rw [exec, ExceptT.run_bind, StateT.run_bind, hexec]
  rfl

theorem exec_bind_error {α β : Type} {program : Program K α} {h h' : Heap K} {e : Fault}
    (hexec : exec program h = (.error e, h')) (next : α → Program K β) :
    exec (program >>= next) h = (.error e, h') := by
  rw [exec] at hexec
  rw [exec, ExceptT.run_bind, StateT.run_bind, hexec]
  rfl

/-! ### A working copy -/

/-- The objects of `base` are as they were, and the matrix `ref`, made since then out of rows made since
then, has the entries `m`. -/
structure Holds (base : Heap K) (ref : Nat) (m : Grid K) (h : Heap K) : Prop where
  oldRows : base.rows <+: h.rows
  oldMatrices : base.matrices <+: h.matrices
  fresh : base.matrices.length ≤ ref
  own : ∃ refs, h.matrices[ref]? = some refs ∧ refs.Nodup ∧ (∀ r ∈ refs, base.rows.length ≤ r) ∧
    refs.map (fun r => h.rows[r]?) = m.map some

theorem getElem?_of_isPrefix {α : Type} {xs ys : List α} (h : xs <+: ys) {i : Nat} {x : α}
    (hx : xs[i]? = some x) : ys[i]? = some x := by
  obtain ⟨rest, rfl⟩ := h
  rw [List.getElem?_append_left (List.getElem?_eq_some_iff.mp hx).1, hx]

/-- Objects made later do not matter to a matrix. -/
theorem Heap.Shows.mono {h h' : Heap K} {ref : Nat} {m : Grid K} (hshows : h.Shows ref m)
    (hrows : h.rows <+: h'.rows) (hmatrices : h.matrices <+: h'.matrices) : h'.Shows ref m := by
  obtain ⟨refs, hrefs, hsame⟩ := hshows
  refine ⟨refs, getElem?_of_isPrefix hmatrices hrefs, ?_⟩
  rw [← hsame]
  apply List.map_congr_left
  intro r hr
  have hmem : h.rows[r]? ∈ m.map some := by
    rw [← hsame]
    exact List.mem_map_of_mem hr
  obtain ⟨row, -, hrow⟩ := List.mem_map.mp hmem
  rw [← hrow, getElem?_of_isPrefix hrows hrow.symm]

/-- Where a row of a matrix is. -/
theorem rowAt_eq {h : Heap K} {ref : Nat} {m : Grid K} {refs : List Nat} (hrefs : h.matrices[ref]? = some refs)
    (hrows : refs.map (fun r => h.rows[r]?) = m.map some) {i : Nat} {row : List K} (hi : m[i]? = some row) :
    ∃ r, refs[i]? = some r ∧ h.rows[r]? = some row ∧ rowAt h ref i = .ok (r, row) := by
  have hat : (refs.map fun r => h.rows[r]?)[i]? = some (some row) := by
    rw [hrows, List.getElem?_map, hi, Option.map_some]
  rw [List.getElem?_map, Option.map_eq_some_iff] at hat
  obtain ⟨r, hr, hrow⟩ := hat
  refine ⟨r, hr, hrow, ?_⟩
  rw [rowAt, hrefs]
  simp only [hr]
  rw [List.getD_eq_getElem?_getD, hrow, Option.getD_some]

theorem Holds.row {base h : Heap K} {ref : Nat} {m : Grid K} (hold : Holds base ref m h) {i : Nat}
    {row : List K} (hi : m[i]? = some row) :
    ∃ r, rowAt h ref i = .ok (r, row) ∧ h.rows[r]? = some row ∧ (h.matrices.getD ref [])[i]? = some r := by
  obtain ⟨refs, hrefs, -, -, hrows⟩ := hold.own
  obtain ⟨r, hr, hrow, hat⟩ := rowAt_eq hrefs hrows hi
  refine ⟨r, hat, hrow, ?_⟩
  rw [List.getD_eq_getElem?_getD, hrefs, Option.getD_some, hr]

theorem exec_rowCount {h : Heap K} {ref : Nat} {m : Grid K} (hshows : h.Shows ref m) :
    exec (rowCount ref) h = (.ok m.length, h) := by
  obtain ⟨refs, hrefs, hrows⟩ := hshows
  have hlength : refs.length = m.length := by
    rw [← List.length_map (f := fun r => h.rows[r]?), hrows, List.length_map]
  rw [rowCount, exec_act, List.getD_eq_getElem?_getD, hrefs, Option.getD_some, hlength]

theorem exec_rowLength {h : Heap K} {ref : Nat} {m : Grid K} (hshows : h.Shows ref m) {i : Nat} {row : List K}
    (hi : m[i]? = some row) : exec (rowLength ref i) h = (.ok row.length, h) := by
  obtain ⟨refs, hrefs, hrows⟩ := hshows
  obtain ⟨r, -, -, hat⟩ := rowAt_eq hrefs hrows hi
  rw [rowLength, exec_act, hat]

/-! ### What programs do to a working copy -/

/-- From every heap that holds `m`, the program returns `a` and leaves one that holds `m'`. -/
def Does {α : Type} (base : Heap K) (ref : Nat) (m : Grid K) (program : Program K α) (a : α) (m' : Grid K) :
    Prop :=
  ∀ h, Holds base ref m h → ∃ h', exec program h = (.ok a, h') ∧ Holds base ref m' h'

/-- From every heap that holds `m`, the program raises `e` and leaves one that still has the older objects. -/
def Raises {α : Type} (base : Heap K) (ref : Nat) (m : Grid K) (program : Program K α) (e : Fault) : Prop :=
  ∀ h, Holds base ref m h → ∃ h' m', exec program h = (.error e, h') ∧ Holds base ref m' h'

/-- The program follows a computation that may raise: it raises the same, or returns something related. -/
def Follows {α τ : Type} (base : Heap K) (ref : Nat) (m : Grid K) (program : Program K α) (x : Except Fault τ)
    (R : τ → α → Grid K → Prop) : Prop :=
  match x with
  | .error e => Raises base ref m program e
  | .ok t => ∃ a m', Does base ref m program a m' ∧ R t a m'

section Rules

variable {base : Heap K} {ref : Nat} {m m' : Grid K} {rows cols : Nat}

theorem Does.pure {α : Type} (a : α) : Does base ref m (pure a) a m := fun h hold => ⟨h, rfl, hold⟩

theorem Does.bind {α β : Type} {program : Program K α} {next : α → Program K β} {a : α} {b : β}
    {m'' : Grid K} (hfirst : Does base ref m program a m') (hnext : Does base ref m' (next a) b m'') :
    Does base ref m (program >>= next) b m'' := by
  intro h hold
  obtain ⟨h', hrun, hold'⟩ := hfirst h hold
  obtain ⟨h'', hrun', hold''⟩ := hnext h' hold'
  refine ⟨h'', ?_, hold''⟩
  rw [exec_bind_ok hrun, hrun']

theorem Does.divide [Div K] [Zero K] [DecidableEq K] (x : K) {y : K} (hy : y ≠ 0) :
    Does base ref m (divide x y) (x / y) m := by
  rw [RowObjects.divide, if_neg hy]
  exact .pure _

theorem Does.onlyIf {c : Prop} [Decidable c] {program : Program K Unit} (h : c → Does base ref m program () m') :
    Does base ref m (onlyIf c program) () (if c then m' else m) := by
  rw [RowObjects.onlyIf]
  split
  · next hc => exact h hc
  · exact .pure ()

theorem Does.getItem_of {i j : Nat} {row : List K} {x : K} (hrow : m[i]? = some row) (hx : row[j]? = some x) :
    Does base ref m (getItem ref i j) x m := by
  intro h hold
  obtain ⟨r, hat, -⟩ := hold.row hrow
  refine ⟨h, ?_, hold⟩
  rw [RowObjects.getItem, exec_act, hat]
  simp only [hx]

theorem Does.getItem [Zero K] (hrect : Rect m rows cols) {i j : Nat} (hi : i < rows) (hj : j < cols) :
    Does base ref m (getItem ref i j) (entry m i j) m := by
  have hlt : i < m.length := by rwa [hrect.length]
  have hrow := List.getElem?_eq_getElem hlt
  have hlen : j < m[i].length := by rwa [hrect.row_length _ (List.getElem_mem hlt)]
  have hx := List.getElem?_eq_getElem hlen
  rw [entry_of_getElem? hrow hx]
  exact Does.getItem_of hrow hx

/-- Assigning a row of the copy changes that row only. -/
theorem Holds.setRow {h : Heap K} (hold : Holds base ref m h) {i r : Nat} (row : List K)
    (hr : (h.matrices.getD ref [])[i]? = some r) :
    Holds base ref (m.set i row) { h with rows := h.rows.set r row } := by
  obtain ⟨refs, hrefs, hnodup, hnew, hrows⟩ := hold.own
  rw [List.getD_eq_getElem?_getD, hrefs, Option.getD_some] at hr
  have hlength : refs.length = m.length := by
    rw [← List.length_map (f := fun r => h.rows[r]?), hrows, List.length_map]
  refine ⟨?_, hold.oldMatrices, hold.fresh, refs, hrefs, hnodup, hnew, ?_⟩
  · obtain ⟨rest, hrest⟩ := hold.oldRows
    refine ⟨rest.set (r - base.rows.length) row, ?_⟩
    rw [← hrest, List.set_append_right _ _ (hnew r (List.mem_of_getElem? hr))]
  · apply List.ext_getElem?
    intro a
    rw [List.getElem?_map, List.getElem?_map, List.getElem?_set]
    have hat := congrArg (fun l => l[a]?) hrows
    simp only [List.getElem?_map] at hat
    by_cases ha : i = a
    · subst ha
      obtain ⟨hlt, -⟩ := List.getElem?_eq_some_iff.mp hr
      rw [hr, Option.map_some, List.getElem?_eq_getElem (l := m) (by omega), Option.map_some] at hat
      have hrow : h.rows[r]? = some m[i] := Option.some_inj.mp hat
      rw [if_pos rfl, if_pos (by omega), hr, Option.map_some, Option.map_some,
        List.getElem?_set_self (List.getElem?_eq_some_iff.mp hrow).1]
    · rw [if_neg ha, ← hat]
      apply Option.map_congr
      intro r' hr'
      have hne : r ≠ r' := by
        rintro rfl
        obtain ⟨hlt, hat'⟩ := List.getElem?_eq_some_iff.mp hr
        obtain ⟨hlt', hat''⟩ := List.getElem?_eq_some_iff.mp hr'
        exact ha (hnodup.getElem_inj_iff.mp (hat'.trans hat''.symm))
      rw [List.getElem?_set_ne hne]

theorem Does.setItem_of {i j : Nat} {row : List K} (hrow : m[i]? = some row) (hj : j < row.length) (x : K) :
    Does base ref m (setItem ref i j x) () (setEntry m i j x) := by
  intro h hold
  obtain ⟨r, hat, -, hr⟩ := hold.row hrow
  refine ⟨{ h with rows := h.rows.set r (row.set j x) }, ?_, ?_⟩
  · rw [RowObjects.setItem, exec_act, hat]
    exact if_pos hj
  · rw [setEntry, List.getD_eq_getElem?_getD, hrow, Option.getD_some]
    exact hold.setRow (row.set j x) hr

theorem Does.setItem (hrect : Rect m rows cols) {i j : Nat} (hi : i < rows) (hj : j < cols) (x : K) :
    Does base ref m (setItem ref i j x) () (setEntry m i j x) := by
  have hlt : i < m.length := by rwa [hrect.length]
  refine Does.setItem_of (List.getElem?_eq_getElem hlt) ?_ x
  rwa [hrect.row_length _ (List.getElem_mem hlt)]

theorem Does.swapItems (hrect : Rect m rows cols) {i k : Nat} (hi : i < rows) (hk : k < rows) :
    Does base ref m (swapItems ref i k) () (swapRows m i k) := by
  intro h hold
  have hilt : i < m.length := by rwa [hrect.length]
  have hklt : k < m.length := by rwa [hrect.length]
  obtain ⟨r, hat, hrow, hr⟩ := hold.row (List.getElem?_eq_getElem hilt)
  obtain ⟨r', hat', hrow', hr'⟩ := hold.row (List.getElem?_eq_getElem hklt)
  refine ⟨{ h with matrices := h.matrices.set ref (((h.matrices.getD ref []).set i r').set k r) }, ?_, ?_⟩
  · rw [RowObjects.swapItems, exec_act, hat, hat']
  · obtain ⟨refs, hrefs, hnodup, hnew, hrows⟩ := hold.own
    have hlast : ref < h.matrices.length := (List.getElem?_eq_some_iff.mp hrefs).1
    rw [List.getD_eq_getElem?_getD, hrefs, Option.getD_some] at hr hr' ⊢
    obtain ⟨hilt', rfl⟩ := List.getElem?_eq_some_iff.mp hr
    obtain ⟨hklt', rfl⟩ := List.getElem?_eq_some_iff.mp hr'
    have hperm := List.set_set_perm hilt' hklt'
    refine ⟨hold.oldRows, ?_, hold.fresh, _, List.getElem?_set_self hlast, hperm.nodup_iff.mpr hnodup, ?_, ?_⟩
    · obtain ⟨rest, hrest⟩ := hold.oldMatrices
      refine ⟨rest.set (ref - base.matrices.length) ((refs.set i refs[k]).set k refs[i]), ?_⟩
      rw [← hrest, List.set_append_right _ _ hold.fresh]
    · exact fun r hmem => hnew r (hperm.mem_iff.mp hmem)
    · rw [List.map_set, List.map_set, hrows, swapRows, List.map_set, List.map_set, hrow, hrow',
        List.getD_eq_getElem _ _ hilt, List.getD_eq_getElem _ _ hklt]

/-- Copying a matrix row by row makes a working copy of it. -/
theorem exec_copyRows {h : Heap K} {ref : Nat} {m : Grid K} (hshows : h.Shows ref m) :
    ∃ h', exec (copyRows ref) h = (.ok h.matrices.length, h') ∧ Holds h h.matrices.length m h' := by
  obtain ⟨refs, hrefs, hrows⟩ := hshows
  have hcopied : (refs.map fun r => h.rows.getD r []) = m := by
    have hget := congrArg (List.map fun row : Option (List K) => row.getD []) hrows
    rw [List.map_map, List.map_map] at hget
    simpa [Function.comp_def, List.getD_eq_getElem?_getD] using hget
  have hlength : refs.length = m.length := by rw [← hcopied, List.length_map]
  refine ⟨_, rfl, ?_⟩
  rw [List.getD_eq_getElem?_getD, hrefs, Option.getD_some, hcopied, hlength]
  refine ⟨List.prefix_append _ _, List.prefix_append _ _, le_refl _,
    List.range' h.rows.length m.length, ?_, List.nodup_range', ?_, ?_⟩
  · rw [List.getElem?_append_right (le_refl _), Nat.sub_self]
    rfl
  · exact fun r hr => (List.mem_range'_1.mp hr).1
  · apply List.ext_getElem?
    intro a
    rw [List.getElem?_map, List.getElem?_map]
    rcases Nat.lt_or_ge a m.length with ha | ha
    · rw [List.getElem?_range' ha, Option.map_some, List.getElem?_append_right (by omega),
        show h.rows.length + 1 * a - h.rows.length = a by omega, List.getElem?_eq_getElem ha]
      rfl
    · rw [List.getElem?_eq_none ha, List.getElem?_eq_none (by rwa [List.length_range'])]
      rfl

theorem Follows.of_does {α τ : Type} {program : Program K α} {R : τ → α → Grid K → Prop} {t : τ} {a : α}
    (hdoes : Does base ref m program a m') (h : R t a m') : Follows base ref m program (.ok t) R :=
  ⟨a, m', hdoes, h⟩

theorem Follows.throw {α τ : Type} {R : τ → α → Grid K → Prop} (e : Fault) :
    Follows base ref m (throw e : Program K α) (.error e : Except Fault τ) R := fun h hold => ⟨h, m, rfl, hold⟩

/-- What comes before a program that follows a computation. -/
theorem Follows.after {α β τ : Type} {program : Program K α} {next : α → Program K β} {a : α} {x : Except Fault τ}
    {R : τ → β → Grid K → Prop} (hfirst : Does base ref m program a m')
    (hnext : Follows base ref m' (next a) x R) : Follows base ref m (program >>= next) x R := by
  cases x with
  | error e =>
      intro h hold
      obtain ⟨h', hexec, hold'⟩ := hfirst h hold
      obtain ⟨h'', m'', hexec', hold''⟩ := hnext h' hold'
      exact ⟨h'', m'', by rw [exec_bind_ok hexec, hexec'], hold''⟩
  | ok t =>
      obtain ⟨b, m'', hdoes, hrel⟩ := hnext
      exact ⟨b, m'', hfirst.bind hdoes, hrel⟩

theorem Follows.bind {α β τ υ : Type} {program : Program K α} {next : α → Program K β} {x : Except Fault τ}
    {f : τ → Except Fault υ} {R : τ → α → Grid K → Prop} {S : υ → β → Grid K → Prop}
    (hfirst : Follows base ref m program x R)
    (hnext : ∀ t a m', R t a m' → Follows base ref m' (next a) (f t) S) :
    Follows base ref m (program >>= next) (x >>= f) S := by
  cases x with
  | error e =>
      intro h hold
      obtain ⟨h', m', hexec, hold'⟩ := hfirst h hold
      exact ⟨h', m', exec_bind_error hexec next, hold'⟩
  | ok t =>
      obtain ⟨a, m', hdoes, hrel⟩ := hfirst
      exact Follows.after hdoes (hnext t a m' hrel)

/-- What comes after a program that follows a computation. -/
theorem Follows.before {α β τ : Type} {program : Program K α} {next : α → Program K β} {x : Except Fault τ}
    {R : τ → α → Grid K → Prop} {S : τ → β → Grid K → Prop} (hfirst : Follows base ref m program x R)
    (hnext : ∀ t a m', R t a m' → ∃ b m'', Does base ref m' (next a) b m'' ∧ S t b m'') :
    Follows base ref m (program >>= next) x S := by
  have hbind : Follows base ref m (program >>= next) (x >>= pure) S := hfirst.bind hnext
  rwa [bind_pure] at hbind

/-- A loop over a list follows a fold over the same list that may raise. -/
theorem Follows.forEach {σ ι τ : Type} {body : σ → ι → Program K σ} (step : τ → ι → Except Fault τ)
    (R : τ → σ → Grid K → Prop) {xs : List ι}
    (hbody : ∀ t s m x, x ∈ xs → R t s m → Follows base ref m (body s x) (step t x) R) {t : τ} {s : σ}
    (h : R t s m) : Follows base ref m (RowObjects.forEach body xs s) (xs.foldlM step t) R := by
  induction xs generalizing t s m with
  | nil => exact ⟨s, m, .pure s, h⟩
  | cons x xs ih =>
      rw [List.foldlM_cons]
      exact (hbody t s m x List.mem_cons_self h).bind fun t' s' m' hrel =>
        ih (fun t s m y hy => hbody t s m y (List.mem_cons_of_mem x hy)) hrel

/-- A loop over a list follows a fold over the same list. -/
theorem Does.forEach {σ ι τ : Type} {body : σ → ι → Program K σ} (step : τ → ι → τ) (R : τ → σ → Grid K → Prop)
    {xs : List ι} (hbody : ∀ t s m x, x ∈ xs → R t s m →
      ∃ s' m', Does base ref m (body s x) s' m' ∧ R (step t x) s' m') {t : τ} {s : σ} (h : R t s m) :
    ∃ s' m', Does base ref m (forEach body xs s) s' m' ∧ R (xs.foldl step t) s' m' := by
  induction xs generalizing t s m with
  | nil => exact ⟨s, m, .pure s, h⟩
  | cons x xs ih =>
      obtain ⟨s', m', hdoes, hrel⟩ := hbody t s m x List.mem_cons_self h
      obtain ⟨s'', m'', hdoes', hrel'⟩ :=
        ih (fun t s m y hy => hbody t s m y (List.mem_cons_of_mem x hy)) hrel
      exact ⟨s'', m'', hdoes.bind hdoes', hrel'⟩

/-- A loop over a list that only works on the copy. -/
theorem Does.forEach_grid {ι : Type} {body : ι → Program K Unit} {step : Grid K → ι → Grid K}
    (Inv : Grid K → Prop) {xs : List ι}
    (hbody : ∀ m x, x ∈ xs → Inv m → Does base ref m (body x) () (step m x) ∧ Inv (step m x)) (h : Inv m) :
    Does base ref m (RowObjects.forEach (fun _ x => body x) xs ()) () (xs.foldl step m) := by
  obtain ⟨⟨⟩, m', hdoes, -, rfl⟩ := Does.forEach step
    (fun t (_ : Unit) m => Inv m ∧ m = t)
    (fun t s m x hx hrel => ⟨(), step m x, (hbody m x hx hrel.1).1, (hbody m x hx hrel.1).2,
      by rw [hrel.2]⟩) ⟨h, rfl⟩
  exact hdoes

/-- A loop over a list that only reads the copy. -/
theorem Does.forEach_value {σ ι : Type} {body : σ → ι → Program K σ} {step : σ → ι → σ} {xs : List ι}
    (hbody : ∀ s x, x ∈ xs → Does base ref m (body s x) (step s x) m) (s : σ) :
    Does base ref m (RowObjects.forEach body xs s) (xs.foldl step s) m := by
  induction xs generalizing s with
  | nil => exact .pure s
  | cons x xs ih =>
      exact (hbody s x List.mem_cons_self).bind (ih (fun s y hy => hbody s y (List.mem_cons_of_mem x hy)) _)

/-- A loop with a guard follows a loop that comes to its end. -/
theorem Does.whileLoop {σ τ : Type} {guard : σ → Program K Bool} {body : σ → Program K σ} (test : τ → Bool)
    (next : τ → τ) (R : τ → σ → Grid K → Prop)
    (hguard : ∀ t s m, R t s m → Does base ref m (guard s) (test t) m)
    (hbody : ∀ t s m, R t s m → test t = true → ∃ s' m', Does base ref m (body s) s' m' ∧ R (next t) s' m')
    {n : Nat} {t : τ} {s : σ} (h : R t s m) (hends : test (Runs.loop test next n t) = false) :
    ∃ s' m', Does base ref m (whileLoop guard body n s) s' m' ∧ R (Runs.loop test next n t) s' m' := by
  induction n generalizing t s m with
  | zero =>
      refine ⟨s, m, (hguard t s m h).bind ?_, h⟩
      have hfalse : test t = false := hends
      rw [hfalse]
      exact .pure s
  | succ n ih =>
      cases htest : test t with
      | false =>
          rw [Runs.loop_of_not_guard htest]
          refine ⟨s, m, (hguard t s m h).bind ?_, h⟩
          rw [htest]
          exact .pure s
      | true =>
          rw [Runs.loop_succ_of_guard htest] at hends ⊢
          obtain ⟨s', m', hdoes, hrel⟩ := hbody t s m h htest
          obtain ⟨s'', m'', hdoes', hrel'⟩ := ih hrel hends
          refine ⟨s'', m'', (hguard t s m h).bind ?_, hrel'⟩
          rw [htest]
          exact hdoes.bind hdoes'

end Rules

end RowObjects
