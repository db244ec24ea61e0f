import Mathlib.Data.List.DropRight
import Mathlib.Tactic.Ring

/-! Python sequences: indexing and slicing with negative indices and clamped bounds, as MicroPython
computes them for lists and strings, the lists `range` builds, and `rstrip`. Nothing here names the
program that uses them. -/

namespace Py

/-- The exceptions the modelled operations can raise. -/
inductive Err where
  | indexError
  | keyError
  | valueError (text : String)
  | unicodeError
  deriving DecidableEq, Repr

variable {α β : Type}

/-- A slice bound: a negative one counts from the end, and the result is clamped to the sequence. -/
def bound (len : Nat) (i : Int) : Nat :=
  if i < 0 then (i + len).toNat else min i.toNat len

/-- `xs[start:stop]`. -/
def slice (xs : List α) (start stop : Int) : List α :=
  (xs.take (bound xs.length stop)).drop (bound xs.length start)

/-- `xs[start:]`. -/
def sliceFrom (xs : List α) (start : Int) : List α := xs.drop (bound xs.length start)

/-- `xs[:stop]`. -/
def sliceTo (xs : List α) (stop : Int) : List α := xs.take (bound xs.length stop)

/-- `xs[i]`, which raises `IndexError` outside the sequence. -/
def item (xs : List α) (i : Int) : Except Err α :=
  let j := if i < 0 then i + xs.length else i
  if j < 0 then .error .indexError
  else match xs[j.toNat]? with
    | some x => .ok x
    | none => .error .indexError

/-- The integers `start, start + 1, ...`, `count` of them. -/
def rangeFrom (start : Int) (count : Nat) : List Int :=
  (List.range count).map fun (j : Nat) => start + j

/-- `list(range(stop))`. -/
def range (stop : Int) : List Int := rangeFrom 0 stop.toNat

/-- `" " * n`, empty for a negative `n`. -/
def spaces (n : Int) : List Char := List.replicate n.toNat ' '

/-- The characters `rstrip()` removes: MicroPython's `" \t\n\r\v\f"`. -/
def isSpace (c : Char) : Bool :=
  c = ' ' || c = '\t' || c = '\n' || c = '\r' || c = '\x0b' || c = '\x0c'

def rstrip (s : List Char) : List Char := s.rdropWhile isSpace

def strip (s : List Char) : List Char := rstrip (s.dropWhile isSpace)

/-- The text ends in a character that `rstrip()` removes. -/
def EndsInSpace (s : List Char) : Prop := ∃ hs : s ≠ [], isSpace (s.getLast hs) = true

instance (s : List Char) : Decidable (EndsInSpace s) := by
  unfold EndsInSpace
  infer_instance

theorem rstrip_eq_self_iff {s : List Char} : rstrip s = s ↔ ¬ EndsInSpace s := by
  rw [rstrip, List.rdropWhile_eq_self_iff]
  simp [EndsInSpace]

theorem not_endsInSpace_rstrip (s : List Char) : ¬ EndsInSpace (rstrip s) :=
  rstrip_eq_self_iff.mp (List.rdropWhile_idempotent _ _)

theorem rstrip_concat_space (s : List Char) : rstrip (s ++ [' ']) = rstrip s :=
  List.rdropWhile_concat_pos _ _ _ (by decide)

/-- Only white space is stripped to nothing. -/
theorem isSpace_of_strip {s : List Char} (h : strip s = []) : ∀ c ∈ s, isSpace c = true := by
  have hall := List.rdropWhile_eq_nil_iff.mp h
  cases hrest : s.dropWhile isSpace with
  | nil => exact List.dropWhile_eq_nil_iff.mp hrest
  | cons c rest =>
      have hpos : 0 < (s.dropWhile isSpace).length := by
        rw [hrest]
        exact Nat.succ_pos _
      exact absurd (hall _ (List.get_mem _ _)) (List.dropWhile_get_zero_not isSpace s hpos)

/-! ### Slices -/

theorem slice_of_nonneg (xs : List α) {start stop : Int} (hstart : 0 ≤ start) (hstop : 0 ≤ stop) :
    slice xs start stop = (xs.take stop.toNat).drop start.toNat := by
  unfold slice bound
  rw [if_neg (by omega), if_neg (by omega)]
  rcases le_total stop.toNat xs.length with h | h
  · rw [Nat.min_eq_left h]
    rcases le_total start.toNat xs.length with h' | h'
    · rw [Nat.min_eq_left h']
    · rw [Nat.min_eq_right h', List.drop_of_length_le (by simp), List.drop_of_length_le (by simp; omega)]
  · rw [Nat.min_eq_right h, List.take_length, List.take_of_length_le h]
    rcases le_total start.toNat xs.length with h' | h'
    · rw [Nat.min_eq_left h']
    · rw [Nat.min_eq_right h', List.drop_length, List.drop_of_length_le h']

theorem sliceTo_of_nonneg (xs : List α) {stop : Int} (hstop : 0 ≤ stop) :
    sliceTo xs stop = xs.take stop.toNat := by
  unfold sliceTo bound
  rw [if_neg (by omega)]
  rcases le_total stop.toNat xs.length with h | h
  · rw [Nat.min_eq_left h]
  · rw [Nat.min_eq_right h, List.take_length, List.take_of_length_le h]

theorem sliceFrom_of_nonneg (xs : List α) {start : Int} (hstart : 0 ≤ start) :
    sliceFrom xs start = xs.drop start.toNat := by
  unfold sliceFrom bound
  rw [if_neg (by omega)]
  rcases le_total start.toNat xs.length with h | h
  · rw [Nat.min_eq_left h]
  · rw [Nat.min_eq_right h, List.drop_length, List.drop_of_length_le h]

/-- A slice whose bounds have crossed is empty, as with a window that starts before the sequence. -/
theorem slice_eq_nil (xs : List α) {start stop : Int}
    (h : bound xs.length stop ≤ bound xs.length start) : slice xs start stop = [] := by
  unfold slice
  exact List.drop_of_length_le (by rw [List.length_take]; omega)

/-! ### Items -/

/-- An empty list has no item. -/
theorem item_nil (i : Int) : item ([] : List α) i = .error .indexError := by
  simp only [item, List.getElem?_nil, ite_self]

theorem item_of_lt (xs : List α) {i : Nat} (hi : i < xs.length) :
    item xs (i : Int) = .ok (xs.get ⟨i, hi⟩) := by
  have hnot : ¬ ((i : Int) < 0) := by omega
  simp only [item, if_neg hnot, Int.toNat_natCast, List.getElem?_eq_getElem hi, List.get_eq_getElem]

@[simp] theorem length_rangeFrom (start : Int) (count : Nat) :
    (rangeFrom start count).length = count := by
  simp [rangeFrom]

theorem item_rangeFrom (start : Int) {count : Nat} {i : Int} (h0 : 0 ≤ i) (hi : i < count) :
    item (rangeFrom start count) i = .ok (start + i) := by
  obtain ⟨n, rfl⟩ := Int.eq_ofNat_of_zero_le h0
  rw [item_of_lt _ (by simp; omega)]
  simp [rangeFrom]

/-- A negative index into a range counts from its end. -/
theorem item_rangeFrom_neg (start : Int) {count : Nat} {i : Int} (h0 : 0 < i) (hi : i ≤ count) :
    item (rangeFrom start count) (-i) = .ok (start + count - i) := by
  obtain ⟨n, hn⟩ := Int.eq_ofNat_of_zero_le (show 0 ≤ (count : Int) - i by omega)
  have hneg : -i < 0 := by omega
  have hidx : -i + ((rangeFrom start count).length : Int) = n := by
    rw [length_rangeFrom]
    omega
  have hlt : n < (rangeFrom start count).length := by
    rw [length_rangeFrom]
    omega
  have hnot : ¬ ((n : Int) < 0) := by omega
  simp only [item, if_pos hneg, hidx, if_neg hnot, Int.toNat_natCast, List.getElem?_eq_getElem hlt]
  simp only [rangeFrom, List.getElem_map, List.getElem_range]
  congr 1
  omega

theorem slice_range (stop : Int) {start : Int} {count : Nat} (h0 : 0 ≤ start)
    (hstop : start + count ≤ stop) : slice (range stop) start (start + count) = rangeFrom start count := by
  rw [slice_of_nonneg _ h0 (by omega)]
  apply List.ext_getElem
  · simp [range]
    omega
  · intro j h1 h2
    simp only [range, rangeFrom, List.getElem_drop, List.getElem_take, List.getElem_map,
      List.getElem_range]
    omega

/-! ### Loops that collect or raise -/

theorem mapM_eq_ok {f : α → Except Err β} {g : α → β} :
    ∀ {xs : List α}, (∀ x ∈ xs, f x = .ok (g x)) → xs.mapM f = .ok (xs.map g)
  | [], _ => rfl
  | x :: xs, h => by
      rw [List.mapM_cons, h x List.mem_cons_self, mapM_eq_ok fun y hy => h y (List.mem_cons_of_mem x hy)]
      rfl

theorem mapM_eq_error {f : α → Except Err β} {x : α} {e : Err} (hx : f x = .error e) :
    ∀ {xs : List α}, x ∈ xs → ∃ e', xs.mapM f = .error e'
  | [], h => absurd h List.not_mem_nil
  | y :: ys, h => by
      rw [List.mapM_cons]
      cases hy : f y with
      | error e' => exact ⟨e', rfl⟩
      | ok v =>
          rcases List.mem_cons.mp h with rfl | hmem
          · rw [hx] at hy
            cases hy
          · obtain ⟨e', he'⟩ := mapM_eq_error hx hmem
            exact ⟨e', by rw [he']; rfl⟩

end Py
