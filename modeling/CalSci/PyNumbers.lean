import CalSci.PySequence
import Mathlib.Tactic.Linarith

/-! Integers as text: `int` and `str` as MicroPython computes them, and rows of integers separated by `+`, as
they are typed into a field. Nothing here names the program that uses them. -/

namespace Py

/-- The characters that `int` takes for digits; an underscore is passed over. -/
def isNumeral (c : Char) : Bool := c.isDigit || c = '_'

/-- Whether a number is negative, and what follows its sign. -/
def sign : List Char → Bool × List Char
  | '+' :: rest => (false, rest)
  | '-' :: rest => (true, rest)
  | rest => (false, rest)

/-- `int(text)`, or nothing for a `ValueError`: white space, a sign, numerals, white space. -/
def int (text : List Char) : Option Int :=
  let (negative, body) := sign (text.dropWhile isSpace)
  let numerals := body.takeWhile isNumeral
  if numerals ≠ [] ∧ (body.dropWhile isNumeral).all isSpace = true then
    let value : Int := Nat.ofDigitChars 10 (numerals.filter Char.isDigit) 0
    some (if negative then -value else value)
  else none

def str (n : Int) : List Char :=
  if n < 0 then '-' :: Nat.toDigits 10 n.natAbs else Nat.toDigits 10 n.natAbs

/-- `list(map(int, text.split("+")))`. -/
def intRow (text : List Char) : Option (List Int) := (text.splitOn '+').mapM int

def intRows (texts : List (List Char)) : Option (List (List Int)) := texts.mapM intRow

/-- A row as it is typed, with the space that closes the text of a field. -/
def rowText : List Int → List Char
  | [] => [' ']
  | [n] => str n ++ [' ']
  | n :: row => str n ++ '+' :: rowText row

/-! ### Reading back -/

theorem isNumeral_of_isDigit {c : Char} (h : c.isDigit = true) : isNumeral c = true := by
  rw [isNumeral, h, Bool.true_or]

/-- What follows the digits of a number is white space: nothing else is read. -/
theorem numerals_append {digits rest : List Char} (hdigits : ∀ c ∈ digits, c.isDigit = true)
    (hrest : ∀ c ∈ rest, isNumeral c = false) :
    (digits ++ rest).takeWhile isNumeral = digits ∧ (digits ++ rest).dropWhile isNumeral = rest := by
  have hall : ∀ c ∈ digits, isNumeral c = true := fun c hc => isNumeral_of_isDigit (hdigits c hc)
  cases rest with
  | nil =>
      rw [List.append_nil]
      exact ⟨List.takeWhile_eq_self_iff.mpr hall, List.dropWhile_eq_nil_iff.mpr hall⟩
  | cons c rest =>
      have hnot : ¬ isNumeral c = true := by
        rw [hrest c List.mem_cons_self]
        exact Bool.false_ne_true
      rw [List.takeWhile_append_of_pos hall, List.dropWhile_append_of_pos hall,
        List.takeWhile_cons_of_neg hnot, List.dropWhile_cons_of_neg hnot, List.append_nil]
      exact ⟨rfl, rfl⟩

/-- A digit is no white space and no sign. -/
theorem not_special_of_isDigit {c : Char} (hdigit : c.isDigit = true) : isSpace c = false ∧ c ≠ '+' ∧ c ≠ '-' := by
  refine ⟨?_, ?_, ?_⟩
  · by_contra hspace
    rw [Bool.not_eq_false, isSpace] at hspace
    simp only [Bool.or_eq_true, decide_eq_true_eq] at hspace
    rcases hspace with ((((rfl | rfl) | rfl) | rfl) | rfl) | rfl <;> exact absurd hdigit (by decide)
  · rintro rfl
    exact absurd hdigit (by decide)
  · rintro rfl
    exact absurd hdigit (by decide)

def signText (negative : Bool) : List Char := if negative then ['-'] else []

theorem sign_digits {negative : Bool} {digits rest : List Char} (hdigits : ∀ c ∈ digits, c.isDigit = true)
    (hne : digits ≠ []) :
    sign ((signText negative ++ digits ++ rest).dropWhile isSpace) = (negative, digits ++ rest) := by
  cases digits with
  | nil => exact absurd rfl hne
  | cons c digits =>
      obtain ⟨hspace, hplus, hminus⟩ := not_special_of_isDigit (hdigits c List.mem_cons_self)
      cases negative with
      | true =>
          simp only [signText, if_true, List.cons_append, List.nil_append]
          rw [List.dropWhile_cons_of_neg (by decide)]
          rfl
      | false =>
          simp only [signText, Bool.false_eq_true, if_false, List.cons_append, List.nil_append]
          rw [List.dropWhile_cons_of_neg (by rw [hspace]; decide), sign]
          · exact fun _ h => hplus (List.cons.inj h).1
          · exact fun _ h => hminus (List.cons.inj h).1

/-- A sign and digits, with white space after them, are read as the number they write. -/
theorem int_digits {negative : Bool} {digits blanks : List Char} (hdigits : ∀ c ∈ digits, c.isDigit = true)
    (hne : digits ≠ []) (hblanks : ∀ c ∈ blanks, c = ' ') :
    int (signText negative ++ digits ++ blanks) =
      some (if negative then -(Nat.ofDigitChars 10 digits 0 : Int) else Nat.ofDigitChars 10 digits 0) := by
  have hnumeral : ∀ c ∈ blanks, isNumeral c = false := by
    intro c hc
    rw [hblanks c hc]
    decide
  have hspace : blanks.all isSpace = true := by
    rw [List.all_eq_true]
    intro c hc
    rw [hblanks c hc]
    decide
  obtain ⟨htake, hdrop⟩ := numerals_append hdigits hnumeral
  rw [int, sign_digits hdigits hne]
  dsimp only
  rw [htake, hdrop, if_pos ⟨hne, hspace⟩, List.filter_eq_self.mpr hdigits]

theorem isDigit_of_mem_toDigits {n : Nat} : ∀ c ∈ Nat.toDigits 10 n, c.isDigit = true := fun _ hc =>
  Nat.isDigit_of_mem_toDigits (by decide) (by decide) hc

theorem str_eq (n : Int) : str n = signText (decide (n < 0)) ++ Nat.toDigits 10 n.natAbs := by
  unfold str signText
  split <;> simp_all

theorem int_str (n : Int) {blanks : List Char} (hblanks : ∀ c ∈ blanks, c = ' ') :
    int (str n ++ blanks) = some n := by
  rw [str_eq, int_digits isDigit_of_mem_toDigits Nat.toDigits_ne_nil hblanks, Nat.ofDigitChars_ten_toDigits]
  congr 1
  by_cases hneg : n < 0
  · rw [if_pos (decide_eq_true hneg)]
    omega
  · rw [if_neg (by rw [decide_eq_false hneg]; exact Bool.false_ne_true)]
    omega

theorem not_mem_digits {c : Char} (hc : c.isDigit = false) {digits : List Char} (h : ∀ d ∈ digits, d.isDigit = true) :
    c ∉ digits := by
  intro hmem
  rw [h c hmem] at hc
  cases hc

theorem not_mem_signText {c : Char} (hc : c ≠ '-') (negative : Bool) : c ∉ signText negative := by
  cases negative <;> simp [signText, hc]

theorem not_mem_str {c : Char} (hdigit : c.isDigit = false) (hminus : c ≠ '-') (n : Int) : c ∉ str n := by
  rw [str_eq, List.mem_append]
  rintro (hmem | hmem)
  · exact not_mem_signText hminus _ hmem
  · exact not_mem_digits hdigit isDigit_of_mem_toDigits hmem

theorem plus_not_mem_str (n : Int) : '+' ∉ str n := not_mem_str (by decide) (by decide) n

/-- A typed row is read back. -/
theorem intRow_rowText {row : List Int} (h : row ≠ []) : intRow (rowText row) = some row := by
  induction row with
  | nil => exact absurd rfl h
  | cons n row ih =>
      cases row with
      | nil =>
          have hplus : '+' ∉ str n ++ [' '] := by
            rw [List.mem_append]
            rintro (hmem | hmem)
            · exact plus_not_mem_str n hmem
            · exact absurd (List.mem_singleton.mp hmem) (by decide)
          rw [intRow, rowText, List.splitOn_eq_singleton hplus, List.mapM_cons,
            int_str n (by simp)]
          rfl
      | cons n' row =>
          have hrest := ih (List.cons_ne_nil n' row)
          have hone := int_str n (show ∀ c ∈ ([] : List Char), c = ' ' from nofun)
          rw [List.append_nil] at hone
          rw [intRow] at hrest
          rw [intRow, rowText, List.splitOn_append_cons_self_of_not_mem (plus_not_mem_str n), List.mapM_cons,
            hone, hrest]
          · rfl
          · exact List.cons_ne_nil n' row

theorem intRows_cons {text : List Char} {texts : List (List Char)} {rows : List (List Int)} :
    intRows (text :: texts) = some rows ↔
      ∃ row rest, intRow text = some row ∧ intRows texts = some rest ∧ rows = row :: rest := by
  simp only [intRows, List.mapM_cons, Option.bind_eq_bind, Option.bind_eq_some_iff]
  constructor
  · rintro ⟨row, hrow, rest, hrest, heq⟩
    exact ⟨row, rest, hrow, hrest, (Option.some.inj heq).symm⟩
  · rintro ⟨row, rest, hrow, hrest, rfl⟩
    exact ⟨row, hrow, rest, hrest, rfl⟩

theorem length_of_intRows {texts : List (List Char)} {rows : List (List Int)} (h : intRows texts = some rows) :
    rows.length = texts.length := by
  induction texts generalizing rows with
  | nil =>
      obtain rfl : [] = rows := Option.some.inj h
      rfl
  | cons text texts ih =>
      obtain ⟨row, rest, -, hrest, rfl⟩ := intRows_cons.mp h
      rw [List.length_cons, List.length_cons, ih hrest]

end Py
