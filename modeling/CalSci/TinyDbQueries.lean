import CalSci.TinyDbModel
import CalSci.Runs
import Mathlib.Data.Quot

/-! The queries of `lib/tinydb/queries.py`: comparisons of a field with a value, and their combinations. The cache of a
`Table` knows a query by its `_hash` alone. Two queries with the same one never disagree about a document, as long as
no tuple is compared with: `freeze` makes a tuple of a list, and then the two look alike although no document holds a
tuple. -/

namespace CalSci.TinyDb

/-- A value of a document, as JSON has them, without floats: `==` between those and integers is not transitive in
single precision. -/
inductive Value where
  | null
  | bool (b : Bool)
  | int (i : ℤ)
  | str (s : String)
  | list (items : List Value)
  | dict (fields : List (String × Value))

/-- A value to compare with; floats, dicts and sets are left out. -/
inductive Rhs where
  | null
  | bool (b : Bool)
  | int (i : ℤ)
  | str (s : String)
  | list (items : List Rhs)
  | tuple (items : List Rhs)

/-- What `freeze` makes of a value. `True` and `1` are equal and hash alike, so there is one of them. -/
inductive Frozen where
  | null
  | int (i : ℤ)
  | str (s : String)
  | tuple (items : List Frozen)

def number (b : Bool) : ℤ := if b then 1 else 0

mutual

def Value.eq : Value → Rhs → Bool
  | .null, .null => true
  | .bool a, .bool b => a == b
  | .bool a, .int j => number a == j
  | .int i, .bool b => i == number b
  | .int i, .int j => i == j
  | .str s, .str t => s == t
  | .list vs, .list rs => Value.eqs vs rs
  | _, _ => false

def Value.eqs : List Value → List Rhs → Bool
  | [], [] => true
  | v :: vs, r :: rs => v.eq r && Value.eqs vs rs
  | _, _ => false

end

mutual

def freeze : Rhs → Frozen
  | .null => .null
  | .bool b => .int (number b)
  | .int i => .int i
  | .str s => .str s
  | .list items => .tuple (freezes items)
  | .tuple items => .tuple (freezes items)

def freezes : List Rhs → List Frozen
  | [] => []
  | item :: items => freeze item :: freezes items

end

/-- `==`, `!=` and `one_of`, whose hash holds the frozen value. -/
inductive Test where
  | eq
  | ne
  | oneOf
  deriving DecidableEq, Repr

inductive Order where
  | lt
  | le
  | gt
  | ge
  deriving DecidableEq, Repr

inductive Ordered where
  | int (i : ℤ)
  | str (s : String)
  deriving DecidableEq, Repr

/-- The fields of `Query().a.b`; without any of them the constructors raise. -/
structure Path where
  first : String
  rest : List String
  deriving DecidableEq, Repr

inductive Query where
  | noop
  | test (op : Test) (path : Path) (rhs : Rhs)
  | order (op : Order) (path : Path) (rhs : Ordered)
  | exists (path : Path)
  | and (q r : Query)
  | or (q r : Query)
  | not (q : Query)

inductive Hash where
  | noop
  | test (op : Test) (path : Path) (rhs : Frozen)
  | order (op : Order) (path : Path) (rhs : Ordered)
  | exists (path : Path)
  | and (h k : Hash)
  | or (h k : Hash)
  | not (h : Hash)

def Query.hash : Query → Hash
  | .noop => .noop
  | .test op path rhs => .test op path (freeze rhs)
  | .order op path rhs => .order op path rhs
  | .exists path => .exists path
  | .and q r => .and q.hash r.hash
  | .or q r => .or q.hash r.hash
  | .not q => .not q.hash

/-! ### Tests -/

/-- The loop of `runner`: a missing field, or a value that has no fields, ends it. -/
def Value.resolve : List String → Value → Option Value
  | [], value => some value
  | part :: path, .dict fields => (fields.find? fun field => field.1 = part).bind fun field => field.2.resolve path
  | _ :: _, _ => none

/-- The value a path leads to in a document. -/
def Path.resolve (path : Path) (doc : Doc Value) : Option Value := (doc.lookup path.first).bind (Value.resolve path.rest)

/-- `value in items`: in a text only texts are looked for, and other values have no items. -/
def Value.isIn (value : Value) : Rhs → Except Raised Bool
  | .list items | .tuple items => .ok (items.any value.eq)
  | .str s =>
      match value with
      | .str part => .ok (decide (part.toList <:+: s.toList))
      | _ => .error (.raised "TypeError")
  | _ => .error (.raised "TypeError")

def Test.holds (op : Test) (value : Value) (rhs : Rhs) : Except Raised Bool :=
  match op with
  | .eq => .ok (value.eq rhs)
  | .ne => .ok !value.eq rhs
  | .oneOf => value.isIn rhs

/-- `value < rhs` and the like, on two integers or two texts. -/
def Order.decides {α : Type} [LT α] [LE α] [DecidableLT α] [DecidableLE α] (op : Order) (a b : α) : Bool :=
  match op with
  | .lt => a < b
  | .le => a ≤ b
  | .gt => b < a
  | .ge => b ≤ a

/-- Other values are not ordered. -/
def Order.holds (op : Order) : Value → Ordered → Except Raised Bool
  | .bool a, .int j => .ok (op.decides (number a) j)
  | .int i, .int j => .ok (op.decides i j)
  | .str s, .str t => .ok (op.decides s t)
  | _, _ => .error (.raised "TypeError")

/-- `_test`. -/
def Query.run : Query → Doc Value → Except Raised Bool
  | .noop, _ => .ok true
  | .test op path rhs, doc =>
      match path.resolve doc with
      | none => .ok false
      | some value => op.holds value rhs
  | .order op path rhs, doc =>
      match path.resolve doc with
      | none => .ok false
      | some value => op.holds value rhs
  | .exists path, doc => .ok (path.resolve doc).isSome
  | .and q r, doc => do
      if ← q.run doc then r.run doc else pure false
  | .or q r, doc => do
      if ← q.run doc then pure true else r.run doc
  | .not q, doc => do
      let hit ← q.run doc
      pure !hit

/-! ### Equal hashes -/

mutual

def Frozen.decEq : (a b : Frozen) → Decidable (a = b)
  | .null, .null => isTrue rfl
  | .int i, .int j => decidable_of_iff (i = j) (by simp)
  | .str s, .str t => decidable_of_iff (s = t) (by simp)
  | .tuple xs, .tuple ys => @decidable_of_iff _ (xs = ys) (by simp) (Frozen.decEqs xs ys)
  | .null, .int _ | .null, .str _ | .null, .tuple _ | .int _, .null | .int _, .str _ | .int _, .tuple _
  | .str _, .null | .str _, .int _ | .str _, .tuple _ | .tuple _, .null | .tuple _, .int _ | .tuple _, .str _ =>
      isFalse (by simp)

def Frozen.decEqs : (xs ys : List Frozen) → Decidable (xs = ys)
  | [], [] => isTrue rfl
  | x :: xs, y :: ys => @decidable_of_iff _ (x = y ∧ xs = ys) (by simp)
      (@instDecidableAnd _ _ (Frozen.decEq x y) (Frozen.decEqs xs ys))
  | [], _ :: _ | _ :: _, [] => isFalse (by simp)

end

instance : DecidableEq Frozen := Frozen.decEq

/-- `self._hash == other._hash`. The parts of `and` and `or` are a `frozenset`: neither their order nor their number
counts. -/
def Hash.same : Hash → Hash → Bool
  | .noop, .noop => true
  | .test op path rhs, .test op' path' rhs' => op = op' && path = path' && rhs = rhs'
  | .order op path rhs, .order op' path' rhs' => op = op' && path = path' && rhs = rhs'
  | .exists path, .exists path' => path = path'
  | .and h k, .and h' k' =>
      (h.same h' || h.same k') && (k.same h' || k.same k') && (h.same h' || k.same h') && (h.same k' || k.same k')
  | .or h k, .or h' k' =>
      (h.same h' || h.same k') && (k.same h' || k.same k') && (h.same h' || k.same h') && (h.same k' || k.same k')
  | .not h, .not h' => h.same h'
  | _, _ => false

/-- Each part of the one is a part of the other. -/
structure Parts (h k h' k' : Hash) : Prop where
  first : h.same h' = true ∨ h.same k' = true
  second : k.same h' = true ∨ k.same k' = true
  first' : h.same h' = true ∨ k.same h' = true
  second' : h.same k' = true ∨ k.same k' = true

theorem same_test_iff {op op' : Test} {path path' : Path} {rhs rhs' : Frozen} :
    (Hash.test op path rhs).same (.test op' path' rhs') = true ↔ op = op' ∧ path = path' ∧ rhs = rhs' := by
  simp [Hash.same, and_assoc]

theorem same_order_iff {op op' : Order} {path path' : Path} {rhs rhs' : Ordered} :
    (Hash.order op path rhs).same (.order op' path' rhs') = true ↔ op = op' ∧ path = path' ∧ rhs = rhs' := by
  simp [Hash.same, and_assoc]

theorem same_exists_iff {path path' : Path} : (Hash.exists path).same (.exists path') = true ↔ path = path' := by
  simp [Hash.same]

theorem same_and_iff {h k h' k' : Hash} : (Hash.and h k).same (.and h' k') = true ↔ Parts h k h' k' := by
  simp only [Hash.same, Bool.and_eq_true, Bool.or_eq_true]
  exact ⟨fun ⟨⟨⟨h1, h2⟩, h3⟩, h4⟩ => ⟨h1, h2, h3, h4⟩, fun ⟨h1, h2, h3, h4⟩ => ⟨⟨⟨h1, h2⟩, h3⟩, h4⟩⟩

theorem same_or_iff {h k h' k' : Hash} : (Hash.or h k).same (.or h' k') = true ↔ Parts h k h' k' := by
  simp only [Hash.same, Bool.and_eq_true, Bool.or_eq_true]
  exact ⟨fun ⟨⟨⟨h1, h2⟩, h3⟩, h4⟩ => ⟨h1, h2, h3, h4⟩, fun ⟨h1, h2, h3, h4⟩ => ⟨⟨⟨h1, h2⟩, h3⟩, h4⟩⟩

theorem same_refl (h : Hash) : h.same h = true := by
  induction h with
  | noop => rfl
  | test op path rhs => exact same_test_iff.mpr ⟨rfl, rfl, rfl⟩
  | order op path rhs => exact same_order_iff.mpr ⟨rfl, rfl, rfl⟩
  | «exists» path => exact same_exists_iff.mpr rfl
  | and h k ihh ihk => exact same_and_iff.mpr ⟨Or.inl ihh, Or.inr ihk, Or.inl ihh, Or.inr ihk⟩
  | or h k ihh ihk => exact same_or_iff.mpr ⟨Or.inl ihh, Or.inr ihk, Or.inl ihh, Or.inr ihk⟩
  | not h ih => exact ih

theorem Parts.symm {h₁ h₂ k₁ k₂ : Hash} (ih₁ : ∀ {k : Hash}, h₁.same k = true → k.same h₁ = true)
    (ih₂ : ∀ {k : Hash}, h₂.same k = true → k.same h₂ = true) (h : Parts h₁ h₂ k₁ k₂) : Parts k₁ k₂ h₁ h₂ where
  first := h.first'.imp ih₁ ih₂
  second := h.second'.imp ih₁ ih₂
  first' := h.first.imp ih₁ ih₁
  second' := h.second.imp ih₂ ih₂

theorem same_symm {h k : Hash} (hsame : h.same k = true) : k.same h = true := by
  induction h generalizing k with
  | noop =>
      cases k with
      | noop => rfl
      | _ => cases hsame
  | test op path rhs =>
      cases k with
      | test op' path' rhs' =>
          obtain ⟨rfl, rfl, rfl⟩ := same_test_iff.mp hsame
          exact hsame
      | _ => cases hsame
  | order op path rhs =>
      cases k with
      | order op' path' rhs' =>
          obtain ⟨rfl, rfl, rfl⟩ := same_order_iff.mp hsame
          exact hsame
      | _ => cases hsame
  | «exists» path =>
      cases k with
      | «exists» path' =>
          cases same_exists_iff.mp hsame
          exact hsame
      | _ => cases hsame
  | and h₁ h₂ ih₁ ih₂ =>
      cases k with
      | and k₁ k₂ => exact same_and_iff.mpr ((same_and_iff.mp hsame).symm ih₁ ih₂)
      | _ => cases hsame
  | or h₁ h₂ ih₁ ih₂ =>
      cases k with
      | or k₁ k₂ => exact same_or_iff.mpr ((same_or_iff.mp hsame).symm ih₁ ih₂)
      | _ => cases hsame
  | not h ih =>
      cases k with
      | not k => exact ih hsame
      | _ => cases hsame

theorem Parts.trans {h₁ h₂ k₁ k₂ l₁ l₂ : Hash}
    (ih₁ : ∀ {k l : Hash}, h₁.same k = true → k.same l = true → h₁.same l = true)
    (ih₂ : ∀ {k l : Hash}, h₂.same k = true → k.same l = true → h₂.same l = true)
    (hhk : Parts h₁ h₂ k₁ k₂) (hkl : Parts k₁ k₂ l₁ l₂) : Parts h₁ h₂ l₁ l₂ where
  first := hhk.first.elim (fun hk => hkl.first.imp (ih₁ hk) (ih₁ hk)) fun hk => hkl.second.imp (ih₁ hk) (ih₁ hk)
  second := hhk.second.elim (fun hk => hkl.first.imp (ih₂ hk) (ih₂ hk)) fun hk => hkl.second.imp (ih₂ hk) (ih₂ hk)
  first' := hkl.first'.elim (fun kl => hhk.first'.imp (ih₁ · kl) (ih₂ · kl)) fun kl =>
    hhk.second'.imp (ih₁ · kl) (ih₂ · kl)
  second' := hkl.second'.elim (fun kl => hhk.first'.imp (ih₁ · kl) (ih₂ · kl)) fun kl =>
    hhk.second'.imp (ih₁ · kl) (ih₂ · kl)

theorem same_trans {h k l : Hash} (hhk : h.same k = true) (hkl : k.same l = true) : h.same l = true := by
  induction h generalizing k l with
  | noop =>
      cases k with
      | noop => exact hkl
      | _ => cases hhk
  | test op path rhs =>
      cases k with
      | test op' path' rhs' =>
          obtain ⟨rfl, rfl, rfl⟩ := same_test_iff.mp hhk
          exact hkl
      | _ => cases hhk
  | order op path rhs =>
      cases k with
      | order op' path' rhs' =>
          obtain ⟨rfl, rfl, rfl⟩ := same_order_iff.mp hhk
          exact hkl
      | _ => cases hhk
  | «exists» path =>
      cases k with
      | «exists» path' =>
          cases same_exists_iff.mp hhk
          exact hkl
      | _ => cases hhk
  | and h₁ h₂ ih₁ ih₂ =>
      cases k with
      | and k₁ k₂ =>
          cases l with
          | and l₁ l₂ => exact same_and_iff.mpr ((same_and_iff.mp hhk).trans ih₁ ih₂ (same_and_iff.mp hkl))
          | _ => cases hkl
      | _ => cases hhk
  | or h₁ h₂ ih₁ ih₂ =>
      cases k with
      | or k₁ k₂ =>
          cases l with
          | or l₁ l₂ => exact same_or_iff.mpr ((same_or_iff.mp hhk).trans ih₁ ih₂ (same_or_iff.mp hkl))
          | _ => cases hkl
      | _ => cases hhk
  | not h ih =>
      cases k with
      | not k =>
          cases l with
          | not l => exact ih hhk hkl
          | _ => cases hkl
      | _ => cases hhk

/-- Hashes up to `==`. -/
instance Hash.setoid : Setoid Hash := ⟨fun h k => h.same k = true, same_refl, same_symm, same_trans⟩

instance (h k : Hash) : Decidable (h ≈ k) := inferInstanceAs (Decidable (h.same k = true))

abbrev Key := Quotient Hash.setoid

def Query.instance (q : Query) : QueryInstance Key Value := ⟨⟦q.hash⟧, q.run⟩

/-! ### What a frozen value stands for -/

mutual

def Rhs.Plain : Rhs → Prop
  | .list items => Rhs.Plains items
  | .tuple _ => False
  | _ => True

def Rhs.Plains : List Rhs → Prop
  | [] => True
  | item :: items => item.Plain ∧ Rhs.Plains items

end

mutual

/-- A value of a document is equal to what was frozen. -/
def Value.thaws : Value → Frozen → Bool
  | .null, .null => true
  | .bool a, .int j => number a == j
  | .int i, .int j => i == j
  | .str s, .str t => s == t
  | .list vs, .tuple rs => Value.thawss vs rs
  | _, _ => false

def Value.thawss : List Value → List Frozen → Bool
  | [], [] => true
  | v :: vs, r :: rs => v.thaws r && Value.thawss vs rs
  | _, _ => false

end

theorem number_beq (a b : Bool) : (number a == number b) = (a == b) := by
  cases a <;> cases b <;> rfl

mutual

theorem Value.eq_thaws (v : Value) (r : Rhs) (hr : r.Plain) : v.eq r = v.thaws (freeze r) := by
  cases r with
  | null => cases v <;> rfl
  | bool b =>
      cases v with
      | bool a => exact (number_beq a b).symm
      | _ => rfl
  | int j => cases v <;> rfl
  | str t => cases v <;> rfl
  | list rs =>
      cases v with
      | list vs => exact Value.eqs_thawss vs rs hr
      | _ => rfl
  | tuple rs => exact hr.elim

theorem Value.eqs_thawss (vs : List Value) (rs : List Rhs) (hrs : Rhs.Plains rs) :
    Value.eqs vs rs = Value.thawss vs (freezes rs) := by
  cases rs with
  | nil => cases vs <;> rfl
  | cons r rs =>
      cases vs with
      | nil => rfl
      | cons v vs =>
          rw [freezes, Value.eqs, Value.thawss, Value.eq_thaws v r hrs.1, Value.eqs_thawss vs rs hrs.2]

end

/-! ### Equal hashes do not disagree -/

/-- No tuple is compared with. -/
def Query.Plain : Query → Prop
  | .test _ _ rhs => rhs.Plain
  | .and q r => q.Plain ∧ r.Plain
  | .or q r => q.Plain ∧ r.Plain
  | .not q => q.Plain
  | _ => True

/-- Frozen items stand for a list or a tuple. -/
theorem any_eq_thaws (v : Value) (items : List Rhs) (hitems : Rhs.Plains items) :
    items.any v.eq = (freezes items).any v.thaws := by
  induction items with
  | nil => rfl
  | cons item items ih => rw [freezes, List.any_cons, List.any_cons, Value.eq_thaws v item hitems.1, ih hitems.2]

theorem holds_frozen (op : Test) (v : Value) {r r' : Rhs} (hr : r.Plain) (hr' : r'.Plain) (hfreeze : freeze r = freeze r') :
    op.holds v r = op.holds v r' := by
  cases op with
  | eq => rw [Test.holds, Test.holds, Value.eq_thaws v r hr, Value.eq_thaws v r' hr', hfreeze]
  | ne => rw [Test.holds, Test.holds, Value.eq_thaws v r hr, Value.eq_thaws v r' hr', hfreeze]
  | oneOf =>
      cases r <;> cases r' <;> simp only [freeze, reduceCtorEq, Frozen.tuple.injEq] at hfreeze <;> try rfl
      case list.list items items' =>
        rw [Test.holds, Test.holds, Value.isIn, Value.isIn, any_eq_thaws v items hr, any_eq_thaws v items' hr',
          hfreeze]
      case str.str s s' => rw [Frozen.str.inj hfreeze]
      all_goals first | exact hr.elim | exact hr'.elim

/-- Two queries agree on a document, if both return. -/
def Agree (x y : Except Raised Bool) : Prop := ∀ b b', x = .ok b → y = .ok b' → b = b'

/-- `and`, when it returns: both parts are true, or one of them is false. -/
theorem and_ok {x y : Except Raised Bool} {b : Bool} (h : (do if ← x then y else pure false) = .ok b) :
    (b = true ∧ x = .ok true ∧ y = .ok true) ∨ (b = false ∧ (x = .ok false ∨ y = .ok false)) := by
  obtain ⟨hit, rfl, h⟩ := Runs.ok_of_bind h
  cases hit with
  | false =>
      cases h
      exact Or.inr ⟨rfl, Or.inl rfl⟩
  | true =>
      have hy : y = .ok b := h
      cases b with
      | true => exact Or.inl ⟨rfl, rfl, hy⟩
      | false => exact Or.inr ⟨rfl, Or.inr hy⟩

theorem or_ok {x y : Except Raised Bool} {b : Bool} (h : (do if ← x then pure true else y) = .ok b) :
    (b = true ∧ (x = .ok true ∨ y = .ok true)) ∨ (b = false ∧ x = .ok false ∧ y = .ok false) := by
  obtain ⟨hit, rfl, h⟩ := Runs.ok_of_bind h
  cases hit with
  | true =>
      cases h
      exact Or.inl ⟨rfl, Or.inl rfl⟩
  | false =>
      have hy : y = .ok b := h
      cases b with
      | true => exact Or.inl ⟨rfl, Or.inr hy⟩
      | false => exact Or.inr ⟨rfl, rfl, hy⟩

/-- A part that is `b` on one side has no partner that is not. -/
theorem no_partner {x x' y' : Except Raised Bool} {b : Bool} (h : Agree x x' ∨ Agree x y') (hx : x = .ok b)
    (hx' : x' = .ok !b) (hy' : y' = .ok !b) : False := by
  have hne : b ≠ !b := by cases b <;> decide
  obtain h | h := h
  · exact hne (h _ _ hx hx')
  · exact hne (h _ _ hx hy')

theorem Agree.symm {x y : Except Raised Bool} (h : Agree x y) : Agree y x :=
  fun b b' hb hb' => (h b' b hb' hb).symm

variable {x y x' y' : Except Raised Bool}

theorem agree_and (h1 : Agree x x' ∨ Agree x y') (h2 : Agree y x' ∨ Agree y y') (h3 : Agree x x' ∨ Agree y x')
    (h4 : Agree x y' ∨ Agree y y') :
    Agree (do if ← x then y else pure false) (do if ← x' then y' else pure false) := by
  intro b b' hb hb'
  obtain ⟨rfl, hx, hy⟩ | ⟨rfl, hone⟩ := and_ok hb <;> obtain ⟨rfl, hx', hy'⟩ | ⟨rfl, hone'⟩ := and_ok hb'
  · rfl
  · obtain hx' | hy' := hone'
    · exact (no_partner (h3.imp Agree.symm Agree.symm) hx' hx hy).elim
    · exact (no_partner (h4.imp Agree.symm Agree.symm) hy' hx hy).elim
  · obtain hx | hy := hone
    · exact (no_partner h1 hx hx' hy').elim
    · exact (no_partner h2 hy hx' hy').elim
  · rfl

theorem agree_or (h1 : Agree x x' ∨ Agree x y') (h2 : Agree y x' ∨ Agree y y') (h3 : Agree x x' ∨ Agree y x')
    (h4 : Agree x y' ∨ Agree y y') :
    Agree (do if ← x then pure true else y) (do if ← x' then pure true else y') := by
  intro b b' hb hb'
  obtain ⟨rfl, hone⟩ | ⟨rfl, hx, hy⟩ := or_ok hb <;> obtain ⟨rfl, hone'⟩ | ⟨rfl, hx', hy'⟩ := or_ok hb'
  · rfl
  · obtain hx | hy := hone
    · exact (no_partner h1 hx hx' hy').elim
    · exact (no_partner h2 hy hx' hy').elim
  · obtain hx' | hy' := hone'
    · exact (no_partner (h3.imp Agree.symm Agree.symm) hx' hx hy).elim
    · exact (no_partner (h4.imp Agree.symm Agree.symm) hy' hx hy).elim
  · rfl

theorem Agree.of_eq (h : x = y) : Agree x y := by
  intro b b' hb hb'
  rw [hb, hb'] at h
  exact Except.ok.inj h

theorem agree_of_same (q q' : Query) (hq : q.Plain) (hq' : q'.Plain) (hsame : q.hash.same q'.hash = true)
    (doc : Doc Value) : Agree (q.run doc) (q'.run doc) := by
  induction q generalizing q' with
  | noop =>
      cases q' with
      | noop => exact Agree.of_eq rfl
      | _ => cases hsame
  | test op path rhs =>
      cases q' with
      | test op' path' rhs' =>
          obtain ⟨rfl, rfl, hfreeze⟩ := same_test_iff.mp hsame
          apply Agree.of_eq
          rw [Query.run, Query.run]
          cases path.resolve doc with
          | none => rfl
          | some value =>
              dsimp only
              rw [holds_frozen op value hq hq' hfreeze]
      | _ => cases hsame
  | order op path rhs =>
      cases q' with
      | order op' path' rhs' =>
          obtain ⟨rfl, rfl, rfl⟩ := same_order_iff.mp hsame
          exact Agree.of_eq rfl
      | _ => cases hsame
  | «exists» path =>
      cases q' with
      | «exists» path' =>
          cases same_exists_iff.mp hsame
          exact Agree.of_eq rfl
      | _ => cases hsame
  | and q r ihq ihr =>
      cases q' with
      | and q' r' =>
          have hparts := same_and_iff.mp hsame
          exact agree_and (hparts.first.imp (ihq q' hq.1 hq'.1) (ihq r' hq.1 hq'.2))
            (hparts.second.imp (ihr q' hq.2 hq'.1) (ihr r' hq.2 hq'.2))
            (hparts.first'.imp (ihq q' hq.1 hq'.1) (ihr q' hq.2 hq'.1))
            (hparts.second'.imp (ihq r' hq.1 hq'.2) (ihr r' hq.2 hq'.2))
      | _ => cases hsame
  | or q r ihq ihr =>
      cases q' with
      | or q' r' =>
          have hparts := same_or_iff.mp hsame
          exact agree_or (hparts.first.imp (ihq q' hq.1 hq'.1) (ihq r' hq.1 hq'.2))
            (hparts.second.imp (ihr q' hq.2 hq'.1) (ihr r' hq.2 hq'.2))
            (hparts.first'.imp (ihq q' hq.1 hq'.1) (ihr q' hq.2 hq'.1))
            (hparts.second'.imp (ihq r' hq.1 hq'.2) (ihr r' hq.2 hq'.2))
      | _ => cases hsame
  | not q ih =>
      cases q' with
      | not q' =>
          intro b b' hb hb'
          obtain ⟨hit, hhit, hb⟩ := Runs.ok_of_bind hb
          obtain ⟨hit', hhit', hb'⟩ := Runs.ok_of_bind hb'
          cases hb
          cases hb'
          rw [ih q' hq hq' hsame hit hit' hhit hhit']
      | _ => cases hsame

/-- What a value may be looked for in. -/
def Rhs.Items : Rhs → Prop
  | .list _ | .tuple _ => True
  | _ => False

/-- No values are ordered and none is looked for but in a list, which may raise. -/
def Query.Total : Query → Prop
  | .test op _ rhs => op = .oneOf → rhs.Items
  | .order _ _ _ => False
  | .and q r => q.Total ∧ r.Total
  | .or q r => q.Total ∧ r.Total
  | .not q => q.Total
  | _ => True

theorem Test.returns {op : Test} {rhs : Rhs} (h : op = .oneOf → rhs.Items) (value : Value) :
    ∃ b, op.holds value rhs = .ok b := by
  cases op with
  | eq => exact ⟨_, rfl⟩
  | ne => exact ⟨_, rfl⟩
  | oneOf =>
      cases rhs with
      | list items => exact ⟨_, rfl⟩
      | tuple items => exact ⟨_, rfl⟩
      | _ => exact (h rfl).elim

theorem Query.Total.returns {q : Query} (hq : q.Total) (doc : Doc Value) : ∃ b, q.run doc = .ok b := by
  induction q with
  | noop => exact ⟨true, rfl⟩
  | test op path rhs =>
      rw [Query.run]
      cases path.resolve doc with
      | none => exact ⟨false, rfl⟩
      | some value => exact Test.returns hq value
  | order op path rhs => exact hq.elim
  | «exists» path => exact ⟨(path.resolve doc).isSome, rfl⟩
  | and q r ihq ihr =>
      obtain ⟨b, hb⟩ := ihq hq.1
      obtain ⟨b', hb'⟩ := ihr hq.2
      rw [Query.run, hb, hb']
      cases b
      · exact ⟨false, rfl⟩
      · exact ⟨b', rfl⟩
  | or q r ihq ihr =>
      obtain ⟨b, hb⟩ := ihq hq.1
      obtain ⟨b', hb'⟩ := ihr hq.2
      rw [Query.run, hb, hb']
      cases b
      · exact ⟨b', rfl⟩
      · exact ⟨true, rfl⟩
  | not q ih =>
      obtain ⟨b, hb⟩ := ih hq
      rw [Query.run, hb]
      exact ⟨!b, rfl⟩

theorem run_eq_of_same {q q' : Query} (hq : q.Plain ∧ q.Total) (hq' : q'.Plain ∧ q'.Total)
    (hsame : q.hash.same q'.hash = true) : q.run = q'.run := by
  funext doc
  obtain ⟨b, hb⟩ := hq.2.returns doc
  obtain ⟨b', hb'⟩ := hq'.2.returns doc
  rw [hb, hb', agree_of_same q q' hq.1 hq'.1 hsame doc b b' hb hb']

/-- Two queries the cache takes for one never give different answers about a document; and where none can raise they
are the same test. -/
theorem cached_queries_agree (q q' : Query) (hq : q.Plain) (hq' : q'.Plain)
    (hkey : q.instance.hash = q'.instance.hash) :
    (∀ doc b b', q.run doc = .ok b → q'.run doc = .ok b' → b = b') ∧ (q.Total → q'.Total → q.run = q'.run) := by
  have hsame : q.hash.same q'.hash = true := Quotient.exact hkey
  exact ⟨agree_of_same q q' hq hq' hsame, fun htotal htotal' => run_eq_of_same ⟨hq, htotal⟩ ⟨hq', htotal'⟩ hsame⟩

/-- The name and the group of an app, in both orders and once more than needed. -/
theorem cached_queries_agree_app :
    let named := Query.test .eq ⟨"app_name", []⟩ (.str "graph")
    let grouped := Query.test .eq ⟨"group_name", []⟩ (.str "installed_apps")
    ((named.and grouped).run = (grouped.and named).run) ∧
      (((named.and named).and grouped).run = (grouped.and (named.and named)).run) := by
  intro named grouped
  have hplain : named.Plain ∧ grouped.Plain := ⟨trivial, trivial⟩
  have htotal : named.Total ∧ grouped.Total := ⟨nofun, nofun⟩
  refine ⟨?_, ?_⟩
  · exact (cached_queries_agree (named.and grouped) (grouped.and named) hplain ⟨hplain.2, hplain.1⟩
      (Quotient.sound (by decide))).2 htotal ⟨htotal.2, htotal.1⟩
  · exact (cached_queries_agree ((named.and named).and grouped) (grouped.and (named.and named))
      ⟨⟨hplain.1, hplain.1⟩, hplain.2⟩ ⟨hplain.2, hplain.1, hplain.1⟩ (Quotient.sound (by decide))).2
      ⟨⟨htotal.1, htotal.1⟩, htotal.2⟩ ⟨htotal.2, htotal.1, htotal.1⟩

end CalSci.TinyDb
