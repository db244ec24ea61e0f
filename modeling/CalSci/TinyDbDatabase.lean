import CalSci.TinyDbCalls
import CalSci.TinyDbQueries

/-! A `TinyDB` object: it opens a `Table` for each name the first time it is asked for, and all of them share the file.
Through any calls it is a map from names to tables of documents: neither the caches nor the counters of its tables, nor
the writes of the others, are ever seen. -/

namespace CalSci.TinyDb

structure Database (κ ν : Type) where
  file : File ν
  tables : String → Option (Table κ ν)

/-- A call of a table, reached through its name, or of the database itself. -/
inductive DbCall (κ ν : Type) where
  | on (name : String) (c : Call κ ν)
  | dropTables
  | dropTable (name : String)

namespace Database

variable {κ ν : Type}

/-- A new object on a file. -/
def init (file : File ν) : Database κ ν := ⟨file, fun _ => none⟩

def table (db : Database κ ν) (name : String) : Table κ ν := (db.tables name).getD (Table.init name)

variable [DecidableEq κ] (order : List ℤ → List ℤ)

def call (db : Database κ ν) : DbCall κ ν → Except Raised (Answer ν) × Database κ ν
  | .on name c =>
      let (r, o) := Opened.call order ⟨db.table name, db.file⟩ c
      (r, ⟨o.file, Function.update db.tables name (some o.table)⟩)
  | .dropTables => (.ok .nothing, ⟨some ∅, fun _ => none⟩)
  | .dropTable name => (.ok .nothing, ⟨db.file.map fun tables => tables.erase name, Function.update db.tables name none⟩)

def after (db : Database κ ν) (calls : List (DbCall κ ν)) : Database κ ν :=
  calls.foldl (fun db c => (db.call order c).2) db

omit [DecidableEq κ] in
def views (db : Database κ ν) : String → View ν := fun name => view (readTable db.file name)

end Database

variable {κ ν : Type}

/-- What a call does to the tables, and what it returns. -/
def DbCall.Spec (T : String → View ν) (r : Except Raised (Answer ν)) (T' : String → View ν) : DbCall κ ν → Prop
  | .on name c => c.Spec (T name) r (T' name) ∧ ∀ other, other ≠ name → T' other = T other
  | .dropTables => r = .ok .nothing ∧ ∀ name, T' name = fun _ => none
  | .dropTable name => r = .ok .nothing ∧ T' = Function.update T name fun _ => none

/-- The queries of a call mean what their hash says. -/
def DbCall.Means (meaning : κ → Doc ν → Except Raised Bool) : DbCall κ ν → Prop
  | .on _ c => c.Means meaning
  | _ => True

/-- What every open table can rely on. -/
def Database.Tracked (order : List ℤ → List ℤ) (meaning : κ → Doc ν → Except Raised Bool) (db : Database κ ν) : Prop :=
  ∀ name table, db.tables name = some table → table.name = name ∧ Tracks order meaning ⟨table, db.file⟩

variable {order : List ℤ → List ℤ} {meaning : κ → Doc ν → Except Raised Bool}

/-- A table that is opened for the first time has nothing to rely on. -/
theorem Database.Tracked.table {db : Database κ ν} (h : db.Tracked order meaning) (name : String) :
    (db.table name).name = name ∧ Tracks order meaning ⟨db.table name, db.file⟩ := by
  unfold Database.table
  cases htable : db.tables name with
  | none =>
      refine ⟨rfl, ?_, nofun⟩
      intro n hn
      cases hn
  | some table => exact h name table htable

/-- What a table relies on is in its own part of the file. -/
theorem Tracks.congr {table : Table κ ν} {file file' : File ν} (h : Tracks order meaning ⟨table, file⟩)
    (hrows : readTable file' table.name = readTable file table.name) : Tracks order meaning ⟨table, file'⟩ := by
  have heq : Opened.rows ⟨table, file'⟩ = Opened.rows ⟨table, file⟩ := hrows
  refine ⟨?_, ?_⟩
  · rw [heq]
    exact h.fresh
  · rw [heq]
    exact h.coherent

theorem readTable_erase (file : File ν) (name other : String) :
    readTable (file.map fun tables => tables.erase name) other = if other = name then ∅ else readTable file other := by
  cases file with
  | none => split_ifs <;> rfl
  | some tables =>
      rw [Option.map_some, readTable]
      split_ifs with hother
      · rw [hother, AList.lookup_erase]
        rfl
      · rw [AList.lookup_erase_ne hother]
        rfl

variable [DecidableEq κ]

/-- One call of the database. -/
theorem Database.Tracked.call {db : Database κ ν} (h : db.Tracked order meaning)
    (horder : ∀ keys, (order keys).Perm keys) (c : DbCall κ ν) (hc : c.Means meaning) :
    c.Spec db.views (db.call order c).1 (db.call order c).2.views ∧ (db.call order c).2.Tracked order meaning := by
  cases c with
  | on name c =>
      obtain ⟨hname, htracks⟩ := h.table name
      have hdone := call_done horder htracks c hc
      rw [Database.call]
      generalize Opened.call order ⟨db.table name, db.file⟩ c = result at hdone ⊢
      obtain ⟨r, o⟩ := result
      obtain ⟨hspec, htracks', honame, helsewhere⟩ := hdone
      dsimp only at hspec htracks' honame helsewhere ⊢
      rw [hname] at honame helsewhere
      have hrows : Opened.rows ⟨db.table name, db.file⟩ = readTable db.file name := by rw [Opened.rows, hname]
      have hrows' : o.rows = readTable o.file name := by rw [Opened.rows, honame]
      rw [hrows, hrows'] at hspec
      refine ⟨⟨hspec, fun other hother => ?_⟩, ?_⟩
      · exact congrArg view (helsewhere other hother)
      · intro other table htable
        dsimp only at htable ⊢
        by_cases hother : other = name
        · subst hother
          rw [Function.update_self] at htable
          cases htable
          exact ⟨honame, htracks'⟩
        · rw [Function.update_of_ne hother] at htable
          obtain ⟨htname, httracks⟩ := h other table htable
          refine ⟨htname, httracks.congr ?_⟩
          rw [htname]
          exact helsewhere other hother
  | dropTables => exact ⟨⟨rfl, fun _ => rfl⟩, nofun⟩
  | dropTable name =>
      rw [Database.call]
      refine ⟨⟨rfl, ?_⟩, ?_⟩
      · funext other
        rw [Database.views, readTable_erase]
        by_cases hother : other = name
        · rw [if_pos hother, hother, Function.update_self]
          rfl
        · rw [if_neg hother, Function.update_of_ne hother]
          rfl
      · intro other table htable
        dsimp only at htable ⊢
        by_cases hother : other = name
        · rw [hother, Function.update_self] at htable
          cases htable
        · rw [Function.update_of_ne hother] at htable
          obtain ⟨htname, httracks⟩ := h other table htable
          refine ⟨htname, httracks.congr ?_⟩
          rw [readTable_erase, htname, if_neg hother]

theorem Database.Tracked.after {db : Database κ ν} (h : db.Tracked order meaning)
    (horder : ∀ keys, (order keys).Perm keys) {calls : List (DbCall κ ν)} (hcalls : ∀ c ∈ calls, c.Means meaning) :
    (db.after order calls).Tracked order meaning := by
  induction calls generalizing db with
  | nil => exact h
  | cons c calls ih =>
      rw [List.forall_mem_cons] at hcalls
      exact ih (h.call horder c hcalls.1).2 hcalls.2

omit [DecidableEq κ]

/-! ### With the queries of the library -/

end CalSci.TinyDb
