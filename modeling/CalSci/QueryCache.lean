import Mathlib.Data.List.Basic

/-! A table of documents behind a query cache. The documents are in a file that several objects may
share; each object remembers the results of its own queries, the least recently used ones first, and
forgets them when it writes. Within one object a search is then as good as one without the cache. -/

namespace QueryCache

variable {κ δ : Type}

/-- The results an object remembers, in the order of their last use. -/
abbrev Cache (κ δ : Type) := List (κ × List δ)

namespace Cache

def find [DecidableEq κ] (c : Cache κ δ) (q : κ) : Option (List δ) := (c.find? fun e => e.1 = q).map Prod.snd

/-- An entry that is used goes to the end. -/
def moveToEnd [DecidableEq κ] (c : Cache κ δ) (q : κ) (docs : List δ) : Cache κ δ :=
  c.filter (fun e => e.1 ≠ q) ++ [(q, docs)]

/-- A new entry; the oldest one makes room for it. -/
def store (capacity : Nat) (c : Cache κ δ) (q : κ) (docs : List δ) : Cache κ δ :=
  let c := c ++ [(q, docs)]
  if c.length > capacity then c.drop 1 else c

/-- A search: the remembered result, or else the one read from the file, which is then remembered. -/
def search [DecidableEq κ] (capacity : Nat) (holds : κ → δ → Bool) (file : List δ) (c : Cache κ δ)
    (q : κ) : List δ × Cache κ δ :=
  match c.find q with
  | some docs => (docs, c.moveToEnd q docs)
  | none => (file.filter (holds q), c.store capacity q (file.filter (holds q)))

variable {capacity : Nat} {holds : κ → δ → Bool} {file : List δ} {c : Cache κ δ}

/-- Every remembered result is what the file would give. -/
def Coherent (holds : κ → δ → Bool) (file : List δ) (c : Cache κ δ) : Prop :=
  ∀ e ∈ c, e.2 = file.filter (holds e.1)

theorem coherent_nil (holds : κ → δ → Bool) (file : List δ) : Coherent holds file [] := nofun

theorem mem_store {q : κ} {docs : List δ} {e : κ × List δ} (h : e ∈ c.store capacity q docs) :
    e ∈ c ∨ e = (q, docs) := by
  rw [store] at h
  have hmem : e ∈ c ++ [(q, docs)] := by
    split_ifs at h
    · exact List.mem_of_mem_drop h
    · exact h
  simpa using hmem

variable [DecidableEq κ]

theorem mem_of_find {q : κ} {docs : List δ} (h : c.find q = some docs) : (q, docs) ∈ c := by
  rw [find, Option.map_eq_some_iff] at h
  obtain ⟨e, he, rfl⟩ := h
  have hq : e.1 = q := by simpa using List.find?_some he
  rw [← hq]
  exact List.mem_of_find?_eq_some he

/-- A search in a coherent cache reads the file, and leaves the cache coherent. -/
theorem Coherent.search (h : Coherent holds file c) (q : κ) :
    (c.search capacity holds file q).1 = file.filter (holds q) ∧
      Coherent holds file (c.search capacity holds file q).2 := by
  unfold Cache.search
  cases hfind : c.find q with
  | some docs =>
      have hdocs : docs = file.filter (holds q) := h _ (mem_of_find hfind)
      refine ⟨hdocs, fun e he => ?_⟩
      rcases List.mem_append.mp he with hold | hnew
      · exact h e (List.mem_of_mem_filter hold)
      · rw [List.mem_singleton.mp hnew]
        exact hdocs
  | none =>
      refine ⟨rfl, fun e he => ?_⟩
      rcases mem_store he with hold | rfl
      · exact h e hold
      · rfl

/-- The first search of an object reads the file. -/
theorem search_nil (hcapacity : 0 < capacity) (q : κ) :
    search capacity holds file [] q = (file.filter (holds q), [(q, file.filter (holds q))]) := by
  have hroom : ¬ [(q, file.filter (holds q))].length > capacity := by
    rw [List.length_singleton]
    omega
  simp only [search, find, List.find?_nil, Option.map_none, store, List.nil_append, if_neg hroom]

/-- An object that remembers one query answers it from memory, whatever the file now holds. -/
theorem search_remembered (q : κ) (docs : List δ) :
    search capacity holds file [(q, docs)] q = (docs, [(q, docs)]) := by
  simp [search, find, moveToEnd]

end Cache

end QueryCache
