/-!
# Environments of scopes

The names declared in a scope, without repetition and in increasing order. Strings compare by code points, which is
also the order of their UTF-8 bytes.
-/

namespace ScriptTree

/-- The names declared in a scope. -/
structure Environment where
  names : List String := []
  deriving DecidableEq, Repr, Inhabited

namespace Environment

/-- A name put in its place in an increasing list, unless it is there. -/
def insertSorted (s : String) : List String → List String
  | [] => [s]
  | t :: ts => if s < t then s :: t :: ts else if s = t then t :: ts else t :: insertSorted s ts

/-- Whether a name is declared. -/
def contains (e : Environment) (s : String) : Bool := e.names.contains s

/-- The environment with one more name. -/
def insert (e : Environment) (s : String) : Environment := ⟨insertSorted s e.names⟩

/-- The environment of a list of declarations. -/
def ofList (ss : List String) : Environment := ss.foldl insert {}

theorem mem_insertSorted {s x : String} {l : List String} : x ∈ insertSorted s l ↔ x = s ∨ x ∈ l := by
  induction l with
  | nil => simp [insertSorted]
  | cons t ts ih =>
    simp only [insertSorted]
    split
    · simp
    · split
      · rename_i h; subst h; simp
      · simp [ih, or_left_comm]

@[simp] theorem contains_insert (e : Environment) (s x : String) :
    (e.insert s).contains x = (x == s || e.contains x) := by
  rw [Bool.eq_iff_iff]
  simp [contains, insert, mem_insertSorted]

end Environment

end ScriptTree
