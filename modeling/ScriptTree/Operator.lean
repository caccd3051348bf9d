/-!
# Operators

The spelling of an operator decides what it can be: a binary operator of some category (`Operator.category?`), a
unary, an update or an assignment operator. A compound assignment operator is an arithmetic or bitwise binary
operator followed by `=` (`Operator.binaryOfCompound?`).
-/

namespace ScriptTree.Operator

/-- The categories of binary operators. -/
inductive Category where
  | arithmetic | comparison | bitwise | logical | relational
  deriving DecidableEq, Repr

namespace Category

/-- All categories. -/
def all : List Category := [arithmetic, comparison, bitwise, logical, relational]

/-- The operators of a category. -/
def spellings : Category → List String
  | arithmetic => ["+", "-", "*", "/", "%"]
  | comparison => ["==", "!=", "===", "!==", "<", "<=", ">", ">="]
  | bitwise => ["<<", ">>", ">>>", "|", "^", "&"]
  | logical => ["&&", "||"]
  | relational => ["in", "instanceof"]

/-- The categories whose operators have a compound assignment form. -/
def compounds : Category → Bool
  | arithmetic | bitwise => true
  | comparison | logical | relational => false

end Category

/-- The category of a binary operator. -/
def category? (op : String) : Option Category := Category.all.find? (·.spellings.contains op)

/-- Binary operators. -/
def isBinary (op : String) : Bool := (category? op).isSome

/-- The unary operators. -/
def unarySpellings : List String := ["+", "-", "!", "~", "typeof", "void", "delete"]

/-- Unary operators. -/
def isUnary (op : String) : Bool := unarySpellings.contains op

/-- Update operators. -/
def isUpdate (op : String) : Bool := op == "++" || op == "--"

/-- The text before a final `=`. -/
def stem? (op : String) : Option String :=
  match op.toList.reverse with
  | '=' :: rest => some (String.ofList rest.reverse)
  | _ => none

/-- The binary operator that a compound assignment operator applies. -/
def binaryOfCompound? (op : String) : Option String :=
  (stem? op).filter fun b => (category? b).any Category.compounds

/-- Assignment operators, plain and compound. -/
def isAssignment (op : String) : Bool := op == "=" || (binaryOfCompound? op).isSome

/-- An assignment whose operator is longer than one byte combines the old value with the new one. -/
def combines (op : String) : Bool := decide (1 < op.utf8ByteSize)

end ScriptTree.Operator
