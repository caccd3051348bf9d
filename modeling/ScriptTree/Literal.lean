import ScriptTree.Decimal
import ScriptTree.Misuse

/-!
# Literal values

The values of literal expressions, the name of each (`Literal.text`) and access by sort, which refuses a value of
another sort.
-/

namespace ScriptTree

/-- The value of a literal expression. -/
inductive Literal where
  | null
  | boolean (value : Bool)
  | number (value : Double)
  | string (value : String)
  deriving DecidableEq, Repr, Inhabited

namespace Literal

/-- The name of a value, as it would name a property. -/
def text : Literal → String
  | null => "null"
  | boolean true => "true"
  | boolean false => "false"
  | number x => x.text
  | string s => s

/-- The string of a string literal. -/
def asString : Literal → Except Misuse String
  | string s => .ok s
  | other => .error (.notValue .string other.text)

/-- The number of a number literal. -/
def asNumber : Literal → Except Misuse Double
  | number x => .ok x
  | other => .error (.notValue .number other.text)

/-- The truth value of a boolean literal. -/
def asBoolean : Literal → Except Misuse Bool
  | boolean b => .ok b
  | other => .error (.notValue .boolean other.text)

end Literal

end ScriptTree
