import ScriptTree.Grammar
import ScriptTree.Numeral

/-!
# Misuse

What a caller can do wrong, as causes (`Misuse`), and the one text of each (`Misuse.message`). Three of the sentences
are shared with other reports: `missingText`, `mismatchText` and `strayText`.
-/

namespace ScriptTree

/-- A child is missing. -/
def missingText (owner role : String) : String := owner ++ " is missing its " ++ role

/-- A child, or a value, is of the wrong sort. -/
def mismatchText (owner role expected found : String) : String :=
  owner ++ " " ++ role ++ " must be " ++ expected ++ ", got " ++ found

/-- A child is owned by one node and linked to another. -/
def strayText (child owner linked : String) : String :=
  child ++ " is a child of " ++ owner ++ " but its parent link points to " ++ linked

/-- The sorts of literal value that a caller can ask for. -/
inductive Misuse.Wanted where
  | string | number | boolean
  deriving DecidableEq, Repr

/-- The causes of misuse. -/
inductive Misuse where
  /-- A required child is absent. -/
  | missing (owner : Kind) (role : Role)
  /-- A `try` has neither a handler nor a finalizer. -/
  | missingHandler
  /-- The head of a loop is neither a variable declaration nor an expression. -/
  | badHead (owner : Kind) (role : Role) (found : Kind)
  /-- A property key is neither a name nor a literal. -/
  | badKey (found : Kind)
  /-- The value of an accessor property is not a function. -/
  | badAccessor (found : Kind)
  /-- The value of a property is not the function asked for. -/
  | notFunction (found : Kind)
  /-- The value of a property is not an expression. -/
  | notExpression (found : Kind)
  /-- A literal, shown by its name, has a value of another sort. -/
  | notValue (wanted : Misuse.Wanted) (found : String)
  /-- An insertion beyond the end of a list of an owner. -/
  | insertPastEnd (index length : Nat) (owner : Option Kind)
  /-- A removal where the list has no entry. -/
  | removeOutOfRange (index length : Nat)
  /-- A misuse that the caller reports in words of its own. -/
  | stated (message : String)
  deriving DecidableEq, Repr

namespace Misuse

/-- The noun phrase for a sort of literal value. -/
def Wanted.text : Wanted → String
  | .string => "a string"
  | .number => "a number"
  | .boolean => "a boolean"

/-- The text of a misuse. -/
def message : Misuse → String
  | .missing owner role => missingText owner.text role.text
  | .missingHandler => missingText Kind.tryStatement.text "handler or finalizer"
  | .badHead owner role found =>
    mismatchText owner.text role.text "NVariableDeclaration or an expression" found.text
  | .badKey found => mismatchText Kind.property.text "key" "NName or NLiteralExpression" found.text
  | .badAccessor found => mismatchText Kind.property.text "accessor value" "NFunction" found.text
  | .notFunction found => mismatchText Kind.property.text "value" "NFunction" found.text
  | .notExpression found => mismatchText Kind.property.text "value" "an expression" found.text
  | .notValue wanted found => mismatchText Kind.literalExpression.text "value" wanted.text found
  | .insertPastEnd index length owner =>
    "insertChild index " ++ Numeral.ofNat index ++ " is past the end of a list of " ++ Numeral.ofNat length
      ++ " children of " ++ (owner.map Kind.text).getD ""
  | .removeOutOfRange index length =>
    "removeChild index " ++ Numeral.ofNat index ++ " is out of range for a list of " ++ Numeral.ofNat length
      ++ " children"
  | .stated message => message

end Misuse

end ScriptTree
