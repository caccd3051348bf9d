import ScriptTree.Numeral

/-!
# Diagnostics

A diagnostic has a severity, a message and a place. `Diagnostic.text` is its one-line form; `Diagnostic.printed` is
what reaches a terminal, where a text ends at its first null character.
-/

namespace ScriptTree

/-- How bad a diagnostic is. -/
inductive Severity where
  | warning | error | fatal
  deriving DecidableEq, Repr

namespace Severity

/-- The word for a severity. -/
def text : Severity → String
  | warning => "warning"
  | error => "error"
  | fatal => "fatal error"

/-- Errors, fatal or not. -/
def isError : Severity → Bool
  | warning => false
  | error | fatal => true

end Severity

/-- A diagnostic. A line or column that is not positive is unknown, and so is an empty file name. -/
structure Diagnostic where
  severity : Severity
  message : String
  filename : String
  line : Int
  column : Int
  deriving DecidableEq, Repr

namespace Diagnostic

/-- The place of a diagnostic, in words. A column is only given with a line. -/
def place (d : Diagnostic) : String :=
  let column := if 0 < d.column then ", column " ++ Numeral.ofInt d.column else ""
  if 0 < d.line then " at line " ++ Numeral.ofInt d.line ++ column else ""

/-- The one-line form of a diagnostic. -/
def text (d : Diagnostic) : String :=
  let file := if d.filename = "" then "" else d.filename ++ ": "
  d.severity.text ++ ": " ++ file ++ d.message ++ d.place

/-- The line that is printed: the text up to its first null character. -/
def printed (d : Diagnostic) : String := String.ofList (d.text.toList.takeWhile (· ≠ '\x00')) ++ "\n"

end Diagnostic

end ScriptTree
