import ScriptTree.Outline

/-!
# Printers

A printer writes rows of text, one a line. It has one stack of open levels, each of which says whether more is to come
at that level, and puts the margin of these levels before every row. A level is opened before something is printed at
it and closed afterwards (`Printer.within`).
-/

namespace ScriptTree

/-- The open levels of a printer, innermost first, with whether more is to come at each, and the text printed so far. -/
structure Printer where
  levels : List Bool := []
  out : String := ""
  deriving DecidableEq, Repr

namespace Printer

/-- Prints a row behind the margin of the open levels. -/
def line (p : Printer) (row : String) : Printer :=
  { p with out := p.out ++ Outline.margin p.levels ++ row ++ "\n" }

/-- Opens a level. -/
def enter (p : Printer) (more : Bool) : Printer := { p with levels := more :: p.levels }

/-- Closes the innermost level. -/
def leave (p : Printer) : Printer := { p with levels := p.levels.tail }

/-- Prints something at a level of its own. -/
def within (more : Bool) (part : Printer → Printer) (p : Printer) : Printer := (part (p.enter more)).leave

/-- Prints parts one after the other, each at a level that says whether another one is to come. -/
def each : List (Printer → Printer) → Printer → Printer
  | [], p => p
  | part :: rest, p => each rest (p.within (!rest.isEmpty) part)

/-- Prints a row and the parts below it. -/
def node (row : String) (parts : List (Printer → Printer)) (p : Printer) : Printer := (p.line row).each parts

end Printer

end ScriptTree
