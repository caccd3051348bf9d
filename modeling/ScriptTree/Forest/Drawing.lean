import ScriptTree.Forest.Fold
import ScriptTree.Forest.Usage
import ScriptTree.Printer

/-!
# Drawings of trees

The drawing of a tree has a row for each node: its kind, the detail of its form and, if asked for, its line and its
environment (`Forest.row`). Below it stand its children. An `if` has labelled rows for its branches, and the holes of
an array have rows of their own (`Forest.parts`).

A printer visits a tree from the top and prints each row as it comes to it (`Forest.visit`). The same rows as a tree of
texts are the outline of the tree (`Forest.outline?`).
-/

namespace ScriptTree

/-- What a drawing shows beside kinds and details. -/
structure Drawing where
  locations : Bool := false
  scopes : Bool := false

/-- A text between quotes. -/
def inQuotes (s : String) : String := "'" ++ s ++ "'"

namespace Forest

/-- What the row of a node says of its form. -/
def detail (f : Forest) (n : Node) : String :=
  match n.form with
  | .program filename => if filename = "" then "" else inQuotes filename
  | .function => (((n.child? .name).bind f.nameValue?).map inQuotes).getD "<anonymous>"
  | .name value _ => inQuotes value
  | .switchCase => if (n.child? .expression).isNone then "default" else ""
  | .property access => access.text
  | .unaryExpression op | .binaryExpression op | .assignmentExpression op => inQuotes op
  | .updateExpression op .before => inQuotes op ++ " prefix"
  | .updateExpression op .after => inQuotes op ++ " postfix"
  | .callExpression isNew => if isNew then "new" else ""
  | .literalExpression value raw => if raw = "" then value.text else raw
  | .regexpExpression source => source
  | _ => ""

/-- The row of a node. -/
def row (f : Forest) (o : Drawing) (n : Node) : String :=
  let detail := f.detail n
  let detail := if detail = "" then "" else " " ++ detail
  let line := if o.locations then (n.span.line.map (" @" ++ Numeral.ofInt ·)).getD "" else ""
  let scope := if o.scopes && n.kind.isScope then " [" ++ ", ".intercalate n.env.names ++ "]" else ""
  n.kind.text ++ detail ++ line ++ scope

/-- The row above a branch of an `if`. -/
def branchLabel : Role → String
  | .alternative => "else:"
  | role => role.text ++ ":"

/-- What stands below the row of a node, from what stands for its children. A branch of an `if` is put below a row of
its own by `node`, and so are the holes of an array. -/
def parts {β : Type} (node : String → List β → β) (k : Kind) (fields : List (Field β)) : List β :=
  match k with
  | .ifStatement => fields.flatMap fun field => field.children.map fun part => node (branchLabel field.role) [part]
  | .arrayExpression => fields.flatMap fun field => field.content.items.map (·.getD (node "<hole>" []))
  | _ => fields.flatMap Field.children

/-- What a printer does at a node of the forest: it prints the row of the node and then its parts. -/
def visit? (f : Forest) (o : Drawing) (i : NodeId) : Option (Printer → Printer) :=
  f.fold (fun _ n fields => Printer.node (f.row o n) (parts Printer.node n.kind fields)) i

/-- Visits a tree with a printer. -/
def visit (f : Forest) (o : Drawing) (i : NodeId) : Printer → Printer := (f.visit? o i).getD id

/-- Prints a tree, from no open level on. -/
def print (f : Forest) (o : Drawing) (p : Printer) (i : NodeId) : Printer := f.visit o i { p with levels := [] }

/-- The text of some trees, printed in turn with one printer. -/
def printAll (f : Forest) (o : Drawing) (is : List NodeId) : String := (is.foldl (f.print o) {}).out

/-- The drawing of a tree. -/
def draw (f : Forest) (o : Drawing) (i : NodeId) : String := (f.print o {} i).out

/-- The outlines below the row of a node. -/
def outlineParts (k : Kind) (fields : List (Field Outline)) : List Outline := parts Outline.node k fields

/-- The outline of a tree. -/
def outline? (f : Forest) (o : Drawing) (i : NodeId) : Option Outline :=
  f.fold (fun _ n fields => .node (f.row o n) (outlineParts n.kind fields)) i

end Forest

end ScriptTree
