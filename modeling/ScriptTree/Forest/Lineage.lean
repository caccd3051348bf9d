import ScriptTree.Forest

/-!
# Lineage

The lineage of a node is the node itself followed by the nodes its parent links lead to. What encloses a node is the
first of its lineage that is a program, a function or a scope; the file name and the location of a node come from its
program.
-/

namespace ScriptTree.Forest

/-- At most `fuel` nodes of a lineage. -/
def lineageUpTo (f : Forest) : Nat → NodeId → List NodeId
  | 0, _ => []
  | fuel + 1, i =>
    match f.get? i with
    | none => []
    | some n => i :: (n.parent.map (f.lineageUpTo fuel)).getD []

/-- A node and the nodes its links lead to, nearest first. Links without a cycle visit a node at most once. -/
def lineage (f : Forest) (i : NodeId) : List NodeId := f.lineageUpTo f.size i

/-- Whether a node holds an environment. -/
def isScope (f : Forest) (i : NodeId) : Bool := (f.kind? i).any Kind.isScope

/-- The nearest program, the node itself included. -/
def program? (f : Forest) (i : NodeId) : Option NodeId := (f.lineage i).find? (f.isKind .program)

/-- The nearest function, the node itself included. Arrow functions do not count. -/
def function? (f : Forest) (i : NodeId) : Option NodeId := (f.lineage i).find? (f.isKind .function)

/-- The nearest scope, the node itself included. -/
def scope? (f : Forest) (i : NodeId) : Option NodeId := (f.lineage i).find? f.isScope

/-- The file name that a program carries. -/
def programName? (f : Forest) (i : NodeId) : Option String :=
  match (f.get? i).map Node.form with
  | some (.program filename) => some filename
  | _ => none

/-- The file name of the nearest program. -/
def filename? (f : Forest) (i : NodeId) : Option String := (f.program? i).bind f.programName?

/-- The line of a node. -/
def line? (f : Forest) (i : NodeId) : Option Int := (f.get? i).bind (·.span.line)

/-- The file and the line of a node, in words. -/
def location (f : Forest) (i : NodeId) : String :=
  (f.filename? i).getD "<unknown>" ++ ":" ++ ((f.line? i).map Numeral.ofInt).getD "?"

end ScriptTree.Forest
