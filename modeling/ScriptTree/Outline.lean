/-!
# Outlines

An outline is a tree of text rows. It is drawn with one row a line; the margin of a row shows, for each level above
it, whether more rows follow at that level (`Outline.margin`).
-/

namespace ScriptTree

/-- A row of text with the outlines below it. -/
inductive Outline where
  | node (row : String) (parts : List Outline)

namespace Outline

/-- The margin of a row, from what follows at each level, innermost first. -/
def margin : List Bool → String
  | [] => ""
  | more :: outer =>
    String.join (outer.reverse.map fun more => if more then "| " else "  ") ++ (if more then "|-" else "`-")

mutual

/-- The rows of an outline under open levels. -/
def draw (levels : List Bool) : Outline → List String
  | .node row parts => (margin levels ++ row) :: drawAll levels parts

/-- The rows of the parts of an outline. -/
def drawAll (levels : List Bool) : List Outline → List String
  | [] => []
  | part :: rest => draw ((!rest.isEmpty) :: levels) part ++ drawAll levels rest

end

/-- The drawing of an outline, each row ended by a newline. -/
def text (o : Outline) : String := String.join ((o.draw []).map (· ++ "\n"))

end Outline

end ScriptTree
