import Mathlib
import ScriptTree.Proofs.Conformity
import ScriptTree.Proofs.Printing

/-!
# The rows of a drawing

The rows of a tree (`Forest.rows`) are put together from those of its parts: the row of the node, and below it the rows
of each part, hung at a branch (`Outline.hang`). The parts are the branches of an `if`, each the one part of a label,
the elements and holes of an array, and the children of every other node. No stack of levels comes into it. A printer,
which has one, prints these rows behind the margins that the stack gives (`Forest.visit_eq`).

**`printer_draws_rows`**: whatever levels are open, a visit prints the rows of the tree, the first one behind the branch
of the innermost level and the others beside all levels, and the same levels are open afterwards. So a drawing is the
rows, one a line, and trees printed in turn with one printer give their drawings one after the other.
-/

namespace ScriptTree

namespace Outline

/-- The margin of rows that stand beside all open levels. -/
def gutter (levels : List Bool) : String :=
  String.join (levels.reverse.map fun more => if more then "| " else "  ")

/-- Rows under open levels: the first one at the branch of the innermost level, the others beside all levels. -/
def under (levels : List Bool) : List String → List String
  | [] => []
  | first :: rest => (margin levels ++ first) :: rest.map (gutter levels ++ ·)

/-- Rows hung at a branch: the first one at the branch, the others beside it, where a line goes on if another branch is
to come. -/
def hang (more : Bool) : List String → List String
  | [] => []
  | first :: rest => ((if more then "|-" else "`-") ++ first) :: rest.map ((if more then "| " else "  ") ++ ·)

/-- The rows of some parts, each hung at a branch. -/
def hangAll : List (List String) → List String
  | [] => []
  | part :: rest => hang (!rest.isEmpty) part ++ hangAll rest

/-- A row, and below it the rows of its parts. -/
def assemble (row : String) (parts : List (List String)) : List String := row :: hangAll parts

theorem gutter_cons (more : Bool) (levels : List Bool) :
    gutter (more :: levels) = gutter levels ++ if more then "| " else "  " := by
  simp [gutter]

theorem under_nil (rows : List String) : under [] rows = rows := by
  cases rows with
  | nil => rfl
  | cons first rest => simp [under, margin, gutter]

/-- Under a level more, rows are hung at its branch. -/
theorem under_cons (more : Bool) (levels : List Bool) (rows : List String) :
    under (more :: levels) rows = (hang more rows).map (gutter levels ++ ·) := by
  cases rows with
  | nil => rfl
  | cons first rest =>
    have hmargin : margin (more :: levels) = gutter levels ++ if more then "|-" else "`-" := rfl
    simp [under, hang, hmargin, gutter_cons, String.append_assoc]

theorem rowsEach_under (levels : List Bool) : ∀ parts : List (List String),
    Printer.rowsEach under levels parts = (hangAll parts).map (gutter levels ++ ·)
  | [] => rfl
  | part :: rest => by
    rw [Printer.rowsEach, hangAll, under_cons, rowsEach_under levels rest, List.map_append]

theorem under_assemble (levels : List Bool) (row : String) (parts : List (List String)) :
    under levels (assemble row parts) = (margin levels ++ row) :: Printer.rowsEach under levels parts := by
  rw [rowsEach_under]
  rfl

end Outline

/-! ## The fields of nodes with special parts -/

namespace Field

variable {α : Type} {fields : List (Field α)} {role : Role} {shapes : List (Role × Bool)}

theorem exists_one (h : fields.map shape = (role, false) :: shapes) :
    ∃ child rest, fields = ⟨role, .one child⟩ :: rest ∧ rest.map shape = shapes := by
  obtain ⟨⟨role', content⟩, rest, rfl, hshape, hrest⟩ := List.map_eq_cons_iff.1 h
  obtain ⟨rfl, hone⟩ := Prod.mk.inj hshape
  cases content with
  | one child => exact ⟨child, rest, rfl, hrest⟩
  | many items => cases hone

theorem exists_many (h : fields.map shape = (role, true) :: shapes) :
    ∃ items rest, fields = ⟨role, .many items⟩ :: rest ∧ rest.map shape = shapes := by
  obtain ⟨⟨role', content⟩, rest, rfl, hshape, hrest⟩ := List.map_eq_cons_iff.1 h
  obtain ⟨rfl, hmany⟩ := Prod.mk.inj hshape
  cases content with
  | one child => cases hmany
  | many items => exact ⟨items, rest, rfl, hrest⟩

end Field

namespace Node.Shaped

variable {n : Node}

/-- An `if` has a condition and two branches. -/
theorem fields_ifStatement (h : n.Shaped) (hk : n.kind = .ifStatement) : ∃ condition consequent alternative,
    n.fields = [⟨.condition, .one condition⟩, ⟨.consequent, .one consequent⟩, ⟨.alternative, .one alternative⟩] := by
  rw [Shaped, hk] at h
  obtain ⟨condition, rest, hfields, hrest⟩ := Field.exists_one h
  obtain ⟨consequent, rest', rfl, hrest'⟩ := Field.exists_one hrest
  obtain ⟨alternative, rest'', rfl, hrest''⟩ := Field.exists_one hrest'
  rw [List.map_eq_nil_iff.1 hrest''] at hfields
  exact ⟨condition, consequent, alternative, hfields⟩

/-- An array has a list of expressions. -/
theorem fields_arrayExpression (h : n.Shaped) (hk : n.kind = .arrayExpression) :
    ∃ items, n.fields = [⟨.expressions, .many items⟩] := by
  rw [Shaped, hk] at h
  obtain ⟨items, rest, hfields, hrest⟩ := Field.exists_many h
  rw [List.map_eq_nil_iff.1 hrest] at hfields
  exact ⟨items, hfields⟩

/-- The parts of a node with the fields of its kind: the branches of an `if` that are there, under their labels, the
elements and holes of an array, and otherwise the children. -/
theorem parts_eq {β : Type} (h : n.Shaped) (node : String → List β → β) (g : NodeId → β) :
    Forest.parts node n.kind (n.fields.map (Field.bind fun c => some (g c))) =
      match n.kind with
      | .ifStatement => [(Role.condition, "condition:"), (.consequent, "then:"), (.alternative, "else:")].filterMap
          fun (role, label) => (n.child? role).map fun c => node label [g c]
      | .arrayExpression => (n.items .expressions).map fun item => item.elim (node "<hole>" []) g
      | _ => n.children.map g := by
  cases hk : n.kind with
  | ifStatement =>
    obtain ⟨condition, consequent, alternative, hfields⟩ := h.fields_ifStatement hk
    simp only [Forest.parts, child?, content?, hfields]
    cases condition <;> cases consequent <;> cases alternative <;> rfl
  | arrayExpression =>
    obtain ⟨items, hfields⟩ := h.fields_arrayExpression hk
    simp only [Forest.parts, Node.items, content?, hfields, List.map_cons, List.map_nil, List.flatMap_cons,
      List.flatMap_nil, List.append_nil, Field.bind, Content.items_bind, List.map_map]
    refine List.map_congr_left fun item _ => ?_
    cases item <;> rfl
  | _ => simp only [Forest.parts, Node.children, List.flatMap_map, List.map_flatMap, Field.children_bind_some]

end Node.Shaped

/-! ## Rows and printers -/

namespace Forest

variable {f : Forest} {o : Drawing} {i : NodeId} {n : Node}

def rows? (f : Forest) (o : Drawing) (i : NodeId) : Option (List String) :=
  f.fold (fun _ n fields => Outline.assemble (f.row o n) (parts Outline.assemble n.kind fields)) i

/-- The rows of a tree. -/
def rows (f : Forest) (o : Drawing) (i : NodeId) : List String := (f.rows? o i).getD []

/-- **The rows of a tree from those of the children.** -/
theorem rows_eq (hf : f.WellOwned) (hn : f.get? i = some n) : f.rows o i =
    Outline.assemble (f.row o n)
      (parts Outline.assemble n.kind (n.fields.map (Field.bind fun c => some (f.rows o c)))) := by
  have hrows : f.rows? o i = some (Outline.assemble (f.row o n)
      (parts Outline.assemble n.kind (n.fields.map (Field.bind (f.rows? o))))) := fold_eq hf _ hn
  have hbelow : ∀ c, f.Owns i c → f.rows? o c = some (f.rows o c) := by
    intro c hc
    obtain ⟨m, hm⟩ := get?_isSome (hf.bounded hc)
    rw [rows, rows?, fold_eq hf _ hm, Option.getD_some]
  rw [rows, hrows, fields_bind_congr hn hbelow]
  rfl

/-- **A visit prints the rows of the tree under the open levels.** -/
theorem visit_eq (f : Forest) (o : Drawing) (i : NodeId) (p : Printer) :
    f.visit o i p = p.emit (Outline.under p.levels (f.rows o i)) := by
  have hvisit : f.visit? o i = (f.rows? o i).map fun rows p => p.emit (Outline.under p.levels rows) :=
    visit?_eq Outline.assemble Outline.under Outline.under_assemble f o i
  rw [visit, hvisit, rows]
  cases f.rows? o i with
  | none => exact (Printer.emit_nil p).symm
  | some rows => rfl

theorem print_eq (f : Forest) (o : Drawing) (p : Printer) (i : NodeId) :
    f.print o p i = ⟨[], p.out ++ String.join ((f.rows o i).map (· ++ "\n"))⟩ := by
  rw [print, visit_eq, Outline.under_nil]
  rfl

theorem draw_eq_rows (f : Forest) (o : Drawing) (i : NodeId) :
    f.draw o i = String.join ((f.rows o i).map (· ++ "\n")) := by
  rw [draw, print_eq, String.empty_append]

/-- A printer that has printed trees goes on as a new one does. -/
theorem out_foldl_print (f : Forest) (o : Drawing) : ∀ (is : List NodeId) (p : Printer),
    (is.foldl (f.print o) p).out = p.out ++ String.join (is.map (f.draw o))
  | [], p => by simp
  | i :: is, p => by
    rw [List.foldl_cons, out_foldl_print f o is, print_eq, ← draw_eq_rows, List.map_cons, String.join_cons,
      String.append_assoc]

end Forest

/-- **A printer with a stack of levels draws what is put together without one.** -/
theorem printer_draws_rows :
    (∀ (f : Forest) (o : Drawing) (i : NodeId) (n : Node), f.WellOwned → f.get? i = some n → n.Shaped →
      f.rows o i = Outline.assemble (f.row o n)
        (match n.kind with
        | .ifStatement => [(Role.condition, "condition:"), (.consequent, "then:"), (.alternative, "else:")].filterMap
            fun (role, label) => (n.child? role).map fun c => Outline.assemble label [f.rows o c]
        | .arrayExpression => (n.items .expressions).map fun item =>
            item.elim (Outline.assemble "<hole>" []) (f.rows o)
        | _ => (f.children i).map (f.rows o))) ∧
    (∀ (f : Forest) (o : Drawing) (i : NodeId) (p : Printer), f.visit o i p =
      ⟨p.levels, p.out ++ String.join ((Outline.under p.levels (f.rows o i)).map (· ++ "\n"))⟩) ∧
    (∀ (f : Forest) (o : Drawing) (i : NodeId), f.draw o i = String.join ((f.rows o i).map (· ++ "\n"))) ∧
    ∀ (f : Forest) (o : Drawing) (is : List NodeId), f.printAll o is = String.join (is.map (f.draw o)) := by
  refine ⟨fun f o i n hf hn hs => ?_, Forest.visit_eq, Forest.draw_eq_rows, fun f o is => ?_⟩
  · rw [Forest.rows_eq hf hn, hs.parts_eq, Forest.children_eq_of_get? hn]
  · rw [Forest.printAll, Forest.out_foldl_print, String.empty_append]

/-- A program with two names and an `if`, whose condition is an array with a hole. -/
def branchedArray : Forest :=
  ⟨#[{ form := .thisExpression, parent := some 1 },
    { form := .arrayExpression, fields := [⟨.expressions, .many [some 0, none]⟩], parent := some 4 },
    { form := .blockStatement, fields := [⟨.body, .many []⟩], parent := some 4 },
    { form := .emptyStatement, parent := some 4 },
    { form := .ifStatement, fields := [⟨.condition, .one (some 1)⟩, ⟨.consequent, .one (some 2)⟩,
      ⟨.alternative, .one (some 3)⟩], parent := some 5, span := { line := some 2 } },
    { form := .program "a.js", fields := [⟨.body, .many [some 4]⟩], span := { line := some 1 }, env := ⟨["x", "y"]⟩ }]⟩

theorem branchedArray_wellOwned : branchedArray.WellOwned := Forest.wellOwned_of_older (by decide)

/-- The rows of the `if`, the visit of its condition under an open level, its branches printed in turn, and the program
drawn with lines and names. -/
theorem printer_draws_rows_branchedArray :
    branchedArray.WellOwned ∧ (∀ n, branchedArray.get? 4 = some n → n.Shaped) ∧
      branchedArray.rows {} 4 = Outline.assemble "NIfStatement"
        [Outline.assemble "condition:" [branchedArray.rows {} 1], Outline.assemble "then:" [branchedArray.rows {} 2],
          Outline.assemble "else:" [branchedArray.rows {} 3]] ∧
      branchedArray.visit {} 1 ⟨[true], "NIfStatement\n"⟩ =
        ⟨[true], "NIfStatement\n|-NArrayExpression\n| |-NThisExpression\n| `-<hole>\n"⟩ ∧
      branchedArray.printAll {} [2, 3] = "NBlockStatement\nNEmptyStatement\n" ∧
      branchedArray.rows ⟨true, true⟩ 5 =
        Outline.assemble "NProgram 'a.js' @1 [x, y]" [branchedArray.rows ⟨true, true⟩ 4] ∧
      branchedArray.draw ⟨true, true⟩ 5 =
        "NProgram 'a.js' @1 [x, y]\n`-NIfStatement @2\n  |-condition:\n  | `-NArrayExpression\n" ++
        "  |   |-NThisExpression\n  |   `-<hole>\n  |-then:\n  | `-NBlockStatement\n" ++
        "  `-else:\n    `-NEmptyStatement\n" := by
  have hshaped : ∀ n, branchedArray.get? 4 = some n → n.Shaped := by
    intro n hn
    cases hn
    decide
  obtain ⟨hrows, hvisit, hdraw, hprint⟩ := printer_draws_rows
  have hif := hrows branchedArray {} 4 _ branchedArray_wellOwned rfl (hshaped _ rfl)
  have hprogram := hrows branchedArray ⟨true, true⟩ 5 _ branchedArray_wellOwned rfl (by decide)
  refine ⟨branchedArray_wellOwned, hshaped, hif, ?_, ?_, hprogram.trans ?_, ?_⟩
  · rw [hvisit]
    decide +kernel
  · rw [hprint, List.map_cons, hdraw, List.map_cons, hdraw]
    decide +kernel
  · decide +kernel
  · rw [hdraw]
    decide +kernel

end ScriptTree
