import Mathlib
import ScriptTree.Forest.Drawing
import ScriptTree.Proofs.Fold

/-!
# What a printer leaves

A printer that visits a tree opens and closes levels of one stack as it goes. What it prints is a list of whole rows
that depends on the levels open at the start only, and the levels are the same at the end (`Forest.visit?_eq`). This is
shown once for every way of putting rows together that has the right margins, and used for outlines here
(`Forest.draw_eq`).
-/

namespace ScriptTree

namespace Printer

variable {β : Type}

/-- Prints whole rows, with their margins. -/
def emit (p : Printer) (rows : List String) : Printer :=
  { p with out := p.out ++ String.join (rows.map (· ++ "\n")) }

@[simp] theorem emit_nil (p : Printer) : p.emit [] = p := by
  simp [emit]

theorem emit_emit (p : Printer) (rows rows' : List String) : (p.emit rows).emit rows' = p.emit (rows ++ rows') := by
  simp [emit, String.append_assoc]

theorem line_eq (p : Printer) (row : String) : p.line row = p.emit [Outline.margin p.levels ++ row] := by
  simp [line, emit, String.append_assoc]

/-- The rows of parts one after the other, each under a level that says whether another one is to come. -/
def rowsEach (rows : List Bool → β → List String) (levels : List Bool) : List β → List String
  | [] => []
  | x :: rest => rows ((!rest.isEmpty) :: levels) x ++ rowsEach rows levels rest

/-- What is printed at a level of its own leaves the levels as they were. -/
theorem within_emit (rows : List Bool → List String) (more : Bool) (p : Printer) :
    p.within more (fun p => p.emit (rows p.levels)) = p.emit (rows (more :: p.levels)) := rfl

/-- If each part prints rows and leaves the levels as they were, so do the parts in turn. -/
theorem each_emit (rows : List Bool → β → List String) : ∀ (xs : List β) (p : Printer),
    p.each (xs.map fun x p => p.emit (rows p.levels x)) = p.emit (rowsEach rows p.levels xs)
  | [], p => (emit_nil p).symm
  | x :: rest, p => by
    rw [List.map_cons, each, within_emit (rows · x), each_emit rows rest, emit_emit, List.isEmpty_map]
    rfl

end Printer

namespace Forest

variable {β γ : Type}

/-- A function of what stands for the children can be applied to the parts. -/
theorem parts_map {node : String → List β → β} {node' : String → List γ → γ} {g : β → γ}
    (hg : ∀ row xs, g (node row xs) = node' row (xs.map g)) (k : Kind) (fields : List (Field β)) :
    parts node' k (fields.map (Field.bind fun x => some (g x))) = (parts node k fields).map g := by
  cases k with
  | ifStatement =>
    simp only [parts, List.flatMap_map, List.map_flatMap, Field.children_bind_some, List.map_map]
    refine List.flatMap_congr fun field _ => List.map_congr_left fun part _ => ?_
    exact (hg _ [part]).symm
  | arrayExpression =>
    simp only [parts, List.flatMap_map, List.map_flatMap, Field.bind, Content.items_bind, List.map_map]
    refine List.flatMap_congr fun field _ => List.map_congr_left fun item _ => ?_
    cases item with
    | none => exact (hg _ []).symm
    | some x => rfl
  | _ => simp only [parts, List.flatMap_map, List.map_flatMap, Field.children_bind_some]

/-- **A visit prints rows and leaves the levels as they were.** The rows may be put together from those of the parts in
any way that has the margin of the levels before the row of a node, and its parts under a level more. -/
theorem visit?_eq (node : String → List β → β) (rows : List Bool → β → List String)
    (h : ∀ levels row xs, rows levels (node row xs) =
      (Outline.margin levels ++ row) :: Printer.rowsEach rows levels xs) (f : Forest) (o : Drawing) (i : NodeId) :
    f.visit? o i = (f.fold (fun _ n fields => node (f.row o n) (parts node n.kind fields)) i).map
      fun x p => p.emit (rows p.levels x) := by
  have hnode : ∀ row (xs : List β), (fun p : Printer => p.emit (rows p.levels (node row xs))) =
      Printer.node row (xs.map fun x p => p.emit (rows p.levels x)) := by
    intro row xs
    funext p
    rw [Printer.node, Printer.line_eq, Printer.each_emit, Printer.emit_emit, h]
    rfl
  refine fold_map _ (fun _ n fields => ?_) f i
  rw [parts_map hnode, ← hnode]

end Forest

/-! ## Outlines -/

theorem Outline.rowsEach_draw (levels : List Bool) (parts : List Outline) :
    Printer.rowsEach Outline.draw levels parts = Outline.drawAll levels parts := by
  induction parts with
  | nil => rfl
  | cons part rest ih => rw [Printer.rowsEach, ih, drawAll]

/-- **The drawing of a tree is the text of its outline.** -/
theorem Forest.draw_eq (f : Forest) (o : Drawing) (i : NodeId) :
    f.draw o i = ((f.outline? o i).map Outline.text).getD "" := by
  have hvisit : f.visit? o i = (f.outline? o i).map fun outline p => p.emit (outline.draw p.levels) :=
    visit?_eq Outline.node Outline.draw (fun levels row parts => by rw [Outline.rowsEach_draw]; rfl) f o i
  rw [draw, print, visit, hvisit]
  cases f.outline? o i with
  | none => rfl
  | some outline => simp [Printer.emit, Outline.text]

end ScriptTree
