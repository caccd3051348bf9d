import Mathlib
import ScriptTree.Proofs.Rows
import ScriptTree.Proofs.View

/-!
# Rows and nodes

A drawing has one row for each node of the tree, in the order of a walk, and besides a row for each hole of an array and
for each branch of an `if`. The rows are read here as texts only: a margin is cut off by its characters
(`Outline.bare`), and the rows that stand for no node are known by what they say (`Outline.labels`).

**`rows_follow_preorder`**: the rows that are left are those of the nodes as a walk visits them, each with the name of
the kind of its node as the first word. If no `if` lacks its condition or its first branch, there are as many rows as
nodes and holes of arrays, two more for each `if` and another one for each `else`.
-/

namespace ScriptTree

namespace Outline

/-- A row without its margin. -/
def bare (row : String) : String := String.ofList (row.toList.dropWhile (· ∈ '-' :: strokes))

/-- What the rows say that stand for no node. -/
def labels : List String := ["<hole>", "condition:", "then:", "else:"]

/-- The rows that stand for nodes, without their margins. -/
def nodeRows (rows : List String) : List String := (rows.map bare).filter (· ∉ labels)

/-- What a row says up to the first space. -/
def firstWord (row : String) : String := String.ofList (row.toList.takeWhile (· ≠ ' '))

/-! ## Margins drop out -/

theorem bare_append {margin : String} (h : ∀ c ∈ margin.toList, c ∈ '-' :: strokes) (row : String) :
    bare (margin ++ row) = bare row := by
  rw [bare, String.toList_append, List.dropWhile_append_of_pos fun c hc => decide_eq_true (h c hc), bare]

theorem map_bare_hang (more : Bool) (rows : List String) : (hang more rows).map bare = rows.map bare := by
  have hbranch : ∀ row, bare ((if more then "|-" else "`-") ++ row) = bare row :=
    bare_append (by cases more <;> simp [strokes])
  have hbeside : ∀ row, bare ((if more then "| " else "  ") ++ row) = bare row :=
    bare_append (by cases more <;> simp [strokes])
  cases rows with
  | nil => rfl
  | cons first rest => simp [hang, hbranch, hbeside]

theorem nodeRows_append (rows rows' : List String) : nodeRows (rows ++ rows') = nodeRows rows ++ nodeRows rows' := by
  rw [nodeRows, List.map_append, List.filter_append, nodeRows, nodeRows]

theorem nodeRows_hangAll : ∀ parts : List (List String), nodeRows (hangAll parts) = parts.flatMap nodeRows
  | [] => rfl
  | part :: rest => by
    rw [hangAll, nodeRows_append, nodeRows_hangAll rest, List.flatMap_cons, nodeRows, map_bare_hang, nodeRows]

theorem nodeRows_assemble (row : String) (parts : List (List String)) :
    nodeRows (assemble row parts) = nodeRows [row] ++ parts.flatMap nodeRows := by
  rw [← nodeRows_hangAll, ← nodeRows_append]
  rfl

theorem nodeRows_label {label : String} (h : label ∈ labels) (parts : List (List String)) :
    nodeRows (assemble label parts) = parts.flatMap nodeRows := by
  have hlabels : ∀ label ∈ labels, nodeRows [label] = [] := by decide +kernel
  rw [nodeRows_assemble, hlabels label h, List.nil_append]

theorem length_hang (more : Bool) (rows : List String) : (hang more rows).length = rows.length := by
  cases rows with
  | nil => rfl
  | cons first rest => simp [hang]

theorem length_assemble (row : String) (parts : List (List String)) :
    (assemble row parts).length = 1 + (parts.map List.length).sum := by
  have hparts : ∀ parts : List (List String), (hangAll parts).length = (parts.map List.length).sum := by
    intro parts
    induction parts with
    | nil => rfl
    | cons part rest ih => rw [hangAll, List.length_append, length_hang, ih, List.map_cons, List.sum_cons]
  rw [assemble, List.length_cons, hparts, Nat.add_comm]

end Outline

/-! ## The row of a node -/

namespace Forest

/-- A row is the name of a kind, and what follows begins with a space. -/
theorem toList_row (f : Forest) (o : Drawing) (n : Node) :
    ∃ rest, (f.row o n).toList = n.kind.text.toList ++ rest ∧ ∀ c ∈ rest.head?, c = ' ' := by
  simp only [row, String.toList_append, List.append_assoc]
  refine ⟨_, rfl, fun c hc => ?_⟩
  simp only [List.head?_append, Option.mem_def, Option.or_eq_some_iff] at hc
  rcases hc with hc | ⟨-, hc | ⟨-, hc⟩⟩
  · split at hc
    · simp at hc
    · simpa using hc.symm
  · split at hc
    · cases hl : n.span.line with
      | none => simp [hl] at hc
      | some line => simpa [hl] using hc.symm
    · simp at hc
  · split at hc
    · simpa [String.append_assoc] using hc.symm
    · simp at hc

theorem firstWord_row (f : Forest) (o : Drawing) (n : Node) : Outline.firstWord (f.row o n) = n.kind.text := by
  obtain ⟨rest, hrow, hrest⟩ := toList_row f o n
  have hword : ∀ c ∈ n.kind.text.toList, decide (c ≠ ' ') = true := by
    intro c hc
    exact decide_eq_true fun he => n.kind.text_shape.1 (he ▸ hc)
  have hend : rest.takeWhile (· ≠ ' ') = [] := by
    cases rest with
    | nil => rfl
    | cons c rest => rw [List.takeWhile_cons, hrest c rfl]; rfl
  rw [Outline.firstWord, hrow, List.takeWhile_append_of_pos hword, hend, List.append_nil, String.ofList_toList]

/-- The row of a node has no margin and is no label. -/
theorem nodeRows_row (f : Forest) (o : Drawing) (n : Node) : Outline.nodeRows [f.row o n] = [f.row o n] := by
  obtain ⟨rest, hrow, -⟩ := toList_row f o n
  have hhead : (f.row o n).toList.head? = some 'N' := by
    rw [hrow, List.head?_append, n.kind.text_shape.2.2]
    rfl
  have hbare : Outline.bare (f.row o n) = f.row o n := by
    obtain ⟨tail, htail⟩ := List.head?_eq_some_iff.1 hhead
    rw [Outline.bare, htail, List.dropWhile_cons_of_neg (by decide), ← htail, String.ofList_toList]
  have hlabels : ∀ label ∈ Outline.labels, label.toList.head? ≠ some 'N' := by decide +kernel
  have hlabel : f.row o n ∉ Outline.labels := fun hmem => hlabels _ hmem hhead
  simp [Outline.nodeRows, hbare, hlabel]

end Forest

/-! ## The parts of a node -/

/-- The rows without a node right below the row of a node: one for each branch of an `if` and each hole of an array. -/
def Node.labelCount (n : Node) : Nat :=
  match n.kind with
  | .ifStatement => n.children.length
  | .arrayExpression => (n.items .expressions).count none
  | _ => 0

namespace Node

variable {n : Node}

/-! The parts are those of a list of entries (an array) or of a list of labelled roles (an `if`). -/

theorem flatMap_nodeRows_entries (g : NodeId → List String) : ∀ items : List (Option NodeId),
    (items.flatMap fun item => Outline.nodeRows (item.elim (Outline.assemble "<hole>" []) g)) =
      (items.filterMap id).flatMap fun c => Outline.nodeRows (g c)
  | [] => rfl
  | none :: rest => by
    rw [List.flatMap_cons, flatMap_nodeRows_entries g rest, Option.elim_none, Outline.nodeRows_label (by decide)]
    rfl
  | some c :: rest => by
    rw [List.flatMap_cons, flatMap_nodeRows_entries g rest]
    rfl

theorem sum_length_entries (g : NodeId → List String) : ∀ items : List (Option NodeId),
    (items.map fun item => (item.elim (Outline.assemble "<hole>" []) g).length).sum =
      items.count none + ((items.filterMap id).map fun c => (g c).length).sum
  | [] => rfl
  | none :: rest => by
    have ih := sum_length_entries g rest
    simp [Outline.length_assemble, ih]
    omega
  | some c :: rest => by
    have ih := sum_length_entries g rest
    simp [ih]
    omega

theorem flatMap_nodeRows_branches (n : Node) (g : NodeId → List String) : ∀ branches : List (Role × String),
    (∀ branch ∈ branches, branch.2 ∈ Outline.labels) →
      (branches.filterMap fun (role, label) => (n.child? role).map fun c => Outline.assemble label [g c]).flatMap
          Outline.nodeRows =
        ((branches.map Prod.fst).filterMap n.child?).flatMap fun c => Outline.nodeRows (g c)
  | [], _ => rfl
  | (role, label) :: rest, h => by
    have ih := flatMap_nodeRows_branches n g rest fun branch hb => h branch (List.mem_cons_of_mem _ hb)
    cases hc : n.child? role with
    | none => simp [hc, ih]
    | some c => simp [hc, ih, Outline.nodeRows_label (h _ List.mem_cons_self)]

theorem sum_length_branches (n : Node) (g : NodeId → List String) : ∀ branches : List (Role × String),
    ((branches.filterMap fun (role, label) => (n.child? role).map fun c => Outline.assemble label [g c]).map
        List.length).sum =
      ((branches.map Prod.fst).filterMap n.child?).length +
        (((branches.map Prod.fst).filterMap n.child?).map fun c => (g c).length).sum
  | [] => rfl
  | (role, label) :: rest => by
    have ih := sum_length_branches n g rest
    cases hc : n.child? role with
    | none => simp [hc, ih]
    | some c =>
      simp [hc, ih, Outline.length_assemble]
      omega

namespace Shaped

theorem children_ifStatement (h : n.Shaped) (hk : n.kind = .ifStatement) :
    n.children = [Role.condition, .consequent, .alternative].filterMap n.child? := by
  obtain ⟨condition, consequent, alternative, hfields⟩ := h.fields_ifStatement hk
  simp only [Node.children, List.filterMap_cons, List.filterMap_nil, child?, content?, hfields]
  cases condition <;> cases consequent <;> cases alternative <;> rfl

theorem children_arrayExpression (h : n.Shaped) (hk : n.kind = .arrayExpression) :
    n.children = (n.items .expressions).filterMap id := by
  obtain ⟨items, hfields⟩ := h.fields_arrayExpression hk
  simp [Node.children, Node.items, content?, hfields, Field.lookup?, Field.children, Content.children, Content.items]

/-- Of the rows below that of a node, those that stand for nodes are those of the children. -/
theorem flatMap_nodeRows_parts (h : n.Shaped) (g : NodeId → List String) :
    (Forest.parts Outline.assemble n.kind (n.fields.map (Field.bind fun c => some (g c)))).flatMap Outline.nodeRows =
      n.children.flatMap fun c => Outline.nodeRows (g c) := by
  rw [h.parts_eq]
  split
  case h_1 hk =>
    rw [h.children_ifStatement hk]
    exact flatMap_nodeRows_branches n g _ (by decide)
  case h_2 hk => rw [h.children_arrayExpression hk, List.flatMap_map, flatMap_nodeRows_entries]
  case h_3 => rw [List.flatMap_map]

/-- Below the row of a node stand the rows of the children and those that stand for no node. -/
theorem sum_length_parts (h : n.Shaped) (g : NodeId → List String) :
    ((Forest.parts Outline.assemble n.kind (n.fields.map (Field.bind fun c => some (g c)))).map List.length).sum =
      n.labelCount + (n.children.map fun c => (g c).length).sum := by
  rw [h.parts_eq, labelCount]
  cases hk : n.kind with
  | ifStatement =>
    simp only [h.children_ifStatement hk]
    exact sum_length_branches n g _
  | arrayExpression =>
    simp only [h.children_arrayExpression hk, List.map_map]
    exact sum_length_entries g _
  | _ => simp [List.map_map, Function.comp_def]

end Shaped

end Node

/-! ## The rows of a tree -/

namespace Forest

variable {f : Forest} {o : Drawing} {i : NodeId}

/-- The row of a node, by its identity. -/
def rowAt (f : Forest) (o : Drawing) (i : NodeId) : String := ((f.get? i).map (f.row o)).getD ""

/-- The number of holes of an array. -/
def holes (f : Forest) (i : NodeId) : Nat :=
  if f.isKind .arrayExpression i then (f.items i .expressions).count none else 0

/-- Whether a node is an `if` with an `else`. -/
def hasElse (f : Forest) (i : NodeId) : Bool := f.isKind .ifStatement i && (f.child? i .alternative).isSome

theorem firstWord_rowAt (f : Forest) (o : Drawing) (i : NodeId) : Outline.firstWord (f.rowAt o i) = f.kindText i := by
  rw [rowAt, kindText, kind?]
  cases f.get? i with
  | none => rfl
  | some n => exact firstWord_row f o n

/-- **The rows that stand for nodes are those of the pre-order.** -/
theorem nodeRows_rows (hf : f.WellOwned) (hs : ∀ i n, f.get? i = some n → n.Shaped) (hi : i < f.size) :
    Outline.nodeRows (f.rows o i) = (f.preorder i).map (f.rowAt o) := by
  induction i using hf.descend with
  | step i ih =>
    obtain ⟨n, hn⟩ := get?_isSome hi
    have hrow : f.rowAt o i = f.row o n := by simp [rowAt, hn]
    rw [rows_eq hf hn, Outline.nodeRows_assemble, nodeRows_row, (hs i n hn).flatMap_nodeRows_parts,
      preorder_eq hf hi, List.map_cons, List.map_flatMap, hrow, ← children_eq_of_get? hn]
    exact congrArg (f.row o n :: ·) (List.flatMap_congr fun c hc => ih c hc (hf.bounded hc))

/-- **The number of rows**, as a sum over the pre-order. -/
theorem length_rows (hf : f.WellOwned) (hs : ∀ i n, f.get? i = some n → n.Shaped) (hi : i < f.size) :
    (f.rows o i).length = ((f.preorder i).map fun j => 1 + ((f.get? j).map Node.labelCount).getD 0).sum := by
  induction i using hf.descend with
  | step i ih =>
    obtain ⟨n, hn⟩ := get?_isSome hi
    have hbelow : (f.children i).map (fun c => (f.rows o c).length) = (f.children i).map fun c =>
        ((f.preorder c).map fun j => 1 + ((f.get? j).map Node.labelCount).getD 0).sum :=
      List.map_congr_left fun c hc => ih c hc (hf.bounded hc)
    rw [rows_eq hf hn, Outline.length_assemble, (hs i n hn).sum_length_parts, ← children_eq_of_get? hn, hbelow,
      preorder_eq hf hi, List.map_cons, List.sum_cons, List.map_flatMap, List.flatMap_def, List.sum_flatten,
      List.map_map, hn, ← Nat.add_assoc]
    rfl

/-- The rows without a node right below that of a node, if no `if` lacks its condition or its first branch. -/
theorem labelCount_eq {n : Node} (hn : f.get? i = some n) (hs : n.Shaped) (hbranches : f.isKind .ifStatement i →
    (f.child? i .condition).isSome ∧ (f.child? i .consequent).isSome) :
    n.labelCount = f.holes i + 2 * (f.isKind .ifStatement i).toNat + (f.hasElse i).toNat := by
  have hkind : ∀ k, f.isKind k i = (n.kind == k) := by simp [isKind, kind?, hn]
  simp only [holes, hasElse, hkind, items, child?, hn, Option.map_some, Option.getD_some, Option.bind_some,
    Node.labelCount] at hbranches ⊢
  cases hk : n.kind with
  | ifStatement =>
    obtain ⟨hcondition, hconsequent⟩ := hbranches (by rw [hk]; rfl)
    obtain ⟨condition, hcondition⟩ := Option.isSome_iff_exists.1 hcondition
    obtain ⟨consequent, hconsequent⟩ := Option.isSome_iff_exists.1 hconsequent
    rw [hs.children_ifStatement hk]
    cases halternative : n.child? .alternative <;> simp [hcondition, hconsequent, halternative]
  | _ => rfl

theorem sum_labels (f : Forest) : ∀ nodes : List NodeId,
    (nodes.map fun j => 1 + (f.holes j + 2 * (f.isKind .ifStatement j).toNat + (f.hasElse j).toNat)).sum =
      nodes.length + (nodes.map f.holes).sum + 2 * nodes.countP (f.isKind .ifStatement) + nodes.countP f.hasElse
  | [] => rfl
  | j :: rest => by
    have ih := sum_labels f rest
    simp only [List.map_cons, List.sum_cons, List.length_cons, List.countP_cons, ih]
    cases f.isKind .ifStatement j <;> cases f.hasElse j <;> simp <;> omega

end Forest

/-- **A drawing has the nodes in pre-order**, and a row more for each hole and each label. -/
theorem rows_follow_preorder (f : Forest) (o : Drawing) (root : NodeId) (hf : f.WellOwned)
    (hs : ∀ i n, f.get? i = some n → n.Shaped) (hroot : root < f.size) :
    f.draw o root = String.join ((f.rows o root).map (· ++ "\n")) ∧
    Outline.nodeRows (f.rows o root) = (f.preorder root).map (f.rowAt o) ∧
    (Outline.nodeRows (f.rows o root)).map Outline.firstWord = (f.preorder root).map f.kindText ∧
    ((∀ i, f.Below root i → f.isKind .ifStatement i →
        (f.child? i .condition).isSome ∧ (f.child? i .consequent).isSome) →
      (f.rows o root).length = f.count root + ((f.preorder root).map f.holes).sum +
        2 * (f.preorder root).countP (f.isKind .ifStatement) + (f.preorder root).countP f.hasElse) := by
  have hrows := Forest.nodeRows_rows (o := o) hf hs hroot
  refine ⟨Forest.draw_eq_rows f o root, hrows, ?_, fun hbranches => ?_⟩
  · rw [hrows, List.map_map]
    exact List.map_congr_left fun i _ => Forest.firstWord_rowAt f o i
  · rw [Forest.length_rows hf hs hroot, Forest.count_eq hf hroot, ← Forest.sum_labels]
    refine congrArg List.sum (List.map_congr_left fun i hi => ?_)
    have hbelow : f.Below root i := (Forest.mem_preorder hf hroot).1 hi
    obtain ⟨n, hn⟩ := Forest.get?_isSome (hf.below_lt_size hroot hbelow)
    rw [hn, ← Forest.labelCount_eq hn (hs i n hn) (hbranches i hbelow)]
    rfl

/-- The program with an `if` on an array: six nodes, one hole and three branches. -/
theorem rows_follow_preorder_branchedArray :
    branchedArray.WellOwned ∧ (∀ i n, branchedArray.get? i = some n → n.Shaped) ∧
      Outline.nodeRows (branchedArray.rows {} 5) = ["NProgram 'a.js'", "NIfStatement", "NArrayExpression",
        "NThisExpression", "NBlockStatement", "NEmptyStatement"] ∧
      (branchedArray.rows {} 5).length = 6 + 1 + 2 * 1 + 1 := by
  have hall : ∀ n ∈ branchedArray.nodes, n.Shaped := by decide +kernel
  have hshaped : ∀ i n, branchedArray.get? i = some n → n.Shaped := fun i n hn => hall n (Array.mem_of_getElem? hn)
  obtain ⟨-, hrows, -, hlength⟩ := rows_follow_preorder branchedArray {} 5 branchedArray_wellOwned hshaped (by decide)
  refine ⟨branchedArray_wellOwned, hshaped, hrows.trans (by decide +kernel), ?_⟩
  have hif : ∀ i < 6, branchedArray.isKind .ifStatement i →
      (branchedArray.child? i .condition).isSome ∧ (branchedArray.child? i .consequent).isSome := by decide +kernel
  refine (hlength fun i hi => hif i (branchedArray_wellOwned.below_lt_size (by decide) hi)).trans ?_
  decide +kernel

end ScriptTree
