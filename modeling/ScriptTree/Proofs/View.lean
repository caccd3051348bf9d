import Mathlib
import ScriptTree.Proofs.OutlineText
import ScriptTree.Proofs.Printing

/-!
# The drawing of a tree determines what it shows

The view of a node (`Forest.view?`) is what a drawing without locations and scopes is meant to show: its kind, its
detail and the views below it. An array keeps its holes among them, and an `if` has its branches with their roles. The
outline that is drawn is the outline of the view (`Forest.outline?_eq`), a view is determined by its outline
(`View.outline_injective`), and an outline by its text (`Outline.text_injective`).

**`draw_eq_iff_view_eq`**: two trees whose details have no newline have the same drawing exactly if they have the same
view.
-/

namespace ScriptTree

/-! ## Names of kinds and labels of branches -/

theorem Kind.text_shape (k : Kind) : ' ' ∉ k.text.toList ∧ '\n' ∉ k.text.toList ∧ k.text.toList.head? = some 'N' := by
  have hall : ∀ k ∈ all, ' ' ∉ k.text.toList ∧ '\n' ∉ k.text.toList ∧ k.text.toList.head? = some 'N' := by
    decide +kernel
  exact hall k k.mem_all

theorem Kind.text_injective {k k' : Kind} (h : k.text = k'.text) : k = k' := by
  have hnodup : (all.map text).Nodup := by decide +kernel
  exact List.inj_on_of_nodup_map hnodup k.mem_all k'.mem_all h

theorem Role.mem_all (r : Role) : r ∈ all := by cases r <;> decide

theorem Forest.branchLabel_shape (r : Role) :
    '\n' ∉ (branchLabel r).toList ∧ (branchLabel r).toList.head?.any Char.isLower := by
  have hall : ∀ r ∈ Role.all, '\n' ∉ (branchLabel r).toList ∧ (branchLabel r).toList.head?.any Char.isLower := by
    decide +kernel
  exact hall r r.mem_all

theorem Forest.branchLabel_injective {r r' : Role} (h : branchLabel r = branchLabel r') : r = r' := by
  have hnodup : (Role.all.map branchLabel).Nodup := by decide +kernel
  exact List.inj_on_of_nodup_map hnodup r.mem_all r'.mem_all h

/-! ## Views -/

/-- What a drawing shows of a tree: a node, a hole of an array, or a branch of an `if`. -/
inductive View where
  | node (kind : Kind) (detail : String) (parts : List View)
  | hole
  | branch (role : Role) (view : View)

namespace View

/-- The views below a node, from those of the children in its fields. -/
def beneath (k : Kind) (fields : List (Field View)) : List View :=
  match k with
  | .ifStatement => fields.flatMap fun field => field.children.map (.branch field.role)
  | .arrayExpression => fields.flatMap fun field => field.content.items.map (·.getD .hole)
  | _ => fields.flatMap Field.children

/-- The row of a node with a kind and a detail. -/
def row (k : Kind) (detail : String) : String := k.text ++ if detail = "" then "" else " " ++ detail

mutual

/-- The outline that shows a view. -/
def outline : View → Outline
  | .node k detail parts => .node (row k detail) (outlineAll parts)
  | .hole => .node "<hole>" []
  | .branch role view => .node (Forest.branchLabel role) [outline view]

/-- The outlines that show views. -/
def outlineAll : List View → List Outline
  | [] => []
  | view :: rest => outline view :: outlineAll rest

end

mutual

/-- The details that a view holds. -/
def details : View → List String
  | .node _ detail parts => detail :: detailsAll parts
  | .hole => []
  | .branch _ view => details view

/-- The details that views hold. -/
def detailsAll : List View → List String
  | [] => []
  | view :: rest => details view ++ detailsAll rest

end

theorem outlineAll_eq_map : ∀ views : List View, outlineAll views = views.map outline
  | [] => rfl
  | view :: rest => congrArg (outline view :: ·) (outlineAll_eq_map rest)

theorem mem_detailsAll {detail : String} {views : List View} :
    detail ∈ detailsAll views ↔ ∃ view ∈ views, detail ∈ view.details := by
  induction views with
  | nil => simp [detailsAll]
  | cons view rest ih => simp [detailsAll, ih]

/-! ## The rows of views are plain -/

theorem toList_row (k : Kind) (detail : String) : (row k detail).toList =
    k.text.toList ++ if detail = "" then [] else ' ' :: detail.toList := by
  by_cases h : detail = "" <;> simp [row, h]

theorem head_row (k : Kind) (detail : String) : (row k detail).toList.head? = some 'N' := by
  rw [toList_row, List.head?_append, k.text_shape.2.2]
  rfl

theorem row_plain (k : Kind) {detail : String} (h : '\n' ∉ detail.toList) : Outline.Plain (row k detail) := by
  constructor
  · rw [toList_row, List.mem_append]
    rintro (hmem | hmem)
    · exact k.text_shape.2.1 hmem
    · by_cases hd : detail = ""
      · simp [hd] at hmem
      · simp [hd] at hmem
        exact h hmem
  · rw [head_row]
    rintro c ⟨⟩
    decide

theorem label_plain (r : Role) : Outline.Plain (Forest.branchLabel r) := by
  refine ⟨(Forest.branchLabel_shape r).1, fun c hc hmem => ?_⟩
  have hlower : c.isLower = true := by simpa [Option.mem_def.1 hc] using (Forest.branchLabel_shape r).2
  rcases hmem with _ | ⟨_, _ | ⟨_, _ | ⟨_, ⟨⟩⟩⟩⟩ <;> exact absurd hlower (by decide)

theorem hole_plain : Outline.Plain "<hole>" := by
  constructor
  · decide
  · rintro c ⟨⟩
    decide

mutual

/-- The rows of a view are plain if its details have no newline. -/
theorem outline_plain : ∀ (view : View) (depth : Nat), (∀ d ∈ view.details, '\n' ∉ d.toList) →
    ∀ p ∈ Outline.rows depth view.outline, Outline.Plain p.2
  | .node k detail parts, depth, h, p, hp => by
    rcases List.mem_cons.1 hp with rfl | hp
    · exact row_plain k (h detail List.mem_cons_self)
    · exact outlineAll_plain parts (depth + 1) (fun d hd => h d (List.mem_cons_of_mem _ hd)) p hp
  | .hole, _, _, p, hp => by
    obtain rfl := List.mem_singleton.1 hp
    exact hole_plain
  | .branch role view, depth, h, p, hp => by
    rcases List.mem_cons.1 hp with rfl | hp
    · exact label_plain role
    · simp only [Outline.rowsAll, List.append_nil] at hp
      exact outline_plain view (depth + 1) h p hp

theorem outlineAll_plain : ∀ (views : List View) (depth : Nat), (∀ d ∈ detailsAll views, '\n' ∉ d.toList) →
    ∀ p ∈ Outline.rowsAll depth (outlineAll views), Outline.Plain p.2
  | view :: rest, depth, h, p, hp => by
    rcases List.mem_append.1 hp with hp | hp
    · exact outline_plain view depth (fun d hd => h d (List.mem_append_left _ hd)) p hp
    · exact outlineAll_plain rest depth (fun d hd => h d (List.mem_append_right _ hd)) p hp

end

/-! ## A view is determined by its outline -/

theorem row_injective {k k' : Kind} {detail detail' : String} (h : row k detail = row k' detail') :
    k = k' ∧ detail = detail' := by
  have hsplit := congrArg String.toList h
  rw [toList_row, toList_row] at hsplit
  -- the name of a kind ends at the first space of the row
  have hhead : ∀ d : String, ∀ c ∈ (if d = "" then [] else ' ' :: d.toList).head?, c = ' ' := by
    intro d c hc
    by_cases hd : d = ""
    · simp [hd] at hc
    · simp [hd] at hc
      exact hc.symm
  obtain ⟨htext, hdetail⟩ := append_inj_of_mark k.text_shape.1 k'.text_shape.1 (hhead detail) (hhead detail') hsplit
  refine ⟨Kind.text_injective (String.toList_inj.1 htext), ?_⟩
  by_cases hd : detail = "" <;> by_cases hd' : detail' = "" <;> simp_all [String.toList_inj]

theorem row_ne_label (k : Kind) (detail : String) (r : Role) : row k detail ≠ Forest.branchLabel r := by
  intro h
  have hlower := (Forest.branchLabel_shape r).2
  rw [← h, head_row] at hlower
  exact absurd hlower (by decide)

theorem row_ne_hole (k : Kind) (detail : String) : row k detail ≠ "<hole>" := by
  intro h
  have hhead := head_row k detail
  rw [h] at hhead
  exact absurd hhead (by decide)

theorem label_ne_hole (r : Role) : Forest.branchLabel r ≠ "<hole>" := by
  intro h
  have hlower := (Forest.branchLabel_shape r).2
  rw [h] at hlower
  exact absurd hlower (by decide)

mutual

/-- **A view is determined by its outline.** -/
theorem outline_injective : ∀ {view view' : View}, view.outline = view'.outline → view = view'
  | .node k detail parts, .node k' detail' parts', h => by
    obtain ⟨hrow, hparts⟩ := Outline.node.inj h
    obtain ⟨rfl, rfl⟩ := row_injective hrow
    rw [outlineAll_injective hparts]
  | .node k detail _, .hole, h => absurd (Outline.node.inj h).1 (row_ne_hole k detail)
  | .node k detail _, .branch r _, h => absurd (Outline.node.inj h).1 (row_ne_label k detail r)
  | .hole, .node k detail _, h => absurd (Outline.node.inj h).1.symm (row_ne_hole k detail)
  | .hole, .hole, _ => rfl
  | .hole, .branch r _, h => absurd (Outline.node.inj h).1.symm (label_ne_hole r)
  | .branch r _, .node k detail _, h => absurd (Outline.node.inj h).1.symm (row_ne_label k detail r)
  | .branch r _, .hole, h => absurd (Outline.node.inj h).1 (label_ne_hole r)
  | .branch r view, .branch r' view', h => by
    obtain ⟨hlabel, hview⟩ := Outline.node.inj h
    rw [Forest.branchLabel_injective hlabel, outline_injective (List.cons.inj hview).1]

theorem outlineAll_injective : ∀ {views views' : List View}, outlineAll views = outlineAll views' → views = views'
  | [], [], _ => rfl
  | view :: rest, view' :: rest', h => by
    obtain ⟨hview, hrest⟩ := List.cons.inj h
    rw [outline_injective hview, outlineAll_injective hrest]

end

/-! ## The views below a node -/

/-- What stands below the row of a node is the outlines of the views below it. -/
theorem outlineParts_beneath (k : Kind) (fields : List (Field View)) :
    Forest.outlineParts k (fields.map (Field.bind fun view => some view.outline)) = outlineAll (beneath k fields) := by
  rw [outlineAll_eq_map]
  cases k with
  | ifStatement =>
    simp only [Forest.outlineParts, Forest.parts, beneath, List.flatMap_map, List.map_flatMap, Field.children_bind_some,
      List.map_map]
    rfl
  | arrayExpression =>
    simp only [Forest.outlineParts, Forest.parts, beneath, List.flatMap_map, List.map_flatMap, Field.bind,
      Content.items_bind, List.map_map]
    refine List.flatMap_congr fun field _ => List.map_congr_left fun item _ => ?_
    cases item <;> rfl
  | _ =>
    simp only [Forest.outlineParts, Forest.parts, beneath, List.flatMap_map, List.map_flatMap, Field.children_bind_some]

/-- A detail below a node is a detail of the view of a child. -/
theorem mem_details_beneath {k : Kind} {fields : List (Field View)} {detail : String}
    (h : detail ∈ detailsAll (beneath k fields)) : ∃ view ∈ fields.flatMap Field.children, detail ∈ view.details := by
  obtain ⟨part, hpart, hd⟩ := mem_detailsAll.1 h
  cases k with
  | ifStatement =>
    obtain ⟨field, hfield, hpart⟩ := List.mem_flatMap.1 hpart
    obtain ⟨view, hview, rfl⟩ := List.mem_map.1 hpart
    exact ⟨view, List.mem_flatMap.2 ⟨field, hfield, hview⟩, hd⟩
  | arrayExpression =>
    obtain ⟨field, hfield, hpart⟩ := List.mem_flatMap.1 hpart
    obtain ⟨item, hitem, rfl⟩ := List.mem_map.1 hpart
    cases item with
    | none => exact absurd hd List.not_mem_nil
    | some view => exact ⟨view, List.mem_flatMap.2 ⟨field, hfield, Content.mem_children.2 hitem⟩, hd⟩
  | _ => exact ⟨part, hpart, hd⟩

end View

namespace Forest

/-- The view of a node. -/
def view? (f : Forest) (i : NodeId) : Option View :=
  f.fold (fun _ n fields => .node n.kind (f.detail n) (View.beneath n.kind fields)) i

/-- No detail of a tree has a newline in it. -/
def OneLine (f : Forest) (i : NodeId) : Prop :=
  ∀ j n, f.Below i j → f.get? j = some n → '\n' ∉ (f.detail n).toList

variable {f g : Forest} {i j : NodeId} {n : Node}

theorem oneLine_of_forall (h : ∀ j < f.size, ∀ n ∈ f.get? j, '\n' ∉ (f.detail n).toList) (i : NodeId) :
    f.OneLine i := fun j n _ hn => h j (lt_size_of_get? hn) n hn

/-- The view of a node from the views of its children. -/
theorem view?_eq (hf : f.WellOwned) (hn : f.get? i = some n) : f.view? i = some (.node n.kind (f.detail n)
    (match n.kind with
    | .ifStatement => n.fields.flatMap fun field => (field.children.filterMap f.view?).map (.branch field.role)
    | .arrayExpression => n.fields.flatMap fun field => field.content.items.map fun item =>
        (item.bind f.view?).getD .hole
    | _ => (f.children i).filterMap f.view?)) := by
  have hview : f.view? i = some (.node n.kind (f.detail n)
      (View.beneath n.kind (n.fields.map (Field.bind f.view?)))) := fold_eq hf _ hn
  rw [hview, children_eq_of_get? hn]
  refine congrArg some (congrArg (View.node n.kind (f.detail n)) ?_)
  cases n.kind with
  | ifStatement => simp only [View.beneath, List.flatMap_map, Field.children_bind]; rfl
  | arrayExpression =>
    simp only [View.beneath, List.flatMap_map, Field.bind, Content.items_bind, List.map_map]
    rfl
  | _ => simp only [View.beneath, List.flatMap_map, Field.children_bind, Node.children, List.filterMap_flatMap]

/-- The outline that is drawn is the outline of the view. -/
theorem outline?_eq (f : Forest) (i : NodeId) : f.outline? {} i = (f.view? i).map View.outline := by
  refine fold_map View.outline (fun _ n fields => ?_) f i
  rw [View.outlineParts_beneath]
  simp [row, View.outline, View.row]

/-- The details of a view are details of the tree. -/
theorem exists_of_mem_details {view : View} {detail : String} (h : f.view? i = some view)
    (hd : detail ∈ view.details) : ∃ j n, f.Below i j ∧ f.get? j = some n ∧ detail = f.detail n := by
  refine fold_induction (P := fun i view => detail ∈ view.details →
    ∃ j n, f.Below i j ∧ f.get? j = some n ∧ detail = f.detail n) (fun {i n} g hn ih hd => ?_) h hd
  rcases List.mem_cons.1 hd with rfl | hd
  · exact ⟨i, n, .refl, hn, rfl⟩
  · obtain ⟨below, hmem, hd⟩ := View.mem_details_beneath hd
    simp only [List.flatMap_map, Field.children_bind, ← List.filterMap_flatMap] at hmem
    obtain ⟨c, hc, hview⟩ := List.mem_filterMap.1 hmem
    have howns : f.Owns i c := by rw [Owns, children_eq_of_get? hn]; exact hc
    obtain ⟨j, m, hbelow, hm, hdetail⟩ := ih c below howns hview hd
    exact ⟨j, m, howns.below.trans hbelow, hm, hdetail⟩

theorem OneLine.outline_plain {view : View} (h : f.OneLine i) (hv : f.view? i = some view) :
    ∀ p ∈ Outline.rows 0 view.outline, Outline.Plain p.2 := by
  refine View.outline_plain view 0 fun detail hd => ?_
  obtain ⟨j, n, hbelow, hn, rfl⟩ := exists_of_mem_details hv hd
  exact h j n hbelow hn

/-- Equal drawings come from equal views. -/
theorem view?_eq_of_draw_eq (hf : f.OneLine i) (hg : g.OneLine j) (h : f.draw {} i = g.draw {} j) :
    f.view? i = g.view? j := by
  rw [draw_eq, draw_eq, outline?_eq, outline?_eq] at h
  cases hv : f.view? i with
  | none =>
    cases hw : g.view? j with
    | none => rfl
    | some w => exact absurd (by simpa [hv, hw] using h.symm) (Outline.text_ne_empty w.outline)
  | some v =>
    cases hw : g.view? j with
    | none => exact absurd (by simpa [hv, hw] using h) (Outline.text_ne_empty v.outline)
    | some w =>
      have htext : v.outline.text = w.outline.text := by simpa [hv, hw] using h
      have houtline := Outline.text_injective (hf.outline_plain hv) (hg.outline_plain hw) htext
      rw [View.outline_injective houtline]

end Forest

/-- **The drawing of a tree determines its view, and no more.** -/
theorem draw_eq_iff_view_eq :
    (∀ (f : Forest) (i : NodeId) (n : Node), f.WellOwned → f.get? i = some n →
      f.view? i = some (.node n.kind (f.detail n)
        (match n.kind with
        | .ifStatement => n.fields.flatMap fun field => (field.children.filterMap f.view?).map (.branch field.role)
        | .arrayExpression => n.fields.flatMap fun field => field.content.items.map fun item =>
            (item.bind f.view?).getD .hole
        | _ => (f.children i).filterMap f.view?))) ∧
    ∀ (f g : Forest) (i j : NodeId), f.OneLine i → g.OneLine j →
      (f.draw {} i = g.draw {} j ↔ f.view? i = g.view? j) := by
  constructor
  · intro f i n hf hn
    exact Forest.view?_eq hf hn
  · intro f g i j hf hg
    constructor
    · intro h
      exact Forest.view?_eq_of_draw_eq hf hg h
    · intro h
      rw [Forest.draw_eq, Forest.draw_eq, Forest.outline?_eq, Forest.outline?_eq, h]

/-- An array of an expression and a hole, the expression before the array. -/
def holedArray : Forest :=
  ⟨#[{ form := .thisExpression, parent := some 1 },
    { form := .arrayExpression, fields := [⟨.expressions, .many [some 0, none]⟩] }]⟩

/-- The same array, the expression after it. -/
def holedArrayFirst : Forest :=
  ⟨#[{ form := .arrayExpression, fields := [⟨.expressions, .many [some 1, none]⟩] },
    { form := .thisExpression, parent := some 0 }]⟩

theorem holedArray_wellOwned : holedArray.WellOwned := Forest.wellOwned_of_older (by decide)

/-- The array has the drawing of the same array stored in another order, and not that of its expression. -/
theorem draw_eq_iff_view_eq_holedArray :
    holedArray.OneLine 1 ∧ holedArrayFirst.OneLine 0 ∧ holedArray.OneLine 0 ∧
      holedArray.view? 1 = holedArrayFirst.view? 0 ∧ holedArray.draw {} 1 ≠ holedArray.draw {} 0 ∧
      holedArray.view? 1 = some (.node .arrayExpression "" [.node .thisExpression "" [], .hole]) := by
  have hone : ∀ i, holedArray.OneLine i := Forest.oneLine_of_forall (by decide +kernel)
  have hfirst : holedArrayFirst.OneLine 0 := Forest.oneLine_of_forall (by decide +kernel) 0
  have hthis := draw_eq_iff_view_eq.1 holedArray 0 _ holedArray_wellOwned rfl
  have harray := draw_eq_iff_view_eq.1 holedArray 1 _ holedArray_wellOwned rfl
  refine ⟨hone 1, hfirst, hone 0, ?_, ?_, ?_⟩
  · exact (draw_eq_iff_view_eq.2 _ _ 1 0 (hone 1) hfirst).1 (by decide +kernel)
  · intro h
    have hview := (draw_eq_iff_view_eq.2 _ _ 1 0 (hone 1) (hone 0)).1 h
    rw [hthis, harray] at hview
    exact absurd (View.node.inj (Option.some.inj hview)).1 (by decide)
  · rw [harray]
    rfl

end ScriptTree
