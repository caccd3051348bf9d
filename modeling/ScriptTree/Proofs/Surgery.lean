import Mathlib
import ScriptTree.Proofs.Dependence

/-!
# Edits and the pre-order

An edit changes a stretch of the children of one node. In the pre-order of a tree with this node in it, the stretch is a
stretch of whole blocks, one for each child, at a place that depends on the children before it only. So an edit cuts the
block of the child that it takes out from the pre-order, and puts the block of the child that it puts in at the same
place.

* `Edit.before`, `Edit.after`: the children of the owner around the place of an edit;
* `Edit.children_owner`: the children before and after an edit, from these;
* `Forest.exists_around`: the pre-order of a tree around that of a node in it, when only that node has changed.

**`edit_splices_preorder`**: an edit at a place that its owner has, of a child that is a root and does not have the
owner in its tree, succeeds. In the pre-order of every tree with the owner in it, the block of the child that goes out
gives way to that of the child that comes in, and nothing else changes. The block stands right before the first node of
the next child, or at the end of the block of the owner if there is none. So the number of nodes changes by the sizes of
the two blocks, and a tree without the owner keeps its pre-order.
-/

namespace ScriptTree

/-! ## The children around a role -/

namespace Node

/-- The children in the fields before a role. -/
def childrenBefore (n : Node) (role : Role) : List NodeId :=
  (n.fields.takeWhile (·.role ≠ role)).flatMap Field.children

/-- The children in the fields after a role. -/
def childrenAfter (n : Node) (role : Role) : List NodeId :=
  (n.fields.dropWhile (·.role ≠ role)).tail.flatMap Field.children

variable {n : Node} {role : Role} {content : Content NodeId}

theorem children_setContent (h : n.content? role = some content) (content' : Content NodeId) :
    (n.setContent role content').children = n.childrenBefore role ++ content'.children ++ n.childrenAfter role :=
  Field.children_update_eq h content'

theorem children_around (h : n.content? role = some content) :
    n.children = n.childrenBefore role ++ content.children ++ n.childrenAfter role := by
  have hsame : n.setContent role content = n := by rw [setContent, Field.update_lookup? h]
  rw [← children_setContent h content, hsame]

end Node

/-! ## The place of an edit -/

namespace Edit

/-- The entries of the list before the place of an edit. -/
def entriesBefore (f : Forest) : Edit → List (Option NodeId)
  | replace _ _ _ => []
  | append owner role _ => f.items owner role
  | insert owner role index _ | remove owner role index => (f.items owner role).take index

/-- The entries of the list after the place of an edit. -/
def entriesAfter (f : Forest) : Edit → List (Option NodeId)
  | replace _ _ _ | append _ _ _ => []
  | insert owner role index _ => (f.items owner role).drop index
  | remove owner role index => (f.items owner role).drop (index + 1)

/-- The children of the owner before the place of an edit. -/
def before (f : Forest) (e : Edit) : List NodeId :=
  ((f.get? e.owner).map (·.childrenBefore e.role)).getD [] ++ (e.entriesBefore f).filterMap id

/-- The children of the owner after the place of an edit. -/
def after (f : Forest) (e : Edit) : List NodeId :=
  (e.entriesAfter f).filterMap id ++ ((f.get? e.owner).map (·.childrenAfter e.role)).getD []

variable {f f' : Forest} {e : Edit} {out : Option NodeId}

/-- What stands in the role of an edit: the entries around its place, and between them what it takes out. -/
theorem children_content? (hfit : e.Fits f) (hrange : e.InRange f) :
    ∃ content, f.content? e.owner e.role = some content ∧ content.children =
      (e.entriesBefore f).filterMap id ++ (e.outgoing? f).toList ++ (e.entriesAfter f).filterMap id := by
  cases e with
  | replace owner role child =>
    obtain ⟨old, hold⟩ := hfit
    refine ⟨_, hold, ?_⟩
    simp [outgoing?, entriesBefore, entriesAfter, Forest.child?_eq, hold, Content.child?, Content.children_one]
  | append owner role child =>
    obtain ⟨items, hitems⟩ := hfit
    refine ⟨_, hitems, ?_⟩
    simp [outgoing?, entriesBefore, entriesAfter, Forest.items_eq, hitems, Content.children]
  | insert owner role index child =>
    obtain ⟨items, hitems⟩ := hfit
    refine ⟨_, hitems, ?_⟩
    simp [outgoing?, entriesBefore, entriesAfter, Forest.items_eq, hitems, Content.children, Content.items,
      ← List.filterMap_append]
  | remove owner role index =>
    obtain ⟨items, hitems⟩ := hfit
    refine ⟨_, hitems, ?_⟩
    have heq : f.items owner role = items := by simp [Forest.items_eq, hitems, Content.items]
    have hlt : index < items.length := heq ▸ hrange
    have hsplit : items = items.take index ++ [items[index]] ++ items.drop (index + 1) := by simp
    simp only [outgoing?, entriesBefore, entriesAfter, heq, List.getElem?_eq_getElem hlt, Option.join_some,
      Content.children, Content.items, ← Forest.filterMap_singleton, ← List.filterMap_append]
    rw [← hsplit]

theorem owner_lt_size (hfit : e.Fits f) (hrange : e.InRange f) : e.owner < f.size := by
  obtain ⟨content, hcontent, -⟩ := e.children_content? hfit hrange
  obtain ⟨n, hn, -⟩ := Option.bind_eq_some_iff.1 hcontent
  exact Forest.lt_size_of_get? hn

/-- What stands there after the edit: the same entries, and between them what it puts in. -/
theorem children_content (hrange : e.InRange f) : (e.content f).children =
    (e.entriesBefore f).filterMap id ++ e.incoming?.toList ++ (e.entriesAfter f).filterMap id := by
  cases e with
  | replace owner role child => simp [content, entriesBefore, entriesAfter, incoming?, Content.children_one]
  | append owner role child =>
    simp [content, entriesBefore, entriesAfter, incoming?, Content.children, Content.items,
      ← Forest.filterMap_singleton]
  | insert owner role index child =>
    simp only [content, Forest.insertIdx_eq_append child hrange, entriesBefore, entriesAfter, incoming?,
      Content.children, Content.items, ← Forest.filterMap_singleton, ← List.filterMap_append]
  | remove owner role index =>
    simp [content, entriesBefore, entriesAfter, incoming?, Content.children, Content.items,
      List.eraseIdx_eq_take_drop_succ]

/-- **The children of the owner**: those around the place, and between them what goes out, and then what comes in. -/
theorem children_owner (hfit : e.Fits f) (hrange : e.InRange f) (h : f.edit e = .ok (out, f')) :
    f.children e.owner = e.before f ++ (e.outgoing? f).toList ++ e.after f ∧
      f'.children e.owner = e.before f ++ e.incoming?.toList ++ e.after f := by
  obtain ⟨content, hcontent, hold⟩ := e.children_content? hfit hrange
  obtain ⟨n, hn, hrole⟩ := Option.bind_eq_some_iff.1 hcontent
  have hn' := Forest.edit_get? h e.owner
  rw [hn, Option.map_some, if_pos rfl] at hn'
  simp only [before, after, hn, Option.map_some, Option.getD_some]
  constructor
  · rw [Forest.children_eq_of_get? hn, Node.children_around hrole, hold]
    simp only [List.append_assoc]
  · have hset : f'.children e.owner = (n.setContent e.role (e.content f)).children := by
      rw [Forest.children_eq_of_get? hn']
      rfl
    rw [hset, Node.children_setContent hrole, children_content hrange]
    simp only [List.append_assoc]

end Edit

/-! ## The pre-order around a node -/

namespace Forest

open Relation

variable {f f' : Forest} {owner t : NodeId}

theorem Below.lt_size (h : f.Below t owner) (ho : owner < f.size) : t < f.size := by
  rcases ReflTransGen.cases_head h with rfl | ⟨c, hc, -⟩
  · exact ho
  · exact hc.lt_size

/-- The nodes of the tree of a child in pre-order, if there is a child. -/
def block (f : Forest) (child : Option NodeId) : List NodeId := child.toList.flatMap f.preorder

theorem length_block (hf : f.WellOwned) (child : Option NodeId) (h : ∀ c, child = some c → c < f.size) :
    (f.block child).length = (child.map f.count).getD 0 := by
  cases child with
  | none => rfl
  | some c => simp [block, count_eq hf (h c rfl)]

/-- The pre-orders of some trees begin with the first of their roots. -/
theorem head?_flatMap_preorder (hf : f.WellOwned) {is : List NodeId} (h : ∀ i ∈ is, i < f.size) :
    (is.flatMap f.preorder).head? = is.head? := by
  cases is with
  | nil => rfl
  | cons i rest => rw [List.flatMap_cons, preorder_eq hf (h i List.mem_cons_self)]; rfl

/-- **The pre-order of a tree around that of a node in it.** If no other node gets other children, and the trees without
the node keep their pre-order, then what stands around the pre-order of the node stays. -/
theorem exists_around (hf : f.WellOwned) (hf' : f'.WellOwned) (hsize : f'.size = f.size)
    (hchildren : ∀ o, o ≠ owner → f'.children o = f.children o)
    (hsame : ∀ i, ¬ f.Below i owner → f'.preorder i = f.preorder i) (ht : f.Below t owner) :
    ∃ left right, f.preorder t = left ++ f.preorder owner ++ right ∧
      f'.preorder t = left ++ f'.preorder owner ++ right := by
  induction ht using ReflTransGen.head_induction_on with
  | refl => exact ⟨[], [], by simp, by simp⟩
  | @head t c hc hb ih =>
    obtain ⟨left, right, hl, hr⟩ := ih
    obtain ⟨older, younger, hsplit⟩ := List.append_of_mem hc
    have hne : t ≠ owner := fun he => hf.not_below_owner hc (he ▸ hb)
    -- of the children of `t`, only `c` has the owner in its tree
    have hother : ∀ d ∈ older ++ younger, f'.preorder d = f.preorder d := by
      intro d hd
      have hd' : f.Owns t d := by
        rw [Owns, hsplit, List.mem_append, List.mem_cons]
        rcases List.mem_append.1 hd with hd | hd
        · exact Or.inl hd
        · exact Or.inr (Or.inr hd)
      refine hsame d fun hdo => ?_
      have hnodup := hf.nodup t
      rw [hsplit, List.nodup_middle, List.nodup_cons] at hnodup
      exact hnodup.1 (hf.siblings_apart hd' hc hdo hb ▸ hd)
    have holder : older.flatMap f'.preorder = older.flatMap f.preorder :=
      List.flatMap_congr fun d hd => hother d (List.mem_append_left younger hd)
    have hyounger : younger.flatMap f'.preorder = younger.flatMap f.preorder :=
      List.flatMap_congr fun d hd => hother d (List.mem_append_right older hd)
    refine ⟨t :: older.flatMap f.preorder ++ left, right ++ younger.flatMap f.preorder, ?_, ?_⟩
    · rw [preorder_eq hf hc.lt_size, hsplit, List.flatMap_append, List.flatMap_cons, hl]
      simp
    · rw [preorder_eq hf' (hsize ▸ hc.lt_size), hchildren t hne, hsplit, List.flatMap_append, List.flatMap_cons, hr,
        holder, hyounger]
      simp

end Forest

namespace Edit

variable {f f' : Forest} {e : Edit}

/-- The pre-order of the owner of an edit, with a child at the place of the edit. -/
def ownerBlock (f : Forest) (e : Edit) (child : Option NodeId) : List NodeId :=
  e.owner :: ((e.before f).flatMap f.preorder ++ f.block child ++ (e.after f).flatMap f.preorder)

/-- **The pre-order of the owner** before an edit, with what goes out at its place, and afterwards, with what comes in.
-/
theorem preorder_owner (hf : f.WellOwned) (hf' : f'.WellOwned) (hfit : e.Fits f) (hrange : e.InRange f)
    (hin : ∀ c, e.incoming? = some c → f.IsRoot c ∧ ¬ f.Below c e.owner) (h : f.edit e = .ok (e.outgoing? f, f')) :
    f.preorder e.owner = e.ownerBlock f (e.outgoing? f) ∧ f'.preorder e.owner = e.ownerBlock f e.incoming? := by
  obtain ⟨hold, hnew⟩ := e.children_owner hfit hrange h
  have howner : e.owner < f.size := e.owner_lt_size hfit hrange
  have hsame : ∀ d ∈ f'.children e.owner, f'.preorder d = f.preorder d := by
    intro d hd
    refine ((Forest.edit_changedOnly h).alike fun hdo => ?_).preorder
    -- neither a child of the owner nor what comes in has the owner in its tree
    rcases (Forest.edit_spliced hfit h).owns_cases hd with hd | ⟨-, hd⟩
    · exact hf.not_below_owner hd hdo
    · exact (hin d (Option.mem_toList.1 hd)).2 hdo
  constructor
  · rw [Forest.preorder_eq hf howner, hold, ownerBlock, Forest.block, List.flatMap_append, List.flatMap_append]
  · rw [Forest.preorder_eq hf' (Forest.edit_size h ▸ howner), List.flatMap_congr hsame, hnew, ownerBlock, Forest.block,
      List.flatMap_append, List.flatMap_append]

end Edit

/-- **Edits are splices of the pre-order**: one block gives way to another, at the place of the edit. -/
theorem edit_splices_preorder (f : Forest) (e : Edit) (hf : f.WellOwned) (hfit : e.Fits f) (hrange : e.InRange f)
    (hin : ∀ c, e.incoming? = some c → f.IsRoot c ∧ ¬ f.Below c e.owner) :
    ∃ f', f.edit e = .ok (e.outgoing? f, f') ∧
      f.children e.owner = e.before f ++ (e.outgoing? f).toList ++ e.after f ∧
      f'.children e.owner = e.before f ++ e.incoming?.toList ++ e.after f ∧
      f.preorder e.owner = e.owner ::
        ((e.before f).flatMap f.preorder ++ f.block (e.outgoing? f) ++ (e.after f).flatMap f.preorder) ∧
      ((e.after f).flatMap f.preorder).head? = (e.after f).head? ∧
      (∀ t, f.Below t e.owner →
        (∃ left right, f.preorder t = left ++ f.preorder e.owner ++ right ∧ f'.preorder t = left ++ e.owner ::
          ((e.before f).flatMap f.preorder ++ f.block e.incoming? ++ (e.after f).flatMap f.preorder) ++ right) ∧
        f'.count t + ((e.outgoing? f).map f.count).getD 0 = f.count t + (e.incoming?.map f.count).getD 0) ∧
      ∀ i, ¬ f.Below i e.owner → f'.preorder i = f.preorder i ∧ f'.count i = f.count i := by
  obtain ⟨f', h⟩ := Forest.edit_outgoing hrange
  have hspliced := Forest.edit_spliced hfit h
  have hf' : f'.WellOwned := hspliced.wellOwned_of_child hf hin
  obtain ⟨hold, hnew⟩ := e.children_owner hfit hrange h
  obtain ⟨hblock, hblock'⟩ := e.preorder_owner hf hf' hfit hrange hin h
  have hsame : ∀ i, ¬ f.Below i e.owner → f.Alike f' i := fun i => (Forest.edit_changedOnly h).alike
  have hafter : ∀ i ∈ e.after f, i < f.size := by
    intro i hi
    refine hf.bounded (o := e.owner) ?_
    rw [Forest.Owns, hold]
    exact List.mem_append_right _ hi
  refine ⟨f', h, hold, hnew, hblock, Forest.head?_flatMap_preorder hf hafter, fun t ht => ?_, fun i hi =>
    ⟨(hsame i hi).preorder, (hsame i hi).count⟩⟩
  obtain ⟨left, right, hleft, hright⟩ := Forest.exists_around hf hf' (Forest.edit_size h) hspliced.elsewhere
    (fun i hi => (hsame i hi).preorder) ht
  refine ⟨⟨left, right, hleft, hright.trans (by rw [hblock']; rfl)⟩, ?_⟩
  have ht' : t < f.size := ht.lt_size (e.owner_lt_size hfit hrange)
  have hout := Forest.length_block hf (e.outgoing? f) fun c hc =>
    hf.bounded (hspliced.owns_old (Option.mem_toList.2 hc))
  have hin' := Forest.length_block hf e.incoming? fun c hc => (hin c hc).1.1
  rw [Forest.count_eq hf ht', Forest.count_eq hf' (Forest.edit_size h ▸ ht'), hleft, hright, hblock, hblock', ← hout,
    ← hin']
  simp only [Edit.ownerBlock, List.length_append, List.length_cons]
  omega

/-- A statement with an array of two expressions around a hole, and a negation that stands alone. -/
def arrayAndNegation : Forest :=
  ⟨#[{ form := .thisExpression, parent := some 2 }, { form := .thisExpression, parent := some 2 },
    { form := .arrayExpression, fields := [⟨.expressions, .many [some 0, none, some 1]⟩], parent := some 3 },
    { form := .expressionStatement, fields := [⟨.expression, .one (some 2)⟩] },
    { form := .thisExpression, parent := some 5 },
    { form := .unaryExpression "!", fields := [⟨.argument, .one (some 4)⟩] }]⟩

theorem arrayAndNegation_wellOwned : arrayAndNegation.WellOwned := Forest.wellOwned_of_older (by decide)

/-- The negation is inserted before the hole: in the pre-order of the statement its two nodes come before the second
expression, which is the next child of the array. -/
theorem edit_splices_preorder_arrayAndNegation :
    arrayAndNegation.WellOwned ∧ (Edit.insert 2 .expressions 1 (some 5)).Fits arrayAndNegation ∧
      (Edit.insert 2 .expressions 1 (some 5)).InRange arrayAndNegation ∧
      arrayAndNegation.IsRoot 5 ∧ ¬ arrayAndNegation.Below 5 2 ∧
      ∃ f', arrayAndNegation.edit (.insert 2 .expressions 1 (some 5)) = .ok (none, f') ∧
        (∃ left right, arrayAndNegation.preorder 3 = left ++ [2, 0, 1] ++ right ∧
          f'.preorder 3 = left ++ [2, 0, 5, 4, 1] ++ right) ∧
        f'.count 3 = 4 + 2 ∧ f'.preorder 5 = [5, 4] := by
  have hw := arrayAndNegation_wellOwned
  have hfit : (Edit.insert 2 .expressions 1 (some 5)).Fits arrayAndNegation := ⟨_, rfl⟩
  have hrange : (Edit.insert 2 .expressions 1 (some 5)).InRange arrayAndNegation := by decide
  have hroot : arrayAndNegation.IsRoot 5 := by decide
  have hbelow : ¬ arrayAndNegation.Below 5 2 := by
    rw [← Forest.mem_preorder hw (by decide)]
    decide +kernel
  have hpath : arrayAndNegation.Below 3 2 := Forest.Owns.below (by decide)
  obtain ⟨f', hedit, -, -, -, -, hpreorder, hother⟩ := edit_splices_preorder arrayAndNegation _ hw hfit hrange
    fun c hc => Option.some.inj hc ▸ ⟨hroot, hbelow⟩
  obtain ⟨⟨left, right, hleft, hright⟩, hcount⟩ := hpreorder 3 hpath
  have hold : arrayAndNegation.preorder 2 = [2, 0, 1] := by decide +kernel
  have hnew : (Edit.insert 2 .expressions 1 (some 5)).ownerBlock arrayAndNegation (some 5) = [2, 0, 5, 4, 1] := by
    decide +kernel
  refine ⟨hw, hfit, hrange, hroot, hbelow, f', hedit, ⟨left, right, ?_, ?_⟩, ?_, ?_⟩
  · rw [← hold]
    exact hleft
  · rw [← hnew]
    exact hright
  · exact hcount.trans (by decide +kernel)
  · exact (hother 5 hbelow).1.trans (by decide +kernel)

end ScriptTree
