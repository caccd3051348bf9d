import Mathlib
import ScriptTree.Forest.Links
import ScriptTree.Proofs.Linkage
import ScriptTree.Proofs.Printing

/-!
# What trees and drawings depend on

The children, the walks and the drawings of a tree look at the nodes of that tree and at no link. This is shown for two
forests at once: where the nodes of a tree agree up to what is not looked at, the results are the same
(`walk_congr`, `draw_congr`, `alike_of_agree`).

So whatever sets links only leaves every tree as it was, and an edit, which changes one field of one node
(`edit_changedOnly`), leaves every tree as it was that does not contain this node.

**`trees_apart_from_links`**: in forests that differ in links only, every tree has the same children, the same walk, the
same count and the same drawings, and a plain drawing is the same also if locations and environments differ. An edit and
a raw push change the content of one role of the owner, and an edit the links of what goes in and out besides, so that
every tree without the owner in it is left as it was, whether or not it is one that was moved.
-/

namespace ScriptTree

/-! ## Parts of a node -/

namespace Node

/-- A node without its link. -/
def unlinked (n : Node) : Node := { n with parent := none }

/-- The form and the fields of a node. -/
def bare (n : Node) : Node := { form := n.form, fields := n.fields }

/-- What a drawing looks at. -/
def shown (o : Drawing) (n : Node) : Node :=
  { form := n.form, fields := n.fields, span := if o.locations then n.span else {},
    env := if o.scopes then n.env else {} }

variable {n m : Node} {o : Drawing}

theorem shown_inj (h : m.shown o = n.shown o) : m.form = n.form ∧ m.fields = n.fields ∧
    (o.locations = true → m.span = n.span) ∧ (o.scopes = true → m.env = n.env) := by
  obtain ⟨hform, hfields, -, hspan, henv⟩ := Node.mk.inj h
  exact ⟨hform, hfields, fun hl => by simpa [hl] using hspan, fun hs => by simpa [hs] using henv⟩

theorem shown_eq_of_unlinked (h : m.unlinked = n.unlinked) (o : Drawing) : m.shown o = n.shown o := by
  obtain ⟨hform, hfields, -, hspan, henv⟩ := Node.mk.inj h
  rw [shown, shown, hform, hfields, hspan, henv]

theorem mem_children_of_child? {role : Role} {c : NodeId} (h : n.child? role = some c) : c ∈ n.children := by
  obtain ⟨content, hcontent, hc⟩ := Option.bind_eq_some_iff.1 h
  refine List.mem_flatMap.2 ⟨_, Field.mem_of_lookup? hcontent, ?_⟩
  cases content with
  | many items => cases hc
  | one child =>
    obtain rfl : child = some c := hc
    exact List.mem_singleton_self c

end Node

namespace Forest

variable {f g f' : Forest} {i j owner : NodeId} {role : Role} {n m : Node} {o : Drawing} {α : Type}

/-! ## Walks -/

/-- A walk that always descends and keeps notes on the nodes reads the children of the nodes it comes to. -/
theorem walkFrom_congr {σ : Type} (note : NodeId → σ → σ) {P : NodeId → Prop} (hP : ∀ i c, P i → f.Owns i c → P c)
    (h : ∀ i, P i → g.children i = f.children i) :
    ∀ (fuel : Nat) (pending : List NodeId) (s : σ), (∀ i ∈ pending, P i) →
      (walkFrom (fun i f s => ⟨f, note i s, true⟩) fuel pending g s).2 =
        (walkFrom (fun i f s => ⟨f, note i s, true⟩) fuel pending f s).2
  | 0, _, _, _ => rfl
  | _ + 1, [], _, _ => rfl
  | fuel + 1, i :: rest, s, hpending => by
    have hi : P i := hpending i List.mem_cons_self
    simp only [walkFrom, if_true, h i hi]
    refine walkFrom_congr note hP h fuel _ _ fun j hj => ?_
    rcases List.mem_append.1 hj with hj | hj
    · exact hP i j hi hj
    · exact hpending j (List.mem_cons_of_mem i hj)

theorem walk_congr {σ : Type} (note : NodeId → σ → σ) (s : σ) (hsize : g.size = f.size)
    (h : ∀ j, f.Below i j → g.children j = f.children j) :
    (g.walk i s fun i f s => ⟨f, note i s, true⟩).2 = (f.walk i s fun i f s => ⟨f, note i s, true⟩).2 := by
  rw [walk, walk, hsize]
  refine walkFrom_congr note (P := f.Below i) (fun j c hj hc => hj.tail hc) h f.size [i] s fun j hj => ?_
  rw [List.mem_singleton.1 hj]
  exact .refl

/-! ## Folds and drawings -/

/-- A fold reads the nodes of a tree. -/
theorem foldUpTo_congr {alg alg' : NodeId → Node → List (Field α) → α} {P : NodeId → Prop}
    (hP : ∀ i c, P i → f.Owns i c → P c)
    (h : ∀ i, P i → ∀ results : NodeId → Option α,
      (g.get? i).map (fun m => alg' i m (m.fields.map (Field.bind results))) =
        (f.get? i).map fun n => alg i n (n.fields.map (Field.bind results))) :
    ∀ (fuel : Nat) (i : NodeId), P i → g.foldUpTo alg' fuel i = f.foldUpTo alg fuel i
  | 0, _, _ => rfl
  | fuel + 1, i, hi => by
    have hbelow : ∀ c, f.Owns i c → g.foldUpTo alg' fuel c = f.foldUpTo alg fuel c := fun c hc =>
      foldUpTo_congr hP h fuel c (hP i c hi hc)
    rw [foldUpTo, foldUpTo, h i hi]
    cases hn : f.get? i with
    | none => rfl
    | some n => rw [Option.map_some, Option.map_some, fields_bind_congr hn hbelow]

theorem nameValue?_congr (h : (g.get? i).map (Node.shown o) = (f.get? i).map (Node.shown o)) :
    g.nameValue? i = f.nameValue? i := by
  have hform := congrArg (Option.map Node.form) h
  rw [Option.map_map, Option.map_map] at hform
  unfold nameValue?
  rw [show (g.get? i).map Node.form = (f.get? i).map Node.form from hform]

theorem detail_congr (hform : m.form = n.form) (hfields : m.fields = n.fields)
    (hname : ∀ c ∈ n.children, g.nameValue? c = f.nameValue? c) : g.detail m = f.detail n := by
  have hchild : ∀ role, m.child? role = n.child? role := fun role => by
    rw [Node.child?, Node.child?, Node.content?, Node.content?, hfields]
  have hnamed : (n.child? .name).bind g.nameValue? = (n.child? .name).bind f.nameValue? :=
    Option.bind_congr fun c hc => hname c (Node.mem_children_of_child? hc)
  unfold detail
  rw [hform, hchild, hchild, hnamed]

theorem row_congr (h : m.shown o = n.shown o) (hname : ∀ c ∈ n.children, g.nameValue? c = f.nameValue? c) :
    g.row o m = f.row o n := by
  obtain ⟨hform, hfields, hspan, henv⟩ := Node.shown_inj h
  have hkind : m.kind = n.kind := congrArg Form.kind hform
  have hdetail := detail_congr hform hfields hname
  unfold row
  rw [hdetail, hkind]
  cases hl : o.locations <;> cases hs : o.scopes <;> simp_all

/-- **A drawing depends on what it shows of the nodes of the tree.** -/
theorem draw_congr (hsize : g.size = f.size)
    (h : ∀ j, f.Below i j → (g.get? j).map (Node.shown o) = (f.get? j).map (Node.shown o)) :
    g.draw o i = f.draw o i := by
  have houtline : g.outline? o i = f.outline? o i := by
    rw [outline?, outline?, fold, fold, hsize]
    refine foldUpTo_congr (P := f.Below i) (fun j c hj hc => hj.tail hc) (fun j hj results => ?_) f.size i .refl
    have hshown := h j hj
    cases hn : f.get? j with
    | none =>
      rw [hn, Option.map_none, Option.map_eq_none_iff] at hshown
      rw [hshown]
      rfl
    | some n =>
      rw [hn, Option.map_some] at hshown
      obtain ⟨m, hm, hshown⟩ := Option.map_eq_some_iff.1 hshown
      have hname : ∀ c ∈ n.children, g.nameValue? c = f.nameValue? c := fun c hc =>
        nameValue?_congr (h c (hj.tail (by rwa [Owns, children_eq_of_get? hn])))
      obtain ⟨hform, hfields, -⟩ := Node.shown_inj hshown
      have hkind : m.kind = n.kind := congrArg Form.kind hform
      rw [hm, Option.map_some, Option.map_some, row_congr hshown hname, hkind, hfields]
  rw [draw_eq, draw_eq, houtline]

/-! ## Trees that look alike -/

/-- A tree has the same children, the same nodes in the same order, and the same drawings in two forests. A walk that
always descends may take notes of any kind. -/
structure Alike (f g : Forest) (i : NodeId) : Prop where
  children : g.children i = f.children i
  walk : ∀ {σ : Type} (note : NodeId → σ → σ) (s : σ),
    (g.walk i s fun j f s => ⟨f, note j s, true⟩).2 = (f.walk i s fun j f s => ⟨f, note j s, true⟩).2
  preorder : g.preorder i = f.preorder i
  count : g.count i = f.count i
  draw : ∀ o, g.draw o i = f.draw o i

/-- **Trees whose nodes agree but for links look alike.** -/
theorem alike_of_agree (hsize : g.size = f.size)
    (h : ∀ j, f.Below i j → (g.get? j).map Node.unlinked = (f.get? j).map Node.unlinked) : f.Alike g i := by
  have hchildren : ∀ j, f.Below i j → g.children j = f.children j := by
    intro j hj
    have hj := congrArg (Option.map Node.children) (h j hj)
    rw [Option.map_map, Option.map_map] at hj
    exact congrArg (·.getD []) hj
  have hshown : ∀ o j, f.Below i j → (g.get? j).map (Node.shown o) = (f.get? j).map (Node.shown o) := by
    intro o j hj
    have hj := h j hj
    cases hn : f.get? j with
    | none =>
      rw [hn, Option.map_none, Option.map_eq_none_iff] at hj
      rw [hj]
    | some n =>
      rw [hn, Option.map_some] at hj
      obtain ⟨m, hm, hunlinked⟩ := Option.map_eq_some_iff.1 hj
      rw [hm, Option.map_some, Option.map_some, Node.shown_eq_of_unlinked hunlinked]
  refine ⟨hchildren i .refl, fun note s => walk_congr note s hsize hchildren, ?_,
    walk_congr (fun _ n => n + 1) 0 hsize hchildren, fun o => draw_congr hsize (hshown o)⟩
  exact congrArg Array.toList (walk_congr (fun i seen => seen.push i) #[] hsize hchildren)

/-- Two forests have the same nodes, as far as a view of them goes. -/
def SameUpTo (view : Node → Node) (f g : Forest) : Prop := ∀ j, (g.get? j).map view = (f.get? j).map view

namespace SameUpTo

variable {view : Node → Node}

theorem trans (h : f.SameUpTo view g) (h' : g.SameUpTo view f') : f.SameUpTo view f' :=
  fun j => (h' j).trans (h j)

theorem size_eq (h : f.SameUpTo view g) : g.size = f.size := by
  have hnone : ∀ j, f.size ≤ j ↔ g.size ≤ j := by
    intro j
    have hj := congrArg Option.isNone (h j)
    rw [Option.isNone_map, Option.isNone_map] at hj
    simpa [get?, size] using Bool.eq_iff_iff.1 hj.symm
  exact Nat.le_antisymm ((hnone _).1 (Nat.le_refl _)) ((hnone _).2 (Nat.le_refl _))

theorem alike (h : f.SameUpTo Node.unlinked g) (i : NodeId) : f.Alike g i :=
  alike_of_agree h.size_eq fun j _ => h j

end SameUpTo

/-! ## Links -/

theorem sameUpTo_link (f : Forest) (i : NodeId) (owner : Option NodeId) :
    f.SameUpTo Node.unlinked (f.link i owner) := by
  intro j
  rw [get?_link]
  split
  · rw [Option.map_map]
    rfl
  · rfl

theorem sameUpTo_linkAll (f : Forest) (is : List NodeId) (owner : NodeId) :
    f.SameUpTo Node.unlinked (f.linkAll is owner) := by
  intro j
  rw [get?_linkAll, Option.map_map]
  refine Option.map_congr fun n _ => ?_
  by_cases hj : j ∈ is <;> simp [hj, Node.unlinked]

theorem sameUpTo_repair (f : Forest) (root : NodeId) : f.SameUpTo Node.unlinked (f.repair root) :=
  walkFrom_invariant (P := f.SameUpTo Node.unlinked) (fun i g _ hg => hg.trans (sameUpTo_linkAll g (g.children i) i))
    f.size [root] f () fun _ => rfl

/-! ## Edits -/

/-- Nothing has changed but the content of one role of one node and the links of some nodes. -/
structure ChangedOnly (f f' : Forest) (owner : NodeId) (role : Role) (moved : List NodeId) : Prop where
  size_eq : f'.size = f.size
  at_owner : ∃ content, (f'.get? owner).map Node.unlinked =
    (f.get? owner).map fun n => (n.setContent role content).unlinked
  elsewhere : ∀ j, j ≠ owner → (f'.get? j).map Node.unlinked = (f.get? j).map Node.unlinked
  links : ∀ j, j ∉ moved → f'.parent? j = f.parent? j

/-- Trees without the changed node look as before. -/
theorem ChangedOnly.alike {moved : List NodeId} (h : f.ChangedOnly f' owner role moved) (hi : ¬ f.Below i owner) :
    f.Alike f' i :=
  alike_of_agree h.size_eq fun j hj => h.elsewhere j fun he => hi (he ▸ hj)

/-- **An edit changes the content of one role and the links of what goes in and out.** -/
theorem edit_changedOnly {e : Edit} {out : Option NodeId} (h : f.edit e = .ok (out, f')) :
    f.ChangedOnly f' e.owner e.role (e.incoming?.toList ++ out.toList) where
  size_eq := edit_size h
  at_owner := by
    refine ⟨e.content f, ?_⟩
    rw [edit_get? h, Option.map_map]
    refine Option.map_congr fun n _ => ?_
    simp [Node.unlinked]
  elsewhere j hj := by
    rw [edit_get? h, Option.map_map]
    refine Option.map_congr fun n _ => ?_
    simp [Node.unlinked, hj]
  links j hj := by
    simp only [List.mem_append, Option.mem_toList, not_or] at hj
    rw [parent?, parent?, edit_get? h]
    cases f.get? j with
    | none => rfl
    | some n => simp [hj.1, hj.2]

theorem pushRaw_changedOnly (f : Forest) (owner : NodeId) (role : Role) (child : Option NodeId) :
    f.ChangedOnly (f.pushRaw owner role child) owner role [] where
  size_eq := size_setContent f owner role _
  at_owner := by
    refine ⟨.many (f.items owner role ++ [child]), ?_⟩
    rw [pushRaw, get?_setContent, if_pos rfl, Option.map_map]
    rfl
  elsewhere j hj := by rw [pushRaw, get?_setContent, if_neg (Ne.symm hj)]
  links j _ := parent?_setContent f owner j role _

end Forest

/-- **Trees and links do not interfere.** -/
theorem trees_apart_from_links :
    (∀ f g : Forest, f.SameUpTo Node.unlinked g → ∀ i, f.Alike g i) ∧
    (∀ f g : Forest, f.SameUpTo Node.bare g → ∀ i, g.draw {} i = f.draw {} i) ∧
    (∀ (f : Forest) (c : NodeId) (owner : Option NodeId) (i : NodeId), f.Alike (f.link c owner) i) ∧
    (∀ (f : Forest) (root i : NodeId), f.Alike (f.repair root) i) ∧
    (∀ (f f' : Forest) (e : Edit) (out : Option NodeId), f.edit e = .ok (out, f') →
      f.ChangedOnly f' e.owner e.role (e.incoming?.toList ++ out.toList) ∧
        ∀ i, ¬ f.Below i e.owner → f.Alike f' i) ∧
    ∀ (f : Forest) (owner : NodeId) (role : Role) (child : Option NodeId),
      f.ChangedOnly (f.pushRaw owner role child) owner role [] ∧
        ∀ i, ¬ f.Below i owner → f.Alike (f.pushRaw owner role child) i := by
  refine ⟨fun f g h => h.alike, fun f g h i => Forest.draw_congr h.size_eq fun j _ => h j,
    fun f c owner => (f.sameUpTo_link c owner).alike, fun f root => (f.sameUpTo_repair root).alike,
    fun f f' e out h => ?_, fun f owner role child => ?_⟩
  · have hchanged := Forest.edit_changedOnly h
    exact ⟨hchanged, fun i hi => hchanged.alike hi⟩
  · have hchanged := f.pushRaw_changedOnly owner role child
    exact ⟨hchanged, fun i hi => hchanged.alike hi⟩

/-- A block keeps its drawing when its links go astray and when it moves in the source text, and a statement keeps its
own when another one is taken out. -/
theorem trees_apart_from_links_twoStatements :
    let moved : Forest := ⟨#[{ form := .emptyStatement, span := { line := some 4 } },
      { form := .debuggerStatement, parent := some 0 },
      { form := .blockStatement, fields := [⟨.body, .many [some 0, some 1]⟩], env := .ofList ["x"] }]⟩
    twoStatements.SameUpTo Node.unlinked strayLinks ∧ strayLinks.parent? 0 ≠ twoStatements.parent? 0 ∧
      twoStatements.Alike strayLinks 2 ∧
      twoStatements.SameUpTo Node.bare moved ∧ moved.draw {} 2 = twoStatements.draw {} 2 ∧
      ∃ f, twoStatements.edit (.remove 2 .body 0) = .ok (some 0, f) ∧ ¬ twoStatements.Below 1 2 ∧
        twoStatements.ChangedOnly f 2 .body [0] ∧ twoStatements.Alike f 1 := by
  intro moved
  have hstray : twoStatements.SameUpTo Node.unlinked strayLinks
    | 0 | 1 | 2 => rfl
    | _ + 3 => rfl
  have hmoved : twoStatements.SameUpTo Node.bare moved
    | 0 | 1 | 2 => rfl
    | _ + 3 => rfl
  have hbelow : ¬ twoStatements.Below 1 2 := by
    rw [Forest.below_iff]
    rintro (h | ⟨c, hc, _⟩)
    · cases h
    · exact absurd hc (List.not_mem_nil (a := c))
  obtain ⟨halike, hdraw, -, -, hedit, -⟩ := trees_apart_from_links
  obtain ⟨hchanged, hleft⟩ := hedit twoStatements _ (.remove 2 .body 0) (some 0) rfl
  exact ⟨hstray, by decide, halike _ _ hstray 2, hmoved, hdraw _ _ hmoved 2, _, rfl, hbelow, hchanged, hleft 1 hbelow⟩

end ScriptTree
