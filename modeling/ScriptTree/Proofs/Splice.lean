import Mathlib
import ScriptTree.Forest.Build
import ScriptTree.Forest.Edit
import ScriptTree.Proofs.Ownership

/-!
# What building and editing do to ownership and links

Every construction and every edit is a *splice*: in the list of children of one node, a stretch `old` is replaced by a
stretch `new`, and all other nodes keep their children (`Spliced`). Besides, the nodes of `new` are linked to the owner
and those of `old` lose their link.

* `SameChildren`: changes that leave all children alone, such as links;
* `construct_spliced`, `edit_spliced`, `pushRaw_spliced`: the operations are splices;
* `exists_edit_eq_ok_iff`: which edits are carried out, and what they return;
* `edit_eq`: the four edits are one change, of the content of a role, with two links;
* `construct_relinked`, `edit_relinked`: the links after an operation (`Relinked`);
* `Spliced.wellOwned`: a splice that brings in roots from outside keeps a forest well owned.
-/

namespace ScriptTree

theorem Content.children_one (child : Option NodeId) : (Content.one child).children = child.toList := by
  cases child <;> rfl

/-- The children after other content is put in a role: those in the fields before it, the new ones, and those in the
fields after it. -/
theorem Field.children_update_eq {role : Role} {content : Content NodeId} {fields : List (Field NodeId)}
    (h : lookup? role fields = some content) (c : Content NodeId) : (update role c fields).flatMap Field.children =
      (fields.takeWhile (·.role ≠ role)).flatMap Field.children ++ c.children ++
        (fields.dropWhile (·.role ≠ role)).tail.flatMap Field.children := by
  induction fields with
  | nil => cases h
  | cons field rest ih =>
    by_cases hr : field.role = role
    · simp [update, hr, Field.children]
    · simp only [lookup?, if_neg hr] at h
      simpa [update, hr] using ih h

/-- Other content in a role of a list of fields is a splice of the children. -/
theorem Field.children_update {role : Role} {content : Content NodeId} {fields : List (Field NodeId)}
    (h : lookup? role fields = some content) : ∃ before after,
      fields.flatMap Field.children = before ++ content.children ++ after ∧
      ∀ c, (update role c fields).flatMap Field.children = before ++ c.children ++ after := by
  refine ⟨_, _, ?_, children_update_eq h⟩
  rw [← children_update_eq h, update_lookup? h]

namespace Forest

open Relation

variable {f f' g : Forest} {i j c o owner : NodeId} {role : Role} {old new : List NodeId}

/-- What stands in a role of a node. -/
def content? (f : Forest) (i : NodeId) (role : Role) : Option (Content NodeId) := (f.get? i).bind (·.content? role)

theorem items_eq (f : Forest) (i : NodeId) (role : Role) :
    f.items i role = ((f.content? i role).map Content.items).getD [] := by
  unfold items content?
  cases f.get? i <;> rfl

theorem child?_eq (f : Forest) (i : NodeId) (role : Role) :
    f.child? i role = (f.content? i role).bind Content.child? := by
  unfold child? content?
  cases f.get? i <;> rfl

/-! ## Changes that leave the children alone -/

/-- The same nodes own the same nodes. -/
structure SameChildren (f f' : Forest) : Prop where
  size_eq : f'.size = f.size
  children_eq : ∀ o, f'.children o = f.children o

namespace SameChildren

theorem refl (f : Forest) : f.SameChildren f := ⟨rfl, fun _ => rfl⟩

theorem trans (h : f.SameChildren g) (h' : g.SameChildren f') : f.SameChildren f' :=
  ⟨h'.size_eq.trans h.size_eq, fun o => (h'.children_eq o).trans (h.children_eq o)⟩

theorem owns_iff (h : f.SameChildren f') : f'.Owns o c ↔ f.Owns o c := by rw [Owns, Owns, h.children_eq]

theorem wellOwned (h : f.SameChildren f') (hf : f.WellOwned) : f'.WellOwned where
  bounded hc := h.size_eq ▸ hf.bounded (h.owns_iff.1 hc)
  nodup o := h.children_eq o ▸ hf.nodup o
  unique hc hc' := hf.unique (h.owns_iff.1 hc) (h.owns_iff.1 hc')
  acyclic i hi := hf.acyclic i (TransGen.mono (fun _ _ => h.owns_iff.1) _ _ hi)

end SameChildren

theorem link_sameChildren (f : Forest) (i : NodeId) (owner : Option NodeId) : f.SameChildren (f.link i owner) :=
  ⟨size_modify f i _, fun o => children_link f i o owner⟩

theorem linkChild_sameChildren (f : Forest) (child owner : Option NodeId) :
    f.SameChildren (f.linkChild child owner) := by
  cases child with
  | none => exact .refl f
  | some c => exact link_sameChildren f c owner

theorem linkAll_sameChildren (owner : NodeId) : ∀ (is : List NodeId) (f : Forest), f.SameChildren (f.linkAll is owner)
  | [], f => .refl f
  | i :: is, f => (link_sameChildren f i (some owner)).trans (linkAll_sameChildren owner is _)

theorem size_link (f : Forest) (i : NodeId) (owner : Option NodeId) : (f.link i owner).size = f.size :=
  (link_sameChildren f i owner).size_eq

theorem size_linkChild (f : Forest) (child owner : Option NodeId) : (f.linkChild child owner).size = f.size :=
  (linkChild_sameChildren f child owner).size_eq

theorem size_setContent (f : Forest) (i : NodeId) (role : Role) (content : Content NodeId) :
    (f.setContent i role content).size = f.size := size_modify f i _

/-! ## Links -/

theorem get?_linkChild (f : Forest) (child owner : Option NodeId) (j : NodeId) :
    (f.linkChild child owner).get? j =
      (f.get? j).map fun n => if child = some j then { n with parent := owner } else n := by
  cases child with
  | none => simp [linkChild]
  | some c =>
    rw [linkChild, get?_link]
    by_cases hc : c = j <;> simp [hc]

theorem get?_linkAll (owner j : NodeId) : ∀ (is : List NodeId) (f : Forest), (f.linkAll is owner).get? j =
    (f.get? j).map fun n => if j ∈ is then { n with parent := some owner } else n
  | [], f => by simp [linkAll]
  | i :: is, f => by
    have he : f.linkAll (i :: is) owner = (f.link i (some owner)).linkAll is owner := rfl
    rw [he, get?_linkAll owner j is, get?_link]
    cases f.get? j with
    | none => simp
    | some n => by_cases hi : j = i <;> by_cases hj : j ∈ is <;> simp [hi, hj, eq_comm (a := i)]

theorem parent?_linkChild (f : Forest) (child owner : Option NodeId) (hj : j < f.size) :
    (f.linkChild child owner).parent? j = if child = some j then owner else f.parent? j := by
  obtain ⟨n, hn⟩ := get?_isSome hj
  rw [parent?, parent?, get?_linkChild, hn]
  by_cases hc : child = some j <;> simp [hc]

theorem parent?_linkAll (owner : NodeId) (is : List NodeId) (f : Forest) (hj : j < f.size) :
    (f.linkAll is owner).parent? j = if j ∈ is then some owner else f.parent? j := by
  obtain ⟨n, hn⟩ := get?_isSome hj
  rw [parent?, parent?, get?_linkAll, hn]
  by_cases hc : j ∈ is <;> simp [hc]

theorem children_push (f : Forest) (n : Node) (o : NodeId) :
    (f.push n).children o = if o = f.size then n.children else f.children o := by
  unfold children
  rw [get?_push]
  split <;> rfl

theorem parent?_push (f : Forest) (n : Node) (i : NodeId) :
    (f.push n).parent? i = if i = f.size then n.parent else f.parent? i := by
  unfold parent?
  rw [get?_push]
  split <;> rfl

/-- Links are no content. -/
theorem content?_linkChild (f : Forest) (child owner : Option NodeId) (i : NodeId) (role : Role) :
    (f.linkChild child owner).content? i role = f.content? i role := by
  unfold content?
  rw [get?_linkChild]
  cases f.get? i with
  | none => rfl
  | some n => by_cases hc : child = some i <;> simp [hc, Node.content?]

/-! ## Splices -/

/-- In the children of `owner` a stretch `old` gives way to `new`; the other nodes keep their children. -/
structure Spliced (f f' : Forest) (owner : NodeId) (old new : List NodeId) : Prop where
  size_le : f.size ≤ f'.size
  at_owner : ∃ before after, f.children owner = before ++ old ++ after ∧ f'.children owner = before ++ new ++ after
  elsewhere : ∀ o, o ≠ owner → f'.children o = f.children o

/-- The links that go with a splice: none for `old`, to the owner for `new`, the others as before. -/
def Relinked (f f' : Forest) (owner : NodeId) (old new : List NodeId) : Prop :=
  ∀ c < f.size, f'.parent? c = if c ∈ old then none else if c ∈ new then some owner else f.parent? c

namespace Spliced

/-- A common beginning and a common end of the two stretches are no part of the change. -/
theorem narrow {l r : List NodeId} (h : f.Spliced f' owner (l ++ old ++ r) (l ++ new ++ r)) :
    f.Spliced f' owner old new := by
  obtain ⟨before, after, h₁, h₂⟩ := h.at_owner
  exact ⟨h.size_le, ⟨before ++ l, r ++ after, by simp [h₁], by simp [h₂]⟩, h.elsewhere⟩

theorem after_same (h : f.SameChildren g) (hs : g.Spliced f' owner old new) : f.Spliced f' owner old new where
  size_le := h.size_eq ▸ hs.size_le
  at_owner := h.children_eq owner ▸ hs.at_owner
  elsewhere o ho := (hs.elsewhere o ho).trans (h.children_eq o)

theorem before_same (hs : f.Spliced g owner old new) (h : g.SameChildren f') : f.Spliced f' owner old new where
  size_le := h.size_eq ▸ hs.size_le
  at_owner := h.children_eq owner ▸ hs.at_owner
  elsewhere o ho := (h.children_eq o).trans (hs.elsewhere o ho)

theorem owns_elsewhere (hs : f.Spliced f' owner old new) (ho : o ≠ owner) : f'.Owns o c ↔ f.Owns o c := by
  rw [Owns, Owns, hs.elsewhere o ho]

/-- What is owned after a splice was owned before or came in. -/
theorem owns_cases (hs : f.Spliced f' owner old new) (h : f'.Owns o c) : f.Owns o c ∨ o = owner ∧ c ∈ new := by
  by_cases ho : o = owner
  · subst ho
    obtain ⟨before, after, h₁, h₂⟩ := hs.at_owner
    rw [Owns, h₂] at h
    rw [Owns, h₁]
    simp only [List.mem_append] at h ⊢
    tauto
  · exact Or.inl ((hs.owns_elsewhere ho).1 h)

/-- What came in is owned. -/
theorem owns_new (hs : f.Spliced f' owner old new) (hc : c ∈ new) : f'.Owns owner c := by
  obtain ⟨before, after, -, h₂⟩ := hs.at_owner
  rw [Owns, h₂]
  simp [hc]

/-- What went out was owned. -/
theorem owns_old (hs : f.Spliced f' owner old new) (hc : c ∈ old) : f.Owns owner c := by
  obtain ⟨before, after, h₁, -⟩ := hs.at_owner
  rw [Owns, h₁]
  simp [hc]

/-- What did not go out is owned as before. -/
theorem owns_kept (hs : f.Spliced f' owner old new) (h : f.Owns o c) (hc : c ∉ old) : f'.Owns o c := by
  by_cases ho : o = owner
  · subst ho
    obtain ⟨before, after, h₁, h₂⟩ := hs.at_owner
    rw [Owns, h₁] at h
    rw [Owns, h₂]
    simp only [List.mem_append] at h ⊢
    tauto
  · exact (hs.owns_elsewhere ho).2 h

/-- What went out is not owned any more, unless it came in again. -/
theorem not_owns_old (hs : f.Spliced f' owner old new) (h : f.WellOwned) (hc : c ∈ old) (hn : c ∉ new) :
    ¬ f'.Owned c := by
  rintro ⟨o, ho⟩
  have hf : f.Owns o c := (hs.owns_cases ho).resolve_right fun hn' => hn hn'.2
  have he : o = owner := h.unique hf (hs.owns_old hc)
  subst he
  obtain ⟨before, after, h₁, h₂⟩ := hs.at_owner
  have hd := h.nodup o
  rw [h₁] at hd
  rw [Owns, h₂] at ho
  simp only [List.nodup_append, List.mem_append] at hd ho
  grind

/-- Children of one node that lead to no circle through it can be added without making a circle. -/
theorem acyclic_of_added {r r' : NodeId → NodeId → Prop} {a : NodeId}
    (hr : ∀ {x y}, r' x y → r x y ∨ x = a ∧ y ∈ new) (hn : ∀ y ∈ new, ¬ ReflTransGen r y a)
    (h : ∀ i, ¬ TransGen r i i) (i : NodeId) : ¬ TransGen r' i i := by
  -- a path either avoids the added edges or uses one of them exactly once
  have key : ∀ {x y}, TransGen r' x y → TransGen r x y ∨ ReflTransGen r x a ∧ ∃ b ∈ new, ReflTransGen r b y := by
    intro x y hxy
    induction hxy with
    | single hy =>
      rcases hr hy with hy | ⟨rfl, hy⟩
      · exact Or.inl (TransGen.single hy)
      · exact Or.inr ⟨.refl, _, hy, .refl⟩
    | tail _ hz ih =>
      rcases hr hz with hz | ⟨rfl, hz⟩
      · rcases ih with hy | ⟨hx, b, hb, hy⟩
        · exact Or.inl (hy.tail hz)
        · exact Or.inr ⟨hx, b, hb, hy.tail hz⟩
      · rcases ih with hy | ⟨_, b, hb, hy⟩
        · exact Or.inr ⟨hy.to_reflTransGen, _, hz, .refl⟩
        · exact absurd hy (hn b hb)
  intro hi
  rcases key hi with hi | ⟨hx, b, hb, hy⟩
  · exact h i hi
  · exact hn b hb (hy.trans hx)

/-- **A splice that brings in roots, none of which has the owner in its tree, keeps a forest well owned.** -/
theorem wellOwned (hs : f.Spliced f' owner old new) (h : f.WellOwned) (hd : new.Nodup)
    (hr : ∀ c ∈ new, f.IsRoot c) (hn : ∀ c ∈ new, ¬ f.Below c owner) : f'.WellOwned where
  bounded hc := by
    rcases hs.owns_cases hc with hc | ⟨_, hc⟩
    · exact (h.bounded hc).trans_le hs.size_le
    · exact (hr _ hc).1.trans_le hs.size_le
  nodup o := by
    by_cases ho : o = owner
    · subst ho
      obtain ⟨before, after, h₁, h₂⟩ := hs.at_owner
      have hf := h.nodup o
      have hout : ∀ c ∈ new, c ∉ before ++ old ++ after := fun c hc hm => (hr c hc).2 ⟨o, by rw [Owns, h₁]; exact hm⟩
      rw [h₁] at hf
      rw [h₂]
      simp only [List.nodup_append, List.mem_append] at hf hout ⊢
      grind
    · rw [hs.elsewhere o ho]
      exact h.nodup o
  unique hc hc' := by
    rcases hs.owns_cases hc with hf | ⟨ho, hm⟩ <;> rcases hs.owns_cases hc' with hf' | ⟨ho', hm'⟩
    · exact h.unique hf hf'
    · exact absurd ⟨_, hf⟩ (hr _ hm').2
    · exact absurd ⟨_, hf'⟩ (hr _ hm).2
    · exact ho.trans ho'.symm
  acyclic := acyclic_of_added hs.owns_cases hn h.acyclic

theorem wellOwned_of_child {child : Option NodeId} (hs : f.Spliced f' owner old child.toList) (h : f.WellOwned)
    (hin : ∀ c, child = some c → f.IsRoot c ∧ ¬ f.Below c owner) : f'.WellOwned := by
  cases child with
  | none => exact hs.wellOwned h List.nodup_nil (fun c hc => by cases hc) fun c hc => by cases hc
  | some c =>
    have hc : ∀ {c'}, c' ∈ [c] → c' = c := List.mem_singleton.1
    exact hs.wellOwned h (List.nodup_singleton c) (fun c' hc' => hc hc' ▸ (hin c rfl).1)
      fun c' hc' => hc hc' ▸ (hin c rfl).2

end Spliced

/-! ## The operations are splices -/

/-- Other content in a role is a splice. -/
theorem setContent_spliced {content : Content NodeId} (h : f.content? owner role = some content)
    (content' : Content NodeId) :
    f.Spliced (f.setContent owner role content') owner content.children content'.children where
  size_le := (size_setContent f owner role content').ge
  at_owner := by
    obtain ⟨n, hn, hc⟩ := Option.bind_eq_some_iff.1 h
    obtain ⟨before, after, h₁, h₂⟩ := Field.children_update hc
    refine ⟨before, after, (children_eq_of_get? hn).trans h₁, ?_⟩
    have hn' : (f.setContent owner role content').get? owner = some (n.setContent role content') := by
      simp [get?_setContent, hn]
    exact (children_eq_of_get? hn').trans (h₂ content')
  elsewhere o ho := by
    unfold children
    rw [get?_setContent, if_neg (Ne.symm ho)]

theorem replace_spliced {child' : Option NodeId} (h : f.content? owner role = some (.one child'))
    (child : Option NodeId) :
    f.Spliced (f.replace owner role child).2 owner (f.replace owner role child).1.toList child.toList := by
  have hg : (f.linkChild child owner).content? owner role = some (.one child') := by rw [content?_linkChild, h]
  have hs := (setContent_spliced hg (.one child)).after_same (linkChild_sameChildren f child owner)
  rw [Content.children_one, Content.children_one] at hs
  have ho : (f.replace owner role child).1 = child' := by
    show f.child? owner role = child'
    rw [child?_eq, h]
    rfl
  rw [ho]
  exact hs.before_same (linkChild_sameChildren _ _ _)

/-- Another stretch of entries in a list is a splice. -/
theorem setItems_spliced {content : Content NodeId} {l x y r : List (Option NodeId)}
    (h : f.content? owner role = some content) (hx : content.items = l ++ x ++ r) :
    f.Spliced (f.setContent owner role (.many (l ++ y ++ r))) owner (x.filterMap id) (y.filterMap id) := by
  have hs := setContent_spliced h (.many (l ++ y ++ r))
  have hc : content.children = l.filterMap id ++ x.filterMap id ++ r.filterMap id := by
    rw [Content.children, hx, List.filterMap_append, List.filterMap_append]
  have hc' : (Content.many (l ++ y ++ r)).children = l.filterMap id ++ y.filterMap id ++ r.filterMap id := by
    rw [Content.children, Content.items, List.filterMap_append, List.filterMap_append]
  rw [hc, hc'] at hs
  exact hs.narrow

theorem filterMap_singleton (child : Option NodeId) : [child].filterMap id = child.toList := by
  cases child <;> rfl

/-- A change of a list that links a child first. -/
theorem setItems_linkChild_spliced {content : Content NodeId} {l r : List (Option NodeId)}
    (h : f.content? owner role = some content) (hx : content.items = l ++ r) (child : Option NodeId) :
    f.Spliced ((f.linkChild child owner).setContent owner role (.many (l ++ [child] ++ r))) owner [] child.toList := by
  have hg : (f.linkChild child owner).content? owner role = some content := by rw [content?_linkChild, h]
  have hs := setItems_spliced (x := []) (y := [child]) hg (by simpa using hx)
  rw [filterMap_singleton] at hs
  exact hs.after_same (linkChild_sameChildren f child owner)

theorem append_spliced {content : Content NodeId} (h : f.content? owner role = some content)
    (child : Option NodeId) : f.Spliced (f.append owner role child) owner [] child.toList := by
  have hs := setItems_linkChild_spliced (l := content.items) (r := []) h (by simp) child
  simpa [append, items_eq, h] using hs

theorem insertIdx_eq_append (child : Option NodeId) : ∀ {index : Nat} {items : List (Option NodeId)},
    index ≤ items.length → items.insertIdx index child = items.take index ++ [child] ++ items.drop index
  | 0, _, _ => by simp
  | _ + 1, [], h => by cases h
  | index + 1, item :: items, h => by
    simp [List.insertIdx_succ_cons, insertIdx_eq_append child (Nat.le_of_succ_le_succ h)]

theorem insert_spliced {content : Content NodeId} {index : Nat} {child : Option NodeId}
    (h : f.content? owner role = some content) (hi : f.insert owner role index child = .ok f') :
    f.Spliced f' owner [] child.toList := by
  have hitems : f.items owner role = content.items := by rw [items_eq, h]; rfl
  unfold insert at hi
  rw [hitems] at hi
  simp only at hi
  split at hi
  · cases hi
  · rename_i hle
    cases hi
    rw [insertIdx_eq_append child (Nat.le_of_not_lt hle)]
    exact setItems_linkChild_spliced h (List.take_append_drop index content.items).symm child

theorem remove_spliced {index : Nat} {out : Option NodeId} (h : f.remove owner role index = .ok (out, f')) :
    f.Spliced f' owner out.toList [] := by
  unfold remove at h
  simp only at h
  split at h
  · cases h
  · rename_i old ho
    cases h
    cases hc : f.content? owner role with
    | none => simp [items_eq, hc] at ho
    | some content =>
      have hitems : f.items owner role = content.items := by rw [items_eq, hc]; rfl
      rw [hitems] at ho ⊢
      obtain ⟨hlt, he⟩ := List.getElem?_eq_some_iff.1 ho
      have hx : content.items = content.items.take index ++ [out] ++ content.items.drop (index + 1) := by
        rw [← he]
        simp
      have hs := setItems_spliced (y := []) hc hx
      rw [filterMap_singleton, List.append_nil, ← List.eraseIdx_eq_take_drop_succ] at hs
      exact hs.before_same (linkChild_sameChildren _ _ _)

theorem pushRaw_spliced {content : Content NodeId} (h : f.content? owner role = some content)
    (child : Option NodeId) : f.Spliced (f.pushRaw owner role child) owner [] child.toList := by
  have hs := setItems_spliced (l := content.items) (x := []) (y := [child]) (r := []) h (by simp)
  rw [filterMap_singleton] at hs
  simpa [pushRaw, items_eq, h] using hs

/-- A new node is a splice of its own, empty list of children. -/
theorem construct_spliced {n : Node} (h : f.construct n = .ok (i, f')) :
    i = f.size ∧ f'.size = f.size + 1 ∧ f.Spliced f' i [] n.children := by
  unfold construct at h
  split at h
  · cases h
  · cases h
    have hsame := linkAll_sameChildren f.size n.children f
    have hsize : ((f.linkAll n.children f.size).push { n with parent := none }).size = f.size + 1 := by
      rw [size_push, hsame.size_eq]
    refine ⟨rfl, hsize, by omega, ⟨[], [], ?_, ?_⟩, fun o ho => ?_⟩
    · simp [children_eq_nil (Nat.le_refl f.size)]
    · rw [children_push, if_pos hsame.size_eq.symm, List.nil_append, List.append_nil]
      rfl
    · rw [children_push, if_neg (hsame.size_eq.symm ▸ ho), hsame.children_eq]

/-- A node over roots keeps a forest well owned. -/
theorem construct_wellOwned {n : Node} (hf : f.WellOwned) (hd : n.children.Nodup)
    (hr : ∀ c ∈ n.children, f.IsRoot c) (h : f.construct n = .ok (i, f')) : f'.WellOwned := by
  obtain ⟨rfl, -, hs⟩ := construct_spliced h
  refine hs.wellOwned hf hd hr fun c hc hb => ?_
  -- the new node is not in the forest yet, so it is in the tree of none of its nodes
  exact absurd (hf.below_lt_size (hr c hc).1 hb) (Nat.lt_irrefl f.size)

/-- **The nodes after a construction**: the new one, and the old ones with the links of its children set. -/
theorem construct_get? {n : Node} (h : f.construct n = .ok (i, f')) (j : NodeId) :
    f'.get? j = if j = f.size then some { n with parent := none }
      else (f.get? j).map fun m => if j ∈ n.children then { m with parent := some f.size } else m := by
  unfold construct at h
  split at h
  · cases h
  · cases h
    rw [get?_push, (linkAll_sameChildren f.size n.children f).size_eq, get?_linkAll]

/-- A construction links the children to the new node, which is linked to none. -/
theorem construct_relinked {n : Node} (h : f.construct n = .ok (i, f')) :
    f'.parent? i = none ∧ f.Relinked f' i [] n.children := by
  unfold construct at h
  split at h
  · cases h
  · cases h
    have hsize := (linkAll_sameChildren f.size n.children f).size_eq
    refine ⟨by rw [parent?_push, if_pos hsize.symm], fun c hc => ?_⟩
    rw [parent?_push, if_neg (hsize.symm ▸ Nat.ne_of_lt hc), parent?_linkAll f.size n.children f hc]
    simp

end Forest

/-! ## Edits -/

namespace Edit

/-- The node whose children an edit changes. -/
def owner : Edit → NodeId
  | replace owner _ _ | append owner _ _ | insert owner _ _ _ | remove owner _ _ => owner

/-- The child that an edit puts in. -/
def incoming? : Edit → Option NodeId
  | replace _ _ child | append _ _ child | insert _ _ _ child => child
  | remove _ _ _ => none

/-- The role whose content an edit sets. -/
def role : Edit → Role
  | replace _ role _ | append _ role _ | insert _ role _ _ | remove _ role _ => role

/-- What stands in the role after an edit. -/
def content (f : Forest) : Edit → Content NodeId
  | replace _ _ child => .one child
  | append owner role child => .many (f.items owner role ++ [child])
  | insert owner role index child => .many ((f.items owner role).insertIdx index child)
  | remove owner role index => .many ((f.items owner role).eraseIdx index)

/-- The role of an edit is one of its owner, and takes one child or a list as the edit does. -/
def Fits (f : Forest) : Edit → Prop
  | replace owner role _ => ∃ child, f.content? owner role = some (.one child)
  | append owner role _ | insert owner role _ _ | remove owner role _ =>
    ∃ items, f.content? owner role = some (.many items)

/-- The child that an edit takes out. -/
def outgoing? (f : Forest) : Edit → Option NodeId
  | replace owner role _ => f.child? owner role
  | append _ _ _ | insert _ _ _ _ => none
  | remove owner role index => (f.items owner role)[index]?.join

/-- The position of an edit is one of the list: an entry to take out, or a place to put one in. -/
def InRange (f : Forest) : Edit → Prop
  | replace _ _ _ | append _ _ _ => True
  | insert owner role index _ => index ≤ (f.items owner role).length
  | remove owner role index => index < (f.items owner role).length

instance (f : Forest) : (e : Edit) → Decidable (e.InRange f)
  | replace _ _ _ | append _ _ _ => inferInstanceAs (Decidable True)
  | insert owner role index _ => inferInstanceAs (Decidable (index ≤ (f.items owner role).length))
  | remove owner role index => inferInstanceAs (Decidable (index < (f.items owner role).length))

theorem Fits.exists_node {f : Forest} {e : Edit} (h : e.Fits f) :
    ∃ n content, f.get? e.owner = some n ∧ n.content? e.role = some content := by
  obtain ⟨content, hcontent⟩ : ∃ content, f.content? e.owner e.role = some content := by
    cases e <;>
    · obtain ⟨x, hx⟩ := h
      exact ⟨_, hx⟩
  obtain ⟨n, hn, hrole⟩ := Option.bind_eq_some_iff.1 hcontent
  exact ⟨n, content, hn, hrole⟩

end Edit

namespace Forest

variable {f f' : Forest} {e : Edit} {out : Option NodeId}

theorem insert_of_edit {owner : NodeId} {role : Role} {index : Nat} {child : Option NodeId}
    (h : f.edit (.insert owner role index child) = .ok (out, f')) :
    out = none ∧ f.insert owner role index child = .ok f' := by
  simp only [edit] at h
  cases hins : f.insert owner role index child with
  | error m => rw [hins] at h; cases h
  | ok g => rw [hins] at h; cases h; exact ⟨rfl, rfl⟩

/-- **An edit is carried out exactly if its position is in range**, and returns the child that stood there. -/
theorem exists_edit_eq_ok_iff : (∃ g, f.edit e = .ok (out, g)) ↔ e.InRange f ∧ out = e.outgoing? f := by
  constructor
  · rintro ⟨g, h⟩
    cases e with
    | replace owner role child => cases h; exact ⟨trivial, rfl⟩
    | append owner role child => cases h; exact ⟨trivial, rfl⟩
    | insert owner role index child =>
      obtain ⟨rfl, hins⟩ := insert_of_edit h
      simp only [insert] at hins
      split at hins
      · cases hins
      · rename_i hle
        exact ⟨Nat.le_of_not_lt hle, rfl⟩
    | remove owner role index =>
      simp only [edit, remove] at h
      split at h
      · cases h
      · rename_i old hold
        cases h
        exact ⟨(List.getElem?_eq_some_iff.1 hold).1, by simp [Edit.outgoing?, hold]⟩
  · rintro ⟨hrange, rfl⟩
    cases e with
    | replace owner role child => exact ⟨_, rfl⟩
    | append owner role child => exact ⟨_, rfl⟩
    | insert owner role index child =>
      simp only [edit, insert, if_neg (Nat.not_lt.2 hrange)]
      exact ⟨_, rfl⟩
    | remove owner role index =>
      simp only [edit, remove, Edit.outgoing?, List.getElem?_eq_getElem hrange]
      exact ⟨_, rfl⟩

/-- An edit in range succeeds. -/
theorem edit_outgoing (hrange : e.InRange f) : ∃ f', f.edit e = .ok (e.outgoing? f, f') :=
  exists_edit_eq_ok_iff.2 ⟨hrange, rfl⟩

/-- What an edit returns stood at its place. -/
theorem out_eq_outgoing? (h : f.edit e = .ok (out, f')) : out = e.outgoing? f := (exists_edit_eq_ok_iff.1 ⟨f', h⟩).2

/-- **An edit is a splice of what it takes out and what it puts in.** -/
theorem edit_spliced (hf : e.Fits f) (h : f.edit e = .ok (out, f')) :
    f.Spliced f' e.owner out.toList e.incoming?.toList := by
  cases e with
  | replace owner role child =>
    obtain ⟨old, ho⟩ := hf
    cases h
    exact replace_spliced ho child
  | append owner role child =>
    obtain ⟨items, hi⟩ := hf
    cases h
    exact append_spliced hi child
  | insert owner role index child =>
    obtain ⟨items, hi⟩ := hf
    obtain ⟨rfl, hins⟩ := insert_of_edit h
    exact insert_spliced hi hins
  | remove owner role index => exact remove_spliced h

/-- **Every edit sets one content**, links what it puts in before and unlinks what it takes out after. -/
theorem edit_eq (h : f.edit e = .ok (out, f')) :
    f' = ((f.linkChild e.incoming? e.owner).setContent e.owner e.role (e.content f)).linkChild out none := by
  cases e with
  | replace owner role child => cases h; rfl
  | append owner role child => cases h; rfl
  | insert owner role index child =>
    obtain ⟨rfl, hins⟩ := insert_of_edit h
    simp only [insert] at hins
    split at hins
    · cases hins
    · cases hins; rfl
  | remove owner role index =>
    simp only [edit, remove] at h
    split at h
    · cases h
    · cases h; rfl

/-- **The nodes after an edit**: the owner has other content in one role, and two links are set. -/
theorem edit_get? (h : f.edit e = .ok (out, f')) (j : NodeId) : f'.get? j = (f.get? j).map fun n =>
    { (if j = e.owner then n.setContent e.role (e.content f) else n) with
      parent := if out = some j then none else if e.incoming? = some j then some e.owner else n.parent } := by
  rw [edit_eq h, get?_linkChild, get?_setContent, get?_linkChild]
  cases f.get? j with
  | none => simp
  | some n =>
    simp only [eq_comm (a := e.owner), Option.map_some, Node.setContent]
    split_ifs <;> rfl

/-- An edit makes no node and loses none. -/
theorem edit_size (h : f.edit e = .ok (out, f')) : f'.size = f.size := by
  rw [edit_eq h, size_linkChild, size_setContent, size_linkChild]

/-- **An edit links what it puts in to the owner and what it takes out to none.** -/
theorem edit_relinked (h : f.edit e = .ok (out, f')) : f.Relinked f' e.owner out.toList e.incoming?.toList := by
  intro c hc
  have hlt : c < ((f.linkChild e.incoming? e.owner).setContent e.owner e.role (e.content f)).size := by
    rwa [size_setContent, size_linkChild]
  simp only [Option.mem_toList]
  rw [edit_eq h, parent?_linkChild _ _ _ hlt, parent?_setContent, parent?_linkChild _ _ _ hc]

end Forest

end ScriptTree
