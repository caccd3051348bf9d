import Mathlib
import ScriptTree.Proofs.Recursion

/-!
# Pre-order

`Forest.Listing f is nodes` says that `nodes` are the nodes of the trees of `is`, each tree from the top and from left
to right. In a well owned forest `Forest.preorder` is the listing of one tree (`preorder_listing`), which gives its
recursive equation (`preorder_eq`), its members (`mem_preorder`) and that no node is in it twice (`nodup_preorder`).

A walk with a callback that only looks goes through the pre-order (`walk_of_readOnly`). A callback that changes no
children but those of the node it is called for, and always descends, visits the pre-order of the forest that it
leaves (`Recursion.listing`).
-/

namespace ScriptTree

namespace Forest

variable {f f' : Forest} {i j : NodeId} {is js nodes nodes' : List NodeId}

/-- The nodes of some trees, one tree after the other, each from the top and from left to right. -/
inductive Listing (f : Forest) : List NodeId → List NodeId → Prop
  | nil : Listing f [] []
  | cons {i : NodeId} {rest below after : List NodeId} :
      Listing f (f.children i) below → Listing f rest after → Listing f (i :: rest) (i :: (below ++ after))

namespace Listing

theorem append (h : f.Listing is nodes) (h' : f.Listing js nodes') : f.Listing (is ++ js) (nodes ++ nodes') := by
  induction h with
  | nil => exact h'
  | cons hbelow _ _ ih =>
    have h := Listing.cons hbelow ih
    simpa using h

theorem unique (h : f.Listing is nodes) (h' : f.Listing is nodes') : nodes = nodes' := by
  induction h generalizing nodes' with
  | nil => cases h'; rfl
  | cons _ _ ihbelow ihafter =>
    cases h' with
    | cons hbelow hafter => rw [ihbelow hbelow, ihafter hafter]

/-- A listing looks at the children of the nodes in it only. -/
theorem congr (h : f.Listing is nodes) (hc : ∀ o ∈ nodes, f'.children o = f.children o) : f'.Listing is nodes := by
  induction h with
  | nil => exact .nil
  | @cons i rest below after _ _ ihbelow ihafter =>
    have hi : f'.children i = f.children i := hc i List.mem_cons_self
    refine .cons (hi ▸ ihbelow fun o ho => hc o ?_) (ihafter fun o ho => hc o ?_)
    · exact List.mem_cons_of_mem i (List.mem_append_left after ho)
    · exact List.mem_cons_of_mem i (List.mem_append_right below ho)

theorem mem_iff (h : f.Listing is nodes) : j ∈ nodes ↔ ∃ i ∈ is, f.Below i j := by
  induction h with
  | nil => simp
  | @cons i rest below after _ _ ihbelow ihafter =>
    have hi : f.Below i j ↔ j = i ∨ ∃ c ∈ f.children i, f.Below c j := below_iff
    simp only [List.mem_cons, List.mem_append, ihbelow, ihafter, exists_eq_or_imp, hi, or_assoc]

end Listing

end Forest

/-! ## Callbacks that change what they visit only -/

variable {σ : Type} {visit : NodeId → Forest → σ → Step σ} {pending : List NodeId} {f f' : Forest} {s s' : σ}
  {calls : List (Call σ)} {i j root : NodeId}

/-- A callback that always descends and changes no children but those of the node that it visits. -/
structure InPlace (visit : NodeId → Forest → σ → Step σ) : Prop where
  descend : ∀ i f s, (visit i f s).descend = true
  elsewhere : ∀ i (f : Forest) s o, o ≠ i → (visit i f s).forest.children o = f.children o

theorem InPlace.below_eq (hv : InPlace visit) (i : NodeId) (f : Forest) (s : σ) :
    (visit i f s).below i = (visit i f s).forest.children i := by
  rw [Step.below, if_pos (hv.descend i f s)]

/-- Nodes that are not visited keep their children. -/
theorem Recursion.frame (hv : InPlace visit) (h : Recursion visit pending f s calls f' s') {o : NodeId}
    (ho : o ∉ calls.map Call.node) : f'.children o = f.children o := by
  induction h with
  | nil => rfl
  | @cons i _ f _ _ s _ _ _ _ _ _ ihbelow ihrest =>
    simp only [List.map_cons, List.map_append, List.mem_cons, List.mem_append, not_or] at ho
    rw [ihrest ho.2.2, ihbelow ho.2.1, hv.elsewhere i f s o ho.1]

/-- **The nodes visited are the listing of the forest that is left**: the children of a node do not change after its
visit, and they are read after it. -/
theorem Recursion.listing (hv : InPlace visit) (h : Recursion visit pending f s calls f' s')
    (hn : (calls.map Call.node).Nodup) : f'.Listing pending (calls.map Call.node) := by
  induction h with
  | nil => exact .nil
  | @cons i rest f f₁ f₂ s s₁ s₂ calls calls' hbelow hrest ihbelow ihrest =>
    simp only [List.map_cons, List.map_append, List.nodup_cons, List.mem_append, not_or] at hn ⊢
    obtain ⟨⟨hi, hi'⟩, hn⟩ := hn
    obtain ⟨hn₁, hn₂, hdisj⟩ := List.nodup_append.1 hn
    have hkept : ∀ o, o ∉ calls'.map Call.node → f₂.children o = f₁.children o := fun o => hrest.frame hv
    have hchildren : f₂.children i = (visit i f s).below i := by
      rw [hkept i hi', hbelow.frame hv hi, hv.below_eq]
    refine .cons (hchildren ▸ (ihbelow hn₁).congr fun o ho => hkept o fun ho' => ?_) (ihrest hn₂)
    exact hdisj o ho o ho' rfl

/-- A callback that changes no forest and always descends. -/
structure ReadOnly (visit : NodeId → Forest → σ → Step σ) : Prop where
  descend : ∀ i f s, (visit i f s).descend = true
  forest_eq : ∀ i f s, (visit i f s).forest = f

theorem ReadOnly.detaching (hv : ReadOnly visit) : Detaching visit := fun i f s => by
  rw [hv.forest_eq]
  exact .refl f

theorem ReadOnly.inPlace (hv : ReadOnly visit) : InPlace visit := ⟨hv.descend, fun i f s o _ => by rw [hv.forest_eq]⟩

/-- A callback that only looks leaves the forest, and its state is what it makes of the nodes in turn. -/
theorem Recursion.of_readOnly (hv : ReadOnly visit) (h : Recursion visit pending f s calls f' s') :
    f' = f ∧ s' = (calls.map Call.node).foldl (fun s i => (visit i f s).state) s := by
  induction h with
  | nil => exact ⟨rfl, rfl⟩
  | @cons i rest f f₁ f₂ s s₁ s₂ calls calls' _ _ ihbelow ihrest =>
    rw [hv.forest_eq] at ihbelow
    obtain ⟨rfl, rfl⟩ := ihbelow
    obtain ⟨rfl, rfl⟩ := ihrest
    simp

namespace Forest

/-- A walk that only looks, as a listing. -/
theorem exists_listing_walk (hv : ReadOnly visit) (hf : f.WellOwned) (hroot : root < f.size) (s : σ) :
    ∃ nodes, f.Listing [root] nodes ∧ nodes.Nodup ∧
      f.walk root s visit = (f, nodes.foldl (fun s i => (visit i f s).state) s) := by
  obtain ⟨calls, f', s', h⟩ := hv.detaching.exists_recursion hf [root] (.refl f) s
  have hn := h.nodup_of_root hv.detaching hf
  obtain ⟨rfl, rfl⟩ := h.of_readOnly hv
  exact ⟨_, h.listing hv.inPlace hn, hn, h.walk_eq hv.detaching hf hroot⟩

/-- **The pre-order lists a tree**, each node once. -/
theorem preorder_listing (hf : f.WellOwned) (hroot : root < f.size) :
    f.Listing [root] (f.preorder root) ∧ (f.preorder root).Nodup := by
  have hv : ReadOnly (fun i f (seen : Array NodeId) => ⟨f, seen.push i, true⟩) := ⟨fun _ _ _ => rfl, fun _ _ _ => rfl⟩
  obtain ⟨nodes, hl, hn, hw⟩ := exists_listing_walk hv hf hroot #[]
  have he : f.preorder root = nodes := by
    rw [preorder, hw]
    simp
  rw [he]
  exact ⟨hl, hn⟩

theorem nodup_preorder (hf : f.WellOwned) (hi : i < f.size) : (f.preorder i).Nodup := (preorder_listing hf hi).2

/-- The pre-order of a tree has the nodes of the tree. -/
theorem mem_preorder (hf : f.WellOwned) (hi : i < f.size) : j ∈ f.preorder i ↔ f.Below i j := by
  rw [(preorder_listing hf hi).1.mem_iff]
  simp

theorem flatMap_preorder_listing (hf : f.WellOwned) : ∀ {is : List NodeId}, (∀ i ∈ is, i < f.size) →
    f.Listing is (is.flatMap f.preorder)
  | [], _ => .nil
  | i :: _, h =>
    (preorder_listing hf (h i List.mem_cons_self)).1.append
      (flatMap_preorder_listing hf fun j hj => h j (List.mem_cons_of_mem i hj))

/-- **The equation of the pre-order.** -/
theorem preorder_eq (hf : f.WellOwned) (hi : i < f.size) :
    f.preorder i = i :: (f.children i).flatMap f.preorder := by
  have hbelow : f.Listing (f.children i) ((f.children i).flatMap f.preorder) :=
    flatMap_preorder_listing hf fun c hc => hf.bounded hc
  have h := Listing.cons hbelow .nil
  rw [(preorder_listing hf hi).1.unique h, List.append_nil]

/-- **A walk that only looks goes through the pre-order.** -/
theorem walk_of_readOnly (hv : ReadOnly visit) (hf : f.WellOwned) (hroot : root < f.size) (s : σ) :
    f.walk root s visit = (f, (f.preorder root).foldl (fun s i => (visit i f s).state) s) := by
  obtain ⟨nodes, hl, -, hw⟩ := exists_listing_walk hv hf hroot s
  rw [hw, (preorder_listing hf hroot).1.unique hl]

theorem count_eq (hf : f.WellOwned) (hi : i < f.size) : f.count i = (f.preorder i).length := by
  have hv : ReadOnly (fun _ f (n : Nat) => ⟨f, n + 1, true⟩) := ⟨fun _ _ _ => rfl, fun _ _ _ => rfl⟩
  have hlen : ∀ (nodes : List NodeId) (n : Nat), nodes.foldl (fun n _ => n + 1) n = n + nodes.length := by
    intro nodes
    induction nodes with
    | nil => exact fun n => rfl
    | cons i nodes ih => intro n; rw [List.foldl_cons, ih, List.length_cons]; omega
  rw [count, walk_of_readOnly hv hf hi, hlen, Nat.zero_add]

/-- A tree has fewer nodes than the tree of an owner. -/
theorem count_lt_of_owns (hf : f.WellOwned) (h : f.Owns i j) : f.count j < f.count i := by
  obtain ⟨left, right, hs⟩ := List.append_of_mem h
  rw [count_eq hf h.lt_size, count_eq hf (hf.bounded h), preorder_eq hf h.lt_size, hs]
  simp only [List.flatMap_append, List.flatMap_cons, List.length_cons, List.length_append]
  omega

theorem count_le_size (hf : f.WellOwned) (hi : i < f.size) : f.count i ≤ f.size := by
  have hsub : f.preorder i ⊆ List.range f.size := fun k hk =>
    List.mem_range.2 (hf.below_lt_size hi ((mem_preorder hf hi).1 hk))
  rw [count_eq hf hi]
  simpa using (List.subperm_of_subset (nodup_preorder hf hi) hsub).length_le

end Forest

end ScriptTree
