import Mathlib
import ScriptTree.Forest

/-!
# Ownership

A node owns the nodes that stand in its fields. This file reads a forest as the graph of that relation and leaves the
parent links aside.

* `Owns`, `Below`, `Owned`, `IsRoot`: a child, a node of a tree, a node with an owner, a node without one;
* `WellOwned`: ownership leads to nodes of the forest, in one way to each of them, and never in a circle;
* `WellOwned.descend` and `WellOwned.ascend`: induction from the leaves up and from the roots down;
* `WellOwned.exists_root`, `WellOwned.roots_apart`, `WellOwned.siblings_apart`: every node is in the tree of one root,
  and of at most one child of each node.
-/

namespace ScriptTree.Forest

open Relation

variable {f f' : Forest} {i j k c o : NodeId}

/-- `o` has `c` among its children. -/
def Owns (f : Forest) (o c : NodeId) : Prop := c ∈ f.children o

/-- `j` is a node of the tree of `i`. -/
def Below (f : Forest) (i j : NodeId) : Prop := ReflTransGen f.Owns i j

/-- Some node owns `c`. -/
def Owned (f : Forest) (c : NodeId) : Prop := ∃ o, f.Owns o c

/-- A node that no node owns. -/
def IsRoot (f : Forest) (c : NodeId) : Prop := c < f.size ∧ ¬ f.Owned c

/-- Ownership is a forest: children exist, each has one place under one owner, and no node lies below itself. -/
structure WellOwned (f : Forest) : Prop where
  bounded : ∀ {o c}, f.Owns o c → c < f.size
  nodup : ∀ o, (f.children o).Nodup
  unique : ∀ {o o' c}, f.Owns o c → f.Owns o' c → o = o'
  acyclic : ∀ i, ¬ TransGen f.Owns i i

/-! ## Owners and children exist -/

theorem get?_eq_none (h : f.size ≤ i) : f.get? i = none := Array.getElem?_eq_none h

theorem get?_isSome (h : i < f.size) : ∃ n, f.get? i = some n := ⟨f.nodes[i], Array.getElem?_eq_getElem h⟩

theorem lt_size_of_get? {n : Node} (h : f.get? i = some n) : i < f.size := by
  by_contra hi
  rw [get?_eq_none (Nat.le_of_not_lt hi)] at h
  cases h

theorem exists_kind? (h : i < f.size) : ∃ k, f.kind? i = some k := by
  obtain ⟨n, hn⟩ := get?_isSome h
  exact ⟨n.kind, by simp [kind?, hn]⟩

/-- A forest is its nodes. -/
theorem eq_of_get? (h : ∀ i, f'.get? i = f.get? i) : f' = f := by
  obtain ⟨nodes⟩ := f
  obtain ⟨nodes'⟩ := f'
  exact congrArg Forest.mk (Array.ext_getElem? h)

theorem children_eq_of_get? {n : Node} (h : f.get? i = some n) : f.children i = n.children := by
  simp [children, h]

/-- What is not in the forest owns nothing. -/
theorem children_eq_nil (h : f.size ≤ i) : f.children i = [] := by simp [children, get?_eq_none h]

theorem Owns.lt_size (h : f.Owns o c) : o < f.size := by
  by_contra ho
  rw [Owns, children_eq_nil (Nat.le_of_not_lt ho)] at h
  cases h

theorem owns_empty : ¬ ({} : Forest).Owns o c := fun h => absurd h.lt_size (Nat.not_lt_zero o)

theorem wellOwned_empty : ({} : Forest).WellOwned where
  bounded h := absurd h owns_empty
  nodup o := by rw [children_eq_nil (Nat.zero_le o)]; exact List.nodup_nil
  unique h := absurd h owns_empty
  acyclic i h := by
    obtain ⟨c, hc, _⟩ := TransGen.head'_iff.1 h
    exact owns_empty hc

/-- If every child is older than its owner and has no other owner, as in trees just built, a forest is well owned. -/
theorem wellOwned_of_older (h : ∀ o < f.size, (f.children o).Nodup ∧ ∀ c ∈ f.children o, c < o ∧
    ∀ o' < o, c ∉ f.children o') : f.WellOwned where
  bounded ho := ((h _ ho.lt_size).2 _ ho).1.trans ho.lt_size
  nodup o := by
    rcases Nat.lt_or_ge o f.size with ho | ho
    · exact (h o ho).1
    · rw [children_eq_nil ho]
      exact List.nodup_nil
  unique {o o' c} ho ho' := by
    rcases Nat.lt_trichotomy o o' with hlt | he | hlt
    · exact absurd ho (((h o' ho'.lt_size).2 c ho').2 o hlt)
    · exact he
    · exact absurd ho' (((h o ho.lt_size).2 c ho).2 o' hlt)
  acyclic i hi := by
    have hlt : ∀ {a b}, TransGen f.Owns a b → b < a := by
      intro a b hab
      induction hab with
      | single ho => exact ((h _ ho.lt_size).2 _ ho).1
      | tail _ ho ih => exact ((h _ ho.lt_size).2 _ ho).1.trans ih
    exact Nat.lt_irrefl i (hlt hi)

theorem Below.trans (hij : f.Below i j) (hjk : f.Below j k) : f.Below i k := ReflTransGen.trans hij hjk

theorem Owns.below (h : f.Owns o c) : f.Below o c := ReflTransGen.single h

/-- Fewer children, fewer nodes in a tree. -/
theorem Below.mono (hs : ∀ {o c}, f.Owns o c → f'.Owns o c) (h : f.Below i j) : f'.Below i j :=
  ReflTransGen.mono (fun _ _ => hs) _ _ h

/-- Only nodes of the forest can own. -/
theorem owned_iff : f.Owned c ↔ ∃ o < f.size, c ∈ f.children o :=
  ⟨fun ⟨o, ho⟩ => ⟨o, ho.lt_size, ho⟩, fun ⟨o, _, ho⟩ => ⟨o, ho⟩⟩

instance (f : Forest) (o c : NodeId) : Decidable (f.Owns o c) := inferInstanceAs (Decidable (c ∈ f.children o))

instance (f : Forest) (c : NodeId) : Decidable (f.Owned c) := decidable_of_iff _ owned_iff.symm

instance (f : Forest) (c : NodeId) : Decidable (f.IsRoot c) := inferInstanceAs (Decidable (_ ∧ _))

/-- The roots of a forest, in the order of construction. -/
def roots (f : Forest) : List NodeId := (List.range f.size).filter f.IsRoot

theorem mem_roots : c ∈ f.roots ↔ f.IsRoot c := by
  simp only [roots, List.mem_filter, List.mem_range, decide_eq_true_eq, and_iff_right_iff_imp]
  exact And.left

/-- A tree is its top and the trees of the children. -/
theorem below_iff : f.Below i j ↔ j = i ∨ ∃ c, f.Owns i c ∧ f.Below c j := by
  constructor
  · intro h
    rcases ReflTransGen.cases_head h with rfl | h
    · exact Or.inl rfl
    · exact Or.inr h
  · rintro (rfl | ⟨c, hc, h⟩)
    · exact ReflTransGen.refl
    · exact hc.below.trans h

/-- Only a root is above a root. -/
theorem IsRoot.eq_of_below (h : f.IsRoot j) (hb : f.Below i j) : i = j := by
  rcases ReflTransGen.cases_tail hb with rfl | ⟨o, _, ho⟩
  · rfl
  · exact absurd ⟨o, ho⟩ h.2

/-! ## Induction along ownership -/

/-- A relation on finitely many numbers that never leads back is well-founded. -/
theorem wellFounded_of_acyclic {r : Nat → Nat → Prop} {size : Nat}
    (hr : ∀ {a b}, r a b → a < size ∧ b < size) (ha : ∀ i, ¬ TransGen r i i) : WellFounded r := by
  have : IsStrictOrder Nat (TransGen r) := { irrefl := ha, trans := fun _ _ _ => TransGen.trans }
  have hf := Set.wellFoundedOn_iff.1 ((Set.finite_lt_nat size).wellFoundedOn (r := TransGen r))
  exact Subrelation.wf (fun {a b} h => ⟨TransGen.single h, hr h⟩) hf

namespace WellOwned

/-- Induction from the leaves up: what holds of the children of a node holds of the node. -/
theorem descend (h : f.WellOwned) {P : NodeId → Prop} (step : ∀ i, (∀ c, f.Owns i c → P c) → P i) (i : NodeId) :
    P i := by
  have hwf : WellFounded (Function.swap f.Owns) :=
    wellFounded_of_acyclic (fun ho => ⟨h.bounded ho, ho.lt_size⟩) fun i hi => h.acyclic i (transGen_swap.1 hi)
  exact hwf.induction i step

/-- Induction from the roots down: what holds of the owner of a node holds of the node. -/
theorem ascend (h : f.WellOwned) {P : NodeId → Prop} (step : ∀ i, (∀ o, f.Owns o i → P o) → P i) (i : NodeId) :
    P i := by
  have hwf : WellFounded f.Owns := wellFounded_of_acyclic (fun ho => ⟨ho.lt_size, h.bounded ho⟩) h.acyclic
  exact hwf.induction i step

/-- Every node is in the tree of a root. -/
theorem exists_root (h : f.WellOwned) (hi : i < f.size) : ∃ r, f.IsRoot r ∧ f.Below r i := by
  induction i using h.ascend with
  | step i ih =>
    by_cases ho : f.Owned i
    · obtain ⟨o, ho⟩ := ho
      obtain ⟨r, hr, hb⟩ := ih o ho ho.lt_size
      exact ⟨r, hr, hb.trans ho.below⟩
    · exact ⟨i, ⟨hi, ho⟩, ReflTransGen.refl⟩

/-! ## Trees that meet -/

/-- The nodes above a node form a chain. -/
theorem below_total (h : f.WellOwned) (hi : f.Below i k) (hj : f.Below j k) : f.Below i j ∨ f.Below j i := by
  induction hi with
  | refl => exact Or.inr hj
  | @tail o c ho hc ih =>
    rcases ReflTransGen.cases_tail hj with rfl | ⟨o', hb, hc'⟩
    · exact Or.inl (ho.tail hc)
    · exact ih (h.unique hc hc' ▸ hb)

/-- A child lies in no other tree than its owner does, and its own. -/
theorem below_owner (h : f.WellOwned) (hc : f.Owns o c) (hb : f.Below i c) : i = c ∨ f.Below i o := by
  rcases ReflTransGen.cases_tail hb with rfl | ⟨o', hb', hc'⟩
  · exact Or.inl rfl
  · exact Or.inr (h.unique hc hc' ▸ hb')

/-- No node is in the tree of its child. -/
theorem not_below_owner (h : f.WellOwned) (hc : f.Owns o c) : ¬ f.Below c o :=
  fun hb => h.acyclic o (TransGen.head' hc hb)

/-- The trees of two children of a node have nothing in common. -/
theorem siblings_apart (h : f.WellOwned) (hi : f.Owns o i) (hj : f.Owns o j) (hik : f.Below i k)
    (hjk : f.Below j k) : i = j := by
  rcases h.below_total hik hjk with hb | hb
  · exact (h.below_owner hj hb).resolve_right (h.not_below_owner hi)
  · exact ((h.below_owner hi hb).resolve_right (h.not_below_owner hj)).symm

/-- The trees of two roots have nothing in common. -/
theorem roots_apart (h : f.WellOwned) (hi : f.IsRoot i) (hj : f.IsRoot j) (hik : f.Below i k) (hjk : f.Below j k) :
    i = j := by
  rcases h.below_total hik hjk with hb | hb
  · exact hj.eq_of_below hb
  · exact (hi.eq_of_below hb).symm

theorem below_lt_size (h : f.WellOwned) (hi : i < f.size) (hb : f.Below i j) : j < f.size := by
  rcases ReflTransGen.cases_tail hb with rfl | ⟨o, _, ho⟩
  · exact hi
  · exact h.bounded ho

end WellOwned

end ScriptTree.Forest
