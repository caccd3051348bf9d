import Mathlib
import ScriptTree.Proofs.Audit

/-!
# Repairs

A repair walks over a tree and links the children of each node it comes to. The walk reads children and writes links, so
it is not disturbed by its own writes, and it visits the pre-order of the tree.

* `Forest.Repaired f g owners`: `g` is `f` with the children of `owners` linked to them; `Repaired.relink` is one visit,
  `Recursion.repaired` a run of visits;
* `Forest.repair_repaired`: a repair links the children of all nodes of the tree, and nothing else.

**`repair_settles_links`**: after a repair every node strictly below the root is linked to its owner, so that an audit
finds nothing and reports nothing. A node that is not strictly below the root, such as the root, is as it was, and of
the others nothing but the link has changed. A second repair changes nothing, and the first one changes nothing exactly
if an audit would have found nothing before it.
-/

namespace ScriptTree

open Relation

namespace Forest

variable {f g : Forest} {i o c r : NodeId} {owners : List NodeId}

/-- Links the children of a node to it. -/
def relink (i : NodeId) (f : Forest) (_ : Unit) : Step Unit := ⟨f.linkAll (f.children i) i, (), true⟩

/-- `g` is `f` with the children of some nodes linked to them. -/
structure Repaired (f g : Forest) (owners : List NodeId) : Prop where
  children : f.SameChildren g
  linked : ∀ {o c}, o ∈ owners → f.Owns o c → g.get? c = (f.get? c).map ({ · with parent := some o })
  elsewhere : ∀ {c}, (∀ o ∈ owners, ¬ f.Owns o c) → g.get? c = f.get? c

namespace Repaired

theorem refl (f : Forest) : f.Repaired f [] := ⟨.refl f, fun ho => (List.not_mem_nil ho).elim, fun _ => rfl⟩

/-- The nodes that are there but for their links. -/
theorem exists_get? (h : f.Repaired g owners) (c : NodeId) :
    g.get? c = f.get? c ∨ ∃ o, g.get? c = (f.get? c).map ({ · with parent := some o }) := by
  by_cases hc : ∃ o ∈ owners, f.Owns o c
  · obtain ⟨o, ho, hown⟩ := hc
    exact Or.inr ⟨o, h.linked ho hown⟩
  · exact Or.inl (h.elsewhere fun o ho hown => hc ⟨o, ho, hown⟩)

/-- **One visit more.** A child has one owner, so no later visit takes its link away. -/
theorem relink (h : f.Repaired g owners) (hf : f.WellOwned) (i : NodeId) :
    f.Repaired (relink i g ()).forest (owners ++ [i]) := by
  have hget : ∀ c, (Forest.relink i g ()).forest.get? c =
      (g.get? c).map fun n => if c ∈ f.children i then { n with parent := some i } else n := fun c => by
    rw [← h.children.children_eq i]
    exact get?_linkAll i c (g.children i) g
  refine ⟨h.children.trans (linkAll_sameChildren i _ g), fun {o c} ho hown => ?_, fun {c} hnone => ?_⟩
  · by_cases hi : c ∈ f.children i
    · have he : i = o := hf.unique hi hown
      subst he
      rw [hget]
      rcases h.exists_get? c with hc | ⟨o, hc⟩ <;> rw [hc] <;> cases f.get? c <;> simp [hi]
    · have hmem : o ∈ owners := by
        rcases List.mem_append.1 ho with ho | ho
        · exact ho
        · exact absurd (List.mem_singleton.1 ho ▸ hown) hi
      rw [hget, h.linked hmem hown]
      cases f.get? c <;> simp [hi]
  · have hi : c ∉ f.children i := hnone i (List.mem_append_right _ (List.mem_singleton_self i))
    rw [hget, h.elsewhere fun o ho => hnone o (List.mem_append_left _ ho)]
    simp [hi]

end Repaired

theorem relink_inPlace : InPlace relink where
  descend _ _ _ := rfl
  elsewhere i f _ o _ := (linkAll_sameChildren i (f.children i) f).children_eq o

theorem relink_detaching : Detaching relink := fun i f _ o => by
  have hsame := (linkAll_sameChildren i (f.children i) f).children_eq o
  exact (List.Perm.of_eq hsame).subperm

end Forest

/-- **A run of visits.** -/
theorem Recursion.repaired {f₀ f f' : Forest} {owners pending : List NodeId} {calls : List (Call Unit)} {s s' : Unit}
    (h : Recursion Forest.relink pending f s calls f' s') (hf : f₀.WellOwned) (hrep : f₀.Repaired f owners) :
    f₀.Repaired f' (owners ++ calls.map Call.node) := by
  induction h generalizing owners with
  | nil => simpa using hrep
  | @cons i _ _ _ _ _ _ _ _ _ _ _ ihbelow ihrest =>
    have hbelow := ihbelow (hrep.relink hf i)
    simpa using ihrest hbelow

namespace Forest

variable {f g : Forest} {o c r : NodeId} {owners : List NodeId}

/-- **A repair links the children of the nodes of a tree**, and does nothing else. -/
theorem repair_repaired (hf : f.WellOwned) (hr : r < f.size) : f.Repaired (f.repair r) (f.preorder r) := by
  obtain ⟨calls, f', s', h⟩ := relink_detaching.exists_recursion hf [r] (.refl f) ()
  have hrep : f.Repaired f' (calls.map Call.node) := by simpa using h.repaired hf (.refl f)
  have hout : f.repair r = f' := congrArg Prod.fst (h.walk_eq relink_detaching hf hr)
  -- the walk ends on a forest with the same children, so its listing is one of the forest it started from
  have hlist : f.Listing [r] (calls.map Call.node) :=
    (h.listing relink_inPlace (h.nodup_of_root relink_detaching hf)).congr
      fun o _ => (hrep.children.children_eq o).symm
  rw [hout, (preorder_listing hf hr).1.unique hlist]
  exact hrep

theorem Repaired.size_eq (h : f.Repaired g owners) : g.size = f.size := h.children.size_eq

/-- Where the links are right already there is nothing to repair. -/
theorem Repaired.eq_of_linked (h : f.Repaired g owners)
    (hlinked : ∀ o ∈ owners, ∀ c, f.Owns o c → f.parent? c = some o) : g = f := by
  refine eq_of_get? fun c => ?_
  by_cases hc : ∃ o ∈ owners, f.Owns o c
  · obtain ⟨o, ho, hown⟩ := hc
    rw [h.linked ho hown]
    obtain ⟨n, hn, hp⟩ := exists_of_parent? (hlinked o ho c hown)
    rw [hn, Option.map_some, ← hp]
  · exact h.elsewhere fun o ho hown => hc ⟨o, ho, hown⟩

theorem Repaired.parent?_eq (h : f.Repaired g owners) (hf : f.WellOwned) (ho : o ∈ owners) (hown : f.Owns o c) :
    g.parent? c = some o := by
  obtain ⟨n, hn⟩ := get?_isSome (hf.bounded hown)
  rw [parent?, h.linked ho hown, hn]
  rfl

end Forest

/-- **A repair settles the links below a node and touches nothing else.** -/
theorem repair_settles_links (f : Forest) (r : NodeId) (hf : f.WellOwned) (hr : r < f.size) :
    (∀ c, TransGen f.Owns r c → ∀ o, f.Owns o c → (f.repair r).parent? c = some o) ∧
    (∀ rep, (f.repair r).audit r rep = (true, rep)) ∧
    (∀ c, ¬ TransGen f.Owns r c → (f.repair r).get? c = f.get? c) ∧ (f.repair r).get? r = f.get? r ∧
    (f.repair r).size = f.size ∧
    (∀ c n, f.get? c = some n → ∃ link, (f.repair r).get? c = some { n with parent := link }) ∧
    (f.repair r).repair r = f.repair r ∧
    ∀ rep, f.repair r = f ↔ (f.audit r rep).1 = true := by
  have hrep := Forest.repair_repaired hf hr
  have hf' : (f.repair r).WellOwned := hrep.children.wellOwned hf
  have hr' : r < (f.repair r).size := hrep.size_eq ▸ hr
  have hlinked : ∀ o, f.Below r o → ∀ c, f.Owns o c → (f.repair r).parent? c = some o := fun o ho c hown =>
    hrep.parent?_eq hf ((Forest.mem_preorder hf hr).2 ho) hown
  have hbelow : ∀ {i j}, (f.repair r).Below i j → f.Below i j := fun hb => hb.mono hrep.children.owns_iff.1
  have hkept : ∀ c, ¬ TransGen f.Owns r c → (f.repair r).get? c = f.get? c := fun c hc =>
    hrep.elsewhere fun o ho hown => hc (TransGen.tail'_iff.2 ⟨o, (Forest.mem_preorder hf hr).1 ho, hown⟩)
  have hstrays : (f.repair r).strays r = [] := by
    refine List.eq_nil_iff_forall_not_mem.2 ?_
    rintro ⟨o, c⟩ hstray
    obtain ⟨ho, hown, hp⟩ := (Forest.mem_strays hf' hr').1 hstray
    exact hp (hlinked o (hbelow ho) c (hrep.children.owns_iff.1 hown))
  refine ⟨fun c hc o hown => ?_, fun rep => ?_, hkept, hkept r (hf.acyclic r), hrep.size_eq, fun c n hn => ?_, ?_,
    fun rep => ?_⟩
  · obtain ⟨o', ho', hown'⟩ := TransGen.tail'_iff.1 hc
    exact hlinked o (hf.unique hown' hown ▸ ho') c hown
  · rw [Forest.audit_eq, hstrays]
    rfl
  · rcases hrep.exists_get? c with hc | ⟨o, hc⟩
    · exact ⟨n.parent, by rw [hc, hn]⟩
    · exact ⟨some o, by rw [hc, hn]; rfl⟩
  · refine (Forest.repair_repaired hf' hr').eq_of_linked fun o ho c hown => ?_
    exact hlinked o (hbelow ((Forest.mem_preorder hf' hr').1 ho)) c (hrep.children.owns_iff.1 hown)
  · have hsound : (f.audit r rep).1 = true ↔ f.strays r = [] := List.isEmpty_iff
    rw [hsound]
    constructor
    · intro he
      rwa [he] at hstrays
    · intro hnone
      refine hrep.eq_of_linked fun o ho c hown => ?_
      by_contra hp
      have hstray := (Forest.mem_strays hf hr).2 ⟨(Forest.mem_preorder hf hr).1 ho, hown, hp⟩
      rw [hnone] at hstray
      cases hstray

/-- Links in a circle: a block is linked to its first statement, that one to the second, and that one to the block. -/
def circularLinks : Forest :=
  ⟨#[{ form := .emptyStatement, parent := some 1 }, { form := .debuggerStatement, parent := some 2 },
    { form := .blockStatement, fields := [⟨.body, .many [some 0, some 1]⟩], parent := some 0 }]⟩

/-- The repair of the block links the statements to it and leaves its own link, which then closes a circle. -/
theorem repair_settles_links_circularLinks :
    circularLinks.WellOwned ∧ 2 < circularLinks.size ∧
      (circularLinks.audit 2 {}).1 = false ∧ circularLinks.repair 2 ≠ circularLinks ∧
      (circularLinks.repair 2).parent? 0 = some 2 ∧ (circularLinks.repair 2).parent? 2 = some 0 ∧
      (circularLinks.repair 2).audit 2 {} = (true, {}) ∧
      (circularLinks.repair 2).repair 2 = circularLinks.repair 2 := by
  have hf : circularLinks.WellOwned := Forest.wellOwned_of_older (by decide)
  obtain ⟨hlinked, haudit, -, hroot, -, -, htwice, hsame⟩ := repair_settles_links circularLinks 2 hf (by decide)
  have hfalse : (circularLinks.audit 2 {}).1 = false := by decide +kernel
  refine ⟨hf, by decide, hfalse, fun he => ?_, hlinked 0 (.single (by decide)) 2 (by decide), ?_, haudit {}, htwice⟩
  · exact absurd ((hsame {}).1 he) (by simp [hfalse])
  · rw [Forest.parent?, hroot]
    rfl

end ScriptTree
