import Mathlib
import ScriptTree.Proofs.Preorder
import ScriptTree.Proofs.Splice

/-!
# Walks that edit the tree

The work list of `Forest.walk` holds nodes that were read from the forest some time ago, while the callback goes on
changing it. Callbacks that attach no node cannot tell: the walk makes the calls of the recursive procedure and leaves
what that leaves. Surveys are such walks, also when they take the first statement out of each block they come to.

**`walk_agrees_with_recursion`**: with a callback that attaches no node, both the recursion and the loop over a work
list end, after the same calls and with the same single outcome, and `Forest.walk` makes these calls and has this
outcome. The survey that takes the first statement out of each block visits the pre-order of the tree that is left, and
no node that it took out.
-/

namespace ScriptTree

variable {f f' : Forest} {i root owner : NodeId} {old : List NodeId}

/-- Taking out without putting in leaves fewer children. -/
theorem Forest.Spliced.thinned (hs : f.Spliced f' owner old []) : f.Thinned f' := by
  intro o
  by_cases ho : o = owner
  · subst ho
    obtain ⟨before, after, h₁, h₂⟩ := hs.at_owner
    rw [h₁, h₂, List.append_nil]
    exact ((List.sublist_append_left before old).append_right after).subperm
  · rw [hs.elsewhere o ho]

namespace Survey

/-- What shortening a block does: nothing, or a removal. -/
theorem shorten_cases (f : Forest) (i : NodeId) :
    shorten f i = f ∨ ∃ out, f.remove i .body 0 = .ok (out, shorten f i) := by
  unfold shorten
  split
  · cases h : f.remove i .body 0 with
    | error m => exact Or.inl rfl
    | ok r => exact Or.inr ⟨r.1, rfl⟩
  · exact Or.inl rfl

theorem shorten_thinned (f : Forest) (i : NodeId) : f.Thinned (shorten f i) := by
  rcases shorten_cases f i with h | ⟨out, h⟩
  · rw [h]
    exact .refl f
  · exact (Forest.remove_spliced h).thinned

theorem shorten_elsewhere (f : Forest) {o : NodeId} (ho : o ≠ i) : (shorten f i).children o = f.children o := by
  rcases shorten_cases f i with h | ⟨out, h⟩
  · rw [h]
  · exact (Forest.remove_spliced h).elsewhere o ho

theorem size_shorten (f : Forest) (i : NodeId) : (shorten f i).size = f.size := by
  rcases shorten_cases f i with h | ⟨out, h⟩
  · rw [h]
  · exact Forest.edit_size (e := .remove i .body 0) h

theorem visit_forest (o : Survey) (i : NodeId) (f : Forest) (seen : Array NodeId) :
    (o.visit i f seen).forest = f ∨ (o.visit i f seen).forest = shorten f i := by
  unfold visit
  cases o.dropFirst with
  | false => exact Or.inl rfl
  | true => exact Or.inr rfl

/-- A survey attaches no node. -/
theorem visit_detaching (o : Survey) : Detaching o.visit := by
  intro i f seen
  rcases o.visit_forest i f seen with h | h
  · rw [h]
    exact .refl f
  · rw [h]
    exact shorten_thinned f i

theorem size_visit (o : Survey) (i : NodeId) (f : Forest) (seen : Array NodeId) :
    (o.visit i f seen).forest.size = f.size := by
  rcases o.visit_forest i f seen with h | h
  · rw [h]
  · rw [h, size_shorten]

/-- A survey without limits goes everywhere, and changes the blocks it is at. -/
theorem visit_inPlace : InPlace (visit { dropFirst := true }) where
  descend i f seen := by cases h : f.kind? i <;> simp [visit, h]
  elsewhere i f seen o ho := shorten_elsewhere f ho

/-- A survey keeps count of what it visits. -/
theorem visited_eq (o : Survey) {pending : List NodeId} {seen seen' : Array NodeId} {calls : List (Call (Array NodeId))}
    (h : Recursion o.visit pending f seen calls f' seen') : seen'.toList = seen.toList ++ calls.map Call.node := by
  induction h with
  | nil => simp
  | cons _ _ ihbelow ihrest =>
    rw [ihrest, ihbelow]
    simp [visit]

/-- A survey that shortens blocks visits the pre-order of what it leaves, and nothing that it took out. -/
theorem run_dropFirst {visited : List NodeId} (hf : f.WellOwned) (hroot : root < f.size)
    (hrun : run { dropFirst := true } f root = (f', visited)) :
    visited = f'.preorder root ∧ ∀ c, f.Owned c → ¬ f'.Owned c → c ∉ visited := by
  have hv := visit_detaching { dropFirst := true }
  obtain ⟨calls, f'', seen', h⟩ := hv.exists_recursion hf [root] (.refl f) #[]
  have hnodup := h.nodup_of_root hv hf
  have hseen : seen'.toList = calls.map Call.node := by simpa using visited_eq _ h
  have hout : run { dropFirst := true } f root = (f'', calls.map Call.node) := by
    rw [run, h.walk_eq hv hf hroot, ← hseen]
  obtain ⟨rfl, rfl⟩ := Prod.mk.inj (hrun.symm.trans hout)
  have hsize : f'.size = f.size := by
    have hkept := Forest.walkFrom_invariant (P := fun g => g.size = f.size)
      (fun i g seen hg => (size_visit { dropFirst := true } i g seen).trans hg) f.size [root] f #[] rfl
    rwa [← Forest.walk, h.walk_eq hv hf hroot] at hkept
  have hf' : f'.WellOwned := (h.thinned hv).wellOwned hsize.ge hf
  have hlist := h.listing visit_inPlace hnodup
  refine ⟨hlist.unique (Forest.preorder_listing hf' (hsize ▸ hroot)).1, fun c hc hc' hmem => ?_⟩
  obtain ⟨i, hi, hb⟩ := hlist.mem_iff.1 hmem
  rw [List.mem_singleton.1 hi] at hb
  rcases Relation.ReflTransGen.cases_tail hb with rfl | ⟨o, _, ho⟩
  · -- the owner of the start is above it, so it is not visited and keeps its children
    obtain ⟨o, ho⟩ := hc
    refine hc' ⟨o, ?_⟩
    rw [Forest.Owns, h.frame visit_inPlace fun hm => ?_]
    · exact ho
    · obtain ⟨j, hj, hb'⟩ := hlist.mem_iff.1 hm
      rw [List.mem_singleton.1 hj] at hb'
      exact hf.not_below_owner ho ((h.thinned hv).below hb')
  · exact hc' ⟨o, ho⟩

end Survey

/-- **A walk is the recursive procedure, also when the callback edits the tree.** -/
theorem walk_agrees_with_recursion :
    (∀ {σ : Type} (visit : NodeId → Forest → σ → Step σ), Detaching visit →
      ∀ (f : Forest) (root : NodeId) (s : σ), f.WellOwned → root < f.size →
        ∃ calls f' s', (∀ cs g t, Recursion visit [root] f s cs g t ↔ cs = calls ∧ g = f' ∧ t = s') ∧
          Loop visit [root] f s calls f' s' ∧
          f.walk root (s, []) (recorded visit) = (f', s', calls) ∧ f.walk root s visit = (f', s')) ∧
    ∀ (f f' : Forest) (root : NodeId) (visited : List NodeId), f.WellOwned → root < f.size →
      Survey.run { dropFirst := true } f root = (f', visited) →
        visited = f'.preorder root ∧ ∀ c, f.Owned c → ¬ f'.Owned c → c ∉ visited := by
  refine ⟨fun visit hv f root s hf hroot => ?_, fun f f' root visited => Survey.run_dropFirst⟩
  obtain ⟨calls, f', s', h⟩ := hv.exists_recursion hf [root] (.refl f) s
  refine ⟨calls, f', s', fun cs g t => ⟨fun h' => h'.unique h, ?_⟩, h.loop, h.walk_recorded_eq hv hf hroot,
    h.walk_eq hv hf hroot⟩
  rintro ⟨rfl, rfl, rfl⟩
  exact h

/-- A block with two statements. -/
def twoStatements : Forest :=
  ⟨#[{ form := .emptyStatement, parent := some 2 }, { form := .debuggerStatement, parent := some 2 },
    { form := .blockStatement, fields := [⟨.body, .many [some 0, some 1]⟩] }]⟩

theorem twoStatements_wellOwned : twoStatements.WellOwned := Forest.wellOwned_of_older (by decide)

/-- The survey of the block takes the first statement out and visits the block and the second one. -/
theorem walk_agrees_with_recursion_twoStatements :
    Detaching (Survey.visit { dropFirst := true }) ∧ twoStatements.WellOwned ∧ 2 < twoStatements.size ∧
      (∃ calls f' seen, Recursion (Survey.visit { dropFirst := true }) [2] twoStatements #[] calls f' seen ∧
        twoStatements.walk 2 #[] (Survey.visit { dropFirst := true }) = (f', seen) ∧ seen.toList = [2, 1]) ∧
      (Survey.run { dropFirst := true } twoStatements 2).1.preorder 2 = [2, 1] := by
  have hv := Survey.visit_detaching { dropFirst := true }
  have hw := twoStatements_wellOwned
  have hseen : (Survey.run { dropFirst := true } twoStatements 2).2 = [2, 1] := by decide +kernel
  refine ⟨hv, hw, by decide, ?_, ?_⟩
  · obtain ⟨calls, f', seen, h, -, -, he⟩ := walk_agrees_with_recursion.1 _ hv twoStatements 2 #[] hw (by decide)
    refine ⟨calls, f', seen, (h _ _ _).2 ⟨rfl, rfl, rfl⟩, he, ?_⟩
    rwa [Survey.run, he] at hseen
  · exact (walk_agrees_with_recursion.2 twoStatements _ 2 _ hw (by decide) rfl).1.symm.trans hseen

end ScriptTree
