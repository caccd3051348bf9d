import Mathlib
import ScriptTree.Proofs.Survey

/-!
# Pruned walks

A callback that says not to descend at a node takes the nodes below it out of a walk. What is left is told from the
answers alone, though these may depend on all that was visited before: nodes wait in the work list while other nodes are
visited, and no answer reaches those that wait.

* `KeepsChildren`: callbacks that leave every node its children;
* `Recursion.exists_entered`, `Recursion.visited_of_entered`: one step down, a node is visited if and only if the answer
  at its owner was to descend;
* `Recursion.sublist_preorder`: the order of the visits.

**`walk_visits_unpruned`**: a walk calls such a callback at most once for each node. A node of the tree is visited if
and only if the answer was to descend at every node above it, up to the root, and it is not visited if and only if it
lies below a node where the answer was not to descend. So no answer takes out a node outside the tree of the node that
it was given for. The visits are in pre-order.
-/

namespace ScriptTree

open Relation

variable {σ : Type} {visit : NodeId → Forest → σ → Step σ} {pending : List NodeId} {f f₀ f' : Forest} {s s' : σ}
  {calls : List (Call σ)} {i j a c root : NodeId}

/-- A callback that does not change the children of any node. -/
def KeepsChildren (visit : NodeId → Forest → σ → Step σ) : Prop :=
  ∀ i (f : Forest) s, f.SameChildren (visit i f s).forest

/-- What a callback said at a call: whether to descend. -/
def Call.answer (visit : NodeId → Forest → σ → Step σ) (call : Call σ) : Bool :=
  (visit call.node call.forest call.state).descend

/-- A node was visited, and the answer was to descend. -/
def Entered (visit : NodeId → Forest → σ → Step σ) (calls : List (Call σ)) (i : NodeId) : Prop :=
  ∃ call ∈ calls, call.node = i ∧ call.answer visit = true

theorem Forest.SameChildren.thinned (h : f.SameChildren f') : f.Thinned f' := fun o => by
  rw [h.children_eq]

namespace KeepsChildren

theorem detaching (hv : KeepsChildren visit) : Detaching visit := fun i f s => (hv i f s).thinned

theorem below_eq (hv : KeepsChildren visit) (h : f₀.SameChildren f) (i : NodeId) (s : σ) :
    (visit i f s).below i = if (visit i f s).descend then f₀.children i else [] := by
  rw [Step.below, (hv i f s).children_eq, h.children_eq]

end KeepsChildren

theorem Survey.keepsChildren (o : Survey) (h : o.dropFirst = false) : KeepsChildren o.visit := by
  intro i f seen
  have hforest : (o.visit i f seen).forest = f := by simp [visit, h]
  rw [hforest]
  exact .refl f

theorem Entered.mono {calls' : List (Call σ)} (hs : calls ⊆ calls') (h : Entered visit calls i) :
    Entered visit calls' i := by
  obtain ⟨call, hcall, he, ha⟩ := h
  exact ⟨call, hs hcall, he, ha⟩

namespace Recursion

theorem sameChildren (hv : KeepsChildren visit) (h : Recursion visit pending f s calls f' s') : f.SameChildren f' := by
  induction h with
  | nil f s => exact .refl f
  | @cons i _ f _ _ s _ _ _ _ _ _ ihbelow ihrest => exact ((hv i f s).trans ihbelow).trans ihrest

/-- What is pending is visited. -/
theorem mem_of_pending (h : Recursion visit pending f s calls f' s') (hi : i ∈ pending) : i ∈ calls.map Call.node := by
  induction h with
  | nil => cases hi
  | @cons j rest f f₁ f₂ s s₁ s₂ calls calls' _ _ _ ihrest =>
    rw [List.map_cons, List.map_append]
    rcases List.mem_cons.1 hi with rfl | hi
    · exact List.mem_cons_self
    · exact List.mem_cons_of_mem _ (List.mem_append_right _ (ihrest hi))

/-- The children of a node are visited if the answer there was to descend. -/
theorem visited_of_entered (hv : KeepsChildren visit) (h : Recursion visit pending f s calls f' s')
    (hs : f₀.SameChildren f) (ha : Entered visit calls a) (hc : f₀.Owns a c) : c ∈ calls.map Call.node := by
  induction h with
  | nil => obtain ⟨call, hcall, -⟩ := ha; cases hcall
  | @cons j rest f f₁ f₂ s s₁ s₂ calls calls' hbelow hrest ihbelow ihrest =>
    have hs' : f₀.SameChildren (visit j f s).forest := hs.trans (hv j f s)
    rw [List.map_cons, List.map_append]
    refine List.mem_cons_of_mem _ (List.mem_append.2 ?_)
    obtain ⟨call, hcall, rfl, hanswer⟩ := ha
    rcases List.mem_cons.1 hcall with rfl | hcall
    · -- the children come next
      refine Or.inl (hbelow.mem_of_pending ?_)
      rw [hv.below_eq hs, if_pos (show (visit j f s).descend = true from hanswer)]
      exact hc
    rcases List.mem_append.1 hcall with hcall | hcall
    · exact Or.inl (ihbelow hs' ⟨call, hcall, rfl, hanswer⟩)
    · exact Or.inr (ihrest (hs'.trans (hbelow.sameChildren hv)) ⟨call, hcall, rfl, hanswer⟩)

/-- What is visited was pending, or the answer at its owner was to descend. -/
theorem exists_entered (hv : KeepsChildren visit) (h : Recursion visit pending f s calls f' s')
    (hs : f₀.SameChildren f) (hi : i ∈ calls.map Call.node) :
    i ∈ pending ∨ ∃ a, Entered visit calls a ∧ f₀.Owns a i := by
  induction h with
  | nil => cases hi
  | @cons j rest f f₁ f₂ s s₁ s₂ calls calls' hbelow hrest ihbelow ihrest =>
    have hs' : f₀.SameChildren (visit j f s).forest := hs.trans (hv j f s)
    rw [List.map_cons, List.map_append] at hi
    rcases List.mem_cons.1 hi with rfl | hi
    · exact Or.inl List.mem_cons_self
    rcases List.mem_append.1 hi with hi | hi
    · refine Or.inr ?_
      rcases ihbelow hs' hi with hmem | ⟨a, ha, ho⟩
      · rw [hv.below_eq hs] at hmem
        split at hmem
        · next hd => exact ⟨j, ⟨⟨j, f, s⟩, List.mem_cons_self, rfl, hd⟩, hmem⟩
        · cases hmem
      · exact ⟨a, ha.mono fun call hc => List.mem_cons_of_mem _ (List.mem_append_left _ hc), ho⟩
    · rcases ihrest (hs'.trans (hbelow.sameChildren hv)) hi with hmem | ⟨a, ha, ho⟩
      · exact Or.inl (List.mem_cons_of_mem _ hmem)
      · exact Or.inr ⟨a, ha.mono fun call hc => List.mem_cons_of_mem _ (List.mem_append_right _ hc), ho⟩

/-- **The visits keep to the order of the full walk.** -/
theorem sublist_preorder (hv : KeepsChildren visit) (hf : f₀.WellOwned) (h : Recursion visit pending f s calls f' s')
    (hs : f₀.SameChildren f) (hp : ∀ i ∈ pending, i < f₀.size) :
    (calls.map Call.node).Sublist (pending.flatMap f₀.preorder) := by
  induction h with
  | nil => exact List.Sublist.slnil
  | @cons i rest f f₁ f₂ s s₁ s₂ calls calls' hbelow hrest ihbelow ihrest =>
    have hs' : f₀.SameChildren (visit i f s).forest := hs.trans (hv i f s)
    have hchildren : ((visit i f s).below i).Sublist (f₀.children i) := by
      rw [hv.below_eq hs]
      split
      · exact List.Sublist.refl _
      · exact List.nil_sublist _
    have hbelow' := ihbelow hs' fun c hc => hf.bounded (hchildren.subset hc)
    have hrest' := ihrest (hs'.trans (hbelow.sameChildren hv)) fun j hj => hp j (List.mem_cons_of_mem i hj)
    rw [List.map_cons, List.map_append, List.flatMap_cons, Forest.preorder_eq hf (hp i List.mem_cons_self),
      List.cons_append]
    exact ((hbelow'.trans (hchildren.flatMap _)).append hrest').cons_cons i

end Recursion

/-! ## Walks from a root -/

section Walks

variable (hv : KeepsChildren visit) (h : Recursion visit [root] f s calls f' s')

include hv h

/-- The answer was to descend at all nodes above a visited one, up to the root. -/
theorem Recursion.entered_above (hf : f.WellOwned) (hj : j ∈ calls.map Call.node) (hroot : f.Below root a)
    (ha : TransGen f.Owns a j) : Entered visit calls a := by
  -- the owner of a visited node was entered, which is visited in turn
  have howner : ∀ {o c}, c ∈ calls.map Call.node → f.Below root o → f.Owns o c → Entered visit calls o := by
    intro o c hc hro ho
    rcases h.exists_entered hv (.refl f) hc with hmem | ⟨o', ho', hc'⟩
    · rw [List.mem_singleton.1 hmem] at ho
      exact absurd hro (hf.not_below_owner ho)
    · exact hf.unique hc' ho ▸ ho'
  induction ha with
  | single ho => exact howner hj hroot ho
  | tail hab hbc ih =>
    obtain ⟨call, hcall, rfl, -⟩ := howner hj (hroot.trans hab.to_reflTransGen) hbc
    exact ih (List.mem_map_of_mem hcall)

/-- A node is visited if the answer was to descend at all nodes above it. -/
theorem Recursion.visited_of_above (hj : f.Below root j)
    (ha : ∀ a, f.Below root a → TransGen f.Owns a j → Entered visit calls a) : j ∈ calls.map Call.node := by
  rcases ReflTransGen.cases_tail hj with rfl | ⟨o, hro, ho⟩
  · exact h.mem_of_pending List.mem_cons_self
  · exact h.visited_of_entered hv (.refl f) (ha o hro (.single ho)) ho

/-- A node that is not visited lies below one where the answer was not to descend. -/
theorem Recursion.exists_refusal (hj : f.Below root j) (hn : j ∉ calls.map Call.node) :
    ∃ call ∈ calls, call.answer visit = false ∧ TransGen f.Owns call.node j := by
  induction hj with
  | refl => exact absurd (h.mem_of_pending List.mem_cons_self) hn
  | @tail o j hro ho ih =>
    by_cases hvisited : o ∈ calls.map Call.node
    · obtain ⟨call, hcall, rfl⟩ := List.mem_map.1 hvisited
      refine ⟨call, hcall, ?_, .single ho⟩
      by_contra hanswer
      exact hn (h.visited_of_entered hv (.refl f) ⟨call, hcall, rfl, by simpa using hanswer⟩ ho)
    · obtain ⟨call, hcall, hanswer, hab⟩ := ih hvisited
      exact ⟨call, hcall, hanswer, hab.tail ho⟩

/-- Nothing below a node where the answer was not to descend is visited. -/
theorem Recursion.not_visited_of_refusal (hf : f.WellOwned) {call : Call σ} (hcall : call ∈ calls)
    (hanswer : call.answer visit = false) (hj : TransGen f.Owns call.node j) : j ∉ calls.map Call.node := by
  intro hvisited
  have hroot : f.Below root call.node := by
    obtain ⟨i, hi, hb⟩ := h.exists_below hv.detaching call hcall
    exact List.mem_singleton.1 hi ▸ hb
  obtain ⟨call', hcall', he, hanswer'⟩ := h.entered_above hv hf hvisited hroot hj
  -- there is one call for each node, with one answer
  have hsame : call' = call := List.inj_on_of_nodup_map (h.nodup_of_root hv.detaching hf) hcall' hcall he
  rw [hsame, hanswer] at hanswer'
  cases hanswer'

end Walks

/-- **A pruned walk visits what is not pruned**, once and in pre-order. -/
theorem walk_visits_unpruned {σ : Type} (visit : NodeId → Forest → σ → Step σ) (hv : KeepsChildren visit) (f : Forest)
    (root : NodeId) (s : σ) (hf : f.WellOwned) (hroot : root < f.size) :
    ∃ calls f' s', f.walk root (s, []) (recorded visit) = (f', s', calls) ∧ f.walk root s visit = (f', s') ∧
      (calls.map Call.node).Nodup ∧
      (∀ j, f.Below root j → (j ∈ calls.map Call.node ↔
        ∀ a, f.Below root a → TransGen f.Owns a j → Entered visit calls a)) ∧
      (∀ j, f.Below root j → (j ∉ calls.map Call.node ↔
        ∃ call ∈ calls, call.answer visit = false ∧ TransGen f.Owns call.node j)) ∧
      (calls.map Call.node).Sublist (f.preorder root) ∧
      ∀ i < f.size, f.preorder i = i :: (f.children i).flatMap f.preorder := by
  obtain ⟨calls, f', s', h⟩ := hv.detaching.exists_recursion hf [root] (.refl f) s
  refine ⟨calls, f', s', h.walk_recorded_eq hv.detaching hf hroot, h.walk_eq hv.detaching hf hroot,
    h.nodup_of_root hv.detaching hf, fun j hj => ?_, fun j hj => ?_, ?_, fun i hi => Forest.preorder_eq hf hi⟩
  · exact ⟨fun hvisited a => h.entered_above hv hf hvisited, h.visited_of_above hv hj⟩
  · exact ⟨h.exists_refusal hv hj, fun ⟨call, hcall, hanswer, hab⟩ =>
      h.not_visited_of_refusal hv hf hcall hanswer hab⟩
  · simpa using h.sublist_preorder hv hf (.refl f) (by simpa using hroot)

/-- A block with a block and a statement after it. -/
def nestedBlocks : Forest :=
  ⟨#[{ form := .emptyStatement, parent := some 1 },
    { form := .blockStatement, fields := [⟨.body, .many [some 0]⟩], parent := some 3 },
    { form := .debuggerStatement, parent := some 3 },
    { form := .blockStatement, fields := [⟨.body, .many [some 1, some 2]⟩] }]⟩

theorem nestedBlocks_wellOwned : nestedBlocks.WellOwned := Forest.wellOwned_of_older (by decide)

/-- A survey stops to descend after two nodes. The statement after the inner block is visited all the same; the one in
it is not, since the answer at the inner block was not to descend. -/
theorem walk_visits_unpruned_nestedBlocks :
    KeepsChildren (Survey.visit { limit := some 2 }) ∧ nestedBlocks.WellOwned ∧ 3 < nestedBlocks.size ∧
      ∃ calls f' seen, nestedBlocks.walk 3 (#[], []) (recorded (Survey.visit { limit := some 2 })) = (f', seen, calls) ∧
        calls.map Call.node = [3, 1, 2] ∧ Entered (Survey.visit { limit := some 2 }) calls 3 ∧
        ∃ call ∈ calls, call.answer (Survey.visit { limit := some 2 }) = false ∧
          TransGen nestedBlocks.Owns call.node 0 := by
  have hv := Survey.keepsChildren { limit := some 2 } rfl
  have howns : nestedBlocks.Owns 3 2 ∧ nestedBlocks.Owns 3 1 ∧ nestedBlocks.Owns 1 0 := by decide
  have hbelow : nestedBlocks.Below 3 2 ∧ nestedBlocks.Below 3 0 :=
    ⟨howns.1.below, howns.2.1.below.trans howns.2.2.below⟩
  have hnodes : (nestedBlocks.walk 3 (#[], []) (recorded (Survey.visit { limit := some 2 }))).2.2.map Call.node =
      [3, 1, 2] := by decide +kernel
  obtain ⟨calls, f', seen, hwalk, -, -, hvisited, hmissed, -, -⟩ :=
    walk_visits_unpruned _ hv nestedBlocks 3 #[] nestedBlocks_wellOwned (by decide)
  rw [hwalk] at hnodes
  refine ⟨hv, nestedBlocks_wellOwned, by decide, calls, f', seen, hwalk, hnodes, ?_, ?_⟩
  · exact (hvisited 2 hbelow.1).1 (by rw [hnodes]; decide) 3 .refl (.single howns.1)
  · exact (hmissed 0 hbelow.2).1 (by rw [hnodes]; decide)

end ScriptTree
