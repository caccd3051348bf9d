import Mathlib
import ScriptTree.Forest.Links
import ScriptTree.Proofs.Survey

/-!
# Sessions

A session performs one act after the other on a forest that starts empty: it builds nodes over roots, edits, pushes to
lists, sets links, repairs links and walks. `Act.Licit` says what a caller has to see to: a node that is moved in is a
root, and its tree does not contain the new owner. `Run f acts f'` is a session without a refused act.

* `Run.wellOwned`: ownership stays a forest, whatever is done to the links.

**`run_conserves_nodes`**: after every session, a node is a root or stands in one place under one owner, and not both,
and owners lead from it up to a root. The trees of the roots share out all nodes, so that their sizes add up to the
number of nodes built.
-/

namespace ScriptTree

/-- What can be done to a forest. -/
inductive Act where
  | construct (n : Node)
  | edit (e : Edit)
  /-- Puts a child, or a hole, at the end of a list and leaves the links as they are. -/
  | pushRaw (owner : NodeId) (role : Role) (child : Option NodeId)
  /-- Sets a link, or clears it. -/
  | link (i : NodeId) (owner : Option NodeId)
  | repair (root : NodeId)
  | survey (o : Survey) (root : NodeId)

namespace Act

/-- Acts that build and edit, and so keep the links in step. -/
def isTended : Act → Bool
  | construct _ | edit _ => true
  | pushRaw _ _ _ | link _ _ | repair _ | survey _ _ => false

def isConstruct : Act → Bool
  | construct _ => true
  | _ => false

/-- What a caller sees to before an act: places exist, and what is moved in is a root from elsewhere. -/
def Licit (f : Forest) : Act → Prop
  | construct n => n.children.Nodup ∧ ∀ c ∈ n.children, f.IsRoot c
  | edit e => e.Fits f ∧ ∀ c, e.incoming? = some c → f.IsRoot c ∧ ¬ f.Below c e.owner
  | pushRaw owner role child =>
    (∃ items, f.content? owner role = some (.many items)) ∧ ∀ c, child = some c → f.IsRoot c ∧ ¬ f.Below c owner
  | link _ _ | repair _ | survey _ _ => True

end Act

/-- The forest after an act. -/
def Forest.perform (f : Forest) : Act → Except Misuse Forest
  | .construct n => (f.construct n).map (·.2)
  | .edit e => (f.edit e).map (·.2)
  | .pushRaw owner role child => .ok (f.pushRaw owner role child)
  | .link i owner => .ok (f.link i owner)
  | .repair root => .ok (f.repair root)
  | .survey o root => .ok (o.run f root).1

/-- A session in which every act is licit and none is refused. -/
inductive Run : Forest → List Act → Forest → Prop
  | nil (f : Forest) : Run f [] f
  | cons {f f₁ f₂ : Forest} {a : Act} {acts : List Act} :
      a.Licit f → f.perform a = .ok f₁ → Run f₁ acts f₂ → Run f (a :: acts) f₂

variable {f f' : Forest} {a : Act} {acts : List Act} {n : Node} {e : Edit} {i c : NodeId} {out : Option NodeId}

/-- What each act keeps, a session keeps. -/
theorem Run.invariant {P : Forest → Prop} {Q : Act → Prop}
    (step : ∀ {a f f'}, Q a → P f → a.Licit f → f.perform a = .ok f' → P f') (h : Run f acts f')
    (hQ : ∀ a ∈ acts, Q a) (hP : P f) : P f' := by
  induction h with
  | nil => exact hP
  | @cons f f₁ f₂ a acts hl hp _ ih =>
    exact ih (fun b hb => hQ b (List.mem_cons_of_mem a hb)) (step (hQ a List.mem_cons_self) hP hl hp)

theorem Run.append {f f₁ f₂ : Forest} {acts acts' : List Act} (h : Run f acts f₁) (h' : Run f₁ acts' f₂) :
    Run f (acts ++ acts') f₂ := by
  induction h with
  | nil => exact h'
  | cons hl hp _ ih => exact .cons hl hp (ih h')

namespace Forest

theorem exists_of_map_snd {α : Type} {x : Except Misuse (α × Forest)} (h : x.map (·.2) = .ok f') :
    ∃ r, x = .ok (r, f') := by
  cases x with
  | error m => cases h
  | ok r => cases h; exact ⟨r.1, rfl⟩

/-- Repairing links is no change of ownership. -/
theorem repair_sameChildren (f : Forest) (root : NodeId) : f.SameChildren (f.repair root) :=
  walkFrom_invariant (P := f.SameChildren) (fun i g _ hg => hg.trans (linkAll_sameChildren i (g.children i) g))
    f.size [root] f () (.refl f)

/-- A survey takes children out at most. -/
theorem survey_thinned (f : Forest) (o : Survey) (root : NodeId) :
    f.Thinned (o.run f root).1 ∧ (o.run f root).1.size = f.size :=
  walkFrom_invariant (P := fun g => f.Thinned g ∧ g.size = f.size)
    (fun i g seen hg => ⟨hg.1.trans (o.visit_detaching i g seen), (o.size_visit i g seen).trans hg.2⟩)
    f.size [root] f #[] ⟨.refl f, rfl⟩

/-- **Every licit act keeps a forest well owned.** -/
theorem perform_wellOwned (hf : f.WellOwned) (hl : a.Licit f) (h : f.perform a = .ok f') : f'.WellOwned := by
  cases a with
  | construct n =>
    obtain ⟨i, hc⟩ := exists_of_map_snd h
    exact construct_wellOwned hf hl.1 hl.2 hc
  | edit e =>
    obtain ⟨out, he⟩ := exists_of_map_snd h
    exact (edit_spliced hl.1 he).wellOwned_of_child hf hl.2
  | pushRaw owner role child =>
    cases h
    obtain ⟨⟨items, hi⟩, hin⟩ := hl
    exact (pushRaw_spliced hi child).wellOwned_of_child hf hin
  | link i owner =>
    cases h
    exact (link_sameChildren f i owner).wellOwned hf
  | repair root =>
    cases h
    exact (repair_sameChildren f root).wellOwned hf
  | survey o root =>
    cases h
    obtain ⟨ht, hs⟩ := survey_thinned f o root
    exact ht.wellOwned hs.ge hf

/-- Building makes a node, and nothing else makes or loses one. -/
theorem perform_size (h : f.perform a = .ok f') : f'.size = f.size + if a.isConstruct then 1 else 0 := by
  cases a with
  | construct n =>
    obtain ⟨i, hc⟩ := exists_of_map_snd h
    exact (construct_spliced hc).2.1
  | edit e =>
    obtain ⟨out, he⟩ := exists_of_map_snd h
    exact edit_size he
  | pushRaw owner role child =>
    cases h
    exact size_setContent f owner role _
  | link i owner =>
    cases h
    exact size_link f i owner
  | repair root =>
    cases h
    exact (repair_sameChildren f root).size_eq
  | survey o root =>
    cases h
    exact (survey_thinned f o root).2

end Forest

/-- **Ownership is a forest after every session.** -/
theorem Run.wellOwned (h : Run f acts f') (hf : f.WellOwned) : f'.WellOwned :=
  h.invariant (Q := fun _ => True) (fun _ hf hl hp => Forest.perform_wellOwned hf hl hp) (fun _ _ => trivial) hf

theorem Run.size_eq (h : Run f acts f') : f'.size = f.size + acts.countP Act.isConstruct := by
  induction h with
  | nil => rfl
  | cons _ hp _ ih =>
    rw [ih, Forest.perform_size hp, List.countP_cons]
    omega

namespace Forest.WellOwned

/-- A node that is not a root has one place under one owner, and a root has none. -/
theorem root_xor_placed (h : f.WellOwned) (hi : i < f.size) :
    Xor (f.IsRoot i) (∃! p : NodeId × Nat, (f.children p.1)[p.2]? = some i) := by
  by_cases ho : f.Owned i
  · obtain ⟨o, ho⟩ := ho
    obtain ⟨k, hk⟩ := List.mem_iff_getElem?.1 ho
    refine Or.inr ⟨⟨(o, k), hk, ?_⟩, fun hr => hr.2 ⟨o, ho⟩⟩
    rintro ⟨o', k'⟩ hk'
    have he : o' = o := h.unique (List.mem_iff_getElem?.2 ⟨k', hk'⟩) ho
    subst he
    have hlt : k' < (f.children o').length := (List.getElem?_eq_some_iff.1 hk').1
    rw [(List.getElem?_inj hlt (h.nodup o')).1 (hk'.trans hk.symm)]
  · refine Or.inl ⟨⟨hi, ho⟩, ?_⟩
    rintro ⟨⟨o, k⟩, hk, -⟩
    exact ho ⟨o, List.mem_iff_getElem?.2 ⟨k, hk⟩⟩

/-- **The trees of the roots share out the nodes of the forest.** -/
theorem preorders_perm (h : f.WellOwned) : (f.roots.flatMap f.preorder).Perm (List.range f.size) := by
  have hnodup : (f.roots.flatMap f.preorder).Nodup := by
    refine List.nodup_flatMap.2 ⟨fun r hr => nodup_preorder h (mem_roots.1 hr).1, ?_⟩
    have hroots : f.roots.Nodup := List.nodup_range.filter _
    refine hroots.imp_of_mem fun {r r'} hr hr' hne k hk hk' => hne ?_
    have hr := mem_roots.1 hr
    have hr' := mem_roots.1 hr'
    exact h.roots_apart hr hr' ((mem_preorder h hr.1).1 hk) ((mem_preorder h hr'.1).1 hk')
  refine (List.perm_ext_iff_of_nodup hnodup List.nodup_range).2 fun k => ?_
  rw [List.mem_flatMap, List.mem_range]
  constructor
  · rintro ⟨r, hr, hk⟩
    have hr := (mem_roots.1 hr).1
    exact h.below_lt_size hr ((mem_preorder h hr).1 hk)
  · intro hk
    obtain ⟨r, hr, hb⟩ := h.exists_root hk
    exact ⟨r, mem_roots.2 hr, (mem_preorder h hr.1).2 hb⟩

theorem sum_count (h : f.WellOwned) : (f.roots.map f.count).sum = f.size := by
  have hcount : f.roots.map f.count = f.roots.map fun r => (f.preorder r).length :=
    List.map_congr_left fun r hr => count_eq h (mem_roots.1 hr).1
  rw [hcount, ← List.length_flatMap, h.preorders_perm.length_eq, List.length_range]

end Forest.WellOwned

/-- **Nodes are conserved**: each is a root or has one place, and the trees of the roots share out all nodes. -/
theorem run_conserves_nodes (acts : List Act) (f : Forest) (h : Run {} acts f) :
    (∀ i < f.size, Xor (f.IsRoot i) (∃! p : NodeId × Nat, (f.children p.1)[p.2]? = some i)) ∧
    (∀ i < f.size, ∃ r, f.IsRoot r ∧ Relation.ReflTransGen f.Owns r i) ∧
    (f.roots.flatMap f.preorder).Perm (List.range f.size) ∧
    (f.roots.map f.count).sum = f.size ∧ f.size = acts.countP Act.isConstruct := by
  have hf : f.WellOwned := h.wellOwned Forest.wellOwned_empty
  refine ⟨fun i hi => hf.root_xor_placed hi, fun i hi => hf.exists_root hi, hf.preorders_perm, hf.sum_count, ?_⟩
  simpa [Forest.size] using h.size_eq

/-- How a block with two statements is built. -/
def buildTwoStatements : List Act :=
  [.construct { form := .emptyStatement }, .construct { form := .debuggerStatement },
    .construct { form := .blockStatement, fields := [⟨.body, .many [some 0, some 1]⟩] }]

theorem run_buildTwoStatements : Run {} buildTwoStatements twoStatements := by
  have h₀ : ({} : Forest).perform (.construct { form := .emptyStatement }) = .ok ⟨#[{ form := .emptyStatement }]⟩ := rfl
  have h₁ : Forest.perform ⟨#[{ form := .emptyStatement }]⟩ (.construct { form := .debuggerStatement }) =
      .ok ⟨#[{ form := .emptyStatement }, { form := .debuggerStatement }]⟩ := rfl
  refine .cons ⟨by decide, by decide⟩ h₀ (.cons ⟨by decide, by decide⟩ h₁ ?_)
  exact .cons ⟨by decide, by decide⟩ rfl (.nil _)

/-- A statement cut off its block by its link, and then taken out by a survey. -/
theorem run_conserves_nodes_survey :
    let acts := buildTwoStatements ++ [.link 0 none, .survey { dropFirst := true } 2]
    let f : Forest := ⟨#[{ form := .emptyStatement }, { form := .debuggerStatement, parent := some 2 },
      { form := .blockStatement, fields := [⟨.body, .many [some 1]⟩] }]⟩
    Run {} acts f ∧ f.roots = [0, 2] ∧ (f.roots.map f.count).sum = 3 := by
  intro acts f
  have hlink : twoStatements.perform (.link 0 none) =
      .ok ⟨#[{ form := .emptyStatement }, { form := .debuggerStatement, parent := some 2 },
        { form := .blockStatement, fields := [⟨.body, .many [some 0, some 1]⟩] }]⟩ := rfl
  have hrun : Run {} acts f := run_buildTwoStatements.append (.cons trivial hlink (.cons trivial rfl (.nil f)))
  exact ⟨hrun, by decide +kernel, (run_conserves_nodes acts f hrun).2.2.2.1⟩

end ScriptTree
