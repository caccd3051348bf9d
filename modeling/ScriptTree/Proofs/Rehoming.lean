import Mathlib
import ScriptTree.Forest.Usage
import ScriptTree.Proofs.Ancestry

/-!
# Moved trees and what encloses them

In a tidy forest the links of a node lead along its owners. A construction or an edit sets the link of what it moves and
no other, so the lineages of a moved tree change above its root only: a tree that is attached gets the lineage of its
new owner at the end of its own (`Moved.exists_joined`), a tree that is taken out loses that end
(`Moved.exists_parted`), and all other lineages stay (`Moved.ascent_kept`). What encloses a node is the first of its
lineage of some kinds (`Forest.nearest?`), hence the answers of every moved tree:

* `Forest.Joined`: a node of a root that comes under an owner keeps the program, the function and the scope that
  enclosed it, and gets those of the owner where it had none;
* `Forest.Parted`: a node of a child that is taken out keeps what lies in the tree of that child, and has none else;
* `Forest.Unmoved`: a node outside of the moved trees, such as the owner of an edit, keeps what it has.

So it is with the file name, the location and the scope of a variable that was resolved to none.

**`moved_trees_rehomed`**: these answers of all nodes after every construction and every edit. What an edit takes out is
the child at its place, which is the one that it returns.
-/

namespace ScriptTree

namespace Forest

variable {f f' : Forest} {i j o c p owner : NodeId} {old new above nodes : List NodeId} {q : Kind → Bool}

/-! ## Links of tidy forests -/

theorem Tidy.parent?_of_owns (h : f.Tidy) (ho : f.Owns o i) : f.parent? i = some o := by
  by_contra hne
  exact h.placed i ⟨o, ho, hne⟩

theorem Tidy.owns_of_parent? (h : f.Tidy) (hp : f.parent? i = some p) : f.Owns p i := by
  obtain ⟨n, hn, -⟩ := exists_of_parent? hp
  by_cases ho : f.Owned i
  · obtain ⟨o, ho⟩ := ho
    rw [h.parent?_of_owns ho] at hp
    cases hp
    exact ho
  · rw [h.roots_unlinked i ⟨lt_size_of_get? hn, ho⟩] at hp
    cases hp

theorem Tidy.exists_ascent (h : f.Tidy) (hi : i < f.size) : ∃ nodes, f.Ascent i nodes := by
  obtain ⟨r, hr, hb⟩ := h.wellOwned.exists_root hi
  obtain ⟨path, hpath⟩ := hb.exists_descent
  exact ⟨_, hpath.ascent hr.1 (h.roots_unlinked r hr) fun c _ => h.placed c⟩

/-- The nodes of a lineage are the owners of the node. -/
theorem Tidy.below_of_ascent (h : f.Tidy) (ha : f.Ascent i nodes) (hj : j ∈ nodes) : f.Below j i := by
  induction ha with
  | top _ _ =>
    rw [List.mem_singleton.1 hj]
    exact .refl
  | link hp _ ih =>
    rcases List.mem_cons.1 hj with rfl | hj
    · exact .refl
    · exact (ih hj).tail (h.owns_of_parent? hp)

/-! ## Lineages after a move -/

/-- A step between tidy forests that puts the roots `new` under `owner` and takes its children `old` out, with their
links, and leaves the form and the line of every node. -/
structure Moved (f f' : Forest) (owner : NodeId) (old new : List NodeId) : Prop where
  before : f.Tidy
  after : f'.Tidy
  spliced : f.Spliced f' owner old new
  relinked : f.Relinked f' owner old new
  roots : ∀ c ∈ new, f.IsRoot c
  apart : ∀ c ∈ new, ¬ f.Below c owner
  owner_lt : owner < f'.size
  forms : ∀ i < f.size, (f'.get? i).map Node.form = (f.get? i).map Node.form
  lines : ∀ i < f.size, f'.line? i = f.line? i

theorem moved_of_construct {n : Node} (hf : f.Tidy) (hl : (Act.construct n).Licit f) (h : f.construct n = .ok (o, f')) :
    f.Moved f' o [] n.children := by
  have hp : f.perform (.construct n) = .ok f' := by simp [perform, h, Except.map]
  obtain ⟨rfl, hsize, hs⟩ := construct_spliced h
  refine ⟨hf, hf.perform rfl hl hp, hs, (construct_relinked h).2, hl.2, fun c hc hb => ?_,
    hsize ▸ Nat.lt_succ_self f.size, fun i hi => ?_, fun i hi => ?_⟩
  · exact Nat.lt_irrefl _ (hf.wellOwned.below_lt_size (hl.2 c hc).1 hb)
  · rw [construct_get? h, if_neg (Nat.ne_of_lt hi), Option.map_map]
    refine Option.map_congr fun m _ => ?_
    simp only [Function.comp_apply]
    split <;> rfl
  · unfold line?
    rw [construct_get? h, if_neg (Nat.ne_of_lt hi), Option.bind_map]
    refine Option.bind_congr fun m _ => ?_
    simp only [Function.comp_apply]
    split <;> rfl

theorem moved_of_edit {e : Edit} {out : Option NodeId} (hf : f.Tidy) (hl : (Act.edit e).Licit f)
    (h : f.edit e = .ok (out, f')) : f.Moved f' e.owner out.toList e.incoming?.toList := by
  have hp : f.perform (.edit e) = .ok f' := by simp [perform, h, Except.map]
  obtain ⟨n, -, hn, -⟩ := hl.1.exists_node
  have howner : e.owner < f.size := lt_size_of_get? hn
  refine ⟨hf, hf.perform rfl hl hp, edit_spliced hl.1 h, edit_relinked h, fun c hc => ?_, fun c hc => ?_,
    edit_size h ▸ howner, fun i _ => ?_, fun i _ => ?_⟩
  · exact (hl.2 c (Option.mem_toList.1 hc)).1
  · exact (hl.2 c (Option.mem_toList.1 hc)).2
  · rw [edit_get? h, Option.map_map]
    refine Option.map_congr fun n _ => ?_
    simp only [Function.comp_apply]
    split <;> rfl
  · unfold line?
    rw [edit_get? h, Option.bind_map]
    refine Option.bind_congr fun n _ => ?_
    simp only [Function.comp_apply]
    split <;> rfl

namespace Moved

theorem parent?_kept (h : f.Moved f' owner old new) (hi : i < f.size) (ho : i ∉ old) (hn : i ∉ new) :
    f'.parent? i = f.parent? i := by
  rw [h.relinked i hi, if_neg ho, if_neg hn]

/-- What has another owner than the one of the move keeps it. -/
theorem parent?_of_owns (h : f.Moved f' owner old new) (ho : f.Owns o i) (hne : o ≠ owner) : f'.parent? i = some o := by
  rw [h.parent?_kept (h.before.wellOwned.bounded ho), h.before.parent?_of_owns ho]
  · exact fun hi => hne (h.before.wellOwned.unique ho (h.spliced.owns_old hi))
  · exact fun hi => (h.roots i hi).2 ⟨o, ho⟩

theorem parent?_new (h : f.Moved f' owner old new) (hc : c ∈ new) : f'.parent? c = some owner :=
  h.after.parent?_of_owns (h.spliced.owns_new hc)

theorem parent?_old (h : f.Moved f' owner old new) (hp : p ∈ old) : f'.parent? p = none := by
  rw [h.relinked p (h.before.wellOwned.bounded (h.spliced.owns_old hp)), if_pos hp]

/-- **Lineages outside of the moved trees stay.** -/
theorem ascent_kept (h : f.Moved f' owner old new) (ha : f.Ascent i nodes)
    (hout : ∀ c ∈ old ++ new, ¬ f.Below c i) : f'.Ascent i nodes := by
  have hkept : ∀ {i}, i < f.size → (∀ c ∈ old ++ new, ¬ f.Below c i) → f'.parent? i = f.parent? i := by
    intro i hi hout
    apply h.parent?_kept hi
    · exact fun hm => hout i (List.mem_append_left _ hm) .refl
    · exact fun hm => hout i (List.mem_append_right _ hm) .refl
  induction ha with
  | top hi hp => exact .top (hi.trans_le h.spliced.size_le) ((hkept hi hout).trans hp)
  | link hp _ ih =>
    have ho := h.before.owns_of_parent? hp
    refine .link ((hkept (h.before.wellOwned.bounded ho) hout).trans hp) (ih fun c hc hb => ?_)
    exact hout c hc (hb.tail ho)

/-- **A lineage in an attached tree goes on with that of the owner.** -/
theorem exists_joined (h : f.Moved f' owner old new) (hc : c ∈ new) (howner : f'.Ascent owner above)
    (hi : f.Below c i) : ∃ nodes, f.Ascent i nodes ∧ f'.Ascent i (nodes ++ above) := by
  induction hi with
  | refl =>
    have hr := h.roots c hc
    exact ⟨[c], .top hr.1 (h.before.roots_unlinked c hr), .link (h.parent?_new hc) howner⟩
  | @tail o i hb ho ih =>
    obtain ⟨nodes, ha, ha'⟩ := ih
    have hne : o ≠ owner := fun he => h.apart c hc (he ▸ hb)
    exact ⟨i :: nodes, .link (h.before.parent?_of_owns ho) ha, .link (h.parent?_of_owns ho hne) ha'⟩

/-- **A lineage in a tree that is taken out ends there**, and went on with that of the owner. -/
theorem exists_parted (h : f.Moved f' owner old new) (hp : p ∈ old) (howner : f.Ascent owner above)
    (hi : f.Below p i) : ∃ nodes, f'.Ascent i nodes ∧ f.Ascent i (nodes ++ above) ∧ ∀ j ∈ nodes, f.Below p j := by
  have hown := h.spliced.owns_old hp
  have hlt : ∀ {j}, f.Below p j → j < f.size := h.before.wellOwned.below_lt_size (h.before.wellOwned.bounded hown)
  induction hi with
  | refl =>
    refine ⟨[p], .top ((hlt .refl).trans_le h.spliced.size_le) (h.parent?_old hp), ?_, fun j hj => ?_⟩
    · exact .link (h.before.parent?_of_owns hown) howner
    · rw [List.mem_singleton.1 hj]
      exact .refl
  | @tail o i hb ho ih =>
    obtain ⟨nodes, ha', ha, hnodes⟩ := ih
    have hne : o ≠ owner := fun he => h.before.wellOwned.not_below_owner hown (he ▸ hb)
    refine ⟨i :: nodes, .link (h.parent?_of_owns ho hne) ha', .link (h.before.parent?_of_owns ho) ha, fun j hj => ?_⟩
    rcases List.mem_cons.1 hj with rfl | hj
    · exact hb.tail ho
    · exact hnodes j hj

end Moved

/-! ## What encloses a node after a move -/

/-- The first node of a lineage whose kind has a property. -/
def nearest? (q : Kind → Bool) (f : Forest) (i : NodeId) : Option NodeId :=
  (f.lineage i).find? fun j => (f.kind? j).any q

/-- The queries for what encloses a node. -/
def enclosures : List (Forest → NodeId → Option NodeId) := [program?, function?, scope?]

theorem isKind_eq_any (k : Kind) : f.isKind k i = (f.kind? i).any (· == k) := by
  unfold isKind
  cases f.kind? i <;> rfl

/-- A search for one kind. -/
theorem find?_isKind (f : Forest) (k : Kind) (i : NodeId) :
    (f.lineage i).find? (f.isKind k) = nearest? (· == k) f i := by
  simp only [nearest?, funext fun j => isKind_eq_any (f := f) (i := j) k]

theorem program?_eq_nearest? : program? = nearest? (· == .program) := funext₂ fun f i => find?_isKind f .program i

theorem function?_eq_nearest? : function? = nearest? (· == .function) := funext₂ fun f i => find?_isKind f .function i

/-- Each query looks for the nearest node of some kinds. -/
theorem exists_nearest? {Q : Forest → NodeId → Option NodeId} (hQ : Q ∈ enclosures) : ∃ q, Q = nearest? q := by
  simp only [enclosures, List.mem_cons, List.not_mem_nil, or_false] at hQ
  rcases hQ with rfl | rfl | rfl
  · exact ⟨_, program?_eq_nearest?⟩
  · exact ⟨_, function?_eq_nearest?⟩
  · exact ⟨Kind.isScope, rfl⟩

namespace Moved

theorem kind?_eq (h : f.Moved f' owner old new) (hi : i < f.size) : f'.kind? i = f.kind? i := by
  have hform := congrArg (Option.map Form.kind) (h.forms i hi)
  rwa [Option.map_map, Option.map_map] at hform

/-- Old nodes are looked at as before. -/
theorem find?_eq (h : f.Moved f' owner old new) (hnodes : ∀ j ∈ nodes, j < f.size) :
    (nodes.find? fun j => (f'.kind? j).any q) = nodes.find? fun j => (f.kind? j).any q :=
  List.find?_congr fun j hj => by rw [h.kind?_eq (hnodes j hj)]

theorem nearest?_kept (h : f.Moved f' owner old new) (hi : i < f.size) (hout : ∀ c ∈ old ++ new, ¬ f.Below c i) :
    nearest? q f' i = nearest? q f i := by
  obtain ⟨nodes, ha⟩ := h.before.exists_ascent hi
  rw [nearest?, nearest?, (h.ascent_kept ha hout).lineage_eq, ha.lineage_eq, h.find?_eq fun j => ha.lt_size]

theorem nearest?_joined (h : f.Moved f' owner old new) (hc : c ∈ new) (hi : f.Below c i) :
    nearest? q f' i = (nearest? q f i).or (nearest? q f' owner) := by
  obtain ⟨above, howner⟩ := h.after.exists_ascent h.owner_lt
  obtain ⟨nodes, ha, ha'⟩ := h.exists_joined hc howner hi
  rw [nearest?, nearest?, nearest?, ha'.lineage_eq, ha.lineage_eq, howner.lineage_eq, List.find?_append,
    h.find?_eq fun j => ha.lt_size]

theorem nearest?_parted (h : f.Moved f' owner old new) (hp : p ∈ old) (hi : f.Below p i) (a : NodeId) :
    nearest? q f' i = some a ↔ nearest? q f i = some a ∧ f.Below p a := by
  have hown := h.spliced.owns_old hp
  obtain ⟨above, howner⟩ := h.before.exists_ascent hown.lt_size
  obtain ⟨nodes, ha', ha, hnodes⟩ := h.exists_parted hp howner hi
  rw [nearest?, nearest?, ha'.lineage_eq, ha.lineage_eq, List.find?_append,
    h.find?_eq fun j hj => ha.lt_size (List.mem_append_left _ hj)]
  cases hfind : nodes.find? fun j => (f.kind? j).any q with
  | some b =>
    rw [Option.some_or, iff_self_and]
    intro hb
    exact hnodes a (Option.some.inj hb ▸ List.mem_of_find?_eq_some hfind)
  | none =>
    -- what is found above the tree is not in it
    rw [Option.none_or]
    refine iff_of_false (by simp) fun ⟨hfound, hb⟩ => ?_
    have hmem := h.before.below_of_ascent howner (List.mem_of_find?_eq_some hfound)
    exact h.before.wellOwned.not_below_owner hown (hb.trans hmem)

end Moved

/-! ## The answers of the nodes -/

/-- The line of a node, in words. -/
def lineText (f : Forest) (i : NodeId) : String := ((f.line? i).map Numeral.ofInt).getD "?"

/-- A variable that was resolved to no scope. -/
def Unresolved (f : Forest) (i : NodeId) : Prop :=
  f.kind? i = some .name ∧ f.namesVariable i = true ∧ f.resolvedScope? i = none

/-- A node that comes under `owner` keeps what it had, and gets what it lacked from the owner. -/
structure Joined (f f' : Forest) (owner i : NodeId) : Prop where
  enclosing : ∀ Q ∈ enclosures, Q f' i = (Q f i).or (Q f' owner)
  filename : f'.filename? i = (f.filename? i).or (f'.filename? owner)
  located : f.filename? i ≠ none → f'.location i = f.location i
  relocated : f.filename? i = none → f'.location i = (f'.filename? owner).getD "<unknown>" ++ ":" ++ f.lineText i
  variableScope : f'.Unresolved i → f'.variableScope? i = (f.variableScope? i).or (f'.program? owner)

/-- A node that is taken out with the tree of `top` keeps what lies in that tree, and loses the rest. -/
structure Parted (f f' : Forest) (top i : NodeId) : Prop where
  enclosing : ∀ Q ∈ enclosures, ∀ a, Q f' i = some a ↔ Q f i = some a ∧ f.Below top a
  filename : ∀ file, f'.filename? i = some file ↔
    f.filename? i = some file ∧ ∃ a, f.program? i = some a ∧ f.Below top a
  located : f'.filename? i ≠ none → f'.location i = f.location i
  relocated : f'.filename? i = none → f'.location i = "<unknown>:" ++ f.lineText i
  variableScope : f.Unresolved i → ∀ a, f'.variableScope? i = some a ↔ f.variableScope? i = some a ∧ f.Below top a

/-- A node that is not moved keeps all answers. -/
structure Unmoved (f f' : Forest) (i : NodeId) : Prop where
  enclosing : ∀ Q ∈ enclosures, Q f' i = Q f i
  filename : f'.filename? i = f.filename? i
  location : f'.location i = f.location i
  variableScope : f'.variableScope? i = f.variableScope? i

theorem location_eq (f : Forest) (i : NodeId) :
    f.location i = (f.filename? i).getD "<unknown>" ++ ":" ++ f.lineText i := rfl

theorem program?_mem_enclosures : program? ∈ enclosures := List.mem_cons_self

/-- A name that is linked to nothing has no program. -/
theorem program?_of_unlinked (hk : f.kind? i = some .name) (hp : f.parent? i = none) : f.program? i = none := by
  obtain ⟨n, hn, -⟩ := Option.map_eq_some_iff.1 hk
  have ha : f.Ascent i [i] := .top (lt_size_of_get? hn) hp
  simp [program?, ha.lineage_eq, isKind, hk]

/-- The scope of an unresolved name is its program, if the name is linked to nothing or is a variable. -/
theorem variableScope?_eq_program? (hk : f.kind? i = some .name) (hr : f.resolvedScope? i = none)
    (h : f.parent? i = none ∨ f.namesVariable i = true) : f.variableScope? i = f.program? i := by
  rw [variableScope?, hr, Option.none_or]
  rcases h with hp | hv
  · rw [program?_of_unlinked hk hp, ite_self]
  · rw [if_pos hv]

namespace Moved

variable (h : f.Moved f' owner old new)
include h

theorem programName?_eq (hi : i < f.size) : f'.programName? i = f.programName? i := by
  unfold programName?
  rw [h.forms i hi]

theorem resolvedScope?_eq (hi : i < f.size) : f'.resolvedScope? i = f.resolvedScope? i := by
  unfold resolvedScope?
  rw [h.forms i hi]

theorem namesVariable_eq (hp : f'.parent? i = f.parent? i) : f'.namesVariable i = f.namesVariable i := by
  have hkind : f'.parentKind? i = f.parentKind? i := by
    rw [parentKind?, parentKind?, hp]
    refine Option.bind_congr fun p hp => ?_
    exact h.kind?_eq (h.before.owns_of_parent? hp).lt_size
  unfold namesVariable
  rw [hkind]

/-- The same program gives the same file name. -/
theorem filename?_eq (hprogram : f'.program? i = f.program? i) : f'.filename? i = f.filename? i := by
  rw [filename?, filename?, hprogram]
  refine Option.bind_congr fun a ha => ?_
  have hkind : f.kind? a = some .program := isKind_iff.1 (List.find?_some ha)
  obtain ⟨n, hn, -⟩ := Option.map_eq_some_iff.1 hkind
  exact h.programName?_eq (lt_size_of_get? hn)

theorem lineText_eq (hi : i < f.size) : f'.lineText i = f.lineText i := by
  rw [lineText, lineText, h.lines i hi]

/-- **Nodes outside of the moved trees keep their answers.** -/
theorem unmoved (hi : i < f.size) (hout : ∀ c ∈ old ++ new, ¬ f.Below c i) : f.Unmoved f' i := by
  have henclosing : ∀ Q ∈ enclosures, Q f' i = Q f i := by
    intro Q hQ
    obtain ⟨q, rfl⟩ := exists_nearest? hQ
    exact h.nearest?_kept hi hout
  have hprogram := henclosing program? program?_mem_enclosures
  have hfile := h.filename?_eq hprogram
  have hvariable : f'.namesVariable i = f.namesVariable i := by
    refine h.namesVariable_eq (h.parent?_kept hi ?_ ?_)
    · exact fun hm => hout i (List.mem_append_left _ hm) .refl
    · exact fun hm => hout i (List.mem_append_right _ hm) .refl
  refine ⟨henclosing, hfile, ?_, ?_⟩
  · rw [location_eq, location_eq, hfile, h.lineText_eq hi]
  · rw [variableScope?, variableScope?, hvariable, h.resolvedScope?_eq hi, hprogram]

/-- **Nodes of an attached tree get from the owner what they lacked.** -/
theorem joined (hc : c ∈ new) (hi : f.Below c i) : f.Joined f' owner i := by
  have hlt : i < f.size := h.before.wellOwned.below_lt_size (h.roots c hc).1 hi
  have henclosing : ∀ Q ∈ enclosures, Q f' i = (Q f i).or (Q f' owner) := by
    intro Q hQ
    obtain ⟨q, rfl⟩ := exists_nearest? hQ
    exact h.nearest?_joined hc hi
  have hprogram := henclosing program? program?_mem_enclosures
  have hfile : f'.filename? i = (f.filename? i).or (f'.filename? owner) := by
    cases hp : f.program? i with
    | none =>
      rw [filename?_eq_none_iff.2 hp, Option.none_or]
      rw [hp, Option.none_or] at hprogram
      rw [filename?, hprogram, filename?]
    | some a =>
      obtain ⟨file, hf⟩ := Option.ne_none_iff_exists'.1 (mt filename?_eq_none_iff.1 (hp ▸ Option.some_ne_none a))
      rw [hp, Option.some_or] at hprogram
      rw [h.filename?_eq (hprogram.trans hp.symm), hf, Option.some_or]
  refine ⟨henclosing, hfile, fun hsome => ?_, fun hnone => ?_, fun hunresolved => ?_⟩
  · obtain ⟨file, hf⟩ := Option.ne_none_iff_exists'.1 hsome
    rw [location_eq, location_eq, hfile, hf, Option.some_or, h.lineText_eq hlt]
  · rw [location_eq, hfile, hnone, Option.none_or, h.lineText_eq hlt]
  · obtain ⟨hk, hv, hr⟩ := hunresolved
    -- the root of the tree was no variable before, but had no program either
    have hbefore : f.parent? i = none ∨ f.namesVariable i = true := by
      rcases Relation.ReflTransGen.cases_tail hi with rfl | ⟨o, hb, ho⟩
      · exact Or.inl (h.before.roots_unlinked i (h.roots i hc))
      · have hne : o ≠ owner := fun he => h.apart c hc (he ▸ hb)
        have hparent := (h.parent?_of_owns ho hne).trans (h.before.parent?_of_owns ho).symm
        exact Or.inr (h.namesVariable_eq hparent ▸ hv)
    have hk' := h.kind?_eq hlt ▸ hk
    have hr' := h.resolvedScope?_eq hlt ▸ hr
    rw [variableScope?_eq_program? hk hr (Or.inr hv), variableScope?_eq_program? hk' hr' hbefore, hprogram]

/-- **Nodes of a tree that is taken out lose what lies above it.** -/
theorem parted (hp : p ∈ old) (hi : f.Below p i) : f.Parted f' p i := by
  have hown := h.spliced.owns_old hp
  have hlt : i < f.size := h.before.wellOwned.below_lt_size (h.before.wellOwned.bounded hown) hi
  have henclosing : ∀ Q ∈ enclosures, ∀ a, Q f' i = some a ↔ Q f i = some a ∧ f.Below p a := by
    intro Q hQ
    obtain ⟨q, rfl⟩ := exists_nearest? hQ
    exact h.nearest?_parted hp hi
  have hprogram := henclosing program? program?_mem_enclosures
  have hkept : f'.filename? i ≠ none → f'.filename? i = f.filename? i ∧ ∃ a, f.program? i = some a ∧ f.Below p a := by
    intro hsome
    obtain ⟨a, ha⟩ := Option.ne_none_iff_exists'.1 (mt filename?_eq_none_iff.2 hsome)
    obtain ⟨hfound, hb⟩ := (hprogram a).1 ha
    exact ⟨h.filename?_eq (ha.trans hfound.symm), a, hfound, hb⟩
  refine ⟨henclosing, fun file => ⟨fun hf => ?_, ?_⟩, fun hsome => ?_, fun hnone => ?_, fun hunresolved a => ?_⟩
  · obtain ⟨hsame, hin⟩ := hkept (by simp [hf])
    exact ⟨hsame ▸ hf, hin⟩
  · rintro ⟨hf, a, ha, hb⟩
    rw [h.filename?_eq (((hprogram a).2 ⟨ha, hb⟩).trans ha.symm), hf]
  · rw [location_eq, location_eq, (hkept hsome).1, h.lineText_eq hlt]
  · rw [location_eq, hnone, h.lineText_eq hlt]
    rfl
  · obtain ⟨hk, hv, hr⟩ := hunresolved
    -- the root of the tree is no variable any more, but has no program either
    have hafter : f'.parent? i = none ∨ f'.namesVariable i = true := by
      rcases Relation.ReflTransGen.cases_tail hi with rfl | ⟨o, hb, ho⟩
      · exact Or.inl (h.parent?_old hp)
      · have hne : o ≠ owner := fun he => h.before.wellOwned.not_below_owner hown (he ▸ hb)
        have hparent := (h.parent?_of_owns ho hne).trans (h.before.parent?_of_owns ho).symm
        exact Or.inr ((h.namesVariable_eq hparent).trans hv)
    have hk' := (h.kind?_eq hlt).trans hk
    have hr' := (h.resolvedScope?_eq hlt).trans hr
    rw [variableScope?_eq_program? hk hr (Or.inr hv), variableScope?_eq_program? hk' hr' hafter]
    exact hprogram a

/-- The owner is in none of the moved trees. -/
theorem owner_unmoved (howner : owner < f.size) : f.Unmoved f' owner := by
  refine h.unmoved howner fun c hc => ?_
  rcases List.mem_append.1 hc with hc | hc
  · exact h.before.wellOwned.not_below_owner (h.spliced.owns_old hc)
  · exact h.apart c hc

end Moved

end Forest

/-- **A moved tree is re-homed, and nothing else is**, in a tidy forest by every construction and every edit. -/
theorem moved_trees_rehomed (f f' : Forest) (hf : f.Tidy) :
    (∀ (n : Node) (o : NodeId), (Act.construct n).Licit f → f.construct n = .ok (o, f') →
      (∀ c ∈ n.children, ∀ i, f.Below c i → f.Joined f' o i) ∧
      ∀ i < f.size, (∀ c ∈ n.children, ¬ f.Below c i) → f.Unmoved f' i) ∧
    ∀ (e : Edit) (out : Option NodeId), (Act.edit e).Licit f → f.edit e = .ok (out, f') →
      out = e.outgoing? f ∧
      (∀ c, e.incoming? = some c → ∀ i, f.Below c i → f.Joined f' e.owner i) ∧
      (∀ p, e.outgoing? f = some p → ∀ i, f.Below p i → f.Parted f' p i) ∧
      f.Unmoved f' e.owner ∧
      ∀ i < f.size, (∀ c, e.incoming? = some c ∨ e.outgoing? f = some c → ¬ f.Below c i) → f.Unmoved f' i := by
  refine ⟨fun n o hl h => ?_, fun e out hl h => ?_⟩
  · have hm := Forest.moved_of_construct hf hl h
    exact ⟨fun c hc i hi => hm.joined hc hi, fun i hi hout => hm.unmoved hi (by simpa using hout)⟩
  · obtain rfl := Forest.out_eq_outgoing? h
    have hm := Forest.moved_of_edit hf hl h
    refine ⟨rfl, fun c hc i hi => hm.joined (Option.mem_toList.2 hc) hi,
      fun p hp i hi => hm.parted (Option.mem_toList.2 hp) hi, hm.owner_unmoved (Forest.edit_size h ▸ hm.owner_lt),
      fun i hi hout => hm.unmoved hi fun c hc => hout c ?_⟩
    simpa [or_comm] using hc

/-- A program with a labeled function declaration, and a statement that stands alone. -/
def functionAndStatement : Forest :=
  ⟨#[{ form := .name "x" none, parent := some 1 },
    { form := .nameExpression, fields := [⟨.name, .one (some 0)⟩], parent := some 2 },
    { form := .expressionStatement, fields := [⟨.expression, .one (some 1)⟩], parent := some 3 },
    { form := .function, fields := [⟨.name, .one none⟩, ⟨.params, .many []⟩, ⟨.body, .one (some 2)⟩],
      parent := some 4 },
    { form := .functionDeclaration, fields := [⟨.function, .one (some 3)⟩], parent := some 6 },
    { form := .name "L" none, parent := some 6 },
    { form := .labeledStatement, fields := [⟨.label, .one (some 5)⟩, ⟨.body, .one (some 4)⟩], parent := some 7 },
    { form := .program "a.js", fields := [⟨.body, .many [some 6]⟩] },
    { form := .name "y" none, parent := some 9, span := { line := some 3 } },
    { form := .nameExpression, fields := [⟨.name, .one (some 8)⟩], parent := some 10 },
    { form := .expressionStatement, fields := [⟨.expression, .one (some 9)⟩] }]⟩

theorem functionAndStatement_tidy : functionAndStatement.Tidy where
  wellOwned := Forest.wellOwned_of_older (by decide)
  placed := Forest.placed_of_forall (by decide)
  roots_unlinked := by
    have h : ∀ c < functionAndStatement.size, functionAndStatement.IsRoot c →
        functionAndStatement.parent? c = none := by
      decide
    exact fun c hc => h c hc.1 hc

/-- The statement takes the place of the declaration, or the labeled statement is taken out of its program, or a program
is built over the statement. -/
theorem moved_trees_rehomed_functionAndStatement :
    functionAndStatement.Tidy ∧
    (∃ f', functionAndStatement.edit (.replace 6 .body (some 10)) = .ok (some 4, f') ∧
      functionAndStatement.program? 0 = some 7 ∧ f'.program? 0 = none ∧ f'.function? 0 = some 3 ∧
      f'.variableScope? 0 = none ∧
      f'.program? 8 = some 7 ∧ f'.location 8 = "a.js:3" ∧ f'.variableScope? 8 = some 7 ∧ f'.program? 5 = some 7) ∧
    (∃ f', functionAndStatement.edit (.remove 7 .body 0) = .ok (some 6, f') ∧ f'.filename? 0 = none ∧
      f'.function? 0 = some 3 ∧ f'.scope? 0 = some 3 ∧ f'.scope? 5 = none ∧ f'.program? 7 = some 7) ∧
    ∃ f', functionAndStatement.construct { form := .program "b.js", fields := [⟨.body, .many [some 10]⟩] } =
        .ok (11, f') ∧ f'.filename? 8 = some "b.js" ∧ f'.filename? 0 = some "a.js" := by
  have hf := functionAndStatement_tidy
  have hbelow : ∀ {i j}, j ∈ functionAndStatement.preorder i → i < functionAndStatement.size →
      functionAndStatement.Below i j := fun hj hi => (Forest.mem_preorder hf.wellOwned hi).1 hj
  have hnot : ∀ {i j}, j ∉ functionAndStatement.preorder i → i < functionAndStatement.size →
      ¬ functionAndStatement.Below i j := fun hj hi hb => hj ((Forest.mem_preorder hf.wellOwned hi).2 hb)
  have h10 : functionAndStatement.IsRoot 10 := by decide
  have h8 : functionAndStatement.Below 10 8 := hbelow (by decide +kernel) (by decide)
  have h0 : functionAndStatement.Below 4 0 := hbelow (by decide +kernel) (by decide)
  have hfunction : Forest.function? ∈ Forest.enclosures := by simp [Forest.enclosures]
  have hscope : Forest.scope? ∈ Forest.enclosures := by simp [Forest.enclosures]
  refine ⟨hf, ?_, ?_, ?_⟩
  · obtain ⟨f', hedit, hy⟩ : ∃ f', functionAndStatement.edit (.replace 6 .body (some 10)) = .ok (some 4, f') ∧
        f'.Unresolved 8 := ⟨_, rfl, rfl, rfl, rfl⟩
    have hl : (Act.edit (.replace 6 .body (some 10))).Licit functionAndStatement := by
      refine ⟨⟨_, rfl⟩, fun c hc => ?_⟩
      cases hc
      exact ⟨h10, hnot (by decide +kernel) (by decide)⟩
    obtain ⟨-, hin, hout, howner, hother⟩ := (moved_trees_rehomed _ f' hf).2 _ _ hl hedit
    have hjoined := hin 10 rfl 8 h8
    have hparted := hout 4 rfl 0 h0
    have hunmoved := hother 5 (by decide) (by
      rintro c (hc | hc) <;> cases hc <;> exact hnot (by decide +kernel) (by decide))
    have hprogram : functionAndStatement.program? 0 = some 7 := by decide +kernel
    have hlost : ∀ a, ¬ (functionAndStatement.program? 0 = some a ∧ functionAndStatement.Below 4 a) := by
      rintro a ⟨ha, hb⟩
      rw [hprogram] at ha
      cases ha
      exact hnot (by decide +kernel) (by decide) hb
    have hgained : f'.program? 6 = some 7 :=
      (howner.enclosing _ Forest.program?_mem_enclosures).trans (by decide +kernel)
    refine ⟨f', hedit, hprogram, ?_, ?_, ?_, ?_, ?_, ?_, ?_⟩
    · refine Option.eq_none_iff_forall_ne_some.2 fun a ha => hlost a ?_
      exact (hparted.enclosing _ Forest.program?_mem_enclosures a).1 ha
    · refine (hparted.enclosing _ hfunction 3).2 ⟨by decide +kernel, ?_⟩
      exact hbelow (by decide +kernel) (by decide)
    · refine Option.eq_none_iff_forall_ne_some.2 fun a ha => hlost a ?_
      rw [← Forest.variableScope?_eq_program? rfl rfl (Or.inr rfl)]
      exact (hparted.variableScope ⟨rfl, rfl, rfl⟩ a).1 ha
    · rw [hjoined.enclosing _ Forest.program?_mem_enclosures]
      exact (congrArg _ hgained).trans (by decide +kernel)
    · rw [hjoined.relocated (by decide +kernel), howner.filename]
      decide +kernel
    · rw [hjoined.variableScope hy]
      exact (congrArg _ hgained).trans (by decide +kernel)
    · exact (hunmoved.enclosing _ Forest.program?_mem_enclosures).trans (by decide +kernel)
  · obtain ⟨f', hedit⟩ : ∃ f', functionAndStatement.edit (.remove 7 .body 0) = .ok (some 6, f') := ⟨_, rfl⟩
    have hl : (Act.edit (.remove 7 .body 0)).Licit functionAndStatement := ⟨⟨_, rfl⟩, fun c hc => by cases hc⟩
    obtain ⟨-, -, hout, howner, -⟩ := (moved_trees_rehomed _ f' hf).2 _ _ hl hedit
    have hname := hout 6 rfl 0 (hbelow (by decide +kernel) (by decide))
    have hlabel := hout 6 rfl 5 (hbelow (by decide +kernel) (by decide))
    have h3 : functionAndStatement.Below 6 3 := hbelow (by decide +kernel) (by decide)
    -- the program is the first of the lineage above the labeled statement
    have hlost : ∀ {a}, a = 7 → ¬ functionAndStatement.Below 6 a := by
      rintro a rfl
      exact hnot (by decide +kernel) (by decide)
    refine ⟨f', hedit, ?_, ?_, ?_, ?_, ?_⟩
    · refine Option.eq_none_iff_forall_ne_some.2 fun file hfile => ?_
      obtain ⟨-, a, ha, hb⟩ := (hname.filename file).1 hfile
      exact hlost (Option.some.inj (ha.symm.trans (by decide +kernel))) hb
    · exact (hname.enclosing _ hfunction 3).2 ⟨by decide +kernel, h3⟩
    · exact (hname.enclosing _ hscope 3).2 ⟨by decide +kernel, h3⟩
    · refine Option.eq_none_iff_forall_ne_some.2 fun a ha => ?_
      obtain ⟨ha, hb⟩ := (hlabel.enclosing _ hscope a).1 ha
      exact hlost (Option.some.inj (ha.symm.trans (by decide +kernel))) hb
    · exact (howner.enclosing _ Forest.program?_mem_enclosures).trans (by decide +kernel)
  · obtain ⟨f', hconstruct, hnew⟩ : ∃ f', functionAndStatement.construct
        { form := .program "b.js", fields := [⟨.body, .many [some 10]⟩] } = .ok (11, f') ∧
          f'.filename? 11 = some "b.js" := ⟨_, rfl, by decide +kernel⟩
    obtain ⟨hin, hother⟩ := (moved_trees_rehomed _ f' hf).1 _ _ ⟨by decide, by decide⟩ hconstruct
    have hunmoved := hother 0 (by decide) (by
      intro c hc
      obtain rfl := List.mem_singleton.1 hc
      exact hnot (by decide +kernel) (by decide))
    refine ⟨f', hconstruct, ?_, hunmoved.filename.trans (by decide +kernel)⟩
    rw [(hin 10 (by decide) 8 h8).filename, hnew]
    decide +kernel

end ScriptTree
