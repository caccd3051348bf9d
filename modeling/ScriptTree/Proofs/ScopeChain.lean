import Mathlib
import ScriptTree.Proofs.Audit
import ScriptTree.Proofs.Rehoming

/-!
# Scope by scope

Programs and functions are scopes, so a search for one of them may go from scope to scope. Nothing is asked of the links
here but that they end: they may lead through nodes that own nothing of what is linked to them.

* `Forest.Ascent.nearest?_eq`: one step of a search, which ends at the node or goes on where its link leads.
* `Forest.Ascent.nearest?_of_scope?`: a search for scopes of some kinds has the answer of the nearest scope.
* `Forest.outerScope?`: the scopes found one after the other, each from the parent of the one before. They are the
  scopes of the lineage in their order (`Forest.Ascent.outerScope?_eq`), and every search for scopes of some kinds ends
  at the first of these kinds among them (`Forest.Ascent.nearest?_eq_find?`).

**`searches_factor_through_scopes`**: where no scope encloses a node, no function and no program does. The nearest scope
is its own nearest scope, and the function and the program that enclose it are those of the node. The scopes found one
after the other come to an end, and the function and the program of the node are the first ones among them.
-/

namespace ScriptTree

theorem Kind.isScope_of_beq {k k' : Kind} (hk : k.isScope = true) (h : (k' == k) = true) : k'.isScope = true := by
  rwa [beq_iff_eq.1 h]

namespace Forest

variable {f : Forest} {i s : NodeId} {nodes above : List NodeId} {q : Kind → Bool}

/-! ## One step of a search -/

theorem scope?_eq_nearest? : scope? = nearest? Kind.isScope := rfl

theorem isScope_of_any (hq : ∀ k, q k = true → k.isScope = true) (h : (f.kind? i).any q = true) :
    f.isScope i = true := by
  obtain ⟨k, hk, hqk⟩ := (Option.any_eq_true _ _).1 h
  exact (Option.any_eq_true _ _).2 ⟨k, hk, hq k hqk⟩

namespace Ascent

/-- **A search ends at a node of the right kind, and else goes on where the link leads.** -/
theorem nearest?_eq (h : f.Ascent i nodes) :
    nearest? q f i = if (f.kind? i).any q then some i else (f.parent? i).bind (nearest? q f) := by
  cases h with
  | top hi hp =>
    rw [nearest?, (Ascent.top hi hp).lineage_eq, hp, List.find?_singleton, Option.bind_none]
  | link hp habove =>
    rw [nearest?, (Ascent.link hp habove).lineage_eq, hp, Option.bind_some, nearest?, habove.lineage_eq,
      List.find?_cons]
    cases (f.kind? i).any q <;> rfl

theorem scope?_of_isScope (h : f.Ascent i nodes) (hi : f.isScope i = true) : f.scope? i = some i := by
  rw [scope?_eq_nearest?, h.nearest?_eq]
  exact if_pos hi

/-- A node that is no scope is passed by every search for scopes. -/
theorem nearest?_of_not_isScope (h : f.Ascent i nodes) (hq : ∀ k, q k = true → k.isScope = true)
    (hi : f.isScope i = false) : nearest? q f i = (f.parent? i).bind (nearest? q f) := by
  rw [h.nearest?_eq, if_neg]
  intro hany
  rw [isScope_of_any hq hany] at hi
  cases hi

theorem scope?_of_not_isScope (h : f.Ascent i nodes) (hi : f.isScope i = false) :
    f.scope? i = (f.parent? i).bind f.scope? :=
  h.nearest?_of_not_isScope (fun _ hk => hk) hi

/-! ## The nearest scope -/

/-- One link of `nearest?_of_scope?`. -/
theorem nearest?_of_scope?_link (h : f.Ascent i nodes) (hq : ∀ k, q k = true → k.isScope = true)
    (hs : f.scope? i = some s)
    (habove : ∀ p, f.parent? i = some p → f.scope? p = some s → nearest? q f p = nearest? q f s) :
    nearest? q f i = nearest? q f s := by
  cases hscope : f.isScope i with
  | true =>
    rw [h.scope?_of_isScope hscope] at hs
    rw [Option.some.inj hs]
  | false =>
    rw [h.scope?_of_not_isScope hscope] at hs
    obtain ⟨p, hp, hps⟩ := Option.bind_eq_some_iff.1 hs
    rw [h.nearest?_of_not_isScope hq hscope, hp]
    exact habove p hp hps

/-- **A search for scopes of some kinds has the answer of the nearest scope.** -/
theorem nearest?_of_scope? (h : f.Ascent i nodes) (hq : ∀ k, q k = true → k.isScope = true)
    (hs : f.scope? i = some s) : nearest? q f i = nearest? q f s := by
  -- along the links, since nothing is known of the owners
  induction h with
  | top hi hp =>
    refine (Ascent.top hi hp).nearest?_of_scope?_link hq hs fun p hp' _ => ?_
    rw [hp] at hp'
    cases hp'
  | link hp habove ih =>
    refine (Ascent.link hp habove).nearest?_of_scope?_link hq hs fun p hp' hps => ?_
    rw [hp] at hp'
    cases hp'
    exact ih hps

end Ascent

/-- Where there is no scope, there is none of some kinds. -/
theorem nearest?_eq_none_of_scope? (hq : ∀ k, q k = true → k.isScope = true) (hs : f.scope? i = none) :
    nearest? q f i = none := by
  rw [nearest?, List.find?_eq_none]
  intro j hj hany
  exact List.find?_eq_none.1 hs j hj (isScope_of_any hq hany)

/-! ## From scope to scope -/

/-- The scope found after `k` others, if each search starts from the parent of the scope found before. -/
def outerScope? (f : Forest) : Nat → NodeId → Option NodeId
  | 0, i => f.scope? i
  | k + 1, i => ((f.scope? i).bind f.parent?).bind (f.outerScope? k)

namespace Ascent

theorem outerScope?_of_not_isScope (h : f.Ascent i nodes) (hi : f.isScope i = false) (k : Nat) :
    f.outerScope? k i = (f.parent? i).bind (f.outerScope? k) := by
  have hscope : f.scope? i = (f.parent? i).bind f.scope? := h.scope?_of_not_isScope hi
  cases k with
  | zero => exact hscope
  | succ k =>
    rw [outerScope?, hscope, Option.bind_assoc, Option.bind_assoc]
    refine Option.bind_congr fun p _ => ?_
    rw [outerScope?, Option.bind_assoc]

/-- One link of `outerScope?_eq`: a scope is found first, and any other node is passed. -/
theorem outerScope?_link (h : f.Ascent i (i :: above))
    (habove : ∀ k, (f.parent? i).bind (f.outerScope? k) = (above.filter f.isScope)[k]?) (k : Nat) :
    f.outerScope? k i = ((i :: above).filter f.isScope)[k]? := by
  cases hscope : f.isScope i with
  | true =>
    rw [List.filter_cons_of_pos hscope]
    cases k with
    | zero => exact h.scope?_of_isScope hscope
    | succ k => rw [outerScope?, h.scope?_of_isScope hscope, Option.bind_some, habove, List.getElem?_cons_succ]
  | false => rw [List.filter_cons_of_neg (Bool.eq_false_iff.1 hscope), h.outerScope?_of_not_isScope hscope, habove]

/-- **The scopes found one after the other are those of the lineage, in order.** -/
theorem outerScope?_eq (h : f.Ascent i nodes) (k : Nat) : f.outerScope? k i = (nodes.filter f.isScope)[k]? := by
  induction h generalizing k with
  | top hi hp =>
    refine (Ascent.top hi hp).outerScope?_link (fun k => ?_) k
    rw [hp]
    rfl
  | link hp habove ih =>
    refine (Ascent.link hp habove).outerScope?_link (fun k => ?_) k
    rw [hp]
    exact ih k

/-- **Every search for scopes of some kinds ends at the first of these kinds among the scopes of the lineage.** -/
theorem nearest?_eq_find? (h : f.Ascent i nodes) (hq : ∀ k, q k = true → k.isScope = true) :
    nearest? q f i = (nodes.filter f.isScope).find? fun j => (f.kind? j).any q := by
  rw [nearest?, h.lineage_eq, List.find?_filter]
  refine List.find?_congr fun j _ => ?_
  cases hany : (f.kind? j).any q with
  | true => simp [isScope_of_any hq hany]
  | false => simp

theorem find?_isKind_eq (h : f.Ascent i nodes) {k : Kind} (hk : k.isScope = true) :
    (f.lineage i).find? (f.isKind k) = (nodes.filter f.isScope).find? (f.kind? · = some k) := by
  rw [find?_isKind, h.nearest?_eq_find? fun _ => Kind.isScope_of_beq hk]
  refine List.find?_congr fun j _ => ?_
  rw [← isKind_eq_any, Bool.eq_iff_iff, isKind_iff, decide_eq_true_iff]

end Ascent

end Forest

/-- **Searches for functions and programs go from scope to scope**, whatever the links are that end. -/
theorem searches_factor_through_scopes (f : Forest) (i : NodeId) (hlinks : f.LinksEnd) (hi : i < f.size) :
    (f.scope? i = none → f.function? i = none ∧ f.program? i = none) ∧
    (∀ s, f.scope? i = some s →
      f.scope? s = some s ∧ f.function? i = f.function? s ∧ f.program? i = f.program? s) ∧
    ∃ chain scopes, f.Ascent i chain ∧
      scopes = chain.filter
        (fun j => ∃ k ∈ [Kind.program, .function, .arrowFunction, .catchClause], f.kind? j = some k) ∧
      (∀ k, f.outerScope? k i = scopes[k]?) ∧
      f.function? i = scopes.find? (f.kind? · = some .function) ∧
      f.program? i = scopes.find? (f.kind? · = some .program) := by
  obtain ⟨chain, hchain⟩ := hlinks.exists_ascent hi
  have hfunction : ∀ k : Kind, (k == .function) = true → k.isScope = true := fun _ => Kind.isScope_of_beq rfl
  have hprogram : ∀ k : Kind, (k == .program) = true → k.isScope = true := fun _ => Kind.isScope_of_beq rfl
  refine ⟨fun hs => ?_, fun s hs => ?_, chain, chain.filter f.isScope, hchain, ?_, hchain.outerScope?_eq, ?_, ?_⟩
  · rw [Forest.function?_eq_nearest?, Forest.program?_eq_nearest?]
    exact ⟨Forest.nearest?_eq_none_of_scope? hfunction hs, Forest.nearest?_eq_none_of_scope? hprogram hs⟩
  · rw [Forest.function?_eq_nearest?, Forest.program?_eq_nearest?]
    refine ⟨?_, hchain.nearest?_of_scope? hfunction hs, hchain.nearest?_of_scope? hprogram hs⟩
    -- the search for any scope is one of these searches too
    exact (hchain.nearest?_of_scope? (fun _ hk => hk) hs).symm.trans hs
  · exact List.filter_congr fun j _ => Bool.eq_iff_iff.2 (Forest.isScope_iff.trans decide_eq_true_iff.symm)
  · exact hchain.find?_isKind_eq rfl
  · exact hchain.find?_isKind_eq rfl

/-- A statement of an arrow function that is linked to a catch clause, from which links lead to a program and then to a
function. -/
def crossedScopes : Forest :=
  ⟨#[{ form := .emptyStatement, parent := some 4 },
    { form := .arrowFunction, fields := [⟨.params, .many []⟩, ⟨.body, .one (some 0)⟩], parent := some 8 },
    { form := .name "e" none, parent := some 4 },
    { form := .blockStatement, fields := [⟨.body, .many []⟩], parent := some 4 },
    { form := .catchClause, fields := [⟨.param, .one (some 2)⟩, ⟨.body, .one (some 3)⟩], parent := some 5 },
    { form := .debuggerStatement, parent := some 6 },
    { form := .program "lib.js", fields := [⟨.body, .many [some 5]⟩], parent := some 8 },
    { form := .blockStatement, fields := [⟨.body, .many []⟩], parent := some 8 },
    { form := .function, fields := [⟨.name, .one none⟩, ⟨.params, .many []⟩, ⟨.body, .one (some 7)⟩] }]⟩

/-- The statement is in the catch clause, the program and the function, and not in the arrow function that owns it. -/
theorem searches_factor_through_scopes_crossedScopes :
    crossedScopes.LinksEnd ∧ 0 < crossedScopes.size ∧ crossedScopes.Stray 1 0 ∧
      crossedScopes.scope? 0 = some 4 ∧ crossedScopes.function? 0 = crossedScopes.function? 4 ∧
      crossedScopes.program? 0 = crossedScopes.program? 4 ∧
      (∀ k, crossedScopes.outerScope? k 0 = [4, 6, 8][k]?) ∧ crossedScopes.function? 0 = some 8 ∧
      crossedScopes.program? 0 = some 6 := by
  have hlinks : crossedScopes.LinksEnd := Forest.linksEnd_of_younger (by decide)
  have hchain : crossedScopes.Ascent 0 [0, 4, 5, 6, 8] :=
    .link rfl (.link rfl (.link rfl (.link rfl (.top (by decide) rfl))))
  obtain ⟨-, hscope, chain, scopes, hascent, rfl, houter, hfunction, hprogram⟩ :=
    searches_factor_through_scopes crossedScopes 0 hlinks (by decide)
  obtain rfl := hascent.unique hchain
  have hfirst : crossedScopes.scope? 0 = some 4 := houter 0
  obtain ⟨-, hfunction4, hprogram4⟩ := hscope 4 hfirst
  exact ⟨hlinks, by decide, ⟨by decide, by decide⟩, hfirst, hfunction4, hprogram4, houter, hfunction, hprogram⟩

end ScriptTree
