import Mathlib
import ScriptTree.Forest.Usage
import ScriptTree.Proofs.Conformity

/-!
# Uses of names and functions

Names are used as variables, as property names or as labels, and functions as expressions, as declarations or as
accessors. The queries of a node read its use off the node that it is linked to. No link whatever gives a node two uses
(`length_nameUses_le`, `length_functionUses_le`). In a tended forest the link is the owner and every role holds what it
takes, so the role in which a node stands decides its use: `Kind.nameUsesIn` and `Form.functionUsesIn` are the tables.

**`uses_decided_by_role`**: in every forest whatever, a name has at most one use and so has a function, and a name that
is no variable has no scope, while a variable has the one it was resolved to or else its program. In a tended forest
roots have no use, every other node stands in a role of its owner, and there a name and a function have the use of that
role: exactly one, but for the roles that take any node.
-/

namespace ScriptTree

/-- What a name is the name of. -/
inductive NameUse where
  | ofVariable | ofProperty | ofLabel
  deriving DecidableEq, Repr

/-- What a function is. -/
inductive FunctionUse where
  | expression | declaration | accessor
  deriving DecidableEq, Repr

/-- The uses of a name in a role of a kind, for roles that take names. Those that take any node give it no use. -/
def Kind.nameUsesIn : Kind → Role → Option (List NameUse)
  | .nameExpression, .name | .function, .name | .function, .params | .arrowFunction, .params
  | .variableDeclarator, .name | .catchClause, .param => some [.ofVariable]
  | .memberExpression, .property | .property, .key => some [.ofProperty]
  | .breakStatement, .label | .continueStatement, .label | .labeledStatement, .label => some [.ofLabel]
  | .property, .value | .forStatement, .init | .forInStatement, .left => some []
  | _, _ => none

/-- The uses of a function in a role of a form, for roles that take functions. -/
def Form.functionUsesIn : Form → Role → Option (List FunctionUse)
  | .functionExpression, .function => some [.expression]
  | .functionDeclaration, .function => some [.declaration]
  | .property .get, .value | .property .set, .value => some [.accessor]
  | .property .init, .value | .forStatement, .init | .forInStatement, .left => some []
  | _, _ => none

/-- Every role that takes a name is in the table. -/
theorem Kind.nameUsesIn_ne_none {k : Kind} {role : Role} (h : k.Takes role .name) : k.nameUsesIn role ≠ none := by
  have hall : ∀ k ∈ all, ∀ slot ∈ k.layout, k.Takes slot.role .name → k.nameUsesIn slot.role ≠ none := by
    decide +kernel
  obtain ⟨slot, hslot, rfl, -⟩ := h.1
  exact hall k k.mem_all slot hslot h

/-- The roles that take a function. -/
theorem Kind.roles_of_function {k : Kind} {role : Role} (h : k.Takes role .function) :
    (k, role) ∈ [(.functionExpression, .function), (.functionDeclaration, .function), (.property, .value),
      (.forStatement, .init), (.forInStatement, .left)] := by
  have hall : ∀ k ∈ all, ∀ slot ∈ k.layout, k.Takes slot.role .function →
      (k, slot.role) ∈ [(.functionExpression, .function), (.functionDeclaration, .function), (.property, .value),
        (.forStatement, .init), (.forInStatement, .left)] := by
    decide +kernel
  obtain ⟨slot, hslot, rfl, -⟩ := h.1
  exact hall k k.mem_all slot hslot h

namespace Forest

variable {f : Forest} {i o : NodeId} {n : Node} {role r : Role}

/-- The uses that the queries of a name answer. -/
def nameUses (f : Forest) (i : NodeId) : List NameUse :=
  [.ofVariable, .ofProperty, .ofLabel].filter fun
    | .ofVariable => f.namesVariable i
    | .ofProperty => f.namesProperty i
    | .ofLabel => f.namesLabel i

/-- The uses that the queries of a function answer. -/
def functionUses (f : Forest) (i : NodeId) : List FunctionUse :=
  [.expression, .declaration, .accessor].filter fun
    | .expression => f.isFunctionExpression i
    | .declaration => f.isFunctionDeclaration i
    | .accessor => f.isAccessorFunction i

/-! ## No node has two uses -/

theorem length_nameUses_le (f : Forest) (i : NodeId) : (f.nameUses i).length ≤ 1 := by
  unfold nameUses namesVariable namesProperty namesLabel
  cases f.parentKind? i with
  | none => simp
  | some k =>
    cases k with
    | memberExpression => cases f.standsIn i .property <;> simp
    | property => cases f.standsIn i .key <;> simp
    | _ => simp

/-- Only properties have an access. -/
theorem parentKind?_of_access {access : Access} (h : (f.parent? i).bind f.access? = some access) :
    f.parentKind? i = some .property := by
  obtain ⟨p, hp, hp'⟩ := Option.bind_eq_some_iff.1 h
  unfold access? at hp'
  split at hp'
  · rename_i hform
    obtain ⟨n, hn, hform⟩ := Option.map_eq_some_iff.1 hform
    simp [parentKind?, hp, kind?, hn, Node.kind, hform, Form.kind]
  · cases hp'

theorem length_functionUses_le (f : Forest) (i : NodeId) : (f.functionUses i).length ≤ 1 := by
  unfold functionUses isFunctionExpression isFunctionDeclaration isAccessorFunction
  cases f.isKind .arrowFunction i with
  | true => simp
  | false =>
    cases ha : (f.parent? i).bind f.access? with
    | none => cases hk : f.parentKind? i with
      | none => simp
      | some k => cases k <;> simp
    | some access =>
      rw [parentKind?_of_access ha]
      cases access <;> simp [Access.usesFunction]

/-! ## The role decides the use -/

theorem nameUses_of_unlinked (h : f.parent? i = none) : f.nameUses i = [] := by
  simp [nameUses, namesVariable, namesProperty, namesLabel, parentKind?, h]

theorem functionUses_of_unlinked (h : f.parent? i = none) (hi : f.kind? i = some .function) :
    f.functionUses i = [] := by
  simp [functionUses, isFunctionExpression, isFunctionDeclaration, isAccessorFunction, parentKind?, isKind, h, hi]

namespace Tended

theorem owns_of_holds (hn : f.get? o = some n) (hc : n.Holds role i) : f.Owns o i := by
  rw [Owns, children_eq_of_get? hn]
  exact hc.mem_children

theorem parent?_of_holds (h : f.Tended) (hn : f.get? o = some n) (hc : n.Holds role i) : f.parent? i = some o := by
  by_contra hne
  exact h.tidy.placed i ⟨o, owns_of_holds hn hc, hne⟩

/-- A node is found in a role of its parent exactly if it stands there. -/
theorem standsIn_iff (h : f.Tended) (hn : f.get? o = some n) (hc : n.Holds role i)
    (hr : (r, false) ∈ n.kind.layout.map Slot.shape) : f.standsIn i r = true ↔ r = role := by
  have hd : n.children.Nodup := children_eq_of_get? hn ▸ h.tidy.wellOwned.nodup o
  have hfound : f.standsIn i r = true ↔ n.Holds r i := by
    rw [(h.conforming.shaped hn).holds_iff hr]
    simp [standsIn, h.parent?_of_holds hn hc, child?, hn]
  rw [hfound]
  exact ⟨fun hr' => hr'.unique hd hc, fun he => he ▸ hc⟩

theorem takes_of_holds (h : f.Tended) (hn : f.get? o = some n) (hc : n.Holds role i) {k : Kind}
    (hi : f.kind? i = some k) : n.kind.Takes role k := by
  obtain ⟨k', hk', htakes⟩ := h.conforming.filled hn hc
  rw [hi] at hk'
  cases hk'
  exact htakes

/-- **The use of a name is the one of its role.** -/
theorem nameUses_eq (h : f.Tended) (hn : f.get? o = some n) (hc : n.Holds role i) (hi : f.kind? i = some .name) :
    n.kind.nameUsesIn role = some (f.nameUses i) := by
  have hkind : f.parentKind? i = some n.kind := by simp [parentKind?, h.parent?_of_holds hn hc, kind?, hn]
  -- only the names of properties depend on more than the kind of the owner
  have hstands : ∀ r, (r, false) ∈ n.kind.layout.map Slot.shape → f.standsIn i r = decide (r = role) := by
    intro r hr
    rw [Bool.eq_iff_iff, decide_eq_true_iff]
    exact h.standsIn_iff hn hc hr
  have hproperty : n.kind = .memberExpression → f.standsIn i .property = decide (.property = role) :=
    fun hk => hstands .property (by rw [hk]; decide)
  have hkey : n.kind = .property → f.standsIn i .key = decide (.key = role) :=
    fun hk => hstands .key (by rw [hk]; decide)
  obtain ⟨uses, huses⟩ := Option.ne_none_iff_exists'.1 (Kind.nameUsesIn_ne_none (h.takes_of_holds hn hc hi))
  rw [huses]
  unfold nameUses namesVariable namesProperty namesLabel
  rw [hkind]
  clear hstands hkind
  generalize n.kind = k at *
  unfold Kind.nameUsesIn at huses
  split at huses <;> cases huses <;> simp [hproperty, hkey]

/-- **The use of a function is the one of its role**, and for the value of a property of the access of that. -/
theorem functionUses_eq (h : f.Tended) (hn : f.get? o = some n) (hc : n.Holds role i)
    (hi : f.kind? i = some .function) : n.form.functionUsesIn role = some (f.functionUses i) := by
  have hparent := h.parent?_of_holds hn hc
  have hkind : f.parentKind? i = some n.form.kind := by simp [parentKind?, hparent, kind?, hn, Node.kind]
  have hrole : (n.form.kind, role) ∈ _ := Kind.roles_of_function (h.takes_of_holds hn hc hi)
  unfold functionUses isFunctionExpression isFunctionDeclaration isAccessorFunction
  rw [hkind, hparent, isKind, hi]
  simp only [Option.bind_some, access?, hn, Option.map_some]
  generalize n.form = form at hrole ⊢
  simp only [List.mem_cons, Prod.mk.injEq, List.not_mem_nil, or_false] at hrole
  rcases hrole with ⟨hk, rfl⟩ | ⟨hk, rfl⟩ | ⟨hk, rfl⟩ | ⟨hk, rfl⟩ | ⟨hk, rfl⟩
  -- the value of a property is the one role in which the data of the owner counts
  case inr.inr.inl =>
    cases form <;> cases hk
    rename_i access
    cases access <;> rfl
  all_goals
    cases form <;> cases hk
    rfl

end Tended

/-! ## The scope of a variable -/

theorem mem_nameUses_variable : NameUse.ofVariable ∈ f.nameUses i ↔ f.namesVariable i = true := by
  simp [nameUses]

/-- Only variables have a scope: the one they were resolved to, or their program. -/
theorem variableScope?_eq (f : Forest) (i : NodeId) : f.variableScope? i =
    if NameUse.ofVariable ∈ f.nameUses i then (f.resolvedScope? i).or (f.program? i) else none := by
  simp only [variableScope?, mem_nameUses_variable]

end Forest

/-- **Uses are unambiguous and complete**: at most one in every forest, and in a tended one that of the role. -/
theorem uses_decided_by_role :
    (∀ (f : Forest) (i : NodeId), (f.nameUses i).length ≤ 1 ∧ (f.functionUses i).length ≤ 1 ∧
      f.variableScope? i =
        if NameUse.ofVariable ∈ f.nameUses i then (f.resolvedScope? i).or (f.program? i) else none) ∧
    ∀ f : Forest, f.Tended →
      (∀ i, f.IsRoot i → (f.kind? i = some .name → f.nameUses i = []) ∧
        (f.kind? i = some .function → f.functionUses i = [])) ∧
      (∀ o i, f.Owns o i → ∃ n role, f.get? o = some n ∧ n.Holds role i) ∧
      ∀ o n role i, f.get? o = some n → n.Holds role i →
        (f.kind? i = some .name → n.kind.nameUsesIn role = some (f.nameUses i)) ∧
        (f.kind? i = some .function → n.form.functionUsesIn role = some (f.functionUses i)) := by
  constructor
  · intro f i
    exact ⟨f.length_nameUses_le i, f.length_functionUses_le i, f.variableScope?_eq i⟩
  intro f h
  refine ⟨fun i hi => ?_, fun o i ho => ?_, fun o n role i hn hc => ?_⟩
  · have hlink := h.tidy.roots_unlinked i hi
    exact ⟨fun _ => Forest.nameUses_of_unlinked hlink, Forest.functionUses_of_unlinked hlink⟩
  · obtain ⟨n, hn⟩ := Forest.get?_isSome ho.lt_size
    rw [Forest.Owns, Forest.children_eq_of_get? hn] at ho
    obtain ⟨role, hc⟩ := (h.conforming.shaped hn).exists_holds ho
    exact ⟨n, role, hn, hc⟩
  · exact ⟨h.nameUses_eq hn hc, h.functionUses_eq hn hc⟩

/-- A property that is read by a function, and a name beside it. -/
def accessorProperty : Forest :=
  ⟨#[{ form := .name "x" none, parent := some 3 }, { form := .emptyStatement, parent := some 2 },
    { form := .function, fields := [⟨.name, .one none⟩, ⟨.params, .many []⟩, ⟨.body, .one (some 1)⟩],
      parent := some 3 },
    { form := .property .get, fields := [⟨.key, .one (some 0)⟩, ⟨.value, .one (some 2)⟩] },
    { form := .name "y" none }]⟩

theorem accessorProperty_tended : accessorProperty.Tended := by
  let x : Node := { form := .name "x" none }
  let body : Node := { form := .emptyStatement }
  let getter : Node :=
    { form := .function, fields := [⟨.name, .one none⟩, ⟨.params, .many []⟩, ⟨.body, .one (some 1)⟩] }
  let property : Node := { form := .property .get, fields := [⟨.key, .one (some 0)⟩, ⟨.value, .one (some 2)⟩] }
  have h₁ : Forest.Tended ⟨#[x]⟩ := Forest.Tended.empty.construct (n := x) (by decide) (by decide) (by decide) rfl
  have h₂ : Forest.Tended ⟨#[x, body]⟩ := h₁.construct (n := body) (by decide) (by decide) (by decide) rfl
  have h₃ : Forest.Tended ⟨#[x, { body with parent := some 2 }, getter]⟩ :=
    h₂.construct (n := getter) (by decide) (by decide) (by decide) rfl
  have h₄ : Forest.Tended ⟨#[{ x with parent := some 3 }, { body with parent := some 2 },
      { getter with parent := some 3 }, property]⟩ :=
    h₃.construct (n := property) (by decide) (by decide) (by decide) rfl
  exact h₄.construct (n := { form := .name "y" none }) (by decide) (by decide) (by decide) rfl

/-- The function is an accessor in the property, and has no use once the name has taken its place; the name has none
there either. -/
theorem uses_decided_by_role_accessorProperty :
    ∃ f, accessorProperty.edit (.replace 3 .value (some 4)) = .ok (some 2, f) ∧ accessorProperty.Tended ∧ f.Tended ∧
      accessorProperty.functionUses 2 = [.accessor] ∧ f.IsRoot 2 ∧ f.functionUses 2 = [] ∧
      f.nameUses 0 = [.ofProperty] ∧ f.nameUses 4 = [] := by
  have h := accessorProperty_tended
  have hlicit : (Act.edit (.replace 3 .value (some 4))).Licit accessorProperty := by
    refine ⟨⟨_, rfl⟩, fun c hc => ?_⟩
    cases hc
    exact ⟨by decide, fun hb => by cases Forest.IsRoot.eq_of_below (by decide) hb⟩
  have htyped : (Act.edit (.replace 3 .value (some 4))).Typed accessorProperty := by
    intro k c k' hk hc hk'
    cases hc
    cases hk
    cases hk'
    decide
  have h' := h.act rfl hlicit htyped rfl
  refine ⟨_, rfl, h, h', ?_, by decide, ?_, ?_, ?_⟩
  · have hall := (uses_decided_by_role.2 _ h).2.2 3 _ .value 2 rfl ⟨_, rfl, by decide⟩
    exact (Option.some.inj (hall.2 rfl)).symm
  · exact ((uses_decided_by_role.2 _ h').1 2 (by decide)).2 rfl
  · have hall := (uses_decided_by_role.2 _ h').2.2 3 _ .key 0 rfl ⟨_, rfl, by decide⟩
    exact (Option.some.inj (hall.1 rfl)).symm
  · have hall := (uses_decided_by_role.2 _ h').2.2 3 _ .value 4 rfl ⟨_, rfl, by decide⟩
    exact (Option.some.inj (hall.1 rfl)).symm

end ScriptTree
