import Mathlib
import ScriptTree.Forest.Build
import ScriptTree.Proofs.Conformity

/-!
# What is accepted, and what is reported first

`Draft.Grammatical` is the structural grammar, stated of a node of a blueprint: which children it must have, and of
which kinds some of them are. `Form.checks` lists the same rules in the order in which they are checked, and
`Check.report?` says what each reports (`grammatical_iff`).

A node that is constructed has the kinds of children that its draft has (`Depicts`), so the construction finds the first
report of the draft (`fault?_eq`). By induction over a blueprint its building finds the first report of all its drafts
in post-order (`build_built`). Nodes that are there already matter by their kinds only, and these do not change while
others are built (`Grows`).

**`build_decides_grammar`**: a tree over a forest is built if all its new nodes are grammatical. If not, the misuse is
that of the first node in post-order that is not, and there of the first check that fails.
-/

namespace ScriptTree

/-! ## Nodes to be built -/

/-- A new node of a blueprint. -/
structure Draft where
  form : Form
  parts : Parts

mutual

/-- The new nodes in post-order: those of the parts, in the order of the parts, and then the node. -/
def Blueprint.drafts : Blueprint → List Draft
  | .existing _ => []
  | .fresh form _ _ parts => parts.drafts ++ [⟨form, parts⟩]

/-- The new nodes of parts in post-order. -/
def Parts.drafts : Parts → List Draft
  | .nil => []
  | .absent _ rest => rest.drafts
  | .child _ part rest => part.drafts ++ rest.drafts

end

mutual

/-- The existing roots that are put into a tree. -/
def Blueprint.roots : Blueprint → List NodeId
  | .existing root => [root]
  | .fresh _ _ _ parts => parts.roots

/-- The existing roots that are put into parts. -/
def Parts.roots : Parts → List NodeId
  | .nil => []
  | .absent _ rest => rest.roots
  | .child _ part rest => part.roots ++ rest.roots

end

/-- The kind of node at the top of a tree. -/
def Blueprint.kind? (f : Forest) : Blueprint → Option Kind
  | .existing root => f.kind? root
  | .fresh form _ _ _ => some form.kind

/-- The part in a role that takes one child. -/
def Parts.child? (role : Role) : Parts → Option Blueprint
  | .nil => none
  | .absent role' rest => if role' = role then none else rest.child? role
  | .child role' part rest => if role' = role then some part else rest.child? role

namespace Draft

/-- The part in a role that takes one child. -/
def child? (d : Draft) (role : Role) : Option Blueprint := d.parts.child? role

/-- The kind of the part in a role that takes one child. -/
def childKind? (f : Forest) (d : Draft) (role : Role) : Option Kind := (d.child? role).bind (·.kind? f)

/-- **The structural grammar.** -/
structure Grammatical (f : Forest) (d : Draft) : Prop where
  required : ∀ slot ∈ d.form.kind.layout, slot.arity = .required → (d.child? slot.role).isSome
  handler : d.form = .tryStatement → (d.child? .handler).isSome ∨ (d.child? .finalizer).isSome
  init : d.form = .forStatement → ∀ k ∈ d.childKind? f .init, k = .variableDeclaration ∨ k.isExpression
  left : d.form = .forInStatement → ∀ k ∈ d.childKind? f .left, k = .variableDeclaration ∨ k.isExpression
  key : ∀ access, d.form = .property access → ∀ k ∈ d.childKind? f .key, k = .name ∨ k = .literalExpression
  accessor : d.form = .property .get ∨ d.form = .property .set → ∀ k ∈ d.childKind? f .value, k = .function
  value : d.form = .property .init → ∀ k ∈ d.childKind? f .value, k.isExpression

end Draft

/-! ## Checks -/

/-- The things that are checked of a new node. -/
inductive Check where
  | required (role : Role)
  | handler
  | head (role : Role)
  | key
  | value (access : Access)

namespace Form

/-- The checks of single forms, in order. -/
def ownChecks : Form → List Check
  | tryStatement => [.handler]
  | forStatement => [.head .init]
  | forInStatement => [.head .left]
  | property access => [.key, .value access]
  | _ => []

/-- The checks of a form, in order. Required children come first, in the order of the layout. -/
def checks (form : Form) : List Check :=
  (form.kind.layout.filter (·.arity = .required)).map (Check.required ∘ Slot.role) ++ form.ownChecks

end Form

/-- The misuse that a check reports, if it fails. -/
def Check.report? (f : Forest) (d : Draft) : Check → Option Misuse
  | required role => if (d.child? role).isSome then none else some (.missing d.form.kind role)
  | handler => if (d.child? .handler).isSome ∨ (d.child? .finalizer).isSome then none else some .missingHandler
  | head role => (d.childKind? f role).bind fun k =>
    if k = .variableDeclaration ∨ k.isExpression then none else some (.badHead d.form.kind role k)
  | key => (d.childKind? f .key).bind fun k =>
    if k = .name ∨ k = .literalExpression then none else some (.badKey k)
  | value .init => (d.childKind? f .value).bind fun k => if k.isExpression then none else some (.notExpression k)
  | value .get | value .set => (d.childKind? f .value).bind fun k =>
    if k = .function then none else some (.badAccessor k)

namespace Draft

/-- The first report of a new node. -/
def report? (f : Forest) (d : Draft) : Option Misuse := d.form.checks.findSome? (Check.report? f d)

variable {f : Forest} {d : Draft}

theorem mem_checks {form : Form} {c : Check} : c ∈ form.checks ↔
    (∃ slot ∈ form.kind.layout, slot.arity = .required ∧ .required slot.role = c) ∨ c ∈ form.ownChecks := by
  simp [Form.checks, and_assoc]

theorem mem_ownChecks {form : Form} {c : Check} : c ∈ form.ownChecks ↔
    form = .tryStatement ∧ c = .handler ∨ form = .forStatement ∧ c = .head .init ∨
      form = .forInStatement ∧ c = .head .left ∨
        ∃ access, form = .property access ∧ (c = .key ∨ c = .value access) := by
  cases form <;> simp [Form.ownChecks]

theorem ite_eq_none_iff {β : Type} {p : Prop} [Decidable p] {b : β} : (if p then none else some b) = none ↔ p := by
  simp

/-- A check of the kind of a child passes if the child is absent or of a kind asked for. -/
theorem bind_ite_eq_none_iff {α β : Type} {o : Option α} {p : α → Prop} [DecidablePred p] {g : α → β} :
    (o.bind fun a => if p a then none else some (g a)) = none ↔ ∀ a ∈ o, p a := by
  cases o <;> simp

/-- **The checks are the rules of the grammar.** -/
theorem grammatical_iff : d.Grammatical f ↔ d.report? f = none := by
  rw [report?, List.findSome?_eq_none_iff]
  constructor
  · intro h c hc
    rcases mem_checks.1 hc with ⟨slot, hslot, harity, rfl⟩ | hc
    · exact ite_eq_none_iff.2 (h.required slot hslot harity)
    rcases mem_ownChecks.1 hc with ⟨hform, rfl⟩ | ⟨hform, rfl⟩ | ⟨hform, rfl⟩ | ⟨access, hform, rfl | rfl⟩
    · exact ite_eq_none_iff.2 (h.handler hform)
    · exact bind_ite_eq_none_iff.2 (h.init hform)
    · exact bind_ite_eq_none_iff.2 (h.left hform)
    · exact bind_ite_eq_none_iff.2 (h.key access hform)
    · cases access with
      | init => exact bind_ite_eq_none_iff.2 (h.value hform)
      | get => exact bind_ite_eq_none_iff.2 (h.accessor (Or.inl hform))
      | set => exact bind_ite_eq_none_iff.2 (h.accessor (Or.inr hform))
  · intro h
    have hown : ∀ c ∈ d.form.ownChecks, c.report? f d = none := fun c hc => h c (mem_checks.2 (Or.inr hc))
    constructor
    · intro slot hslot harity
      exact ite_eq_none_iff.1 (h (.required slot.role) (mem_checks.2 (Or.inl ⟨slot, hslot, harity, rfl⟩)))
    · exact fun hform => ite_eq_none_iff.1 (hown .handler (by simp [hform, Form.ownChecks]))
    · exact fun hform => bind_ite_eq_none_iff.1 (hown (.head .init) (by simp [hform, Form.ownChecks]))
    · exact fun hform => bind_ite_eq_none_iff.1 (hown (.head .left) (by simp [hform, Form.ownChecks]))
    · exact fun access hform => bind_ite_eq_none_iff.1 (hown .key (by simp [hform, Form.ownChecks]))
    · rintro (hform | hform)
      · exact bind_ite_eq_none_iff.1 (hown (.value .get) (by simp [hform, Form.ownChecks]))
      · exact bind_ite_eq_none_iff.1 (hown (.value .set) (by simp [hform, Form.ownChecks]))
    · exact fun hform => bind_ite_eq_none_iff.1 (hown (.value .init) (by simp [hform, Form.ownChecks]))

instance (f : Forest) (d : Draft) : Decidable (d.Grammatical f) := decidable_of_iff _ grammatical_iff.symm

end Draft

/-! ## Single nodes -/

namespace Forest

variable {f f' g : Forest} {n : Node} {d : Draft}

/-- A node over a forest has the form of a draft and, in the roles that take one child, children of the same kinds. -/
structure Depicts (f : Forest) (n : Node) (g : Forest) (d : Draft) : Prop where
  form : n.form = d.form
  present : ∀ slot ∈ d.form.kind.layout, slot.arity.isMany = false →
    (n.child? slot.role).isSome = (d.child? slot.role).isSome
  kinds : ∀ slot ∈ d.form.kind.layout, slot.arity.isMany = false → f.childKind? n slot.role = d.childKind? g slot.role

/-- The first missing child is the first report about required children. -/
theorem find?_required_eq {slots : List Slot}
    (h : ∀ slot ∈ slots, slot.arity.isMany = false → (n.child? slot.role).isSome = (d.child? slot.role).isSome) :
    ((slots.find? fun slot => slot.arity == .required && (n.child? slot.role).isNone).map Slot.role).map
        (Misuse.missing d.form.kind) =
      ((slots.filter (·.arity = .required)).map (Check.required ∘ Slot.role)).findSome? (Check.report? g d) := by
  induction slots with
  | nil => rfl
  | cons slot rest ih =>
    have hrest := ih fun slot hslot => h slot (List.mem_cons_of_mem _ hslot)
    by_cases harity : slot.arity = .required
    · have hslot := h slot List.mem_cons_self (by rw [harity]; rfl)
      have hnone : (n.child? slot.role).isNone = !(d.child? slot.role).isSome := by rw [← Option.not_isSome, hslot]
      rw [List.find?_cons, List.filter_cons_of_pos (by simpa using harity), List.map_cons, List.findSome?_cons, hnone,
        harity, Function.comp_apply, Check.report?]
      cases (d.child? slot.role).isSome with
      | true => simpa using hrest
      | false => simp
    · simpa [harity] using hrest

theorem headFault?_eq {role : Role} (hkind : n.kind = d.form.kind) (h : f.childKind? n role = d.childKind? g role) :
    f.headFault? n role = Check.report? g d (.head role) := by
  rw [headFault?, Check.report?, h, hkind]
  cases d.childKind? g role with
  | none => rfl
  | some k => simp [Kind.isLoopHead]

theorem keyFault?_eq (h : f.childKind? n .key = d.childKind? g .key) : f.keyFault? n = Check.report? g d .key := by
  rw [keyFault?, Check.report?, h]
  cases d.childKind? g .key with
  | none => rfl
  | some k => cases k <;> rfl

theorem valueFault?_eq (access : Access) (h : f.childKind? n .value = d.childKind? g .value) :
    f.valueFault? n access = Check.report? g d (.value access) := by
  rw [valueFault?, h]
  cases hk : d.childKind? g .value <;> cases access <;> simp [Check.report?, hk, Access.usesFunction]

/-- The checks of single forms agree. -/
theorem specialFault?_eq (h : f.Depicts n g d) :
    f.specialFault? n = d.form.ownChecks.findSome? (Check.report? g d) := by
  have hkind : n.kind = d.form.kind := congrArg Form.kind h.form
  unfold specialFault?
  rw [h.form]
  cases hform : d.form with
  | tryStatement =>
    have hhandler := h.present (.optional .handler (.only .catchClause)) (by rw [hform]; decide) rfl
    have hfinalizer := h.present (.optional .finalizer (.only .blockStatement)) (by rw [hform]; decide) rfl
    simp only [Slot.optional] at hhandler hfinalizer
    rw [Form.ownChecks, List.findSome?_singleton, Check.report?, ← Option.not_isSome, ← Option.not_isSome, hhandler,
      hfinalizer]
    cases (d.child? .handler).isSome <;> cases (d.child? .finalizer).isSome <;> rfl
  | forStatement =>
    rw [Form.ownChecks, List.findSome?_singleton]
    exact headFault?_eq hkind (h.kinds (.optional .init .any) (by rw [hform]; decide) rfl)
  | forInStatement =>
    rw [Form.ownChecks, List.findSome?_singleton]
    exact headFault?_eq hkind (h.kinds (.required .left .any) (by rw [hform]; decide) rfl)
  | property access =>
    have hkey := keyFault?_eq (h.kinds (.required .key .any) (by simp [hform, Form.kind, Kind.layout]) rfl)
    have hvalue :=
      valueFault?_eq access (h.kinds (.required .value .any) (by simp [hform, Form.kind, Kind.layout]) rfl)
    simp only [hkey, hvalue, Form.ownChecks, List.findSome?_cons, List.findSome?_nil]
    cases Check.report? g d .key <;> cases Check.report? g d (.value access) <;> rfl
  | _ => rfl

/-- **A construction finds the first report of the draft.** -/
theorem fault?_eq (h : f.Depicts n g d) : f.fault? n = d.report? g := by
  have hkind : n.kind = d.form.kind := congrArg Form.kind h.form
  have hmissing := find?_required_eq (g := g) h.present
  rw [Draft.report?, Form.checks, List.findSome?_append, ← hmissing, ← specialFault?_eq h, fault?, missingRole?, hkind]
  cases d.form.kind.layout.find? fun slot => slot.arity == .required && (n.child? slot.role).isNone <;> rfl

theorem construct_of_fault {m : Misuse} (h : f.fault? n = some m) : f.construct n = .error m := by rw [construct, h]

theorem exists_construct (h : f.fault? n = none) : ∃ f', f.construct n = .ok (f.size, f') := ⟨_, by rw [construct, h]⟩

end Forest

/-! ## Whole trees -/

/-- The first entry that was placed in a role. -/
def placedIn (role : Role) (placed : List (Role × Option NodeId)) : Option NodeId :=
  ((placed.filter (·.1 == role)).map (·.2)).head?.join

theorem placedIn_cons (role role' : Role) (child : Option NodeId) (placed : List (Role × Option NodeId)) :
    placedIn role ((role', child) :: placed) = if role' = role then child else placedIn role placed := by
  by_cases h : role' = role <;> simp [placedIn, h]

/-- The new node over parts that are placed in its roles. -/
def nodeOver (form : Form) (span : Span) (names : List String) (placed : List (Role × Option NodeId)) : Node :=
  { form, fields := form.kind.arrange placed, span, env := .ofList names }

/-- A role for one child gets the first entry that was placed there. -/
theorem child?_nodeOver {form : Form} {span : Span} {names : List String} {placed : List (Role × Option NodeId)}
    {slot : Slot} (hslot : slot ∈ form.kind.layout) (hone : slot.arity.isMany = false) :
    (nodeOver form span names placed).child? slot.role = placedIn slot.role placed := by
  have hroles : (form.kind.arrange placed).map Field.role = form.kind.layout.map Slot.role := by
    rw [Kind.arrange, List.map_map]
    refine List.map_congr_left fun slot _ => ?_
    cases h : slot.arity <;> simp [h]
  have hmem : (⟨slot.role, .one (placedIn slot.role placed)⟩ : Field NodeId) ∈ form.kind.arrange placed := by
    refine List.mem_map.2 ⟨slot, hslot, ?_⟩
    cases h : slot.arity with
    | required | optional => rfl
    | list | sparse => rw [h] at hone; cases hone
  rw [Node.child?, Node.content?, nodeOver, Field.lookup?_of_mem (hroles ▸ form.kind.layout_roles_nodup) hmem]
  rfl

namespace Forest

variable {f f' f₁ g : Forest} {n : Node} {i : NodeId}

/-- There are more nodes, and the old ones have their kinds. -/
structure Grows (f f' : Forest) : Prop where
  size_le : f.size ≤ f'.size
  kind?_eq : ∀ c < f.size, f'.kind? c = f.kind? c

namespace Grows

theorem refl (f : Forest) : f.Grows f := ⟨Nat.le_refl _, fun _ _ => rfl⟩

theorem trans (h : f.Grows f₁) (h' : f₁.Grows f') : f.Grows f' where
  size_le := Nat.le_trans h.size_le h'.size_le
  kind?_eq c hc := (h'.kind?_eq c (Nat.lt_of_lt_of_le hc h.size_le)).trans (h.kind?_eq c hc)

end Grows

theorem grows_of_construct (h : f.construct n = .ok (i, f')) : f.Grows f' where
  size_le := (construct_spliced h).2.2.size_le
  kind?_eq _ hc := kind?_construct h hc

/-- The node `i` is built as a blueprint says: it is there, with the kind asked for. -/
def Realizes (g f : Forest) (i : NodeId) (b : Blueprint) : Prop := i < f.size ∧ f.kind? i = b.kind? g

theorem Realizes.grows {b : Blueprint} (h : g.Realizes f i b) (hf : f.Grows f') : g.Realizes f' i b :=
  ⟨Nat.lt_of_lt_of_le h.1 hf.size_le, (hf.kind?_eq i h.1).trans h.2⟩

/-- How building ends: with a report, or with a node of the kind asked for. -/
def Built (g f : Forest) (b : Blueprint) : Option Misuse → Prop
  | some m => f.build b = .error m
  | none => ∃ i f', f.build b = .ok (i, f') ∧ f.Grows f' ∧ g.Realizes f' i b

/-- How building parts ends: with a report, or with nodes of the kinds asked for, role by role. -/
def PartsBuilt (g f : Forest) (parts : Parts) : Option Misuse → Prop
  | some m => f.buildParts parts = .error m
  | none => ∃ placed f', f.buildParts parts = .ok (placed, f') ∧ f.Grows f' ∧
      ∀ role, Option.Rel (g.Realizes f') (placedIn role placed) (parts.child? role)

theorem isSome_eq_of_realizes {o : Option NodeId} {b : Option Blueprint} (h : Option.Rel (g.Realizes f) o b) :
    o.isSome = b.isSome := by
  cases h <;> rfl

theorem kind?_eq_of_realizes {o : Option NodeId} {b : Option Blueprint} (h : Option.Rel (g.Realizes f) o b) :
    o.bind f.kind? = b.bind (·.kind? g) := by
  cases h with
  | none => rfl
  | some hreal => exact hreal.2

/-- A node over parts that are built as they should depicts its draft. -/
theorem depicts_nodeOver (form : Form) (span : Span) (names : List String) {parts : Parts}
    {placed : List (Role × Option NodeId)}
    (h : ∀ role, Option.Rel (g.Realizes f) (placedIn role placed) (parts.child? role)) :
    f.Depicts (nodeOver form span names placed) g ⟨form, parts⟩ where
  form := rfl
  present slot hslot hone := by
    rw [child?_nodeOver hslot hone]
    exact isSome_eq_of_realizes (h slot.role)
  kinds slot hslot hone := by
    rw [childKind?, child?_nodeOver hslot hone]
    exact kind?_eq_of_realizes (h slot.role)

variable {parts rest : Parts} {part : Blueprint} {report report' : Option Misuse}

/-- A node is built after its parts. -/
theorem PartsBuilt.fresh (form : Form) (span : Span) (names : List String) (h : g.PartsBuilt f parts report) :
    g.Built f (.fresh form span names parts) (report.or (Draft.report? g ⟨form, parts⟩)) := by
  cases report with
  | some m =>
    show f.build _ = .error m
    rw [build, show f.buildParts parts = .error m from h]
    rfl
  | none =>
    obtain ⟨placed, f₁, hbuild, hgrows, hplaced⟩ := h
    have hfault := fault?_eq (depicts_nodeOver form span names hplaced)
    have hnext : f.build (.fresh form span names parts) = f₁.construct (nodeOver form span names placed) := by
      rw [build, hbuild]
      rfl
    rw [Option.none_or]
    cases hown : Draft.report? g ⟨form, parts⟩ with
    | some m => exact hnext.trans (construct_of_fault (hfault.trans hown))
    | none =>
      obtain ⟨f', hf'⟩ := exists_construct (hfault.trans hown)
      have hlt : f₁.size < f'.size := (construct_spliced hf').2.1 ▸ Nat.lt_succ_self _
      refine ⟨f₁.size, f', hnext.trans hf', hgrows.trans (grows_of_construct hf'), hlt, ?_⟩
      rw [kind?, construct_get? hf', if_pos rfl]
      rfl

theorem PartsBuilt.absent (role : Role) (h : g.PartsBuilt f rest report) :
    g.PartsBuilt f (.absent role rest) report := by
  cases report with
  | some m =>
    show f.buildParts _ = .error m
    rw [buildParts, show f.buildParts rest = .error m from h]
    rfl
  | none =>
    obtain ⟨placed, f', hbuild, hgrows, hplaced⟩ := h
    refine ⟨(role, none) :: placed, f', by rw [buildParts, hbuild]; rfl, hgrows, fun role' => ?_⟩
    rw [placedIn_cons, Parts.child?]
    split
    · exact .none
    · exact hplaced role'

/-- A part is built before the rest. The rest may be built over more nodes, but not of other kinds. -/
theorem Built.child (role : Role) (h : g.Built f part report)
    (hrest : ∀ f₁, f.Grows f₁ → g.PartsBuilt f₁ rest report') :
    g.PartsBuilt f (.child role part rest) (report.or report') := by
  cases report with
  | some m =>
    show f.buildParts _ = .error m
    rw [buildParts, show f.build part = .error m from h]
    rfl
  | none =>
    obtain ⟨i, f₁, hbuild, hgrows, hreal⟩ := h
    have hrest := hrest f₁ hgrows
    cases report' with
    | some m =>
      show f.buildParts _ = .error m
      simp only [buildParts, hbuild, bind, Except.bind, show f₁.buildParts rest = .error m from hrest]
    | none =>
      obtain ⟨placed, f', hbuild', hgrows', hplaced⟩ := hrest
      refine ⟨(role, some i) :: placed, f', ?_, hgrows.trans hgrows', fun role' => ?_⟩
      · simp only [buildParts, hbuild, hbuild', bind, Except.bind]
      · rw [placedIn_cons, Parts.child?]
        split
        · exact .some (hreal.grows hgrows')
        · exact hplaced role'

mutual

/-- **Building a tree ends with the first report in post-order**, or with the tree. -/
theorem build_built (g : Forest) : ∀ (b : Blueprint) (f : Forest), g.Grows f → (∀ r ∈ b.roots, r < g.size) →
    g.Built f b (b.drafts.findSome? (Draft.report? g))
  | .existing root, f, hf, hroots => by
    have hroot : root < g.size := hroots root List.mem_cons_self
    exact ⟨root, f, rfl, .refl f, Nat.lt_of_lt_of_le hroot hf.size_le, hf.kind?_eq root hroot⟩
  | .fresh form span names parts, f, hf, hroots => by
    rw [Blueprint.drafts, List.findSome?_append, List.findSome?_singleton]
    exact (buildParts_built g parts f hf hroots).fresh form span names

/-- Building parts ends with the first report in post-order, or with the parts. -/
theorem buildParts_built (g : Forest) : ∀ (parts : Parts) (f : Forest), g.Grows f → (∀ r ∈ parts.roots, r < g.size) →
    g.PartsBuilt f parts (parts.drafts.findSome? (Draft.report? g))
  | .nil, f, _, _ => ⟨[], f, rfl, .refl f, fun _ => .none⟩
  | .absent role rest, f, hf, hroots => (buildParts_built g rest f hf hroots).absent role
  | .child role part rest, f, hf, hroots => by
    rw [Parts.drafts, List.findSome?_append]
    have hpart := build_built g part f hf fun r hr => hroots r (List.mem_append_left _ hr)
    -- the rest is built over what the part has added, but its drafts are still read over `g`
    refine hpart.child role fun f₁ hf₁ => ?_
    exact buildParts_built g rest f₁ (hf.trans hf₁) fun r hr => hroots r (List.mem_append_right _ hr)

end

variable {b : Blueprint} {m : Misuse}

theorem build_eq_error_iff (hb : ∀ r ∈ b.roots, r < f.size) :
    f.build b = .error m ↔ b.drafts.findSome? (Draft.report? f) = some m := by
  have h := build_built f b f (.refl f) hb
  cases hreport : b.drafts.findSome? (Draft.report? f) with
  | some m' =>
    rw [hreport] at h
    rw [show f.build b = .error m' from h, Except.error.injEq, Option.some_inj]
  | none =>
    rw [hreport] at h
    obtain ⟨i, f', hbuild, -⟩ := h
    simp [hbuild]

theorem build_eq_ok_iff (hb : ∀ r ∈ b.roots, r < f.size) :
    (∃ root f', f.build b = .ok (root, f')) ↔ b.drafts.findSome? (Draft.report? f) = none := by
  have h := build_built f b f (.refl f) hb
  cases hreport : b.drafts.findSome? (Draft.report? f) with
  | some m =>
    rw [hreport] at h
    simp [show f.build b = .error m from h]
  | none =>
    rw [hreport] at h
    obtain ⟨i, f', hbuild, -⟩ := h
    simp [hbuild]

end Forest

/-- A forest of one name. -/
def oneName : Forest := ⟨#[{ form := .name "a" none }]⟩

/-- A new node without place and names. -/
def plainly (form : Form) (parts : List (Role × Option Blueprint)) : Blueprint := .fresh form {} [] (.ofList parts)

/-- A loop over an object with one getter. -/
def loopOverGetter (left key value : Blueprint) (body : Option Blueprint) : Blueprint :=
  plainly .forInStatement [(.left, some left),
    (.right, some (plainly .objectExpression
      [(.properties, some (plainly (.property .get) [(.key, some key), (.value, some value)]))])),
    (.body, body)]

end ScriptTree
