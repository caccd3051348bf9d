import Mathlib
import ScriptTree.Proofs.Linkage

/-!
# Forests that conform to the grammar

The layout of a kind says which roles its nodes have and which nodes each role takes. Constructions and edits that give
every role nodes of the declared kinds (`Act.Typed`) lead from the empty forest to *tended* forests only
(`Forest.Tended`). A tended forest is tidy (`Tended.tidy`) and conforms to the layouts (`Tended.conforming`): every
node has the fields of its kind (`Node.Shaped`), and what stands in a role is of a kind that the role takes
(`Kind.Takes`). The roles without a declared kind take anything, but for property keys, which are names or literals: a
construction checks that, and with an edit the caller sees to it.
-/

namespace ScriptTree

/-! ## Shapes -/

/-- Whether a role takes a list. -/
def Arity.isMany : Arity → Bool
  | required | optional => false
  | list | sparse => true

/-- Whether a list stands in a role. -/
def Content.isMany {α : Type} : Content α → Bool
  | one _ => false
  | many _ => true

/-- The role of a slot, and whether it takes a list. -/
def Slot.shape (slot : Slot) : Role × Bool := (slot.role, slot.arity.isMany)

/-- The role of a field, and whether it holds a list. -/
def Field.shape {α : Type} (field : Field α) : Role × Bool := (field.role, field.content.isMany)

namespace Field

variable {α : Type} {role : Role} {content content' : Content α} {fields : List (Field α)} {field : Field α}

theorem lookup?_of_mem (hd : (fields.map Field.role).Nodup) (h : field ∈ fields) :
    lookup? field.role fields = some field.content := by
  induction fields with
  | nil => cases h
  | cons head rest ih =>
    rw [List.map_cons, List.nodup_cons] at hd
    rcases List.mem_cons.1 h with rfl | h
    · simp [lookup?]
    · have hne : head.role ≠ field.role := fun he => hd.1 (he ▸ List.mem_map_of_mem h)
      rw [lookup?, if_neg hne, ih hd.2 h]

/-- Content of the same shape leaves the shape of the fields. -/
theorem map_shape_update (h : lookup? role fields = some content) (hs : content'.isMany = content.isMany) :
    (update role content' fields).map shape = fields.map shape := by
  induction fields with
  | nil => cases h
  | cons field rest ih =>
    by_cases hr : field.role = role
    · simp only [lookup?, if_pos hr, Option.some.injEq] at h
      subst h
      simp [update, hr, shape, hs]
    · simp only [lookup?, if_neg hr] at h
      simp [update, hr, ih h]

end Field

/-! ## What a role takes -/

namespace Kind

/-- A role of a kind is declared for children of another. -/
def Declares (owner : Kind) (role : Role) (child : Kind) : Prop :=
  ∃ slot ∈ owner.layout, slot.role = role ∧ slot.fill.admits child = true

/-- A role takes the declared kinds, and the key of a property names and literals only. -/
def Takes (owner : Kind) (role : Role) (child : Kind) : Prop :=
  owner.Declares role child ∧ (owner = .property → role = .key → child = .name ∨ child = .literalExpression)

instance (owner : Kind) (role : Role) (child : Kind) : Decidable (owner.Declares role child) :=
  inferInstanceAs (Decidable (∃ slot ∈ owner.layout, slot.role = role ∧ slot.fill.admits child = true))

instance (owner : Kind) (role : Role) (child : Kind) : Decidable (owner.Takes role child) :=
  inferInstanceAs (Decidable (_ ∧ (_ → _ → _ ∨ _)))

end Kind

namespace Node

variable {n : Node} {role role' : Role} {c : NodeId}

/-- The fields of a node are those of the layout of its kind. -/
def Shaped (n : Node) : Prop := n.fields.map Field.shape = n.kind.layout.map Slot.shape

instance (n : Node) : Decidable n.Shaped := inferInstanceAs (Decidable (_ = _))

/-- `c` stands in a role of a node. -/
def Holds (n : Node) (role : Role) (c : NodeId) : Prop :=
  ∃ content, n.content? role = some content ∧ c ∈ content.children

theorem Holds.mem_children (h : n.Holds role c) : c ∈ n.children := by
  obtain ⟨content, hc, hmem⟩ := h
  exact List.mem_flatMap.2 ⟨_, Field.mem_of_lookup? hc, hmem⟩

/-- A child stands in one role. -/
theorem Holds.unique (hd : n.children.Nodup) (h : n.Holds role c) (h' : n.Holds role' c) : role = role' := by
  obtain ⟨content, hc, hmem⟩ := h
  obtain ⟨content', hc', hmem'⟩ := h'
  by_contra hne
  have hsymm : Std.Symm (Function.onFun List.Disjoint (Field.children (α := NodeId))) := ⟨fun _ _ => List.Disjoint.symm⟩
  have hfields : (⟨role, content⟩ : Field NodeId) ≠ ⟨role', content'⟩ := fun he => hne (congrArg Field.role he)
  have hdisj := (List.nodup_flatMap.1 hd).2.forall (Field.mem_of_lookup? hc) (Field.mem_of_lookup? hc') hfields
  exact hdisj hmem hmem'

namespace Shaped

theorem roles_nodup (h : n.Shaped) : (n.fields.map Field.role).Nodup := by
  have hroles := congrArg (List.map Prod.fst) h
  rw [List.map_map, List.map_map] at hroles
  exact hroles ▸ n.kind.layout_roles_nodup

/-- Every child stands in a role. -/
theorem exists_holds (h : n.Shaped) (hc : c ∈ n.children) : ∃ role, n.Holds role c := by
  obtain ⟨field, hfield, hmem⟩ := List.mem_flatMap.1 hc
  exact ⟨field.role, field.content, Field.lookup?_of_mem h.roles_nodup hfield, hmem⟩

/-- A role for one child holds the child that is found there. -/
theorem holds_iff (h : n.Shaped) (hrole : (role, false) ∈ n.kind.layout.map Slot.shape) :
    n.Holds role c ↔ n.child? role = some c := by
  rw [← h, List.mem_map] at hrole
  obtain ⟨⟨role', content⟩, hfield, hshape⟩ := hrole
  obtain ⟨rfl, hone⟩ := Prod.mk.inj hshape
  have hlookup : n.content? role' = some content := Field.lookup?_of_mem h.roles_nodup hfield
  cases content with
  | many items => cases hone
  | one child => simp [Holds, child?, hlookup, Content.child?, Content.children_one]

end Shaped

end Node

namespace Forest

variable {f f' : Forest} {n : Node} {e : Edit} {i o c : NodeId} {out : Option NodeId} {role : Role} {k : Kind}

/-- Every node has the fields of its kind, and every role holds what it takes. -/
structure Conforming (f : Forest) : Prop where
  shaped : ∀ {i n}, f.get? i = some n → n.Shaped
  filled : ∀ {o n role c}, f.get? o = some n → n.Holds role c → ∃ k, f.kind? c = some k ∧ n.kind.Takes role k

theorem conforming_empty : ({} : Forest).Conforming where
  shaped h := absurd (lt_size_of_get? h) (Nat.not_lt_zero _)
  filled h := absurd (lt_size_of_get? h) (Nat.not_lt_zero _)

/-! ## Constructions -/

/-- A construction changes the kind of no node. -/
theorem kind?_construct (h : f.construct n = .ok (i, f')) (hc : c < f.size) : f'.kind? c = f.kind? c := by
  rw [kind?, kind?, construct_get? h, if_neg (Nat.ne_of_lt hc)]
  cases f.get? c with
  | none => rfl
  | some m => by_cases hm : c ∈ n.children <;> simp [hm, Node.kind]

/-- A property that is built has a name or a literal for its key. -/
theorem key_of_construct (hs : n.Shaped) (h : f.construct n = .ok (i, f')) (hn : n.kind = .property)
    (hc : n.Holds .key c) (hk : f.kind? c = some k) : k = .name ∨ k = .literalExpression := by
  have hchild : n.child? .key = some c := (hs.holds_iff (by rw [hn]; decide)).1 hc
  have hkey : f.childKind? n .key = some k := by simp [childKind?, hchild, hk]
  have hfault : f.fault? n = none := by
    unfold construct at h
    split at h
    · cases h
    · assumption
  have hspecial : f.specialFault? n = none := by
    unfold fault? at hfault
    split at hfault
    · cases hfault
    · exact hfault
  have hform : ∃ access, n.form = .property access := by
    obtain ⟨form, _, _, _, _⟩ := n
    cases form <;> cases hn
    exact ⟨_, rfl⟩
  obtain ⟨access, hform⟩ := hform
  simp only [specialFault?, hform, Option.or_eq_none_iff, keyFault?, hkey] at hspecial
  cases k <;> simp at hspecial ⊢

/-- Apart from links, a node is an old one or the new one. -/
theorem node_of_construct (h : f.construct n = .ok (i, f')) {m : Node} (hm : f'.get? o = some m) :
    ∃ m₀, (f.get? o = some m₀ ∨ m₀ = n) ∧ m.form = m₀.form ∧ m.fields = m₀.fields := by
  rw [construct_get? h] at hm
  split at hm
  · cases hm
    exact ⟨n, Or.inr rfl, rfl, rfl⟩
  · obtain ⟨m₀, hm₀, rfl⟩ := Option.map_eq_some_iff.1 hm
    by_cases ho : o ∈ n.children <;> exact ⟨m₀, Or.inl hm₀, by simp [ho], by simp [ho]⟩

theorem Conforming.construct (hf : f.Conforming) (hs : n.Shaped) (hr : ∀ c ∈ n.children, f.IsRoot c)
    (ht : ∀ role c k, n.Holds role c → f.kind? c = some k → n.kind.Declares role k)
    (h : f.construct n = .ok (i, f')) : f'.Conforming := by
  constructor
  · intro j m hm
    obtain ⟨m₀, hm₀, hform, hfields⟩ := node_of_construct h hm
    have hs₀ : m₀.Shaped := hm₀.elim hf.shaped fun he => he ▸ hs
    rw [Node.Shaped, Node.kind, hform, hfields]
    exact hs₀
  · intro o m role c hm hc
    obtain ⟨m₀, hm₀, hform, hfields⟩ := node_of_construct h hm
    have hc₀ : m₀.Holds role c := by rwa [Node.Holds, Node.content?, ← hfields]
    rw [Node.kind, hform]
    rcases hm₀ with hm₀ | rfl
    · obtain ⟨k, hk, htakes⟩ := hf.filled hm₀ hc₀
      obtain ⟨_, hget, _⟩ := Option.map_eq_some_iff.1 hk
      exact ⟨k, (kind?_construct h (lt_size_of_get? hget)).trans hk, htakes⟩
    · have hlt := (hr c hc₀.mem_children).1
      obtain ⟨k, hk⟩ := exists_kind? hlt
      refine ⟨k, (kind?_construct h hlt).trans hk, ht role c k hc₀ hk, fun hprop hkey => ?_⟩
      exact key_of_construct hs h hprop (hkey ▸ hc₀) hk

/-! ## Edits -/

/-- An edit changes the form of no node. -/
theorem kind?_edit (h : f.edit e = .ok (out, f')) (c : NodeId) : f'.kind? c = f.kind? c := by
  rw [kind?, kind?, edit_get? h]
  cases f.get? c with
  | none => rfl
  | some m => by_cases hc : c = e.owner <;> simp [hc, Node.kind, Node.setContent]

/-- The new content of the role is from the old one or put in. -/
theorem holds_content (hn : f.get? e.owner = some n) (hc : c ∈ (e.content f).children) :
    e.incoming? = some c ∨ n.Holds e.role c := by
  have hold : some c ∈ f.items e.owner e.role → n.Holds e.role c := by
    intro hmem
    rw [items, hn, Option.map_some, Option.getD_some, Node.items] at hmem
    cases hcontent : n.content? e.role with
    | none => simp [hcontent] at hmem
    | some content => exact ⟨content, hcontent, by simpa [hcontent, Content.children] using hmem⟩
  rw [Content.children, List.mem_filterMap] at hc
  obtain ⟨_, hc, rfl⟩ := hc
  cases e with
  | replace owner role child => exact Or.inl (List.mem_singleton.1 hc).symm
  | append owner role child =>
    rcases List.mem_append.1 hc with hc | hc
    · exact Or.inr (hold hc)
    · exact Or.inl (List.mem_singleton.1 hc).symm
  | insert owner role index child =>
    rcases List.eq_or_mem_of_mem_insertIdx hc with hc | hc
    · exact Or.inl hc.symm
    · exact Or.inr (hold hc)
  | remove owner role index => exact Or.inr (hold (List.mem_of_mem_eraseIdx hc))

theorem isMany_content (hfit : e.Fits f) (hn : f.get? e.owner = some n) :
    ∃ content, n.content? e.role = some content ∧ (e.content f).isMany = content.isMany := by
  have hcontent : f.content? e.owner e.role = n.content? e.role := by simp [content?, hn]
  cases e <;>
  · obtain ⟨x, hx⟩ := hfit
    exact ⟨_, hcontent.symm.trans hx, rfl⟩

/-- Apart from links, a node is the old one, with other content in the role if it is the owner. -/
theorem node_of_edit (h : f.edit e = .ok (out, f')) (hn : f'.get? o = some n) :
    ∃ m, f.get? o = some m ∧ n.form = m.form ∧
      n.fields = if o = e.owner then Field.update e.role (e.content f) m.fields else m.fields := by
  rw [edit_get? h] at hn
  obtain ⟨m, hm, rfl⟩ := Option.map_eq_some_iff.1 hn
  by_cases ho : o = e.owner <;> exact ⟨m, hm, by simp [ho, Node.setContent], by simp [ho, Node.setContent]⟩

/-- What stands in a role after an edit was there before, or was put in. -/
theorem holds_of_edit (h : f.edit e = .ok (out, f')) (hn : f'.get? o = some n) (hc : n.Holds role c) :
    ∃ m, f.get? o = some m ∧ n.kind = m.kind ∧
      (m.Holds role c ∨ o = e.owner ∧ role = e.role ∧ e.incoming? = some c) := by
  obtain ⟨m, hm, hform, hfields⟩ := node_of_edit h hn
  refine ⟨m, hm, congrArg Form.kind hform, ?_⟩
  obtain ⟨content, hcontent, hmem⟩ := hc
  rw [Node.content?, hfields] at hcontent
  split at hcontent
  · subst o
    by_cases hr : role = e.role
    · subst hr
      rw [Field.lookup?_update_self] at hcontent
      obtain ⟨_, _, rfl⟩ := Option.map_eq_some_iff.1 hcontent
      exact (holds_content hm hmem).symm.imp_right fun hi => ⟨rfl, rfl, hi⟩
    · rw [Field.lookup?_update_of_ne hr] at hcontent
      exact Or.inl ⟨content, hcontent, hmem⟩
  · exact Or.inl ⟨content, hcontent, hmem⟩

theorem Conforming.edit (hf : f.Conforming) (hfit : e.Fits f)
    (hin : ∀ c, e.incoming? = some c → f.IsRoot c)
    (ht : ∀ k c k', f.kind? e.owner = some k → e.incoming? = some c → f.kind? c = some k' → k.Takes e.role k')
    (h : f.edit e = .ok (out, f')) : f'.Conforming := by
  constructor
  · intro j n hn
    obtain ⟨m, hm, hform, hfields⟩ := node_of_edit h hn
    have hs := hf.shaped hm
    rw [Node.Shaped, Node.kind, hform, hfields]
    split
    · subst j
      obtain ⟨content, hc, hmany⟩ := isMany_content hfit hm
      rw [Field.map_shape_update hc hmany]
      exact hs
    · exact hs
  · intro o n role c hn hc
    obtain ⟨m, hm, hkind, hcases⟩ := holds_of_edit h hn hc
    rw [hkind, kind?_edit h]
    rcases hcases with hold | ⟨rfl, rfl, hi⟩
    · exact hf.filled hm hold
    · obtain ⟨k, hk⟩ := exists_kind? (hin c hi).1
      exact ⟨k, hk, ht m.kind c k (by simp [kind?, hm]) hi hk⟩

end Forest

/-! ## Tended forests -/

/-- What a caller sees to beside `Act.Licit`: nodes have the fields of their kind, and roles get nodes of the kinds that
they take. The key of a new property is left to the construction, which checks it. -/
def Act.Typed (f : Forest) : Act → Prop
  | .construct n => n.Shaped ∧ ∀ role c k, n.Holds role c → f.kind? c = some k → n.kind.Declares role k
  | .edit e => ∀ k c k', f.kind? e.owner = some k → e.incoming? = some c → f.kind? c = some k' → k.Takes e.role k'
  | .pushRaw _ _ _ | .link _ _ | .repair _ | .survey _ _ => True

namespace Forest

/-- The forests that constructions and edits lead to, if the caller sees to what there is to see to. -/
inductive Tended : Forest → Prop
  | empty : Tended {}
  | act {f f' : Forest} {a : Act} :
      Tended f → a.isTended = true → a.Licit f → a.Typed f → f.perform a = .ok f' → Tended f'

variable {f f' : Forest} {n : Node} {i : NodeId}

/-- A criterion that can be computed: what each field of a new node holds is of a declared kind. -/
theorem Tended.construct (h : f.Tended) (hl : n.children.Nodup ∧ ∀ c ∈ n.children, f.IsRoot c) (hs : n.Shaped)
    (ht : ∀ field ∈ n.fields, ∀ c ∈ field.children, ∀ k ∈ f.kind? c, n.kind.Declares field.role k)
    (hc : f.construct n = .ok (i, f')) : f'.Tended := by
  have hp : f.perform (.construct n) = .ok f' := by simp [perform, hc, Except.map]
  refine .act (a := .construct n) h rfl hl ⟨hs, fun role c k hholds hk => ?_⟩ hp
  obtain ⟨content, hcontent, hmem⟩ := hholds
  exact ht _ (Field.mem_of_lookup? hcontent) c hmem k hk

theorem Tended.tidy (h : f.Tended) : f.Tidy := by
  induction h with
  | empty => exact tidy_empty
  | act _ ha hl _ hp ih => exact ih.perform ha hl hp

/-- **Tended forests conform to the grammar.** -/
theorem Tended.conforming (h : f.Tended) : f.Conforming := by
  induction h with
  | empty => exact conforming_empty
  | @act f f' a _ ha hl ht hp ih =>
    cases a with
    | construct n =>
      obtain ⟨i, hc⟩ := exists_of_map_snd hp
      exact ih.construct ht.1 hl.2 ht.2 hc
    | edit e =>
      obtain ⟨out, he⟩ := exists_of_map_snd hp
      exact ih.edit hl.1 (fun c hc => (hl.2 c hc).1) ht he
    | pushRaw _ _ _ | link _ _ | repair _ | survey _ _ => cases ha

end Forest

end ScriptTree
