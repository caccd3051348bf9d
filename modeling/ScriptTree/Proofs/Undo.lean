import Mathlib
import ScriptTree.Proofs.Surgery

/-!
# Undoing edits

An edit sets the content of one role and two links, so the edit that sets them back restores the forest. `Edit.undo` is
that edit, read off the forest before: it takes out what was put in and puts in what was taken out, at the same place.
What an edit leaves behind is a link to the owner for what it put in and none for what it took out, so the links come
back if they were the other way round before (`Edit.Linked`).

**`edits_reversible`**: an insertion is refused exactly if the index is greater than the length of the list, a removal
exactly if it is not less, and each refusal tells the index and the length. Within the range, to insert a child that is
linked to nothing, or a hole, and to remove at the same index returns it and restores the whole forest. So does to
remove a hole or a child that is linked to the owner and to insert it again, and to put back what was replaced. To
append is to insert at the end.
-/

namespace ScriptTree

theorem Forest.items_of_content? {f : Forest} {owner : NodeId} {role : Role} {items : List (Option NodeId)}
    (h : f.content? owner role = some (.many items)) : f.items owner role = items := by
  rw [items_eq, h]
  rfl

namespace Edit

variable {f g : Forest} {e : Edit} {out : Option NodeId}

/-- The edit that takes another one back, from the forest before that one. -/
def undo (f : Forest) : Edit → Edit
  | replace owner role _ => replace owner role (f.child? owner role)
  | append owner role _ => remove owner role (f.items owner role).length
  | insert owner role index _ => remove owner role index
  | remove owner role index => insert owner role index (f.items owner role)[index]?.join

/-- What goes in is linked to nothing, and what goes out to the owner. -/
structure Linked (f : Forest) (e : Edit) : Prop where
  incoming : ∀ c, e.incoming? = some c → f.parent? c = none
  outgoing : ∀ c, e.outgoing? f = some c → f.parent? c = some e.owner

@[simp] theorem owner_undo : (e.undo f).owner = e.owner := by cases e <;> rfl

@[simp] theorem role_undo : (e.undo f).role = e.role := by cases e <;> rfl

@[simp] theorem incoming?_undo : (e.undo f).incoming? = e.outgoing? f := by cases e <;> rfl

/-- What stands in the role after an edit. -/
theorem content?_edit (hfit : e.Fits f) (h : f.edit e = .ok (out, g)) :
    g.content? e.owner e.role = some (e.content f) := by
  obtain ⟨n, content, hn, hrole⟩ := hfit.exists_node
  have hn' := Forest.edit_get? h e.owner
  rw [hn, Option.map_some, if_pos rfl] at hn'
  rw [Forest.content?, hn', Option.bind_some]
  have hset := Node.content?_setContent_self n e.role (e.content f)
  rw [hrole, Option.map_some] at hset
  exact hset

/-- **The edit that undoes** is at a place that the owner has, takes out what was put in, and leaves the content as it
was. -/
theorem undo_spec (hfit : e.Fits f) (hrange : e.InRange f) (h : f.edit e = .ok (out, g)) :
    (e.undo f).InRange g ∧ (e.undo f).outgoing? g = e.incoming? ∧
      f.content? e.owner e.role = some ((e.undo f).content g) := by
  have hg := content?_edit hfit h
  cases e with
  | replace owner role child =>
    obtain ⟨old, hold⟩ := hfit
    have hnew : g.content? owner role = some (.one child) := hg
    refine ⟨trivial, ?_, ?_⟩
    · show g.child? owner role = child
      rw [Forest.child?_eq, hnew]
      rfl
    · show f.content? owner role = some (.one (f.child? owner role))
      rw [Forest.child?_eq, hold]
      rfl
  | append owner role child =>
    obtain ⟨items, hitems⟩ := hfit
    have hf : f.items owner role = items := Forest.items_of_content? hitems
    have hnew : g.items owner role = items ++ [child] := hf ▸ Forest.items_of_content? hg
    refine ⟨?_, ?_, ?_⟩
    · show (f.items owner role).length < (g.items owner role).length
      simp [hf, hnew]
    · show (g.items owner role)[(f.items owner role).length]?.join = child
      simp [hf, hnew]
    · show f.content? owner role = some (.many ((g.items owner role).eraseIdx (f.items owner role).length))
      rw [hitems, hf, hnew, List.eraseIdx_append_of_length_le (Nat.le_refl _)]
      simp
  | insert owner role index child =>
    obtain ⟨items, hitems⟩ := hfit
    have hf : f.items owner role = items := Forest.items_of_content? hitems
    have hnew : g.items owner role = items.insertIdx index child := hf ▸ Forest.items_of_content? hg
    have hle : index ≤ items.length := hf ▸ hrange
    refine ⟨?_, ?_, ?_⟩
    · show index < (g.items owner role).length
      rw [hnew, List.length_insertIdx_of_le_length hle]
      omega
    · show (g.items owner role)[index]?.join = child
      rw [hnew, List.getElem?_insertIdx_self, if_pos hle, Option.join_some]
    · show f.content? owner role = some (.many ((g.items owner role).eraseIdx index))
      rw [hitems, hnew, List.eraseIdx_insertIdx_self]
  | remove owner role index =>
    obtain ⟨items, hitems⟩ := hfit
    have hf : f.items owner role = items := Forest.items_of_content? hitems
    have hnew : g.items owner role = items.eraseIdx index := hf ▸ Forest.items_of_content? hg
    have hlt : index < items.length := hf ▸ hrange
    refine ⟨?_, rfl, ?_⟩
    · show index ≤ (g.items owner role).length
      rw [hnew, List.length_eraseIdx_of_lt hlt]
      omega
    · show f.content? owner role = some (.many ((g.items owner role).insertIdx index (f.items owner role)[index]?.join))
      rw [hitems, hf, hnew, List.getElem?_eq_getElem hlt, Option.join_some, List.insertIdx_eraseIdx_getElem hlt]

/-- **Every edit can be taken back**, and then the forest is what it was, node for node and link for link. -/
theorem exists_undo (hfit : e.Fits f) (hrange : e.InRange f) (hlinked : e.Linked f) :
    ∃ g, f.edit e = .ok (e.outgoing? f, g) ∧ g.edit (e.undo f) = .ok (e.incoming?, f) := by
  obtain ⟨g, h⟩ := Forest.edit_outgoing hrange
  obtain ⟨hrange', hout, hcontent⟩ := undo_spec hfit hrange h
  obtain ⟨f', h'⟩ := Forest.edit_outgoing hrange'
  rw [hout] at h'
  have hsame : f' = f := by
    refine Forest.eq_of_get? fun j => ?_
    rw [Forest.edit_get? h', Forest.edit_get? h, Option.map_map, owner_undo, role_undo, incoming?_undo]
    refine (Option.map_congr fun n hn => ?_).trans (congrFun Option.map_id _)
    have hparent : f.parent? j = n.parent := by rw [Forest.parent?, hn]; rfl
    have hin : e.incoming? = some j → n.parent = none := fun hj => hparent ▸ hlinked.incoming j hj
    have hgone : e.outgoing? f = some j → n.parent = some e.owner := fun hj => hparent ▸ hlinked.outgoing j hj
    have hfields : j = e.owner → Field.update e.role ((e.undo f).content g) n.fields = n.fields := by
      rintro rfl
      rw [Forest.content?, hn, Option.bind_some] at hcontent
      exact Field.update_lookup? hcontent
    obtain ⟨form, fields, parent, span, env⟩ := n
    simp only [Function.comp_apply, id_eq, Node.setContent] at hin hgone hfields ⊢
    by_cases hj : j = e.owner
    · simp only [if_pos hj, Field.update_update, hfields hj]
      grind
    · simp only [if_neg hj]
      grind
  exact ⟨g, h, hsame ▸ h'⟩

end Edit

/-! ## Refusals -/

namespace Forest

variable {f : Forest} {owner : NodeId} {role : Role} {index : Nat} {child : Option NodeId} {misuse : Misuse}

theorem insert_eq_error_iff : f.insert owner role index child = .error misuse ↔
    (f.items owner role).length < index ∧
      misuse = .insertPastEnd index (f.items owner role).length (f.kind? owner) := by
  simp only [insert]
  split
  · rename_i hlt
    simp [hlt, eq_comm]
  · rename_i hle
    simp [hle]

theorem remove_eq_error_iff : f.remove owner role index = .error misuse ↔
    (f.items owner role).length ≤ index ∧ misuse = .removeOutOfRange index (f.items owner role).length := by
  simp only [remove]
  split
  · rename_i hnone
    simp [List.getElem?_eq_none_iff.1 hnone, eq_comm]
  · rename_i old hsome
    have hlt := (List.getElem?_eq_some_iff.1 hsome).1
    simp [Nat.not_le.2 hlt]

/-- To append is to insert at the end. -/
theorem insert_length (f : Forest) (owner : NodeId) (role : Role) (child : Option NodeId) :
    f.insert owner role (f.items owner role).length child = .ok (f.append owner role child) := by
  rw [insert, if_neg (Nat.lt_irrefl _), List.insertIdx_length_self]
  rfl

end Forest

/-- **Edits are refused exactly out of range, and can be taken back**, in every forest and at every index. -/
theorem edits_reversible (f : Forest) (owner : NodeId) (role : Role) :
    (∀ items, f.content? owner role = some (.many items) →
      (∀ index child misuse, f.insert owner role index child = .error misuse ↔
        items.length < index ∧ misuse = .insertPastEnd index items.length (f.kind? owner)) ∧
      (∀ index misuse, f.remove owner role index = .error misuse ↔
        items.length ≤ index ∧ misuse = .removeOutOfRange index items.length) ∧
      (∀ index child, index ≤ items.length → (∀ c, child = some c → f.parent? c = none) →
        ∃ g, f.insert owner role index child = .ok g ∧ g.remove owner role index = .ok (child, f)) ∧
      (∀ index child, items[index]? = some child → (∀ c, child = some c → f.parent? c = some owner) →
        ∃ g, f.remove owner role index = .ok (child, g) ∧ g.insert owner role index child = .ok f) ∧
      ∀ child, f.insert owner role items.length child = .ok (f.append owner role child)) ∧
    ∀ old child, f.content? owner role = some (.one old) → (∀ c, old = some c → f.parent? c = some owner) →
      (∀ c, child = some c → f.parent? c = none) →
        ∃ g, f.replace owner role child = (old, g) ∧ g.replace owner role old = (child, f) := by
  refine ⟨fun items hcontent => ?_, fun old child hcontent hold hchild => ?_⟩
  · obtain rfl : f.items owner role = items := Forest.items_of_content? hcontent
    refine ⟨fun index child misuse => Forest.insert_eq_error_iff, fun index misuse => Forest.remove_eq_error_iff,
      fun index child hle hchild => ?_, fun index child hget hchild => ?_, f.insert_length owner role⟩
    · obtain ⟨g, hedit, hundo⟩ := Edit.exists_undo (e := .insert owner role index child) ⟨_, hcontent⟩ hle
        ⟨hchild, fun c hc => by cases hc⟩
      exact ⟨g, (Forest.insert_of_edit hedit).2, hundo⟩
    · have hout : Edit.outgoing? f (.remove owner role index) = child := by rw [Edit.outgoing?, hget, Option.join_some]
      obtain ⟨g, hedit, hundo⟩ := Edit.exists_undo (e := .remove owner role index) ⟨_, hcontent⟩
        (List.getElem?_eq_some_iff.1 hget).1 ⟨(fun c hc => by cases hc), hout ▸ hchild⟩
      rw [hout] at hedit
      rw [Edit.undo, hget, Option.join_some] at hundo
      exact ⟨g, hedit, (Forest.insert_of_edit hundo).2⟩
  · have hout : Edit.outgoing? f (.replace owner role child) = old := by
      rw [Edit.outgoing?, Forest.child?_eq, hcontent]
      rfl
    obtain ⟨g, hedit, hundo⟩ := Edit.exists_undo (e := .replace owner role child) ⟨_, hcontent⟩ trivial
      ⟨hchild, hout ▸ hold⟩
    rw [hout] at hedit
    refine ⟨g, Except.ok.inj hedit, ?_⟩
    rw [← hout]
    exact Except.ok.inj hundo

/-- In the array the negation goes in and out again, and the hole and the first expression go out and in again. In the
statement the negation takes the place of the array, which comes back. -/
theorem edits_reversible_arrayAndNegation :
    arrayAndNegation.content? 2 .expressions = some (.many [some 0, none, some 1]) ∧
    arrayAndNegation.parent? 5 = none ∧ arrayAndNegation.parent? 0 = some 2 ∧
    arrayAndNegation.insert 2 .expressions (2 ^ 64 - 1) (some 5) =
      .error (.insertPastEnd (2 ^ 64 - 1) 3 (some .arrayExpression)) ∧
    arrayAndNegation.remove 2 .expressions 3 = .error (.removeOutOfRange 3 3) ∧
    (∃ g, arrayAndNegation.insert 2 .expressions 1 (some 5) = .ok g ∧
      g.remove 2 .expressions 1 = .ok (some 5, arrayAndNegation)) ∧
    (∃ g, arrayAndNegation.remove 2 .expressions 1 = .ok (none, g) ∧
      g.insert 2 .expressions 1 none = .ok arrayAndNegation) ∧
    (∃ g, arrayAndNegation.remove 2 .expressions 0 = .ok (some 0, g) ∧
      g.insert 2 .expressions 0 (some 0) = .ok arrayAndNegation) ∧
    ∃ g, arrayAndNegation.replace 3 .expression (some 5) = (some 2, g) ∧
      g.replace 3 .expression (some 2) = (some 5, arrayAndNegation) := by
  obtain ⟨hlist, -⟩ := edits_reversible arrayAndNegation 2 .expressions
  obtain ⟨hinsert, hremove, hput, htake, -⟩ := hlist [some 0, none, some 1] rfl
  have hloose : ∀ c, some 5 = some c → arrayAndNegation.parent? c = none := fun c hc => Option.some.inj hc ▸ rfl
  refine ⟨rfl, rfl, rfl, (hinsert _ _ _).2 ⟨by decide, rfl⟩, (hremove _ _).2 ⟨by decide, rfl⟩,
    hput 1 (some 5) (by decide) hloose, htake 1 none rfl (fun c hc => by cases hc),
    htake 0 (some 0) rfl (fun c hc => Option.some.inj hc ▸ rfl), ?_⟩
  exact (edits_reversible arrayAndNegation 3 .expression).2 _ _ rfl (fun c hc => Option.some.inj hc ▸ rfl) hloose

end ScriptTree
