import Mathlib
import ScriptTree.Proofs.Undo

/-!
# Edits in either order

An edit reads the content of one role of its owner. It writes that content and the links of the children that it puts in
and takes out. Two edits of different roles, or of different owners, read and write different contents. They also set
different links, or set them alike: what one takes out is owned and what the other puts in is a root, so that these are
never the same node, and a child that both take out is linked to none by both. Where the owners stand in the trees plays
no part.

* `Edit.Independent`: two edits of different places that put in different roots;
* `Edit.congr_content?`: what an edit does depends on the content of its role alone;
* `Forest.content?_edit_of_ne`: an edit leaves the other contents;
* `Forest.get?_editBoth`: the nodes after two independent edits, without their order.

**`independent_edits_commute`**: one order of two independent edits is carried out exactly if the other is, with the
same forest at the end and the same child returned by each edit, and that is so exactly if both positions are in range
at the start. At the end the content of each edit's role is what that edit alone would leave. What was taken out is
linked to none, what was put in to its owner, and all else is as before.
-/

namespace ScriptTree

/-- Contents of different roles can be set in either order. -/
theorem Field.update_comm {α : Type} {role role' : Role} (h : role ≠ role') (c c' : Content α)
    (fields : List (Field α)) : update role c (update role' c' fields) = update role' c' (update role c fields) := by
  induction fields with
  | nil => rfl
  | cons field rest ih =>
    by_cases hr : field.role = role
    · simp [update, hr, h]
    · by_cases hr' : field.role = role'
      · simp [update, hr', h.symm]
      · simp [update, hr, hr', ih]

/-! ## What an edit reads, and when it is carried out -/

namespace Edit

variable {f g : Forest} {e e' : Edit}

/-- What an edit does depends on the content of its role alone. -/
theorem congr_content? (h : g.content? e.owner e.role = f.content? e.owner e.role) :
    (e.Fits g ↔ e.Fits f) ∧ (e.InRange g ↔ e.InRange f) ∧ e.outgoing? g = e.outgoing? f ∧
      e.content g = e.content f := by
  cases e <;> simp only [owner, role] at h <;>
    simp [Fits, InRange, outgoing?, content, Forest.items_eq, Forest.child?_eq, h]

/-- Two edits of different roles or owners of a forest, which put in different roots of it. -/
structure Independent (f : Forest) (e e' : Edit) : Prop where
  places : e.owner ≠ e'.owner ∨ e.role ≠ e'.role
  fits : e.Fits f
  fits' : e'.Fits f
  root : ∀ c, e.incoming? = some c → f.IsRoot c
  root' : ∀ c, e'.incoming? = some c → f.IsRoot c
  distinct : ∀ c, e.incoming? = some c → e'.incoming? ≠ some c

theorem Independent.symm (hi : Independent f e e') : Independent f e' e where
  places := hi.places.imp Ne.symm Ne.symm
  fits := hi.fits'
  fits' := hi.fits
  root := hi.root'
  root' := hi.root
  distinct c h h' := hi.distinct c h' h

end Edit

namespace Forest

variable {f g h : Forest} {e e' : Edit} {out out' : Option NodeId}

/-- An edit leaves the contents of other roles and of other nodes. -/
theorem content?_edit_of_ne (hg : f.edit e = .ok (out, g)) {o : NodeId} {role : Role}
    (hne : e.owner ≠ o ∨ e.role ≠ role) : g.content? o role = f.content? o role := by
  rw [content?, content?, edit_get? hg]
  cases f.get? o with
  | none => rfl
  | some n =>
    by_cases ho : o = e.owner
    · have hrole : role ≠ e.role := (hne.resolve_left (not_not_intro ho.symm)).symm
      simp only [Option.map_some, Option.bind_some, if_pos ho]
      exact n.content?_setContent_of_ne hrole _
    · simp only [Option.map_some, Option.bind_some, if_neg ho]
      rfl

/-- A child that an edit takes out is no root. -/
theorem out_ne_of_isRoot (hfit : e.Fits f) (hg : f.edit e = .ok (out, g)) {c : NodeId} (hc : f.IsRoot c) :
    out ≠ some c := by
  rintro rfl
  exact hc.2 ⟨e.owner, (edit_spliced hfit hg).owns_old (List.mem_singleton_self c)⟩

/-! ## Two edits -/

/-- Performs two edits one after the other, and returns what each of them takes out. -/
def editBoth (f : Forest) (e e' : Edit) : Except Misuse (Option NodeId × Option NodeId × Forest) := do
  let (out, g) ← f.edit e
  let (out', h) ← g.edit e'
  return (out, out', h)

theorem editBoth_eq_ok_iff : f.editBoth e e' = .ok (out, out', h) ↔
    ∃ g, f.edit e = .ok (out, g) ∧ g.edit e' = .ok (out', h) := by
  constructor
  · intro hboth
    cases hg : f.edit e with
    | error misuse => simp [editBoth, hg, bind, Except.bind] at hboth
    | ok result =>
      obtain ⟨out, g⟩ := result
      cases hh : g.edit e' with
      | error misuse => simp [editBoth, hg, hh, bind, Except.bind] at hboth
      | ok result =>
        simp only [editBoth, hg, hh, bind, Except.bind, pure, Except.pure] at hboth
        cases hboth
        exact ⟨g, rfl, hh⟩
  · rintro ⟨g, hg, hh⟩
    simp [editBoth, hg, hh, bind, Except.bind, pure, Except.pure]

/-- **Two independent edits are carried out exactly if both are in range at the start**, and return what stood there. -/
theorem exists_editBoth_eq_ok_iff (hi : Edit.Independent f e e') :
    (∃ h, f.editBoth e e' = .ok (out, out', h)) ↔
      (e.InRange f ∧ out = e.outgoing? f) ∧ e'.InRange f ∧ out' = e'.outgoing? f := by
  simp only [editBoth_eq_ok_iff]
  constructor
  · rintro ⟨h, g, hg, hh⟩
    obtain ⟨-, hrange, hout, -⟩ := Edit.congr_content? (content?_edit_of_ne hg hi.places)
    have hsecond := exists_edit_eq_ok_iff.1 ⟨h, hh⟩
    rw [hrange, hout] at hsecond
    exact ⟨exists_edit_eq_ok_iff.1 ⟨g, hg⟩, hsecond⟩
  · rintro ⟨hfirst, hsecond⟩
    obtain ⟨g, hg⟩ := exists_edit_eq_ok_iff.2 hfirst
    obtain ⟨-, hrange, hout, -⟩ := Edit.congr_content? (content?_edit_of_ne hg hi.places)
    rw [← hrange, ← hout] at hsecond
    obtain ⟨h, hh⟩ := exists_edit_eq_ok_iff.2 hsecond
    exact ⟨h, g, hg, hh⟩

/-- **The nodes after two independent edits**: the contents of both are set, and what either takes out is linked to none
while what each puts in is linked to its owner. -/
theorem get?_editBoth (hi : Edit.Independent f e e') (hboth : f.editBoth e e' = .ok (out, out', h)) (j : NodeId) :
    h.get? j = (f.get? j).map fun n =>
      let n' := if j = e.owner then n.setContent e.role (e.content f) else n
      { (if j = e'.owner then n'.setContent e'.role (e'.content f) else n') with
        parent :=
          if out = some j ∨ out' = some j then none
          else if e.incoming? = some j then some e.owner
          else if e'.incoming? = some j then some e'.owner
          else n.parent } := by
  obtain ⟨g, hg, hh⟩ := editBoth_eq_ok_iff.1 hboth
  obtain ⟨-, -, -, hcontent⟩ := Edit.congr_content? (content?_edit_of_ne hg hi.places)
  rw [edit_get? hh, edit_get? hg, Option.map_map, hcontent]
  refine congrArg (Option.map · (f.get? j)) (funext fun n => ?_)
  have hapart : e'.incoming? = some j → out ≠ some j := fun hj => out_ne_of_isRoot hi.fits hg (hi.root' j hj)
  have hdistinct := hi.distinct j
  simp only [Function.comp_apply, Node.setContent]
  grind

/-- **The order of two independent edits does not matter.** -/
theorem editBoth_swap (hi : Edit.Independent f e e') (hboth : f.editBoth e e' = .ok (out, out', h)) :
    f.editBoth e' e = .ok (out', out, h) := by
  have hranges := (exists_editBoth_eq_ok_iff hi).1 ⟨h, hboth⟩
  obtain ⟨h', hboth'⟩ := (exists_editBoth_eq_ok_iff hi.symm).2 hranges.symm
  have hsame : h' = h := by
    refine eq_of_get? fun j => ?_
    rw [get?_editBoth hi hboth, get?_editBoth hi.symm hboth']
    refine congrArg (Option.map · (f.get? j)) (funext fun n => ?_)
    have hdistinct := hi.distinct j
    simp only [Node.setContent]
    by_cases hj : j = e.owner ∧ j = e'.owner
    · -- both edits are at one node, in different roles
      have hrole : e.role ≠ e'.role := hi.places.resolve_left (not_not_intro (hj.1.symm.trans hj.2))
      simp only [if_pos hj.1, if_pos hj.2, Field.update_comm hrole]
      grind
    · grind
  rw [hboth', hsame]

/-- The content of the second edit is the one that it would leave as the first. -/
theorem content?_editBoth (hi : Edit.Independent f e e') (hboth : f.editBoth e e' = .ok (out, out', h)) :
    h.content? e'.owner e'.role = some (e'.content f) := by
  obtain ⟨g, hg, hh⟩ := editBoth_eq_ok_iff.1 hboth
  obtain ⟨hfits, -, -, hcontent⟩ := Edit.congr_content? (content?_edit_of_ne hg hi.places)
  rw [Edit.content?_edit (hfits.2 hi.fits') hh, hcontent]

theorem content?_editBoth_of_ne (hboth : f.editBoth e e' = .ok (out, out', h)) {o : NodeId} {role : Role}
    (hne : e.owner ≠ o ∨ e.role ≠ role) (hne' : e'.owner ≠ o ∨ e'.role ≠ role) :
    h.content? o role = f.content? o role := by
  obtain ⟨g, hg, hh⟩ := editBoth_eq_ok_iff.1 hboth
  rw [content?_edit_of_ne hh hne', content?_edit_of_ne hg hne]

theorem parent?_editBoth (hi : Edit.Independent f e e') (hboth : f.editBoth e e' = .ok (out, out', h)) {c : NodeId}
    (hc : c < f.size) : h.parent? c =
      if out = some c ∨ out' = some c then none
      else if e.incoming? = some c then some e.owner
      else if e'.incoming? = some c then some e'.owner
      else f.parent? c := by
  obtain ⟨n, hn⟩ := get?_isSome hc
  have hn' := get?_editBoth hi hboth c
  rw [hn, Option.map_some] at hn'
  simp only [parent?, hn, hn', Option.bind_some]

end Forest

/-- **Independent edits can be done in either order**, wherever their owners stand in the trees. -/
theorem independent_edits_commute (f : Forest) (e e' : Edit) (hi : Edit.Independent f e e') :
    (∀ out out' h, f.editBoth e e' = .ok (out, out', h) ↔ f.editBoth e' e = .ok (out', out, h)) ∧
    (∀ out out', (∃ h, f.editBoth e e' = .ok (out, out', h)) ↔
      (e.InRange f ∧ out = e.outgoing? f) ∧ e'.InRange f ∧ out' = e'.outgoing? f) ∧
    ∀ out out' h, f.editBoth e e' = .ok (out, out', h) →
      h.content? e.owner e.role = some (e.content f) ∧ h.content? e'.owner e'.role = some (e'.content f) ∧
      (∀ o role, e.owner ≠ o ∨ e.role ≠ role → e'.owner ≠ o ∨ e'.role ≠ role →
        h.content? o role = f.content? o role) ∧
      ∀ c < f.size, h.parent? c =
        if out = some c ∨ out' = some c then none
        else if e.incoming? = some c then some e.owner
        else if e'.incoming? = some c then some e'.owner
        else f.parent? c := by
  refine ⟨fun out out' h => ⟨Forest.editBoth_swap hi, Forest.editBoth_swap hi.symm⟩,
    fun out out' => Forest.exists_editBoth_eq_ok_iff hi, fun out out' h hboth => ?_⟩
  refine ⟨?_, Forest.content?_editBoth hi hboth, fun o role => Forest.content?_editBoth_of_ne hboth,
    fun c => Forest.parent?_editBoth hi hboth⟩
  exact Forest.content?_editBoth hi.symm (Forest.editBoth_swap hi hboth)

/-- The negation takes the place of the array in the statement. The array can lose its first expression, and the
negation its argument, before that or after it: the one owner is taken out and the other is put in. -/
theorem independent_edits_commute_arrayAndNegation :
    (Edit.Independent arrayAndNegation (.replace 3 .expression (some 5)) (.remove 2 .expressions 0) ∧
      ∃ h, arrayAndNegation.editBoth (.replace 3 .expression (some 5)) (.remove 2 .expressions 0) =
          .ok (some 2, some 0, h) ∧
        arrayAndNegation.editBoth (.remove 2 .expressions 0) (.replace 3 .expression (some 5)) =
          .ok (some 0, some 2, h) ∧
        h.content? 2 .expressions = some (.many [none, some 1]) ∧ h.content? 3 .expression = some (.one (some 5))) ∧
    Edit.Independent arrayAndNegation (.replace 3 .expression (some 5)) (.replace 5 .argument none) ∧
      ∃ h, arrayAndNegation.editBoth (.replace 3 .expression (some 5)) (.replace 5 .argument none) =
          .ok (some 2, some 4, h) ∧
        arrayAndNegation.editBoth (.replace 5 .argument none) (.replace 3 .expression (some 5)) =
          .ok (some 4, some 2, h) ∧
        h.parent? 5 = some 3 ∧ h.parent? 2 = none ∧ h.parent? 4 = none := by
  have hroot : ∀ c, some 5 = some c → arrayAndNegation.IsRoot c := fun c hc => Option.some.inj hc ▸ by decide
  have hout : Edit.Independent arrayAndNegation (.replace 3 .expression (some 5)) (.remove 2 .expressions 0) :=
    ⟨.inl (by decide), ⟨_, rfl⟩, ⟨_, rfl⟩, hroot, (fun c hc => by cases hc), (fun c _ hc => by cases hc)⟩
  have hin : Edit.Independent arrayAndNegation (.replace 3 .expression (some 5)) (.replace 5 .argument none) :=
    ⟨.inl (by decide), ⟨_, rfl⟩, ⟨_, rfl⟩, hroot, (fun c hc => by cases hc), (fun c _ hc => by cases hc)⟩
  constructor
  · obtain ⟨hswap, hok, hafter⟩ := independent_edits_commute arrayAndNegation _ _ hout
    obtain ⟨h, hboth⟩ := (hok (some 2) (some 0)).2 (by decide)
    obtain ⟨hstatement, harray, -⟩ := hafter _ _ h hboth
    exact ⟨hout, h, hboth, (hswap _ _ h).1 hboth, harray, hstatement⟩
  · obtain ⟨hswap, hok, hafter⟩ := independent_edits_commute arrayAndNegation _ _ hin
    obtain ⟨h, hboth⟩ := (hok (some 2) (some 4)).2 (by decide)
    obtain ⟨-, -, -, hlinks⟩ := hafter _ _ h hboth
    exact ⟨hin, h, hboth, (hswap _ _ h).1 hboth, hlinks 5 (by decide), hlinks 2 (by decide), hlinks 4 (by decide)⟩

end ScriptTree
