import Mathlib
import ScriptTree.Forest.Lineage
import ScriptTree.Proofs.Linkage

/-!
# Ancestors against owners

What encloses a node is found by following parent links upward. Here this is compared with the path that leads down to
the node along ownership.

* `Forest.Ascent f i nodes`: the links of `i` lead through `nodes` and end there. An ascent visits no node twice, so
  the bound of `Forest.lineage` is never felt (`Ascent.lineage_eq`).
* `Forest.Descent f r i path`: ownership leads from `r` to `i` along `path`. There is one such path to each node of a
  tree (`Below.exists_descent`, `Descent.unique`), and where links agree with ownership it is an ascent read backwards
  (`Descent.ascent`).
* `Deepest p path i`: the last node of a path with a property.

**`enclosing_deepest`**: in a tree whose links agree with ownership, the program, the function and the scope that
enclose a node are the deepest ones on the path from the root, both ends included, and there is none exactly if the path
has none. The file name is that of this program, and the location is the file name and the line of the node itself, each
with a mark in its place where it is unknown.
-/

namespace ScriptTree

namespace Forest

variable {f : Forest} {i j o r : NodeId} {nodes nodes' path path' : List NodeId}

/-! ## Following links -/

/-- The links of a node lead through `nodes`, the node itself first, up to a node without a link. -/
inductive Ascent (f : Forest) : NodeId → List NodeId → Prop
  | top {i : NodeId} : i < f.size → f.parent? i = none → Ascent f i [i]
  | link {i p : NodeId} {above : List NodeId} : f.parent? i = some p → Ascent f p above → Ascent f i (i :: above)

theorem exists_of_parent? {p : NodeId} (h : f.parent? i = some p) : ∃ n, f.get? i = some n ∧ n.parent = some p :=
  Option.bind_eq_some_iff.1 h

namespace Ascent

theorem unique (h : f.Ascent i nodes) (h' : f.Ascent i nodes') : nodes = nodes' := by
  induction h generalizing nodes' with
  | top _ hp =>
    cases h' with
    | top _ _ => rfl
    | link hp' _ => rw [hp] at hp'; cases hp'
  | link hp _ ih =>
    cases h' with
    | top _ hp' => rw [hp] at hp'; cases hp'
    | link hp' habove =>
      rw [hp] at hp'
      cases hp'
      rw [ih habove]

theorem lt_size (h : f.Ascent i nodes) (hj : j ∈ nodes) : j < f.size := by
  induction h with
  | top hi _ => exact List.mem_singleton.1 hj ▸ hi
  | link hp _ ih =>
    rcases List.mem_cons.1 hj with rfl | hj
    · obtain ⟨n, hn, -⟩ := exists_of_parent? hp
      exact lt_size_of_get? hn
    · exact ih hj

/-- From a node on the way the links lead through the rest of it. -/
theorem exists_of_mem (h : f.Ascent i nodes) (hj : j ∈ nodes) : ∃ above, f.Ascent j above ∧ above <:+ nodes := by
  induction h with
  | top hi hp =>
    rw [List.mem_singleton.1 hj]
    exact ⟨_, .top hi hp, List.suffix_refl _⟩
  | link hp habove ih =>
    rcases List.mem_cons.1 hj with rfl | hj
    · exact ⟨_, .link hp habove, List.suffix_refl _⟩
    · obtain ⟨above, ha, hs⟩ := ih hj
      exact ⟨above, ha, hs.trans (List.suffix_cons _ _)⟩

/-- Links that come to an end never come back. -/
theorem nodup (h : f.Ascent i nodes) : nodes.Nodup := by
  induction h with
  | top _ _ => exact List.nodup_singleton _
  | link hp habove ih =>
    refine List.nodup_cons.2 ⟨fun hi => ?_, ih⟩
    obtain ⟨above, ha, hs⟩ := habove.exists_of_mem hi
    have hle := hs.length_le
    rw [ha.unique (.link hp habove), List.length_cons] at hle
    omega

theorem length_le (h : f.Ascent i nodes) : nodes.length ≤ f.size := by
  have hsub : nodes ⊆ List.range f.size := fun j hj => List.mem_range.2 (h.lt_size hj)
  simpa using (List.subperm_of_subset h.nodup hsub).length_le

theorem lineageUpTo_eq (h : f.Ascent i nodes) {fuel : Nat} (hl : nodes.length ≤ fuel) :
    f.lineageUpTo fuel i = nodes := by
  induction h generalizing fuel with
  | top hi hp =>
    obtain ⟨n, hn⟩ := get?_isSome hi
    have hparent : n.parent = none := by simpa [parent?, hn] using hp
    cases fuel with
    | zero => cases hl
    | succ fuel => simp [lineageUpTo, hn, hparent]
  | link hp _ ih =>
    obtain ⟨n, hn, hparent⟩ := exists_of_parent? hp
    cases fuel with
    | zero => cases hl
    | succ fuel => simp [lineageUpTo, hn, hparent, ih (Nat.le_of_succ_le_succ hl)]

/-- **The lineage of a node is all that its links lead to.** -/
theorem lineage_eq (h : f.Ascent i nodes) : f.lineage i = nodes := h.lineageUpTo_eq h.length_le

end Ascent

/-! ## Paths along ownership -/

/-- Ownership leads from `r` to a node along a path, both ends included. -/
inductive Descent (f : Forest) (r : NodeId) : NodeId → List NodeId → Prop
  | here : Descent f r r [r]
  | step {o c : NodeId} {path : List NodeId} : Descent f r o path → f.Owns o c → Descent f r c (path ++ [c])

theorem Below.exists_descent (h : f.Below r i) : ∃ path, f.Descent r i path := by
  induction h with
  | refl => exact ⟨_, .here⟩
  | tail _ ho ih =>
    obtain ⟨path, hpath⟩ := ih
    exact ⟨_, hpath.step ho⟩

namespace Descent

theorem to_below (h : f.Descent r i path) : f.Below r i := by
  induction h with
  | here => exact .refl
  | step _ ho ih => exact ih.tail ho

/-- One path leads to each node of a tree. -/
theorem unique (hf : f.WellOwned) (h : f.Descent r i path) (h' : f.Descent r i path') : path = path' := by
  induction h generalizing path' with
  | here =>
    cases h' with
    | here => rfl
    | step ho hr => exact absurd ho.to_below (hf.not_below_owner hr)
  | step hpath ho ih =>
    cases h' with
    | here => exact absurd hpath.to_below (hf.not_below_owner ho)
    | step hpath' ho' =>
      rw [hf.unique ho ho'] at ih
      rw [ih hpath']

/-- **Where links agree with ownership, they lead back along the path.** -/
theorem ascent (h : f.Descent r i path) (hr : r < f.size) (hroot : f.parent? r = none)
    (hplaced : ∀ c, f.Below r c → ¬ f.Misplaced c) : f.Ascent i path.reverse := by
  induction h with
  | here => exact .top hr hroot
  | @step o c path hpath ho ih =>
    have hlink : f.parent? c = some o := by
      by_contra hne
      exact hplaced c (hpath.to_below.tail ho) ⟨o, ho, hne⟩
    rw [List.reverse_append]
    exact .link hlink ih

end Descent

end Forest

/-! ## The deepest node with a property -/

/-- `i` is the last node of a path that has a property. -/
def Deepest (p : NodeId → Prop) (path : List NodeId) (i : NodeId) : Prop :=
  p i ∧ ∃ above below, path = above ++ i :: below ∧ ∀ j ∈ below, ¬ p j

/-- What is found first from the lower end is the deepest. -/
theorem find?_reverse_eq_some_iff {p : NodeId → Prop} {q : NodeId → Bool} (hq : ∀ i, q i = true ↔ p i)
    {path : List NodeId} {i : NodeId} : path.reverse.find? q = some i ↔ Deepest p path i := by
  rw [List.find?_eq_some_iff_append, Deepest, hq]
  refine and_congr_right fun _ => ⟨?_, ?_⟩
  · rintro ⟨below, above, hsplit, hbelow⟩
    refine ⟨above.reverse, below.reverse, ?_, fun j hj hp => ?_⟩
    · rw [← List.reverse_reverse path, hsplit]
      simp
    · have hno := hbelow j (List.mem_reverse.1 hj)
      rw [(hq j).2 hp] at hno
      cases hno
  · rintro ⟨above, below, hsplit, hbelow⟩
    refine ⟨below.reverse, above.reverse, by simp [hsplit], fun j hj => ?_⟩
    have hno := mt (hq j).1 (hbelow j (List.mem_reverse.1 hj))
    simpa using hno

theorem find?_reverse_eq_none_iff {p : NodeId → Prop} {q : NodeId → Bool} (hq : ∀ i, q i = true ↔ p i)
    {path : List NodeId} : path.reverse.find? q = none ↔ ∀ i ∈ path, ¬ p i := by
  simp only [List.find?_eq_none, List.mem_reverse, hq]

namespace Forest

variable {f : Forest} {i : NodeId} {k : Kind}

/-- A criterion that can be computed: every child is linked to its owner. -/
theorem placed_of_forall (h : ∀ o < f.size, ∀ c ∈ f.children o, f.parent? c = some o) (c : NodeId) :
    ¬ f.Misplaced c := fun ⟨o, ho, hp⟩ => hp (h o ho.lt_size c ho)

theorem isKind_iff : f.isKind k i = true ↔ f.kind? i = some k := by simp [isKind]

theorem isScope_iff : f.isScope i = true ↔
    ∃ k ∈ [Kind.program, .function, .arrowFunction, .catchClause], f.kind? i = some k := by
  unfold isScope
  cases f.kind? i with
  | none => simp
  | some k => cases k <;> simp [Kind.isScope]

/-- Programs have a file name, and no other node has. -/
theorem programName?_eq_some_iff {file : String} :
    f.programName? i = some file ↔ (f.get? i).map Node.form = some (.program file) := by
  unfold programName?
  generalize (f.get? i).map Node.form = form
  split
  · simp
  · rename_i hform
    simpa using fun h => hform file h

theorem programName?_eq_none_iff : f.programName? i = none ↔ f.kind? i ≠ some .program := by
  unfold programName? kind?
  cases f.get? i with
  | none => simp
  | some n =>
    obtain ⟨form, _, _, _, _⟩ := n
    cases form <;> simp [Node.kind, Form.kind]

/-- The file name of a node is that of its program, and absent without one. -/
theorem filename?_eq_some_iff {file : String} : f.filename? i = some file ↔
    ∃ p, f.program? i = some p ∧ (f.get? p).map Node.form = some (.program file) := by
  simp only [filename?, Option.bind_eq_some_iff, programName?_eq_some_iff]

theorem filename?_eq_none_iff : f.filename? i = none ↔ f.program? i = none := by
  rw [filename?, Option.bind_eq_none_iff]
  constructor
  · intro h
    cases hp : f.program? i with
    | none => rfl
    | some p =>
      have hkind : f.kind? p = some .program := isKind_iff.1 (List.find?_some hp)
      exact absurd hkind (programName?_eq_none_iff.1 (h p hp))
  · intro h p hp
    rw [h] at hp
    cases hp

end Forest

/-- **What the links say encloses a node is the deepest on the path of its owners.** -/
theorem enclosing_deepest (f : Forest) (r i : NodeId) (n : Node) (hf : f.WellOwned) (hr : f.IsRoot r)
    (hroot : f.parent? r = none) (hplaced : ∀ c, f.Below r c → ¬ f.Misplaced c) (hi : f.Below r i)
    (hn : f.get? i = some n) :
    let isProgram := fun j => f.kind? j = some .program
    let isFunction := fun j => f.kind? j = some .function
    let isScope := fun j => ∃ k ∈ [Kind.program, .function, .arrowFunction, .catchClause], f.kind? j = some k
    let line := (n.span.line.map Numeral.ofInt).getD "?"
    ∃ path, (∀ path', f.Descent r i path' ↔ path' = path) ∧
      (∀ j, f.program? i = some j ↔ Deepest isProgram path j) ∧
      (f.program? i = none ↔ ∀ j ∈ path, ¬ isProgram j) ∧
      (∀ j, f.function? i = some j ↔ Deepest isFunction path j) ∧
      (f.function? i = none ↔ ∀ j ∈ path, ¬ isFunction j) ∧
      (∀ j, f.scope? i = some j ↔ Deepest isScope path j) ∧
      (f.scope? i = none ↔ ∀ j ∈ path, ¬ isScope j) ∧
      (∀ file, f.filename? i = some file ↔
        ∃ j, Deepest isProgram path j ∧ (f.get? j).map Node.form = some (.program file)) ∧
      (f.filename? i = none ↔ ∀ j ∈ path, ¬ isProgram j) ∧
      (∀ file, f.filename? i = some file → f.location i = file ++ ":" ++ line) ∧
      (f.filename? i = none → f.location i = "<unknown>:" ++ line) := by
  intro isProgram isFunction isScope line
  obtain ⟨path, hpath⟩ := hi.exists_descent
  have hlineage : f.lineage i = path.reverse := (hpath.ascent hr.1 hroot hplaced).lineage_eq
  have hprogram : ∀ j, f.program? i = some j ↔ Deepest isProgram path j := fun j => by
    rw [Forest.program?, hlineage, find?_reverse_eq_some_iff fun _ => Forest.isKind_iff]
  have hnone : f.program? i = none ↔ ∀ j ∈ path, ¬ isProgram j := by
    rw [Forest.program?, hlineage, find?_reverse_eq_none_iff fun _ => Forest.isKind_iff]
  have hline : f.line? i = n.span.line := by simp [Forest.line?, hn]
  refine ⟨path, fun path' => ⟨fun h => h.unique hf hpath, fun h => h ▸ hpath⟩, hprogram, hnone, fun j => ?_, ?_,
    fun j => ?_, ?_, fun file => ?_, ?_, fun file hfile => ?_, fun hfile => ?_⟩
  · rw [Forest.function?, hlineage, find?_reverse_eq_some_iff fun _ => Forest.isKind_iff]
  · rw [Forest.function?, hlineage, find?_reverse_eq_none_iff fun _ => Forest.isKind_iff]
  · rw [Forest.scope?, hlineage, find?_reverse_eq_some_iff fun _ => Forest.isScope_iff]
  · rw [Forest.scope?, hlineage, find?_reverse_eq_none_iff fun _ => Forest.isScope_iff]
  · simp only [Forest.filename?_eq_some_iff, hprogram]
  · rw [Forest.filename?_eq_none_iff, hnone]
  · rw [Forest.location, hfile, hline]
    rfl
  · rw [Forest.location, hfile, hline]
    rfl

/-- A function whose loop starts from a whole program, in which an arrow function stands. -/
def nestedScopes : Forest :=
  ⟨#[{ form := .emptyStatement, parent := some 1, span := { line := some 7 } },
    { form := .arrowFunction, fields := [⟨.params, .many []⟩, ⟨.body, .one (some 0)⟩], parent := some 2 },
    { form := .expressionStatement, fields := [⟨.expression, .one (some 1)⟩], parent := some 3 },
    { form := .program "inner.js", fields := [⟨.body, .many [some 2]⟩], parent := some 5 },
    { form := .emptyStatement, parent := some 5 },
    { form := .forStatement, fields := [⟨.init, .one (some 3)⟩, ⟨.condition, .one none⟩, ⟨.update, .one none⟩,
        ⟨.body, .one (some 4)⟩], parent := some 6 },
    { form := .function, fields := [⟨.name, .one none⟩, ⟨.params, .many []⟩, ⟨.body, .one (some 5)⟩] }]⟩

/-- The statement of the arrow function is in the arrow function, the inner program and the outer function. -/
theorem enclosing_deepest_nestedScopes :
    nestedScopes.WellOwned ∧ nestedScopes.IsRoot 6 ∧ nestedScopes.parent? 6 = none ∧
      (∀ c, nestedScopes.Below 6 c → ¬ nestedScopes.Misplaced c) ∧
      nestedScopes.Descent 6 0 [6, 5, 3, 2, 1, 0] ∧ nestedScopes.program? 0 = some 3 ∧
      nestedScopes.function? 0 = some 6 ∧ nestedScopes.scope? 0 = some 1 ∧
      nestedScopes.location 0 = "inner.js:7" := by
  have hf : nestedScopes.WellOwned := Forest.wellOwned_of_older (by decide)
  have hplaced : ∀ c, ¬ nestedScopes.Misplaced c := Forest.placed_of_forall (by decide)
  have hpath : nestedScopes.Descent 6 0 [6, 5, 3, 2, 1, 0] :=
    .step (.step (.step (.step (.step .here (o := 6) (c := 5) (by decide)) (c := 3) (by decide)) (c := 2) (by decide))
      (c := 1) (by decide)) (by decide)
  obtain ⟨path, hunique, hprogram, -, hfunction, -, hscope, -, hfile, -, hlocation, -⟩ :=
    enclosing_deepest nestedScopes 6 0 _ hf (by decide) rfl (fun c _ => hplaced c) hpath.to_below rfl
  obtain rfl := (hunique _).1 hpath
  have hprogram3 : Deepest (fun j => nestedScopes.kind? j = some .program) [6, 5, 3, 2, 1, 0] 3 :=
    ⟨rfl, [6, 5], [2, 1, 0], rfl, by decide⟩
  refine ⟨hf, by decide, rfl, fun c _ => hplaced c, hpath, (hprogram 3).2 hprogram3,
    (hfunction 6).2 ⟨rfl, [], [5, 3, 2, 1, 0], rfl, by decide⟩,
    (hscope 1).2 ⟨by decide, [6, 5, 3, 2], [0], rfl, by decide⟩, ?_⟩
  exact (hlocation "inner.js" ((hfile "inner.js").2 ⟨3, hprogram3, rfl⟩)).trans (by decide +kernel)

end ScriptTree
