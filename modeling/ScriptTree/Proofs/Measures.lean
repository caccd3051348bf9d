import Mathlib
import ScriptTree.Proofs.Ancestry
import ScriptTree.Proofs.Fold

/-!
# Folds against walks

Three folds go down a tree by recursion: `Forest.tally` counts its nodes, `Forest.trace` lists their kinds, and
`Forest.depth` finds the deepest of them. Here they are compared with the walk, which keeps a list of nodes and never
recurses, and with the paths of ownership.

* `fold_eq_of_children`: a fold that looks at the results for the children only;
* `tally_eq_count`, `trace_eq_preorder`: the first two folds against the walk;
* `depth_eq_add`: a start lower down adds to the depth and changes nothing else;
* `Descent.cons`, `Descent.append`: paths of ownership, put together;
* `isGreatest_depth`: the depth of a tree is the length of a longest path in it.

**`folds_agree_with_walk`**: on every tree, the tally is the number of nodes that a walk counts, the trace is the kinds
in the order in which a walk visits the nodes, and the depth is the start and the length of a longest path of ownership
down from the root, whatever the start is. On the way, no tally exceeds that of the root, and no depth is below the
start or exceeds that of the root.
-/

namespace ScriptTree

namespace Forest

variable {α β : Type} {f : Forest} {i j k r : NodeId} {n : Node} {path path' : List NodeId}

/-! ## Folds over children -/

theorem flatMap_children_bind (fields : List (Field α)) (g : α → Option β) :
    (fields.map (Field.bind g)).flatMap Field.children = (fields.flatMap Field.children).filterMap g := by
  rw [List.flatMap_map, List.filterMap_flatMap]
  exact List.flatMap_congr fun field _ => Field.children_bind field g

/-- **A fold over the children**: a function that gives the results of such a fold satisfies its equation. -/
theorem fold_eq_of_children (hf : f.WellOwned) (alg : Node → List β → β) (value : NodeId → β)
    (hvalue : ∀ i b, f.fold (fun _ n fields => alg n (fields.flatMap Field.children)) i = some b → value i = b)
    (hn : f.get? i = some n) : value i = alg n ((f.children i).map value) := by
  have hresult : ∀ c ∈ n.children, f.fold (fun _ n fields => alg n (fields.flatMap Field.children)) c =
      some (value c) := by
    intro c hc
    obtain ⟨m, hm⟩ := get?_isSome (hf.bounded (o := i) (by rwa [Owns, children_eq_of_get? hn]))
    have hc := fold_eq hf (fun _ n fields => alg n (fields.flatMap Field.children)) hm
    rw [hc, hvalue c _ hc]
  rw [hvalue i _ (fold_eq hf _ hn), flatMap_children_bind, children_eq_of_get? hn]
  exact congrArg (alg n) (by rw [← List.filterMap_eq_map]; exact List.filterMap_congr hresult)

/-! ## Counting and listing -/

theorem tally_eq (hf : f.WellOwned) (hi : i < f.size) :
    f.tally i = ((f.children i).map f.tally).foldr (· + ·) 1 := by
  obtain ⟨n, hn⟩ := get?_isSome hi
  exact fold_eq_of_children hf (fun _ counts => counts.foldr (· + ·) 1) f.tally
    (fun i b h => by rw [tally, h, Option.getD_some]) hn

/-- What the children count is what stands in their lists. -/
theorem foldr_length_flatMap (list : NodeId → List NodeId) (cs : List NodeId) :
    (cs.map fun c => (list c).length).foldr (· + ·) 1 = (cs.flatMap list).length + 1 := by
  induction cs with
  | nil => rfl
  | cons c cs ih =>
    rw [List.map_cons, List.foldr_cons, ih, List.flatMap_cons, List.length_append, Nat.add_assoc]

/-- **The recursion counts what the walk counts.** -/
theorem tally_eq_count (hf : f.WellOwned) (hi : i < f.size) : f.tally i = f.count i := by
  induction i using hf.descend with
  | step i ih =>
    have hchildren : ∀ c ∈ f.children i, f.tally c = (f.preorder c).length := fun c hc => by
      rw [ih c hc (hf.bounded hc), count_eq hf (hf.bounded hc)]
    rw [tally_eq hf hi, List.map_congr_left hchildren, foldr_length_flatMap, count_eq hf hi, preorder_eq hf hi,
      List.length_cons]

theorem trace_eq (hf : f.WellOwned) (hn : f.get? i = some n) :
    f.trace i = n.kind :: (f.children i).flatMap f.trace := by
  rw [List.flatMap_def]
  exact fold_eq_of_children hf (fun n traces => n.kind :: traces.flatten) f.trace
    (fun i b h => by rw [trace, h, Option.getD_some]) hn

/-- **The recursion lists kinds in pre-order.** -/
theorem trace_eq_preorder (hf : f.WellOwned) (hi : i < f.size) : (f.trace i).map some = (f.preorder i).map f.kind? := by
  induction i using hf.descend with
  | step i ih =>
    obtain ⟨n, hn⟩ := get?_isSome hi
    have hkind : f.kind? i = some n.kind := by rw [kind?, hn, Option.map_some]
    rw [trace_eq hf hn, preorder_eq hf hi, List.map_cons, List.map_cons, hkind, List.map_flatMap, List.map_flatMap]
    exact congrArg (some n.kind :: ·) (List.flatMap_congr fun c hc => ih c hc (hf.bounded hc))

/-! ## The depth of a tree -/

theorem depth_eq (hf : f.WellOwned) (hi : i < f.size) (d : Int) :
    f.depth i d = (f.children i).foldl (fun m c => max m (f.depth c (d + 1))) d := by
  obtain ⟨n, hn⟩ := get?_isSome hi
  have hstep := fold_eq_of_children hf (fun _ depths d => depths.foldl (fun m below => max m (below (d + 1))) d)
    f.depth (fun i b h => by funext d; rw [depth, h, Option.elim_some]) hn
  rw [congrFun hstep d, List.foldl_map]

/-- A lower start adds to a greatest number and to all that it is taken from. -/
theorem foldl_max_add (d : Int) (g : NodeId → Int) (cs : List NodeId) (m : Int) :
    cs.foldl (fun m c => max m (d + g c)) (d + m) = d + cs.foldl (fun m c => max m (g c)) m := by
  induction cs generalizing m with
  | nil => rfl
  | cons c cs ih => rw [List.foldl_cons, List.foldl_cons, max_add_add_left, ih]

/-- **The start adds to the depth** and changes nothing else. -/
theorem depth_eq_add (hf : f.WellOwned) (hi : i < f.size) (d : Int) : f.depth i d = d + f.depth i 0 := by
  induction i using hf.descend generalizing d with
  | step i ih =>
    have hchild : ∀ c ∈ f.children i, f.depth c (d + 1) = d + f.depth c 1 := by
      intro c hc
      rw [ih c hc (hf.bounded hc) (d + 1), ih c hc (hf.bounded hc) 1, add_assoc]
    have hshift := foldl_max_add d (f.depth · 1) (f.children i) 0
    rw [add_zero] at hshift
    rw [depth_eq hf hi, depth_eq hf hi 0, zero_add, ← hshift]
    exact List.foldl_ext _ _ _ fun m c hc => by rw [hchild c hc]

/-- A greatest number is the first of them or one of the others, and none of them exceeds it. -/
theorem foldl_max_cases (g : NodeId → Int) (cs : List NodeId) (m : Int) :
    (cs.foldl (fun m c => max m (g c)) m = m ∨ ∃ c ∈ cs, cs.foldl (fun m c => max m (g c)) m = g c) ∧
      m ≤ cs.foldl (fun m c => max m (g c)) m ∧ ∀ c ∈ cs, g c ≤ cs.foldl (fun m c => max m (g c)) m := by
  induction cs generalizing m with
  | nil => simp
  | cons c cs ih =>
    obtain ⟨hcase, hle, hall⟩ := ih (max m (g c))
    simp only [List.foldl_cons, List.mem_cons, exists_eq_or_imp, forall_eq_or_imp]
    refine ⟨?_, (le_max_left _ _).trans hle, (le_max_right _ _).trans hle, hall⟩
    rcases hcase with heq | hmem
    · rw [heq]
      rcases max_choice m (g c) with hm | hc
      · exact Or.inl hm
      · exact Or.inr (Or.inl hc)
    · exact Or.inr (Or.inr hmem)

/-! ## Paths of ownership -/

namespace Descent

theorem length_pos (h : f.Descent r i path) : 0 < path.length := by
  cases h <;> simp

/-- A path from a child is one from its owner. -/
theorem cons (hc : f.Owns r i) (h : f.Descent i j path) : f.Descent r j (r :: path) := by
  induction h with
  | here => exact Descent.here.step hc
  | step _ ho ih => exact ih.step ho

/-- A path stays at its start or goes through a child. -/
theorem cases_head (h : f.Descent r j path) :
    j = r ∧ path = [r] ∨ ∃ c path', f.Owns r c ∧ f.Descent c j path' ∧ path = r :: path' := by
  induction h with
  | here => exact Or.inl ⟨rfl, rfl⟩
  | @step o c path hpath ho ih =>
    rcases ih with ⟨rfl, rfl⟩ | ⟨b, path', hb, hpath', rfl⟩
    · exact Or.inr ⟨c, [c], ho, .here, rfl⟩
    · exact Or.inr ⟨b, path' ++ [c], hb, hpath'.step ho, rfl⟩

/-- Two paths, one after the other. -/
theorem append (h : f.Descent r i path) (h' : f.Descent i j path') : f.Descent r j (path ++ path'.tail) := by
  induction h' with
  | here => simpa using h
  | @step o c path' hpath' ho ih =>
    have hne : path' ≠ [] := List.ne_nil_of_length_pos hpath'.length_pos
    rw [List.tail_append_of_ne_nil hne, ← List.append_assoc]
    exact ih.step ho

end Descent

/-- How many steps the paths have that lead down from a node. -/
def pathLengths (f : Forest) (i : NodeId) : Set Nat := {len | ∃ j path, f.Descent i j path ∧ path.length = len + 1}

/-- **The depth of a tree is the length of a longest path.** -/
theorem isGreatest_depth (hf : f.WellOwned) (hi : i < f.size) :
    ∃ longest : Nat, IsGreatest (f.pathLengths i) longest ∧ f.depth i 0 = longest := by
  induction i using hf.descend with
  | step i ih =>
    -- a child is one step down, so its paths are longer by one seen from here
    have hchild : ∀ c ∈ f.children i, ∃ longest : Nat, IsGreatest (f.pathLengths c) longest ∧
        f.depth c (0 + 1) = longest + 1 := by
      intro c hc
      obtain ⟨longest, hgreatest, hdepth⟩ := ih c hc (hf.bounded hc)
      refine ⟨longest, hgreatest, ?_⟩
      rw [depth_eq_add hf (hf.bounded hc), hdepth]
      omega
    obtain ⟨hcase, hstart, hall⟩ := foldl_max_cases (f.depth · (0 + 1)) (f.children i) 0
    rw [← depth_eq hf hi] at hcase hstart hall
    obtain ⟨longest, hlongest⟩ := Int.eq_ofNat_of_zero_le hstart
    refine ⟨longest, ⟨?_, ?_⟩, hlongest⟩
    · rcases hcase with hzero | ⟨c, hc, hdepth⟩
      · have hzero : longest = 0 := by omega
        exact ⟨i, [i], .here, by rw [hzero]; rfl⟩
      · obtain ⟨len, ⟨⟨j, path, hpath, hlen⟩, -⟩, hbelow⟩ := hchild c hc
        exact ⟨j, i :: path, hpath.cons hc, by rw [List.length_cons]; omega⟩
    · rintro len ⟨j, path, hpath, hlen⟩
      rcases hpath.cases_head with ⟨-, rfl⟩ | ⟨c, path', hc, hpath', rfl⟩
      · rw [List.length_singleton] at hlen
        omega
      · obtain ⟨m, ⟨-, hupper⟩, hbelow⟩ := hchild c hc
        have hle := hall c hc
        have hpos := hpath'.length_pos
        have hm : path'.length - 1 ≤ m := hupper ⟨j, path', hpath', by omega⟩
        rw [List.length_cons] at hlen
        omega

/-- A tree has no more nodes than one that it is in. -/
theorem count_le_of_below (hf : f.WellOwned) (h : f.Below i j) : f.count j ≤ f.count i := by
  induction h with
  | refl => exact Nat.le_refl _
  | tail _ ho ih => exact (count_lt_of_owns hf ho).le.trans ih

end Forest

/-- **Folds agree with walks**, and no number on the way exceeds the result. -/
theorem folds_agree_with_walk (f : Forest) (root : NodeId) (hf : f.WellOwned) (hroot : root < f.size) :
    f.tally root = f.count root ∧
    (f.trace root).map Kind.text = (f.preorder root).map f.kindText ∧
    (∃ longest : Nat, IsGreatest (f.pathLengths root) longest ∧ ∀ d : Int, f.depth root d = d + longest) ∧
    ∀ j path, f.Descent root j path → f.tally j ≤ f.tally root ∧ ∀ d : Int,
      d ≤ f.depth j (d + (path.length - 1)) ∧ f.depth j (d + (path.length - 1)) ≤ f.depth root d := by
  obtain ⟨longest, hgreatest, hdepth⟩ := Forest.isGreatest_depth hf hroot
  have hadd : ∀ d : Int, f.depth root d = d + longest := fun d => by rw [Forest.depth_eq_add hf hroot, hdepth]
  refine ⟨Forest.tally_eq_count hf hroot, ?_, ⟨longest, hgreatest, hadd⟩, fun j path hpath => ?_⟩
  · have hmap := congrArg (List.map fun k => (k.map Kind.text).getD "") (Forest.trace_eq_preorder hf hroot)
    rw [List.map_map, List.map_map] at hmap
    exact hmap
  · have hj : j < f.size := hf.below_lt_size hroot hpath.to_below
    obtain ⟨below, ⟨⟨k, path', hpath', hlen⟩, -⟩, hbelow⟩ := Forest.isGreatest_depth hf hj
    refine ⟨?_, fun d => ?_⟩
    · rw [Forest.tally_eq_count hf hj, Forest.tally_eq_count hf hroot]
      exact Forest.count_le_of_below hf hpath.to_below
    · -- the path to `j` and a longest one from there on are a path from the root
      have hpos := hpath.length_pos
      have hle : path.length - 1 + below ≤ longest :=
        hgreatest.2 ⟨k, _, hpath.append hpath', by rw [List.length_append, List.length_tail]; omega⟩
      rw [Forest.depth_eq_add hf hj, hbelow, hadd]
      omega

/-- An array of a negation, a hole and an expression. -/
def holedNegation : Forest :=
  ⟨#[{ form := .thisExpression, parent := some 1 },
    { form := .unaryExpression "!", fields := [⟨.argument, .one (some 0)⟩], parent := some 3 },
    { form := .thisExpression, parent := some 3 },
    { form := .arrayExpression, fields := [⟨.expressions, .many [some 1, none, some 2]⟩] }]⟩

theorem holedNegation_wellOwned : holedNegation.WellOwned := Forest.wellOwned_of_older (by decide)

/-- Four nodes, the deepest of them two steps down, however great the start is. -/
theorem folds_agree_with_walk_holedNegation :
    holedNegation.WellOwned ∧ 3 < holedNegation.size ∧ holedNegation.tally 3 = 4 ∧
    (holedNegation.preorder 3).map holedNegation.kindText =
      ["NArrayExpression", "NUnaryExpression", "NThisExpression", "NThisExpression"] ∧
    IsGreatest (holedNegation.pathLengths 3) 2 ∧ holedNegation.depth 3 (2 ^ 31 - 3) = 2 ^ 31 - 1 ∧
    holedNegation.depth 0 (2 ^ 31 - 3 + 2) ≤ holedNegation.depth 3 (2 ^ 31 - 3) := by
  have hw := holedNegation_wellOwned
  have hsize : 3 < holedNegation.size := by decide
  obtain ⟨htally, htrace, ⟨longest, hgreatest, hdepth⟩, hrange⟩ := folds_agree_with_walk holedNegation 3 hw hsize
  have hcount : holedNegation.count 3 = 4 := by decide +kernel
  have hkinds : holedNegation.trace 3 = [.arrayExpression, .unaryExpression, .thisExpression, .thisExpression] := by
    decide +kernel
  have hzero : holedNegation.depth 3 0 = 2 := by decide +kernel
  have hlongest : longest = 2 := by
    have h := hdepth 0
    omega
  have hpath : holedNegation.Descent 3 0 [3, 1, 0] :=
    (Forest.Descent.here.step (by decide : holedNegation.Owns 3 1)).step (by decide)
  subst hlongest
  refine ⟨hw, hsize, htally.trans hcount, ?_, hgreatest, ?_, ((hrange 0 _ hpath).2 _).2⟩
  · rw [← htrace, hkinds]
    rfl
  · rw [hdepth]
    norm_num

end ScriptTree
