import Mathlib
import ScriptTree.Forest.Fold
import ScriptTree.Proofs.Preorder

/-!
# The equation of a fold

`Forest.fold` is bounded by the size of the forest. In a well owned forest no tree is deeper than it has nodes, so the
bound is never felt and a fold satisfies its recursive equation (`fold_eq`). In any forest, the results of a fold have
what the results for a node have once those for its children have it (`fold_induction`), and a function of the results
can be moved into the fold (`fold_map`).
-/

namespace ScriptTree

variable {α β γ : Type}

namespace Content

theorem mem_children {content : Content α} {a : α} : a ∈ content.children ↔ some a ∈ content.items := by
  simp [children]

theorem bind_congr {content : Content α} {g g' : α → Option β} (h : ∀ a ∈ content.children, g a = g' a) :
    content.bind g = content.bind g' := by
  have hitem : ∀ item ∈ content.items, item.bind g = item.bind g' := by
    intro item hi
    cases item with
    | none => rfl
    | some a => exact h a (mem_children.2 hi)
  cases content with
  | one child => exact congrArg one (hitem child List.mem_cons_self)
  | many items => exact congrArg many (List.map_congr_left hitem)

theorem bind_bind (content : Content α) (g : α → Option β) (g' : β → Option γ) :
    (content.bind g).bind g' = content.bind fun a => (g a).bind g' := by
  cases content with
  | one child => simp [bind, Option.bind_assoc]
  | many items => simp [bind, Option.bind_assoc]

theorem items_bind (content : Content α) (g : α → Option β) :
    (content.bind g).items = content.items.map (·.bind g) := by
  cases content <;> rfl

theorem children_bind (content : Content α) (g : α → Option β) :
    (content.bind g).children = content.children.filterMap g := by
  rw [children, items_bind, children, List.filterMap_map, List.filterMap_filterMap]
  rfl

end Content

theorem Field.children_bind (field : Field α) (g : α → Option β) :
    (field.bind g).children = field.children.filterMap g := Content.children_bind field.content g

theorem Field.children_bind_some (field : Field α) (g : α → β) :
    (field.bind fun a => some (g a)).children = field.children.map g := by
  rw [children_bind, ← List.filterMap_eq_map]
  rfl

/-- Results for children that are replaced by other results. -/
theorem Field.map_bind_bind (fields : List (Field α)) (g : α → Option β) (g' : β → Option γ) :
    (fields.map (Field.bind g)).map (Field.bind g') = fields.map (Field.bind fun a => (g a).bind g') := by
  rw [List.map_map]
  refine List.map_congr_left fun field _ => ?_
  exact congrArg (Field.mk field.role) (Content.bind_bind field.content g g')

namespace Forest

variable {f : Forest} {i : NodeId} {n : Node}

theorem fields_bind_congr (hn : f.get? i = some n) {g g' : NodeId → Option β} (h : ∀ c, f.Owns i c → g c = g' c) :
    n.fields.map (Field.bind g) = n.fields.map (Field.bind g') := by
  refine List.map_congr_left fun field hfield => ?_
  refine congrArg (Field.mk field.role) (Content.bind_congr fun c hc => h c ?_)
  rw [Owns, children_eq_of_get? hn]
  exact List.mem_flatMap.2 ⟨field, hfield, hc⟩

theorem count_pos (hf : f.WellOwned) (hi : i < f.size) : 0 < f.count i := by
  rw [count_eq hf hi, preorder_eq hf hi]
  exact Nat.succ_pos _

/-- A depth as large as the tree is enough, and more makes no difference. -/
theorem foldUpTo_stable (hf : f.WellOwned) (alg : NodeId → Node → List (Field β) → β) :
    ∀ {k k' : Nat} {i : NodeId}, i < f.size → f.count i ≤ k → f.count i ≤ k' →
      f.foldUpTo alg k i = f.foldUpTo alg k' i
  | 0, _, _, hi, hk, _ => absurd (count_pos hf hi) (Nat.not_lt.2 hk)
  | _ + 1, 0, _, hi, _, hk' => absurd (count_pos hf hi) (Nat.not_lt.2 hk')
  | k + 1, k' + 1, i, hi, hk, hk' => by
    obtain ⟨n, hn⟩ := get?_isSome hi
    have hbelow : ∀ c, f.Owns i c → f.foldUpTo alg k c = f.foldUpTo alg k' c := by
      intro c hc
      have hlt := count_lt_of_owns hf hc
      exact foldUpTo_stable hf alg (hf.bounded hc) (by omega) (by omega)
    simp only [foldUpTo, hn, Option.map_some, fields_bind_congr hn hbelow]

/-- **The equation of a fold.** -/
theorem fold_eq (hf : f.WellOwned) (alg : NodeId → Node → List (Field β) → β) (hn : f.get? i = some n) :
    f.fold alg i = some (alg i n (n.fields.map (Field.bind (f.fold alg)))) := by
  have hi : i < f.size := lt_size_of_get? hn
  obtain ⟨k, hk⟩ : ∃ k, f.size = k + 1 := Nat.exists_eq_succ_of_ne_zero (Nat.ne_zero_of_lt hi)
  have hbelow : ∀ c, f.Owns i c → f.foldUpTo alg k c = f.fold alg c := by
    intro c hc
    have hlt := count_lt_of_owns hf hc
    have hle := count_le_size hf hi
    exact foldUpTo_stable hf alg (hf.bounded hc) (by omega) (by omega)
  rw [← fields_bind_congr hn hbelow, fold, hk]
  simp only [foldUpTo, hn, Option.map_some]

/-- What holds of the result for a node whenever it holds of the results for its children, holds of every result. -/
theorem fold_induction {alg : NodeId → Node → List (Field β) → β} {P : NodeId → β → Prop}
    (step : ∀ {i n} (g : NodeId → Option β), f.get? i = some n → (∀ c b, f.Owns i c → g c = some b → P c b) →
      P i (alg i n (n.fields.map (Field.bind g)))) {b : β} (h : f.fold alg i = some b) : P i b := by
  have key : ∀ k i b, f.foldUpTo alg k i = some b → P i b := by
    intro k
    induction k with
    | zero =>
      intro i b h
      cases h
    | succ k ih =>
      intro i b h
      obtain ⟨n, hn, rfl⟩ := Option.map_eq_some_iff.1 h
      exact step (f.foldUpTo alg k) hn fun c b _ hb => ih c b hb
  exact key f.size i b h

/-- A function that turns the results of one fold into those of another. -/
theorem fold_map {alg : NodeId → Node → List (Field β) → β} {alg' : NodeId → Node → List (Field γ) → γ} (h : β → γ)
    (halg : ∀ i n fields, alg' i n (fields.map (Field.bind fun b => some (h b))) = h (alg i n fields)) (f : Forest)
    (i : NodeId) : f.fold alg' i = (f.fold alg i).map h := by
  have key : ∀ k i, f.foldUpTo alg' k i = (f.foldUpTo alg k i).map h := by
    intro k
    induction k with
    | zero => exact fun i => rfl
    | succ k ih =>
      intro i
      cases hn : f.get? i with
      | none => simp [foldUpTo, hn]
      | some n =>
        have hfields : n.fields.map (Field.bind (f.foldUpTo alg' k)) =
            (n.fields.map (Field.bind (f.foldUpTo alg k))).map (Field.bind fun b => some (h b)) := by
          rw [Field.map_bind_bind]
          simp only [funext ih, Option.map_eq_bind, Function.comp_def]
        simp only [foldUpTo, hn, Option.map_some, hfields, halg]
  exact key f.size i

end Forest

end ScriptTree
