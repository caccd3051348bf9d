import Mathlib
import ScriptTree.Outline

/-!
# Outlines are determined by their text

The text of an outline can be read back in three steps, each of which loses nothing when the rows are *plain*
(`Outline.Plain`): no row has a newline in it or begins with a stroke of the margin.

- The text falls into lines at its newlines (`lines_injective`).
- A line falls into the margin and the row, since a margin ends where the strokes do (`Margin.unique`); the length of
  the margin is the depth of the row.
- The rows with their depths fall into outlines, since an outline ends where the depth returns (`rows_injective`).

**`text_injective`**: two outlines with plain rows and the same text are equal.
-/

namespace ScriptTree

/-- Two texts without a mark, each followed by nothing or by the mark, are told apart by the whole. -/
theorem append_inj_of_mark {a : Char} : ∀ {x y z w : List Char}, a ∉ x → a ∉ y → (∀ c ∈ z.head?, c = a) →
    (∀ c ∈ w.head?, c = a) → x ++ z = y ++ w → x = y ∧ z = w
  | [], [], _, _, _, _, _, _, h => ⟨rfl, h⟩
  | [], d :: y, z, w, _, hy, hz, _, h => by
    have hd : d ∈ z.head? := by rw [show z = d :: (y ++ w) from h]; rfl
    exact absurd (hz d hd ▸ List.mem_cons_self) hy
  | c :: x, [], z, w, hx, _, _, hw, h => by
    have hc : c ∈ w.head? := by rw [show w = c :: (x ++ z) from h.symm]; rfl
    exact absurd (hw c hc ▸ List.mem_cons_self) hx
  | c :: x, d :: y, z, w, hx, hy, hz, hw, h => by
    obtain ⟨hcd, htail⟩ := List.cons.inj h
    obtain ⟨hxy, hzw⟩ :=
      append_inj_of_mark (List.not_mem_of_not_mem_cons hx) (List.not_mem_of_not_mem_cons hy) hz hw htail
    exact ⟨by rw [hcd, hxy], hzw⟩

namespace Outline

/-! ## Lines -/

/-- Lines without newlines are determined by their text. -/
theorem lines_injective : ∀ {rows rows' : List String}, (∀ row ∈ rows, '\n' ∉ row.toList) →
    (∀ row ∈ rows', '\n' ∉ row.toList) → String.join (rows.map (· ++ "\n")) = String.join (rows'.map (· ++ "\n")) →
    rows = rows'
  | [], [], _, _, _ => rfl
  | [], row :: rows, _, _, h => by
    have := congrArg String.toList h
    simp [String.toList_join] at this
  | row :: rows, [], _, _, h => by
    have := congrArg String.toList h
    simp [String.toList_join] at this
  | row :: rows, row' :: rows', hr, hr', h => by
    have hsplit : row.toList ++ '\n' :: (String.join (rows.map (· ++ "\n"))).toList =
        row'.toList ++ '\n' :: (String.join (rows'.map (· ++ "\n"))).toList := by
      simpa using congrArg String.toList h
    obtain ⟨hrow, hrest⟩ := append_inj_of_mark (hr row List.mem_cons_self) (hr' row' List.mem_cons_self)
      (by simp) (by simp) hsplit
    have htail := lines_injective (fun r hmem => hr r (List.mem_cons_of_mem _ hmem))
      (fun r hmem => hr' r (List.mem_cons_of_mem _ hmem)) (String.toList_inj.1 (List.cons.inj hrest).2)
    rw [String.toList_inj.1 hrow, htail]

/-! ## Margins -/

/-- The characters with which the part of a margin for one level begins. -/
def strokes : List Char := ['|', ' ', '`']

/-- The text of a margin with a number of levels, two characters each. -/
inductive Margin : Nat → List Char → Prop
  | nil : Margin 0 []
  | level {n : Nat} {c d : Char} {m : List Char} (hc : c ∈ strokes) (hd : d ≠ '\n') (rest : Margin n m) :
      Margin (n + 1) (c :: d :: m)

theorem Margin.append {n k : Nat} {m m' : List Char} (h : Margin n m) (h' : Margin k m') :
    Margin (n + k) (m ++ m') := by
  induction h with
  | nil => simpa using h'
  | level hc hd _ ih => rw [Nat.add_right_comm]; exact .level hc hd ih

theorem Margin.newline_free {n : Nat} {m : List Char} (h : Margin n m) : '\n' ∉ m := by
  induction h with
  | nil => exact List.not_mem_nil
  | level hc hd _ ih =>
    have hstroke : '\n' ∉ strokes := by decide
    intro hmem
    rcases List.mem_cons.1 hmem with rfl | hmem
    · exact hstroke hc
    · rcases List.mem_cons.1 hmem with rfl | hmem
      · exact hd rfl
      · exact ih hmem

/-- A row that begins with no stroke shows where its margin ends. -/
theorem Margin.unique {n n' : Nat} {m m' r r' : List Char} (h : Margin n m) (h' : Margin n' m')
    (hr : ∀ c ∈ r.head?, c ∉ strokes) (hr' : ∀ c ∈ r'.head?, c ∉ strokes) (heq : m ++ r = m' ++ r') :
    n = n' ∧ r = r' := by
  induction h generalizing n' m' with
  | nil =>
    cases h' with
    | nil => exact ⟨rfl, heq⟩
    | level hc _ _ => exact absurd hc (hr _ (by rw [List.nil_append] at heq; rw [heq]; rfl))
  | level hc _ _ ih =>
    cases h' with
    | nil => exact absurd hc (hr' _ (by rw [List.nil_append] at heq; rw [← heq]; rfl))
    | level _ _ h' =>
      obtain ⟨hn, hrr⟩ := ih h' (List.cons.inj (List.cons.inj heq).2).2
      exact ⟨congrArg (· + 1) hn, hrr⟩

theorem margin_levels : ∀ levels : List Bool, Margin levels.length (margin levels).toList
  | [] => .nil
  | more :: outer => by
    have hone : ∀ b : Bool, Margin 1 (if b then "| " else "  ").toList := by
      intro b
      cases b <;> exact .level (by decide) (by decide) .nil
    have hinner : Margin 1 (if more then "|-" else "`-").toList := by
      cases more <;> exact .level (by decide) (by decide) .nil
    have houter : ∀ bs : List Bool, Margin bs.length
        (String.join (bs.map fun more => if more then "| " else "  ")).toList := by
      intro bs
      induction bs with
      | nil => exact .nil
      | cons b bs ih =>
        rw [List.map_cons, String.join_cons, String.toList_append, List.length_cons, Nat.add_comm]
        exact (hone b).append ih
    have := (houter outer.reverse).append hinner
    rwa [List.length_reverse, ← String.toList_append] at this

/-! ## Rows with their depths -/

mutual

/-- The rows of an outline at a depth, each with its own depth. -/
def rows (depth : Nat) : Outline → List (Nat × String)
  | .node row parts => (depth, row) :: rowsAll (depth + 1) parts

/-- The rows of outlines at one depth. -/
def rowsAll (depth : Nat) : List Outline → List (Nat × String)
  | [] => []
  | part :: rest => rows depth part ++ rowsAll depth rest

end

/-- A line that holds a row behind a margin of its depth. -/
def Holds (line : String) (p : Nat × String) : Prop :=
  ∃ m, Margin p.1 m ∧ line.toList = m ++ p.2.toList

mutual

theorem draw_holds (levels : List Bool) : ∀ o : Outline, List.Forall₂ Holds (draw levels o) (rows levels.length o)
  | .node row parts => by
    refine .cons ⟨_, margin_levels levels, String.toList_append⟩ ?_
    exact drawAll_holds levels parts

theorem drawAll_holds (levels : List Bool) :
    ∀ parts : List Outline, List.Forall₂ Holds (drawAll levels parts) (rowsAll (levels.length + 1) parts)
  | [] => .nil
  | part :: rest => List.rel_append (draw_holds ((!rest.isEmpty) :: levels) part) (drawAll_holds levels rest)

end

/-- A row without a newline that begins with a character other than a stroke of the margin. -/
def Plain (row : String) : Prop := '\n' ∉ row.toList ∧ ∀ c ∈ row.toList.head?, c ∉ strokes

theorem Holds.unique {line : String} {p p' : Nat × String} (h : Holds line p) (h' : Holds line p') (hp : Plain p.2)
    (hp' : Plain p'.2) : p = p' := by
  obtain ⟨m, hm, hl⟩ := h
  obtain ⟨m', hm', hl'⟩ := h'
  obtain ⟨hdepth, hrow⟩ := hm.unique hm' hp.2 hp'.2 (hl.symm.trans hl')
  exact Prod.ext hdepth (String.toList_inj.1 hrow)

theorem Holds.newline_free {line : String} {p : Nat × String} (h : Holds line p) (hp : Plain p.2) :
    '\n' ∉ line.toList := by
  obtain ⟨m, hm, hl⟩ := h
  rw [hl, List.mem_append]
  rintro (hmem | hmem)
  · exact hm.newline_free hmem
  · exact hp.1 hmem

theorem forall₂_holds_unique : ∀ {lines : List String} {ps ps' : List (Nat × String)}, List.Forall₂ Holds lines ps →
    List.Forall₂ Holds lines ps' → (∀ p ∈ ps, Plain p.2) → (∀ p ∈ ps', Plain p.2) → ps = ps'
  | _, _, _, .nil, .nil, _, _ => rfl
  | _, _, _, .cons h hs, .cons h' hs', hp, hp' => by
    rw [h.unique h' (hp _ List.mem_cons_self) (hp' _ List.mem_cons_self)]
    rw [forall₂_holds_unique hs hs' (fun p hmem => hp p (List.mem_cons_of_mem _ hmem))
      (fun p hmem => hp' p (List.mem_cons_of_mem _ hmem))]

theorem lines_newline_free {lines : List String} {ps : List (Nat × String)} (h : List.Forall₂ Holds lines ps)
    (hp : ∀ p ∈ ps, Plain p.2) : ∀ line ∈ lines, '\n' ∉ line.toList := by
  induction h with
  | nil => simp
  | cons hl _ ih =>
    intro line hmem
    rcases List.mem_cons.1 hmem with rfl | hmem
    · exact hl.newline_free (hp _ List.mem_cons_self)
    · exact ih (fun p hmem => hp p (List.mem_cons_of_mem _ hmem)) line hmem

/-! ## Outlines from their rows -/

/-- What follows is nothing, or begins at a smaller depth. -/
def Returns (depth : Nat) (rest : List (Nat × String)) : Prop := ∀ p ∈ rest.head?, p.1 < depth

theorem rowsAll_returns {depth : Nat} {rest : List (Nat × String)} (h : Returns depth rest) :
    ∀ parts : List Outline, Returns (depth + 1) (rowsAll depth parts ++ rest)
  | [] => fun p hp => Nat.lt_succ_of_lt (h p hp)
  | .node row parts :: _ => by
    intro p hp
    obtain rfl : (depth, row) = p := by simpa [rowsAll, rows] using hp
    exact Nat.lt_succ_self depth

/-- The first part of outlines at a depth is not what follows at a smaller one. -/
theorem rowsAll_cons_ne {depth : Nat} {rest : List (Nat × String)} (h : Returns depth rest) (part : Outline)
    (parts : List Outline) (tail : List (Nat × String)) : rest ≠ rowsAll depth (part :: parts) ++ tail := by
  rintro rfl
  obtain ⟨row, below⟩ := part
  exact absurd (h (depth, row) (by simp [rowsAll, rows])) (Nat.lt_irrefl depth)

mutual

/-- An outline is determined by its rows with their depths, and ends where the depth returns. -/
theorem rows_injective : ∀ (o o' : Outline) {depth : Nat} {rest rest' : List (Nat × String)},
    Returns (depth + 1) rest → Returns (depth + 1) rest' → rows depth o ++ rest = rows depth o' ++ rest' →
    o = o' ∧ rest = rest'
  | .node row parts, .node row' parts', depth, rest, rest', h, h', heq => by
    obtain ⟨hrow, hbelow⟩ := List.cons.inj heq
    obtain ⟨hparts, hrest⟩ := rowsAll_injective parts parts' h h' hbelow
    rw [(Prod.mk.inj hrow).2, hparts]
    exact ⟨rfl, hrest⟩

theorem rowsAll_injective : ∀ (parts parts' : List Outline) {depth : Nat} {rest rest' : List (Nat × String)},
    Returns depth rest → Returns depth rest' → rowsAll depth parts ++ rest = rowsAll depth parts' ++ rest' →
    parts = parts' ∧ rest = rest'
  | [], [], _, _, _, _, _, heq => ⟨rfl, heq⟩
  | [], part :: parts, _, _, _, h, _, heq => absurd heq (rowsAll_cons_ne h part parts _)
  | part :: parts, [], _, _, _, _, h', heq => absurd heq.symm (rowsAll_cons_ne h' part parts _)
  | part :: parts, part' :: parts', depth, rest, rest', h, h', heq => by
    simp only [rowsAll, List.append_assoc] at heq
    obtain ⟨hpart, htail⟩ := rows_injective part part' (rowsAll_returns h parts) (rowsAll_returns h' parts') heq
    obtain ⟨hparts, hrest⟩ := rowsAll_injective parts parts' h h' htail
    rw [hpart, hparts]
    exact ⟨rfl, hrest⟩

end

/-- **The text of an outline with plain rows determines it.** -/
theorem text_injective {o o' : Outline} (ho : ∀ p ∈ rows 0 o, Plain p.2) (ho' : ∀ p ∈ rows 0 o', Plain p.2)
    (h : text o = text o') : o = o' := by
  have hd : List.Forall₂ Holds (draw [] o) (rows 0 o) := draw_holds [] o
  have hd' : List.Forall₂ Holds (draw [] o') (rows 0 o') := draw_holds [] o'
  have hlines : draw [] o = draw [] o' := lines_injective (lines_newline_free hd ho) (lines_newline_free hd' ho') h
  rw [← hlines] at hd'
  have hrows : rows 0 o = rows 0 o' := forall₂_holds_unique hd hd' ho ho'
  have hend : Returns 1 [] := by simp [Returns]
  exact (rows_injective o o' hend hend (by rw [hrows])).1

theorem text_ne_empty : ∀ o : Outline, text o ≠ ""
  | .node row parts => by
    intro h
    have := congrArg String.toList h
    simp [text, draw] at this

end Outline

end ScriptTree
