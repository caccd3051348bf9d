import Mathlib
import ScriptTree.Operator

/-!
# Spellings of operators

What an operator is depends on its spelling alone, and four functions read it: two tables, a rule that cuts off a final
`=`, and the length in bytes. They fit together on every string.

* `stem?_eq_some_iff`: the rule undoes the appending of `=`;
* `category?_eq_some_iff`: the tables of the categories have no spelling in common, so each is read back in full;
* `binaryOfCompound?_eq_some_iff`: a compound assignment operator is a spelling of a category that compounds, and `=`;
* `category?_compound`: no compound assignment operator is in a table.

**`operator_classes_consistent`**: a string is the compound form of `b` exactly if it is `b` followed by `=` and `b` is
an arithmetic or bitwise operator, and an assignment operator exactly if it is `=` or the compound form of some `b`,
which is then a binary operator. It is at most one of an assignment, a binary and an update operator, and both a unary
and a binary operator exactly if it is `+` or `-`. An assignment with it combines two values exactly if it is a compound
form.
-/

namespace ScriptTree.Operator

variable {op b : String} {cat : Category}

/-! ## The final `=` -/

theorem stem?_eq_some_iff : stem? op = some b ↔ op = b ++ "=" := by
  unfold stem?
  constructor
  · intro h
    split at h
    · rename_i rest hrest
      cases h
      have hop : op.toList = rest.reverse ++ ['='] := by
        rw [← List.reverse_cons, ← hrest, List.reverse_reverse]
      rw [← String.toList_inj, String.toList_append, String.toList_ofList, hop]
      rfl
    · cases h
  · rintro rfl
    simp [String.toList_append]

/-! ## The tables -/

/-- **The category of an operator is the one whose table has it.** -/
theorem category?_eq_some_iff : category? op = some cat ↔ op ∈ cat.spellings := by
  constructor
  · intro h
    have hcat := List.find?_some h
    exact List.contains_iff_mem.1 hcat
  · -- the tables are disjoint, so the first one that has the operator is the only one
    have htables : ∀ cat : Category, ∀ op ∈ cat.spellings, category? op = some cat := by
      intro cat
      cases cat <;> decide
    exact htables cat op

theorem Category.compounds_iff : cat.compounds = true ↔ cat = arithmetic ∨ cat = bitwise := by
  cases cat <;> decide

theorem ne_empty_of_mem_spellings (h : b ∈ cat.spellings) : b ≠ "" := by
  have hnone : ∀ cat : Category, "" ∉ cat.spellings := by
    intro cat
    cases cat <;> decide
  rintro rfl
  exact hnone cat h

/-! ## Compound assignment operators -/

theorem binaryOfCompound?_eq_some_iff : binaryOfCompound? op = some b ↔
    op = b ++ "=" ∧ ∃ cat : Category, cat.compounds = true ∧ b ∈ cat.spellings := by
  simp only [binaryOfCompound?, Option.filter_eq_some_iff, stem?_eq_some_iff, Option.any_eq_true,
    category?_eq_some_iff, and_comm]

/-- A compound assignment operator is in no table of binary operators: those that end in `=` compare, and what stands
before their `=` compares too or is no operator. -/
theorem category?_compound (hcat : cat.compounds = true) (hb : b ∈ cat.spellings) : category? (b ++ "=") = none := by
  have htables : ∀ cat : Category, cat.compounds = true → ∀ b ∈ cat.spellings, category? (b ++ "=") = none := by
    intro cat
    cases cat <;> decide
  exact htables cat hcat b hb

/-- An assignment operator is `=` or a compound one. -/
theorem isAssignment_iff : isAssignment op = true ↔
    op = "=" ∨ ∃ b, op = b ++ "=" ∧ ∃ cat : Category, cat.compounds = true ∧ b ∈ cat.spellings := by
  simp only [isAssignment, Bool.or_eq_true, beq_iff_eq, Option.isSome_iff_exists, binaryOfCompound?_eq_some_iff]

theorem not_isBinary_of_isAssignment (h : isAssignment op = true) : isBinary op = false := by
  rcases isAssignment_iff.1 h with rfl | ⟨b, rfl, cat, hcat, hb⟩
  · decide
  · rw [isBinary, category?_compound hcat hb]
    rfl

theorem not_of_isUpdate (h : isUpdate op = true) : isAssignment op = false ∧ isBinary op = false := by
  simp only [isUpdate, Bool.or_eq_true, beq_iff_eq] at h
  rcases h with rfl | rfl <;> decide

theorem isUnary_and_isBinary_iff : isUnary op = true ∧ isBinary op = true ↔ op = "+" ∨ op = "-" := by
  constructor
  · rintro ⟨hunary, hbinary⟩
    have htable : ∀ op ∈ unarySpellings, isBinary op = true → op = "+" ∨ op = "-" := by decide
    exact htable op (List.contains_iff_mem.1 hunary) hbinary
  · rintro (rfl | rfl) <;> decide

/-- Of the assignment operators, all but `=` are longer than one byte. -/
theorem combines_iff_of_isAssignment (h : isAssignment op = true) :
    combines op = true ↔ (binaryOfCompound? op).isSome = true := by
  rcases isAssignment_iff.1 h with rfl | ⟨b, rfl, cat, hcat, hb⟩
  · decide
  · have hsome : binaryOfCompound? (b ++ "=") = some b := binaryOfCompound?_eq_some_iff.2 ⟨rfl, cat, hcat, hb⟩
    have hsize : b.utf8ByteSize ≠ 0 := fun hzero =>
      ne_empty_of_mem_spellings hb (String.utf8ByteSize_eq_zero_iff.1 hzero)
    have hequals : "=".utf8ByteSize = 1 := rfl
    simp only [combines, decide_eq_true_eq, hsome, Option.isSome_some, iff_true, String.utf8ByteSize_append]
    omega

/-- **The classes of operators fit together** on every string. -/
theorem operator_classes_consistent (op : String) :
    (∀ b, binaryOfCompound? op = some b ∧ b ≠ "" ↔
      op = b ++ "=" ∧ (category? b = some .arithmetic ∨ category? b = some .bitwise)) ∧
    (isAssignment op = true ↔ op = "=" ∨ (binaryOfCompound? op).isSome = true) ∧
    (∀ b, binaryOfCompound? op = some b → b ≠ "" ∧ isBinary b = true) ∧
    [isAssignment op, isBinary op, isUpdate op].count true ≤ 1 ∧
    (isUnary op = true ∧ isBinary op = true ↔ op = "+" ∨ op = "-") ∧
    (isAssignment op = true → (combines op = true ↔ (binaryOfCompound? op).isSome = true)) := by
  have hfound : ∀ b, binaryOfCompound? op = some b → b ≠ "" ∧ isBinary b = true := by
    intro b hb
    obtain ⟨-, cat, -, hmem⟩ := binaryOfCompound?_eq_some_iff.1 hb
    exact ⟨ne_empty_of_mem_spellings hmem, by rw [isBinary, category?_eq_some_iff.2 hmem]; rfl⟩
  refine ⟨fun b => ?_, ?_, hfound, ?_, isUnary_and_isBinary_iff, combines_iff_of_isAssignment⟩
  · have hcompounds : (∃ cat : Category, cat.compounds = true ∧ b ∈ cat.spellings) ↔
        category? b = some .arithmetic ∨ category? b = some .bitwise := by
      simp only [Category.compounds_iff, category?_eq_some_iff, or_and_right, exists_or, exists_eq_left]
    rw [and_iff_left_of_imp fun hb => (hfound b hb).1, binaryOfCompound?_eq_some_iff, hcompounds]
  · rw [isAssignment, Bool.or_eq_true, beq_iff_eq]
  · -- an update operator is none of the others, and an assignment operator is not binary
    cases hupdate : isUpdate op with
    | true => simp [not_of_isUpdate hupdate]
    | false =>
      cases hassign : isAssignment op with
      | true => simp [not_isBinary_of_isAssignment hassign]
      | false => cases isBinary op <;> decide

/-- Four spellings that end in `=`: a shift that assigns, two comparisons, and a text that is no operator. -/
theorem operator_classes_consistent_finalEquals :
    (isAssignment ">>>=" = true ∧ binaryOfCompound? ">>>=" = some ">>>" ∧ combines ">>>=" = true) ∧
    (binaryOfCompound? "<=" = none ∧ isBinary "<=" = true ∧ isAssignment "<=" = false) ∧
    (binaryOfCompound? "===" = none ∧ isAssignment "===" = false) ∧
    binaryOfCompound? "&&=" = none ∧ isAssignment "&&=" = false := by
  have hshift : isAssignment ">>>=" = true := by decide
  have hsome : binaryOfCompound? ">>>=" = some ">>>" :=
    (((operator_classes_consistent ">>>=").1 ">>>").2 ⟨rfl, Or.inr (by decide)⟩).1
  have hcombines : combines ">>>=" = true :=
    ((operator_classes_consistent ">>>=").2.2.2.2.2 hshift).2 (by rw [hsome]; rfl)
  exact ⟨⟨hshift, hsome, hcombines⟩, by decide, by decide, by decide, by decide⟩

end ScriptTree.Operator
