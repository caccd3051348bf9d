import Mathlib
import ScriptTree.Forest.Usage
import ScriptTree.Proofs.Precision
import ScriptTree.Proofs.NumeralText

/-!
# Names of number literals

The name of a finite number is a numeral, and the number is the double nearest to what that numeral stands for
(`Double.exists_read?_text`). So numbers other than NaN have the same name exactly if they compare equal
(`Double.text_eq_text_iff`), also as keys of properties.

The name of a positive number has the fewest digits that a numeral read as the number can have, except at some powers
of two, where it has one more: **`number_names_nearly_shortest`**, with `twoToMinus44_not_shortest` for the exception.
-/

namespace ScriptTree

namespace Double

open Numeral (read? significant)

variable {x y : Double} {q : ℚ}

/-! ## Texts by shape -/

theorem text_of_rank_eq_zero (hx : x.IsFinite) (h0 : x.rank = 0) : x.text = "0" := by
  simp only [text, hx.shape_eq, h0, unitsAt_zero]

theorem text_of_rank_ne_zero (hx : x.IsFinite) (h0 : x.rank ≠ 0) :
    x.text = (if x.negative then "-" else "") ++ (Decimal.brief (unitsAt x.rank)).trim.text := by
  have hpos : unitsAt x.rank ≠ 0 := (unitsAt_pos (Nat.pos_of_ne_zero h0)).ne'
  rw [text, hx.shape_eq]
  generalize unitsAt x.rank = units at hpos
  cases units with
  | zero => exact absurd rfl hpos
  | succ => rfl

theorem text_of_infinite (hx : x.shape = .infinite) : x.text = (if x.negative then "-" else "") ++ "Infinity" := by
  rw [text, hx]

theorem value_ne_zero_iff (hx : x.IsFinite) : x.value ≠ 0 ↔ x.rank ≠ 0 := by
  have hunits : unitsAt x.rank = 0 ↔ x.rank = 0 := unitsAt_zero ▸ unitsAt_inj
  rw [not_iff_not, value_eq hx, mul_eq_zero_iff_left x.sign_ne_zero, div_eq_zero_iff, or_iff_left one_pos.ne',
    Nat.cast_eq_zero, hunits]

/-! ## Reading names -/

/-- The decimals that a double is nearest to, by rank. -/
theorem nearestTo_readsAs (hx : x.IsFinite) (h0 : x.rank ≠ 0) (d : Decimal) :
    x.NearestTo (x.sign * d.value) ↔ d.ReadsAs x.rank := by
  rw [nearestTo_value_iff hx h0, hx.shape_eq, Decimal.read_eq_finite_iff (isFinite_iff.1 hx)]
  rfl

theorem read?_text_of_rank_ne_zero (hx : x.IsFinite) (h0 : x.rank ≠ 0) :
    read? x.text = some (x.sign * (Decimal.brief (unitsAt x.rank)).value) := by
  obtain ⟨hplain, hminus⟩ := (Decimal.brief (unitsAt x.rank)).trim.read?_text
  rw [text_of_rank_ne_zero hx h0, sign, ← Decimal.trim_value]
  split
  · rw [hminus, neg_one_mul]
  · rw [String.empty_append, hplain, one_mul]

/-- **A finite number is the double nearest to what its name stands for.** -/
theorem exists_read?_text (hx : x.IsFinite) : ∃ q, read? x.text = some q ∧ x.NearestTo q := by
  by_cases h0 : x.rank = 0
  · have hzero : (⟨0, 0⟩ : Decimal).text = "0" := by decide +kernel
    have hvalue : (⟨0, 0⟩ : Decimal).value = 0 := by rw [Decimal.value, Nat.cast_zero, zero_mul]
    refine ⟨0, ?_, nearestTo_zero hx h0⟩
    rw [text_of_rank_eq_zero hx h0, ← hzero, ← hvalue]
    exact (Decimal.read?_text ⟨0, 0⟩).1
  · obtain ⟨l, hl⟩ : ∃ l, x.rank = l + 1 := Nat.exists_eq_succ_of_ne_zero h0
    have hreads := Decimal.brief_readsAs (hl ▸ isFinite_iff.1 hx)
    rw [← hl] at hreads
    exact ⟨_, read?_text_of_rank_ne_zero hx h0, (nearestTo_readsAs hx h0 _).2 hreads⟩

/-! ## Equal names -/

/-- Comparison of numbers: NaN is equal to nothing, and the two zeros are equal. -/
def CompareEqual (x y : Double) : Prop :=
  match x.shape, y.shape with
  | .finite _, .finite _ => x.value = y.value
  | .infinite, .infinite => x.negative = y.negative
  | _, _ => False

theorem finite_or_infinite (hx : x.shape ≠ .nan) : x.IsFinite ∨ x.shape = .infinite := by
  cases h : x.shape with
  | nan => exact absurd h hx
  | infinite => exact Or.inr rfl
  | finite units => exact Or.inl ⟨units, h⟩

theorem read?_text_of_infinite (hx : x.shape = .infinite) : read? x.text = none := by
  rw [text_of_infinite hx]
  cases x.negative <;> decide +kernel

theorem text_ne_text (hx : x.IsFinite) (hy : y.shape = .infinite) : x.text ≠ y.text := by
  intro htext
  obtain ⟨q, hq, -⟩ := exists_read?_text hx
  rw [htext, read?_text_of_infinite hy] at hq
  cases hq

theorem text_eq_text_of_finite (hx : x.IsFinite) (hy : y.IsFinite) : x.text = y.text ↔ x.value = y.value := by
  constructor
  · intro htext
    obtain ⟨q, hq, hxq⟩ := exists_read?_text hx
    obtain ⟨r, hr, hyr⟩ := exists_read?_text hy
    rw [htext, hr, Option.some_inj] at hq
    exact hxq.unique (hq ▸ hyr)
  · intro hvalue
    rcases (value_eq_iff hx hy).1 hvalue with rfl | ⟨hx0, hy0⟩
    · rfl
    · rw [text_of_rank_eq_zero hx hx0, text_of_rank_eq_zero hy hy0]

theorem text_eq_text_of_infinite (hx : x.shape = .infinite) (hy : y.shape = .infinite) :
    x.text = y.text ↔ x.negative = y.negative := by
  rw [text_of_infinite hx, text_of_infinite hy]
  cases x.negative <;> cases y.negative <;> decide

/-- **Numbers have the same name exactly if they compare equal.** -/
theorem text_eq_text_iff (hx : x.shape ≠ .nan) (hy : y.shape ≠ .nan) : x.text = y.text ↔ x.CompareEqual y := by
  rcases finite_or_infinite hx with ⟨u, hu⟩ | hx <;> rcases finite_or_infinite hy with ⟨v, hv⟩ | hy
  · simp only [CompareEqual, hu, hv]
    exact text_eq_text_of_finite ⟨u, hu⟩ ⟨v, hv⟩
  · simp only [CompareEqual, hu, hy, iff_false]
    exact text_ne_text ⟨u, hu⟩ hy
  · simp only [CompareEqual, hx, hv, iff_false]
    exact (text_ne_text ⟨v, hv⟩ hx).symm
  · simp only [CompareEqual, hx, hy]
    exact text_eq_text_of_infinite hx hy

end Double

/-- A property whose key is a literal. -/
def Forest.HasLiteralKey (f : Forest) (i : NodeId) (value : Literal) : Prop :=
  ∃ key, f.child? i .key = some key ∧ f.literal? key = some value

theorem Forest.HasLiteralKey.propertyName? {f : Forest} {i : NodeId} {value : Literal} (h : f.HasLiteralKey i value) :
    f.propertyName? i = some value.text := by
  obtain ⟨key, hkey, hvalue⟩ := h
  rw [Forest.propertyName?, hkey, Option.bind_some]
  unfold Forest.literal? at hvalue
  split at hvalue
  · rename_i hform
    rw [hform, Option.some_inj.1 hvalue]
  · cases hvalue

/-- **Number names read back.** -/
theorem number_names_read_back :
    (∀ x : Double, x.IsFinite → x.value ≠ 0 →
      ∃ q, Numeral.read? (Literal.number x).text = some q ∧ ∀ y : Double, y.NearestTo q ↔ y = x) ∧
    (∀ x : Double, x.IsFinite → x.value = 0 → (Literal.number x).text = "0") ∧
    (∀ x y : Double, x.shape ≠ .nan → y.shape ≠ .nan →
      ((Literal.number x).text = (Literal.number y).text ↔ x.CompareEqual y)) ∧
    ∀ (f g : Forest) (i j : NodeId) (x y : Double), f.HasLiteralKey i (.number x) → g.HasLiteralKey j (.number y) →
      x.shape ≠ .nan → y.shape ≠ .nan → (f.propertyName? i = g.propertyName? j ↔ x.CompareEqual y) := by
  refine ⟨fun x hx h0 => ?_, fun x hx h0 => ?_, fun x y hx hy => Double.text_eq_text_iff hx hy, ?_⟩
  · obtain ⟨q, hq, hnear⟩ := Double.exists_read?_text hx
    refine ⟨q, hq, fun y => ⟨fun hy => ?_, fun hy => hy ▸ hnear⟩⟩
    rcases (Double.value_eq_iff hy.finite hx).1 (hy.unique hnear) with h | ⟨-, hrank⟩
    · exact h
    · exact absurd hrank ((Double.value_ne_zero_iff hx).1 h0)
  · exact Double.text_of_rank_eq_zero hx (not_not.1 fun h => (Double.value_ne_zero_iff hx).2 h h0)
  · intro f g i j x y hi hj hx hy
    rw [hi.propertyName?, hj.propertyName?, Option.some_inj]
    exact Double.text_eq_text_iff hx hy

/-- Two properties, with zero and with minus zero as keys. -/
def zeroKeys : Forest :=
  ⟨#[{ form := .literalExpression (.number ⟨0⟩) "0", parent := some 2 }, { form := .name "a" none, parent := some 2 },
    { form := .property .init, fields := [⟨.key, .one (some 0)⟩, ⟨.value, .one (some 1)⟩] },
    { form := .literalExpression (.number ⟨0x8000000000000000⟩) "-0", parent := some 5 },
    { form := .name "b" none, parent := some 5 },
    { form := .property .init, fields := [⟨.key, .one (some 3)⟩, ⟨.value, .one (some 4)⟩] }]⟩

/-- The greatest negative number is the only one that its name is read as, and no infinite number has its name. Both
zeros are the same key. -/
theorem number_names_read_back_zeroKeys :
    let x : Double := ⟨0x8000000000000001⟩
    let infinite : Double := ⟨0xfff0000000000000⟩
    x.IsFinite ∧ x.value ≠ 0 ∧ (∃ q, Numeral.read? "-5e-324" = some q ∧ ∀ y : Double, y.NearestTo q ↔ y = x) ∧
      (Literal.number infinite).text ≠ "-5e-324" ∧ zeroKeys.propertyName? 2 = some "0" ∧
      zeroKeys.propertyName? 2 = zeroKeys.propertyName? 5 := by
  intro x infinite
  obtain ⟨hread, hzero, htext, hkeys⟩ := number_names_read_back
  have hname : (Literal.number x).text = "-5e-324" := by decide +kernel
  have hx : x.IsFinite := Double.isFinite_iff.2 (by decide +kernel)
  have hx0 : x.value ≠ 0 := (Double.value_ne_zero_iff hx).2 (by decide +kernel)
  have hplus : Double.IsFinite ⟨0⟩ := Double.isFinite_iff.2 (by decide +kernel)
  have hminus : Double.IsFinite ⟨0x8000000000000000⟩ := Double.isFinite_iff.2 (by decide +kernel)
  have hequal : Double.CompareEqual ⟨0⟩ ⟨0x8000000000000000⟩ :=
    (Double.value_eq_iff hplus hminus).2 (Or.inr ⟨by decide +kernel, by decide +kernel⟩)
  have hsame :=
    (hkeys zeroKeys zeroKeys 2 5 _ _ ⟨0, rfl, rfl⟩ ⟨3, rfl, rfl⟩ (by decide +kernel) (by decide +kernel)).2 hequal
  refine ⟨hx, hx0, hname ▸ hread x hx hx0, ?_, ?_, hsame⟩
  · have hshape : infinite.shape = .infinite ∧ x.shape = .finite 1 := by decide +kernel
    rw [← hname, Ne, htext infinite x (by decide +kernel) (by decide +kernel)]
    simp only [Double.CompareEqual, hshape, not_false_eq_true]
  · have hvalue : (⟨0⟩ : Double).value = 0 := by
      by_contra h
      exact (Double.value_ne_zero_iff hplus).1 h (by decide +kernel)
    exact congrArg some (hzero ⟨0⟩ hplus hvalue)

/-! ## Digits of names -/

namespace Double

open Numeral (read? significant)

variable {x : Double} {k l : ℕ}

/-- The numbers of digits that are enough for a decimal that `x` is nearest to. -/
def lengths (x : Double) : Set ℕ := {k | ∃ c : ℕ, c < 10 ^ k ∧ ∃ e : ℤ, x.NearestTo (c * 10 ^ e)}

/-- The powers of two from which the next smaller double is only half as far as the next larger one. -/
def Lopsided (x : Double) : Prop := x.fractionField = 0 ∧ 1 < x.exponentField

theorem gapAt_of_not_lopsided (hx : ¬ x.Lopsided) (hl : x.rank = l + 1) : gapAt (l + 1) = gapAt l := by
  rw [Lopsided, fractionField_eq, exponentField_eq, hl] at hx
  exact gapAt_succ_eq (by omega)

/-- A positive double is a rank, and not the first one. -/
theorem exists_rank_of_pos (hx : x.IsFinite) (hpos : 0 < x.value) :
    ∃ l, l + 1 < top ∧ x.rank = l + 1 ∧ x.negative = false ∧ x.sign = 1 := by
  have h0 := (value_ne_zero_iff hx).1 hpos.ne'
  obtain ⟨l, hl⟩ : ∃ l, x.rank = l + 1 := Nat.exists_eq_succ_of_ne_zero h0
  have hunits : (0 : ℚ) ≤ unitsAt x.rank / one := div_nonneg (Nat.cast_nonneg _) one_pos.le
  have hsign : x.sign = 1 := by
    refine x.sign_cases.resolve_right fun h => ?_
    rw [value_eq hx, h] at hpos
    linarith
  refine ⟨l, hl ▸ isFinite_iff.1 hx, hl, ?_, hsign⟩
  rw [← Bool.not_eq_true]
  intro hneg
  rw [sign, if_pos hneg] at hsign
  norm_num at hsign

theorem value_pos (hx : x.IsFinite) (h0 : x.rank ≠ 0) (hneg : x.negative = false) : 0 < x.value := by
  have hunits : (0 : ℚ) < unitsAt x.rank := by exact_mod_cast unitsAt_pos (Nat.pos_of_ne_zero h0)
  rw [value_eq hx, sign, hneg, if_neg Bool.false_ne_true, one_mul]
  exact div_pos hunits one_pos

theorem mem_lengths (hx : x.IsFinite) (hl : x.rank = l + 1) (hsign : x.sign = 1) :
    k ∈ x.lengths ↔ ∃ d : Decimal, d.coefficient < 10 ^ k ∧ d.ReadsAs (l + 1) := by
  have hreads : ∀ d : Decimal, x.NearestTo d.value ↔ d.ReadsAs (l + 1) := by
    intro d
    have h := nearestTo_readsAs hx (by omega) d
    rwa [hsign, one_mul, hl] at h
  constructor
  · rintro ⟨c, hc, e, hnear⟩
    exact ⟨⟨c, e⟩, hc, (hreads ⟨c, e⟩).1 hnear⟩
  · rintro ⟨d, hd, hread⟩
    exact ⟨d.coefficient, hd, d.exponent, (hreads d).2 hread⟩

theorem significant_text (hx : x.IsFinite) (hl : x.rank = l + 1) (hneg : x.negative = false) :
    significant x.text = Decimal.digitCount (Decimal.brief (unitsAt (l + 1))).trim.coefficient := by
  have hne := Decimal.brief_coefficient_ne_zero _ (unitsAt_pos (Nat.succ_pos l))
  rw [text_of_rank_ne_zero hx (by omega), hneg, hl, if_neg Bool.false_ne_true, String.empty_append,
    Decimal.significant_text (Decimal.trim_coefficient_mod hne)]

end Double

/-- **Number names are shortest, or one digit longer at a power of two.** They are as near as their digits allow. -/
theorem number_names_nearly_shortest (x : Double) (hx : x.IsFinite) (hpos : 0 < x.value) :
    let used := Numeral.significant (Literal.number x).text
    used ∈ x.lengths ∧ used ≤ 17 ∧ (∀ k ∈ x.lengths, used ≤ k + 1) ∧ (¬ x.Lopsided → IsLeast x.lengths used) ∧
      ∃ q, Numeral.read? (Literal.number x).text = some q ∧ x.NearestTo q ∧
        ∀ (c : ℕ) (e : ℤ), c < 10 ^ used → |q - x.value| ≤ |c * 10 ^ e - x.value| := by
  intro used
  obtain ⟨l, htop, hl, hneg, hsign⟩ := Double.exists_rank_of_pos hx hpos
  have hused : used = Decimal.digitCount (Decimal.brief (Double.unitsAt (l + 1))).trim.coefficient :=
    Double.significant_text hx hl hneg
  have hread := Double.read?_text_of_rank_ne_zero hx (by omega)
  rw [hsign, one_mul, hl] at hread
  have hmem : used ∈ x.lengths := by
    rw [Double.mem_lengths hx hl hsign]
    refine ⟨(Decimal.brief (Double.unitsAt (l + 1))).trim, hused ▸ Decimal.lt_pow_digitCount _, ?_⟩
    rw [Decimal.ReadsAs, Decimal.trim_value]
    exact Decimal.brief_readsAs htop
  refine ⟨hmem, ?_, fun k hk => ?_, fun hlop => ⟨hmem, fun k hk => ?_⟩, _, hread, ?_, fun c e hc => ?_⟩
  · rw [hused, Decimal.digitCount_le_iff (by norm_num)]
    exact Decimal.brief_trim_lt htop (Decimal.rounded_sixteen_reads l)
  · obtain ⟨d, hd, hreads⟩ := (Double.mem_lengths hx hl hsign).1 hk
    rw [hused]
    exact (Decimal.digitCount_brief_le htop hreads hd).1
  · obtain ⟨d, hd, hreads⟩ := (Double.mem_lengths hx hl hsign).1 hk
    rw [hused]
    exact (Decimal.digitCount_brief_le htop hreads hd).2 (Double.gapAt_of_not_lopsided hlop hl)
  · have hreads : (Decimal.brief (Double.unitsAt (l + 1))).ReadsAs x.rank := by
      rw [hl]
      exact Decimal.brief_readsAs htop
    have hnear := (Double.nearestTo_readsAs hx (by omega) _).2 hreads
    rwa [hsign, one_mul] at hnear
  · have hdist : ∀ q : ℚ, |q * Double.one - Double.unitsAt (l + 1)| = |q - x.value| * Double.one := by
      intro q
      have h := Double.abs_sub_unitsAt hx rfl q
      rwa [hsign, one_mul, hl] at h
    have hle := Decimal.abs_brief_le (d := ⟨c, e⟩) htop (hused ▸ hc)
    rw [hdist, hdist, mul_le_mul_iff_of_pos_right Double.one_pos] at hle
    exact hle

/-- The double `2 ^ -44`, a power of two whose nearest decimal of sixteen digits is below it. -/
def twoToMinus44 : Double := ⟨0x3d30000000000000⟩

theorem twoToMinus44_pos : twoToMinus44.IsFinite ∧ 0 < twoToMinus44.value := by
  have hfin : twoToMinus44.IsFinite := Double.isFinite_iff.2 (by decide +kernel)
  exact ⟨hfin, Double.value_pos hfin (by decide +kernel) (by decide +kernel)⟩

/-- `2 ^ -44` is written with seventeen digits where it needs sixteen at least, and `0.1` with the one that it needs. -/
theorem number_names_nearly_shortest_twoToMinus44 :
    let tenth : Double := ⟨0x3fb999999999999a⟩
    twoToMinus44.IsFinite ∧ 0 < twoToMinus44.value ∧ Numeral.significant (Literal.number twoToMinus44).text = 17 ∧
      17 ∈ twoToMinus44.lengths ∧ (∀ k ∈ twoToMinus44.lengths, 16 ≤ k) ∧
      tenth.IsFinite ∧ 0 < tenth.value ∧ ¬ tenth.Lopsided ∧ IsLeast tenth.lengths 1 := by
  intro tenth
  obtain ⟨hfin, hpos⟩ := twoToMinus44_pos
  have hfin' : tenth.IsFinite := Double.isFinite_iff.2 (by decide +kernel)
  have hpos' : 0 < tenth.value := Double.value_pos hfin' (by decide +kernel) (by decide +kernel)
  have hlop : ¬ tenth.Lopsided := fun h => absurd h.1 (by decide +kernel)
  have hused : Numeral.significant (Literal.number twoToMinus44).text = 17 := by decide +kernel
  have hused' : Numeral.significant (Literal.number tenth).text = 1 := by decide +kernel
  obtain ⟨hmem, -, hnear, -⟩ := number_names_nearly_shortest twoToMinus44 hfin hpos
  obtain ⟨-, -, -, hleast, -⟩ := number_names_nearly_shortest tenth hfin' hpos'
  refine ⟨hfin, hpos, hused, hused ▸ hmem, fun k hk => ?_, hfin', hpos', hlop, hused' ▸ hleast hlop⟩
  have := hnear k hk
  omega

/-- **Sixteen digits are enough for `2 ^ -44`**: the decimal that has them is on the side of the wider gap, and is not
the nearest one. -/
theorem twoToMinus44_not_shortest :
    twoToMinus44.IsFinite ∧ 0 < twoToMinus44.value ∧
      ¬ IsLeast twoToMinus44.lengths (Numeral.significant (Literal.number twoToMinus44).text) := by
  obtain ⟨hfin, hpos⟩ := twoToMinus44_pos
  refine ⟨hfin, hpos, fun h => ?_⟩
  have hused : Numeral.significant (Literal.number twoToMinus44).text = 17 := by decide +kernel
  have hsign : twoToMinus44.sign = 1 := if_neg (by decide +kernel)
  have hnear := (Double.nearestTo_value_iff hfin (by decide +kernel) ⟨5684341886080802, -29⟩).2 (by decide +kernel)
  rw [hsign, one_mul] at hnear
  have hle := h.2 (show 16 ∈ twoToMinus44.lengths from ⟨5684341886080802, by norm_num, -29, hnear⟩)
  omega

end ScriptTree
