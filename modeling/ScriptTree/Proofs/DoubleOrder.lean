import Mathlib
import ScriptTree.Double

/-!
# The doubles in order

The bits of a double without its sign are a number, its *rank*. Ranks and magnitudes go together:

* `Double.unitsAt k`: the magnitude at rank `k`, in units, and `Double.gapAt k` the distance to the next one
  (`unitsAt_succ`). Gaps never shrink and at most double (`gapAt_le_succ`, `gapAt_succ_le`), and a magnitude is at most
  `2 ^ 53` gaps (`unitsAt_succ_le`);
* `Double.shape_eq_finite_iff`: finite doubles are those below the rank `top`, with the magnitude at their rank;
* `Double.exists_rank`, `Double.ext_rank`: there is one double to each rank and sign.

In this way the exponents are out of the picture: nothing below depends on where the gaps change.
-/

namespace ScriptTree

theorem twoTo_eq (n : ℕ) : twoTo n = 2 ^ n := rfl

theorem tenTo_eq (n : ℕ) : tenTo n = 10 ^ n := rfl

namespace Double

/-- The magnitude at a rank, in units. -/
def unitsAt (k : ℕ) : ℕ := if k < 2 ^ 52 then k else (2 ^ 52 + k % 2 ^ 52) * 2 ^ (k / 2 ^ 52 - 1)

/-- The units from one rank to the next. -/
def gapAt (k : ℕ) : ℕ := 2 ^ (k / 2 ^ 52 - 1)

/-- The first rank that is not that of a finite double. -/
def top : ℕ := 2047 * 2 ^ 52

variable {k l e m : ℕ}

/-! ## Magnitudes by rank -/

/-- Significand and exponent of a magnitude. The significand may also be the one just past the largest. -/
theorem unitsAt_eq (hm : m ≤ 2 ^ 53) (he : e = 0 ∨ 2 ^ 52 ≤ m) : unitsAt (e * 2 ^ 52 + m) = m * 2 ^ e := by
  unfold unitsAt
  rcases Nat.lt_or_ge m (2 ^ 52) with hlt | hge
  · obtain rfl : e = 0 := he.resolve_right (by omega)
    rw [if_pos (by omega)]
    omega
  rw [if_neg (by omega)]
  rcases Nat.lt_or_eq_of_le hm with hlt | rfl
  · have hdiv : (e * 2 ^ 52 + m) / 2 ^ 52 - 1 = e := by omega
    have hmod : 2 ^ 52 + (e * 2 ^ 52 + m) % 2 ^ 52 = m := by omega
    rw [hdiv, hmod]
  · have hdiv : (e * 2 ^ 52 + 2 ^ 53) / 2 ^ 52 - 1 = e + 1 := by omega
    have hmod : (e * 2 ^ 52 + 2 ^ 53) % 2 ^ 52 = 0 := by omega
    rw [hdiv, hmod, pow_succ]
    ring

/-- Every rank has a significand and an exponent. -/
theorem exists_fields (k : ℕ) : ∃ e m, k = e * 2 ^ 52 + m ∧ m < 2 ^ 53 ∧ (e = 0 ∨ 2 ^ 52 ≤ m) ∧ gapAt k = 2 ^ e := by
  rcases Nat.lt_or_ge k (2 ^ 53) with hlt | hge
  · refine ⟨0, k, by omega, hlt, Or.inl rfl, ?_⟩
    have hdiv : k / 2 ^ 52 - 1 = 0 := by omega
    rw [gapAt, hdiv]
  · exact ⟨k / 2 ^ 52 - 1, k % 2 ^ 52 + 2 ^ 52, by omega, by omega, Or.inr (by omega), rfl⟩

theorem gapAt_pos (k : ℕ) : 0 < gapAt k := Nat.two_pow_pos _

/-- **The magnitudes in steps.** -/
theorem unitsAt_succ (k : ℕ) : unitsAt (k + 1) = unitsAt k + gapAt k := by
  obtain ⟨e, m, rfl, hm, he, hgap⟩ := exists_fields k
  rw [hgap, unitsAt_eq hm.le he, Nat.add_assoc, unitsAt_eq (by omega) (by omega)]
  ring

theorem unitsAt_strictMono : StrictMono unitsAt := by
  refine strictMono_nat_of_lt_succ fun k => ?_
  rw [unitsAt_succ]
  exact Nat.lt_add_of_pos_right (gapAt_pos k)

theorem unitsAt_inj : unitsAt k = unitsAt l ↔ k = l := unitsAt_strictMono.injective.eq_iff

@[simp] theorem unitsAt_zero : unitsAt 0 = 0 := rfl

theorem unitsAt_pos (hk : 0 < k) : 0 < unitsAt k := unitsAt_strictMono hk

/-- A magnitude is at most `2 ^ 53` of the gaps below it. -/
theorem unitsAt_succ_le (k : ℕ) : unitsAt (k + 1) ≤ 2 ^ 53 * gapAt k := by
  obtain ⟨e, m, rfl, hm, he, hgap⟩ := exists_fields k
  rw [hgap, Nat.add_assoc, unitsAt_eq (by omega) (by omega)]
  exact Nat.mul_le_mul_right _ (by omega)

theorem gapAt_le_succ (k : ℕ) : gapAt k ≤ gapAt (k + 1) := Nat.pow_le_pow_right (by omega) (by omega)

theorem gapAt_succ_le (k : ℕ) : gapAt (k + 1) ≤ 2 * gapAt k := by
  rw [gapAt, gapAt, ← pow_succ']
  exact Nat.pow_le_pow_right (by omega) (by omega)

/-- The gap changes only where a new exponent begins, and not at the first of them. -/
theorem gapAt_succ_eq (h : (k + 1) % 2 ^ 52 ≠ 0 ∨ (k + 1) / 2 ^ 52 ≤ 1) : gapAt (k + 1) = gapAt k := by
  have hdiv : (k + 1) / 2 ^ 52 - 1 = k / 2 ^ 52 - 1 := by omega
  rw [gapAt, gapAt, hdiv]

theorem unitsAt_top : unitsAt top = limit := by
  have htop : top = 2046 * 2 ^ 52 + 2 ^ 52 := rfl
  rw [htop, unitsAt_eq (by omega) (Or.inr le_rfl), ← pow_add, limit, twoTo_eq]

theorem unitsAt_lt_limit : unitsAt k < limit ↔ k < top := by rw [← unitsAt_top, unitsAt_strictMono.lt_iff_lt]

/-! ## The rank of a double -/

variable {x y : Double} {units : ℕ}

/-- The bits without the sign. -/
def rank (x : Double) : ℕ := x.bits.toNat % 2 ^ 63

theorem exponentField_eq (x : Double) : x.exponentField = x.rank / 2 ^ 52 := by
  simp only [exponentField, rank, twoTo_eq]
  omega

theorem fractionField_eq (x : Double) : x.fractionField = x.rank % 2 ^ 52 := by
  simp only [fractionField, rank, twoTo_eq]
  omega

theorem rank_lt (x : Double) : x.rank < 2 ^ 63 := Nat.mod_lt _ (by decide)

/-- The fraction is even at even ranks. -/
theorem even_fractionField : Even x.fractionField ↔ Even x.rank := by
  rw [fractionField_eq, Nat.even_iff, Nat.even_iff]
  omega

/-- **Finite doubles have the magnitude at their rank.** -/
theorem shape_eq_finite_iff : x.shape = .finite units ↔ x.rank < top ∧ units = unitsAt x.rank := by
  have hlt := x.rank_lt
  have htop : x.rank < top ↔ x.rank / 2 ^ 52 ≠ 2047 := by unfold top; omega
  rw [htop, shape, exponentField_eq, fractionField_eq, unitsAt]
  by_cases hmax : x.rank / 2 ^ 52 = 2047
  · rw [if_pos hmax]
    exact iff_of_false (by split <;> exact Shape.noConfusion) fun h => h.1 hmax
  by_cases hzero : x.rank / 2 ^ 52 = 0
  · have hsmall : x.rank < 2 ^ 52 := by omega
    have hmod : x.rank % 2 ^ 52 = x.rank := Nat.mod_eq_of_lt hsmall
    rw [if_neg hmax, if_pos hzero, if_pos hsmall, hmod, Shape.finite.injEq]
    exact ⟨fun h => ⟨hmax, h.symm⟩, fun h => h.2.symm⟩
  · have hlarge : ¬ x.rank < 2 ^ 52 := by omega
    rw [if_neg hmax, if_neg hzero, if_neg hlarge, Shape.finite.injEq]
    exact ⟨fun h => ⟨hmax, h.symm⟩, fun h => h.2.symm⟩

theorem negative_iff : x.negative = true ↔ 2 ^ 63 ≤ x.bits.toNat := by
  have hlt : x.bits.toNat < 2 ^ 64 := x.bits.toNat_lt
  simp only [negative, twoTo_eq, beq_iff_eq]
  omega

/-- A sign and a rank make one double. -/
theorem ext_rank (hs : x.negative = y.negative) (hr : x.rank = y.rank) : x = y := by
  obtain ⟨a⟩ := x
  obtain ⟨b⟩ := y
  have hs : 2 ^ 63 ≤ a.toNat ↔ 2 ^ 63 ≤ b.toNat := by
    rw [← negative_iff (x := ⟨a⟩), ← negative_iff (x := ⟨b⟩), hs]
  have ha : a.toNat < 2 ^ 64 := a.toNat_lt
  have hb : b.toNat < 2 ^ 64 := b.toNat_lt
  have hr : a.toNat % 2 ^ 63 = b.toNat % 2 ^ 63 := hr
  exact congrArg Double.mk (UInt64.toNat_inj.1 (by omega))

/-- There is a double to each sign and rank. -/
theorem exists_rank (negative : Bool) (hk : k < 2 ^ 63) : ∃ x : Double, x.negative = negative ∧ x.rank = k := by
  have hsign := Bool.toNat_le negative
  have hbits : negative.toNat * 2 ^ 63 + k < 2 ^ 64 := by omega
  refine ⟨⟨.ofNat (negative.toNat * 2 ^ 63 + k)⟩, ?_, ?_⟩
  · rw [Bool.eq_iff_iff, negative_iff, UInt64.toNat_ofNat_of_lt' hbits]
    cases negative with
    | false => simpa using hk
    | true => simp
  · rw [rank, UInt64.toNat_ofNat_of_lt' hbits]
    omega

end Double

end ScriptTree
