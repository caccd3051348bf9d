import Mathlib
import ScriptTree.Decimal
import ScriptTree.Proofs.DoubleOrder

/-!
# Rounding to the nearest double

* `Rounds q n`: `n` is the natural number nearest to `q`, the even one of two. `roundDiv` rounds so
  (`rounds_roundDiv`).
* `Double.RoundsTo q k`: `q` units lie between the midpoints beside rank `k`, a midpoint counting for the even rank.
  Every number rounds to one rank (`RoundsTo.unique`), and `Double.round` finds it (`exists_round`).
* `Double.NearestTo x q`: `x` is a finite double nearest to the number `q`, of two the one with the even fraction, and
  is nearer than the first number out of range. Such a double is unique up to the sign of zero
  (`Double.NearestTo.unique`). Other than zero it is the one that `q` rounds to (`Double.nearestTo_iff`), so
  `Decimal.read` gives the nearest double (`Double.nearestTo_value_iff`).
-/

namespace ScriptTree

/-! ## Nearest natural numbers -/

/-- `n` is nearest to `q`, and even if `q` is halfway to another natural number. -/
def Rounds (q : ℚ) (n : ℕ) : Prop := |q - n| < 1 / 2 ∨ |q - n| = 1 / 2 ∧ Even n

theorem Rounds.dist_le {q : ℚ} {n : ℕ} (h : Rounds q n) : |q - n| ≤ 1 / 2 := by
  rcases h with h | ⟨h, -⟩
  · exact h.le
  · exact h.le

theorem Rounds.nearest {q : ℚ} {n : ℕ} (h : Rounds q n) (m : ℕ) : |n - q| ≤ |m - q| := by
  have hn := h.dist_le
  rw [abs_sub_comm] at hn
  rcases Nat.lt_trichotomy m n with hm | rfl | hm
  · have hone : (m : ℚ) + 1 ≤ n := by exact_mod_cast hm
    have hfar := neg_le_abs (m - q)
    linarith [(abs_le.1 hn).2]
  · exact le_rfl
  · have hone : (n : ℚ) + 1 ≤ m := by exact_mod_cast hm
    have hfar := le_abs_self (m - q)
    linarith [(abs_le.1 hn).1]

theorem rounds_roundDiv (num : ℕ) {den : ℕ} (hden : 0 < den) : Rounds (num / den) (roundDiv num den) := by
  have hpos : (0 : ℚ) < den := by exact_mod_cast hden
  obtain ⟨a, r, hr, rfl⟩ : ∃ a r, r < den ∧ num = den * a + r :=
    ⟨num / den, num % den, Nat.mod_lt num hden, (Nat.div_add_mod num den).symm⟩
  have hdiv : (den * a + r) / den = a := by rw [Nat.mul_add_div hden, Nat.div_eq_of_lt hr, Nat.add_zero]
  have hmod : (den * a + r) % den = r := by rw [Nat.mul_add_mod, Nat.mod_eq_of_lt hr]
  have hq : ((den * a + r : ℕ) : ℚ) / den = a + r / den := by push_cast; field_simp
  rw [hq, roundDiv, hdiv, hmod]
  have hr0 : (0 : ℚ) ≤ r / den := by positivity
  have hr1 : (r : ℚ) / den < 1 := (div_lt_one hpos).2 (by exact_mod_cast hr)
  have hhalf : (r : ℚ) / den < 1 / 2 ↔ 2 * r < den := by
    rw [div_lt_div_iff₀ hpos two_pos, one_mul, mul_comm]
    exact_mod_cast Iff.rfl
  have hhalf' : 1 / 2 < (r : ℚ) / den ↔ den < 2 * r := by
    rw [div_lt_div_iff₀ two_pos hpos, one_mul, mul_comm (r : ℚ)]
    exact_mod_cast Iff.rfl
  split_ifs with hlt hgt
  · refine Or.inl ?_
    rw [add_sub_cancel_left, abs_of_nonneg hr0]
    exact hhalf.2 hlt
  · refine Or.inl ?_
    have h := hhalf'.2 hgt
    push_cast
    rw [abs_lt]
    constructor <;> linarith
  · -- halfway: the quotient if it is even, and else the next number
    have he : (r : ℚ) / den = 1 / 2 := le_antisymm (not_lt.1 (mt hhalf'.1 hgt)) (not_lt.1 (mt hhalf.1 hlt))
    refine Or.inr ⟨?_, by rw [Nat.even_iff]; omega⟩
    rw [he]
    rcases Nat.mod_two_eq_zero_or_one a with ha | ha <;> rw [ha] <;> push_cast <;>
      norm_num [abs_of_nonneg, abs_of_nonpos]

/-- Between two neighbours the nearer one is taken, and the even one halfway. -/
theorem Rounds.cases {q : ℚ} {m n : ℕ} (h : Rounds q n) (hm : (m : ℚ) ≤ q) (hm' : q < m + 1) :
    n = m ∧ (q < m + 1 / 2 ∨ q = m + 1 / 2 ∧ Even m) ∨
      n = m + 1 ∧ (m + 1 / 2 < q ∨ m + 1 / 2 = q ∧ Even (m + 1)) := by
  obtain ⟨hlow, hhigh⟩ := abs_le.1 h.dist_le
  have hn : n < m + 2 ∧ m < n + 1 := by
    constructor
    · have hlt : (n : ℚ) < m + 2 := by linarith
      exact_mod_cast hlt
    · have hlt : (m : ℚ) < n + 1 := by linarith
      exact_mod_cast hlt
  obtain rfl | rfl : n = m ∨ n = m + 1 := by omega
  · rw [Rounds, abs_of_nonneg (by linarith)] at h
    refine Or.inl ⟨rfl, h.imp (fun h => by linarith) fun h => ⟨by linarith, h.2⟩⟩
  · have hcast : ((m + 1 : ℕ) : ℚ) = m + 1 := Nat.cast_succ m
    rw [Rounds, hcast, abs_of_nonpos (by linarith)] at h
    exact Or.inr ⟨rfl, h.imp (fun h => by linarith) fun h => ⟨by linarith, h.2⟩⟩

namespace Double

variable {k l : ℕ} {q : ℚ}

/-! ## Midpoints -/

/-- Halfway from a rank to the next, in units. -/
def halfway (k : ℕ) : ℚ := (unitsAt k + unitsAt (k + 1)) / 2

/-- `q` units round to the rank `k`. -/
structure RoundsTo (q : ℚ) (k : ℕ) : Prop where
  below : ∀ l, l + 1 = k → halfway l < q ∨ halfway l = q ∧ Even k
  above : q < halfway k ∨ q = halfway k ∧ Even k

theorem RoundsTo.le_halfway (h : RoundsTo q k) : q ≤ halfway k := h.above.elim le_of_lt fun h => h.1.le

theorem RoundsTo.halfway_le (h : RoundsTo q (l + 1)) : halfway l ≤ q := (h.below l rfl).elim le_of_lt fun h => h.1.le

theorem halfway_eq (k : ℕ) : halfway k = unitsAt k + gapAt k / 2 := by
  rw [halfway, unitsAt_succ]
  push_cast
  ring

theorem unitsAt_lt_halfway (k : ℕ) : (unitsAt k : ℚ) < halfway k := by
  have h : (0 : ℚ) < gapAt k := by exact_mod_cast gapAt_pos k
  rw [halfway_eq]
  linarith

theorem halfway_lt_unitsAt (k : ℕ) : halfway k < unitsAt (k + 1) := by
  have h : (unitsAt k : ℚ) < unitsAt (k + 1) := by exact_mod_cast unitsAt_strictMono (Nat.lt_succ_self k)
  rw [halfway]
  linarith

theorem halfway_strictMono : StrictMono halfway :=
  strictMono_nat_of_lt_succ fun k => (halfway_lt_unitsAt k).trans (unitsAt_lt_halfway (k + 1))

/-- **A number rounds to one rank only.** -/
theorem RoundsTo.unique (h : RoundsTo q k) (h' : RoundsTo q l) : k = l := by
  have hlt : ∀ {k l}, RoundsTo q k → RoundsTo q l → ¬ k < l := by
    intro k l h h' hkl
    obtain ⟨l, rfl⟩ : ∃ j, l = j + 1 := ⟨l - 1, by omega⟩
    have hle : halfway k ≤ halfway l := halfway_strictMono.monotone (by omega)
    -- only a midpoint is left, and it cannot count for both ranks beside it
    rcases h.above with ha | ⟨ha, hk⟩ <;> rcases h'.below l rfl with hb | ⟨hb, hl⟩
    · exact absurd (hb.trans ha) hle.not_gt
    · exact absurd (hb ▸ ha) hle.not_gt
    · exact absurd (ha ▸ hb) hle.not_gt
    · have he : k = l := halfway_strictMono.injective (ha.symm.trans hb.symm)
      subst he
      exact (Nat.even_add_one.1 hl) hk
  rcases Nat.lt_trichotomy k l with hkl | hkl | hkl
  · exact absurd hkl (hlt h h')
  · exact hkl
  · exact absurd hkl (hlt h' h)

/-! ## The rank that is found -/

/-- The spacing at a whole number of units, and the significand there. -/
theorem exists_spacing (n : ℕ) : ∃ e, spacing n = 2 ^ e ∧ n / 2 ^ e < 2 ^ 53 ∧ (e = 0 ∨ 2 ^ 52 ≤ n / 2 ^ e) := by
  refine ⟨n.log2 - 52, rfl, ?_, ?_⟩
  · rw [Nat.div_lt_iff_lt_mul (Nat.two_pow_pos _), ← pow_add]
    exact Nat.lt_log2_self.trans_le (Nat.pow_le_pow_right (by omega) (by omega))
  · rcases Nat.lt_or_ge 52 n.log2 with hlog | hlog
    · refine Or.inr ?_
      have hn : n ≠ 0 := by
        rintro rfl
        simp at hlog
      rw [Nat.le_div_iff_mul_le (Nat.two_pow_pos _), ← pow_add]
      exact (Nat.pow_le_pow_right (by omega) (by omega)).trans (Nat.log2_self_le hn)
    · exact Or.inl (by omega)

/-- Between two ranks a number rounds to the nearer one, and halfway to the even one. -/
theorem RoundsTo.of_between (hk : (unitsAt k : ℚ) ≤ q) (hk' : q < unitsAt (k + 1)) :
    (q < halfway k ∨ q = halfway k ∧ Even k → RoundsTo q k) ∧
      (halfway k < q ∨ halfway k = q ∧ Even (k + 1) → RoundsTo q (k + 1)) := by
  refine ⟨fun h => ⟨fun l hl => Or.inl ?_, h⟩, fun h => ⟨fun l hl => ?_, Or.inl ?_⟩⟩
  · subst hl
    exact (halfway_lt_unitsAt l).trans_le hk
  · obtain rfl : l = k := Nat.succ_injective hl
    exact h
  · exact hk'.trans (unitsAt_lt_halfway (k + 1))

/-- **Rounding finds the rank that a number of units rounds to.** -/
theorem exists_round (num : ℕ) {den : ℕ} (hden : 0 < den) :
    ∃ k, RoundsTo (num / den) k ∧ round num den = if k < top then .finite (unitsAt k) else .infinite := by
  obtain ⟨e, hgap, hm, he⟩ := exists_spacing (num / den)
  generalize hmdef : num / den / 2 ^ e = m at hm he
  have hpow : (0 : ℚ) < 2 ^ e := by positivity
  have hdenq : (0 : ℚ) < den := by exact_mod_cast hden
  -- in terms of the gap, the number `t` lies between the significands `m` and `m + 1`
  obtain ⟨t, ht⟩ : ∃ t : ℚ, (num : ℚ) / den = t * 2 ^ e := ⟨num / den / 2 ^ e, by field_simp⟩
  have hlow : unitsAt (e * 2 ^ 52 + m) = m * 2 ^ e := unitsAt_eq hm.le he
  have hhigh : unitsAt (e * 2 ^ 52 + m + 1) = (m + 1) * 2 ^ e := by
    rw [Nat.add_assoc, unitsAt_eq (by omega) (by omega)]
  have hmid : halfway (e * 2 ^ 52 + m) = (m + 1 / 2) * 2 ^ e := by
    rw [halfway, hlow, hhigh]
    push_cast
    ring
  have hscaled : (num : ℚ) / ((den * 2 ^ e : ℕ) : ℚ) = t := by
    rw [Nat.cast_mul, Nat.cast_pow, Nat.cast_ofNat, ← div_div, ht, mul_div_cancel_right₀ _ hpow.ne']
  have hfloor : ⌊t⌋₊ = m := by rw [← hscaled, Nat.floor_div_eq_div, ← Nat.div_div_eq_div_mul, hmdef]
  have hm₁ : (m : ℚ) ≤ t := hfloor ▸ Nat.floor_le (by rw [← hscaled]; positivity)
  have hm₂ : t < m + 1 := hfloor ▸ Nat.lt_floor_add_one t
  have hq₁ : (unitsAt (e * 2 ^ 52 + m) : ℚ) ≤ num / den := by
    rw [ht, hlow, Nat.cast_mul, Nat.cast_pow, Nat.cast_ofNat]
    exact mul_le_mul_of_nonneg_right hm₁ hpow.le
  have hq₂ : (num : ℚ) / den < unitsAt (e * 2 ^ 52 + m + 1) := by
    rw [ht, hhigh, Nat.cast_mul, Nat.cast_pow, Nat.cast_ofNat, Nat.cast_succ]
    exact mul_lt_mul_of_pos_right hm₂ hpow
  obtain ⟨hdown, hup⟩ := RoundsTo.of_between hq₁ hq₂
  have hround := rounds_roundDiv num (Nat.mul_pos hden (Nat.two_pow_pos e))
  rw [hscaled] at hround
  rw [ht, hmid] at hdown hup
  rw [ht]
  rcases hround.cases hm₁ hm₂ with ⟨hr, h⟩ | ⟨hr, h⟩
  · refine ⟨_, hdown (h.imp ?_ ?_), by simp only [round, hgap, hr, ← hlow, unitsAt_lt_limit]⟩
    · exact fun hlt => mul_lt_mul_of_pos_right hlt hpow
    · rintro ⟨he, heven⟩
      exact ⟨by rw [he], by rw [Nat.even_iff] at heven ⊢; omega⟩
  · refine ⟨_, hup (h.imp ?_ ?_), by simp only [round, hgap, hr, ← hhigh, unitsAt_lt_limit]⟩
    · exact fun hlt => mul_lt_mul_of_pos_right hlt hpow
    · rintro ⟨he, heven⟩
      exact ⟨by rw [he], by rw [Nat.even_iff] at heven ⊢; omega⟩

theorem round_eq_finite_iff {num den : ℕ} (hden : 0 < den) (hk : k < top) :
    round num den = .finite (unitsAt k) ↔ RoundsTo (num / den) k := by
  obtain ⟨j, hj, hround⟩ := exists_round num hden
  rw [hround]
  constructor
  · intro h
    split at h
    · rw [← unitsAt_inj.1 (Shape.finite.inj h)]
      exact hj
    · cases h
  · intro h
    rw [hj.unique h, if_pos hk]

/-! ## Distances -/

/-- Of two numbers the smaller one is nearer below their midpoint. -/
theorem abs_sub_le_abs_sub_iff {a b q : ℚ} (h : a < b) : |q - a| ≤ |q - b| ↔ q ≤ (a + b) / 2 := by
  rw [← sq_le_sq]
  constructor
  · intro hle
    by_contra hlt
    nlinarith
  · intro hle
    nlinarith

theorem abs_sub_eq_abs_sub_iff {a b q : ℚ} (h : a < b) : |q - a| = |q - b| ↔ q = (a + b) / 2 := by
  have hle := abs_sub_le_abs_sub_iff (q := q) h
  have hge := abs_sub_le_abs_sub_iff (a := -b) (b := -a) (q := -q) (by linarith)
  rw [show -q - -b = -(q - b) by ring, show -q - -a = -(q - a) by ring, abs_neg, abs_neg] at hge
  constructor
  · intro he
    exact le_antisymm (hle.1 he.le) (by linarith [hge.1 he.ge])
  · intro he
    exact le_antisymm (hle.2 he.le) (hge.2 (by linarith))

theorem cast_unitsAt_lt (h : k < l) : (unitsAt k : ℚ) < unitsAt l := by exact_mod_cast unitsAt_strictMono h

/-- **The rank that a number rounds to is a nearest one**, and an even one if it is not the only one. -/
theorem RoundsTo.nearest (h : RoundsTo q k) (l : ℕ) :
    |q - unitsAt k| ≤ |q - unitsAt l| ∧ (l ≠ k → |q - unitsAt k| = |q - unitsAt l| → Even k) := by
  rcases Nat.lt_trichotomy l k with hlt | rfl | hlt
  · obtain ⟨j, rfl⟩ : ∃ j, k = j + 1 := ⟨k - 1, by omega⟩
    have hle : (unitsAt l : ℚ) ≤ unitsAt j := by exact_mod_cast unitsAt_strictMono.monotone (Nat.le_of_lt_succ hlt)
    have hmid : ((unitsAt l : ℚ) + unitsAt (j + 1)) / 2 ≤ halfway j := by rw [halfway]; linarith
    have hj := h.halfway_le
    constructor
    · rw [← not_lt, lt_iff_le_not_ge, abs_sub_le_abs_sub_iff (cast_unitsAt_lt hlt)]
      rintro ⟨hq, hne⟩
      have he : q = ((unitsAt l : ℚ) + unitsAt (j + 1)) / 2 := le_antisymm hq (hmid.trans hj)
      exact hne ((abs_sub_eq_abs_sub_iff (cast_unitsAt_lt hlt)).2 he).ge
    · intro _ he
      have hq := (abs_sub_eq_abs_sub_iff (cast_unitsAt_lt hlt)).1 he.symm
      exact (h.below j rfl).elim (fun hj => absurd (hq ▸ hmid) hj.not_ge) And.right
  · exact ⟨le_rfl, fun h => absurd rfl h⟩
  · have hle : (unitsAt (k + 1) : ℚ) ≤ unitsAt l := by
      exact_mod_cast unitsAt_strictMono.monotone (Nat.succ_le_of_lt hlt)
    have hmid : halfway k ≤ ((unitsAt k : ℚ) + unitsAt l) / 2 := by rw [halfway]; linarith
    have hk := h.le_halfway
    refine ⟨(abs_sub_le_abs_sub_iff (cast_unitsAt_lt hlt)).2 (hk.trans hmid), fun _ he => ?_⟩
    have hq := (abs_sub_eq_abs_sub_iff (cast_unitsAt_lt hlt)).1 he
    exact h.above.elim (fun hk => absurd (hq ▸ hmid) hk.not_ge) And.right

/-- A nearest rank that is even if it is not the only one is the one that a number rounds to. It is enough to look at
finite doubles, and at the first number out of range. -/
theorem RoundsTo.of_nearest (hk : k < top) (hrange : |q - unitsAt k| < limit - |q|)
    (hnear : ∀ l < top, |q - unitsAt k| ≤ |q - unitsAt l|)
    (heven : ∀ l < top, l ≠ k → |q - unitsAt k| = |q - unitsAt l| → Even k) : RoundsTo q k := by
  constructor
  · rintro l rfl
    have hlt := cast_unitsAt_lt (Nat.lt_succ_self l)
    have hl : l < top := Nat.lt_of_succ_lt hk
    by_cases he : q = halfway l
    · exact Or.inr ⟨he.symm, heven l hl (by omega) ((abs_sub_eq_abs_sub_iff hlt).2 he).symm⟩
    · refine Or.inl (lt_of_not_ge fun hle => he ?_)
      have hge := (abs_sub_le_abs_sub_iff hlt).2 hle
      exact (abs_sub_eq_abs_sub_iff hlt).1 (le_antisymm hge (hnear l hl))
  · have hlt := cast_unitsAt_lt (Nat.lt_succ_self k)
    rcases Nat.lt_or_eq_of_le (Nat.succ_le_of_lt hk) with hl | hl
    · have hle := (abs_sub_le_abs_sub_iff hlt).1 (hnear (k + 1) hl)
      refine (lt_or_eq_of_le hle).imp_right fun he => ⟨he, ?_⟩
      exact heven (k + 1) hl (by omega) ((abs_sub_eq_abs_sub_iff hlt).2 he)
    · -- the next rank is out of range
      have hlimit : unitsAt (k + 1) = limit := by rw [← unitsAt_top, ← hl]
      have h₁ := le_abs_self q
      have h₂ := le_abs_self (q - unitsAt k)
      rw [← hlimit] at hrange
      refine Or.inl ?_
      rw [halfway]
      linarith

/-! ## The nearest double -/

/-- The sign, as a factor. -/
def sign (x : Double) : ℚ := if x.negative then -1 else 1

/-- The number that a finite double stands for. -/
def value (x : Double) : ℚ :=
  match x.shape with
  | .finite units => x.sign * (units / one)
  | .infinite | .nan => 0

def IsFinite (x : Double) : Prop := ∃ units, x.shape = .finite units

/-- `x` is the finite double nearest to `q`: no other one is nearer, and where another one is as near, the fraction of
`x` is even. It is also nearer than the first power of two out of range. -/
structure NearestTo (x : Double) (q : ℚ) : Prop where
  finite : x.IsFinite
  inRange : |q - x.value| < 2 ^ 1024 - |q|
  nearest : ∀ y : Double, y.IsFinite → |q - x.value| ≤ |q - y.value|
  even : ∀ y : Double, y.IsFinite → y.value ≠ x.value → |q - x.value| = |q - y.value| → Even x.fractionField

variable {x y : Double} {units : ℕ}

theorem sign_cases (x : Double) : x.sign = 1 ∨ x.sign = -1 := by
  unfold sign
  split <;> simp

theorem sign_mul_self (x : Double) : x.sign * x.sign = 1 := by rcases x.sign_cases with h | h <;> rw [h] <;> norm_num

theorem sign_ne_zero (x : Double) : x.sign ≠ 0 := left_ne_zero_of_mul_eq_one x.sign_mul_self

theorem abs_sign (x : Double) : |x.sign| = 1 := by rcases x.sign_cases with h | h <;> rw [h] <;> norm_num

theorem one_pos : (0 : ℚ) < one := by
  rw [one, twoTo_eq]
  positivity

theorem limit_eq : (limit : ℚ) = 2 ^ 1024 * one := by
  rw [limit, one, twoTo_eq, twoTo_eq, Nat.cast_pow, Nat.cast_pow, Nat.cast_ofNat, ← pow_add]

theorem isFinite_iff : x.IsFinite ↔ x.rank < top := by
  simp only [IsFinite, shape_eq_finite_iff, exists_and_left, exists_eq, and_true]

theorem IsFinite.shape_eq (hx : x.IsFinite) : x.shape = .finite (unitsAt x.rank) :=
  shape_eq_finite_iff.2 ⟨isFinite_iff.1 hx, rfl⟩

theorem value_eq (hx : x.IsFinite) : x.value = x.sign * (unitsAt x.rank / one) := by
  rw [value, hx.shape_eq]

/-- Distances in units, seen from the side of `x`. -/
theorem abs_sub_value (x : Double) (hy : y.IsFinite) (q : ℚ) :
    |x.sign * q * one - x.sign * y.sign * unitsAt y.rank| = |q - y.value| * one := by
  have hone := one_pos
  have hunits : y.value * one = y.sign * unitsAt y.rank := by
    rw [value_eq hy, mul_assoc, div_mul_cancel₀ _ hone.ne']
  have hfactor : x.sign * q * one - x.sign * y.sign * unitsAt y.rank = x.sign * ((q - y.value) * one) := by
    rw [sub_mul, hunits]
    ring
  rw [hfactor, abs_mul, abs_mul, abs_sign, one_mul, abs_of_pos hone]

theorem sign_eq_iff : x.sign = y.sign ↔ x.negative = y.negative := by
  unfold sign
  cases x.negative <;> cases y.negative <;> norm_num

theorem sign_eq_neg (h : x.sign ≠ y.sign) : y.sign = -x.sign := by
  rcases x.sign_cases with hx | hx <;> rcases y.sign_cases with hy | hy
  · exact absurd (hx.trans hy.symm) h
  · rw [hx, hy]
  · rw [hx, hy, neg_neg]
  · exact absurd (hx.trans hy.symm) h

/-- Only the two zeros have the same value. -/
theorem value_eq_iff (hx : x.IsFinite) (hy : y.IsFinite) : x.value = y.value ↔ x = y ∨ x.rank = 0 ∧ y.rank = 0 := by
  have hone := one_pos
  rw [value_eq hx, value_eq hy, ← mul_div_assoc, ← mul_div_assoc, div_left_inj' hone.ne']
  constructor
  · intro h
    have hx0 : (0 : ℚ) ≤ unitsAt x.rank := Nat.cast_nonneg _
    have hy0 : (0 : ℚ) ≤ unitsAt y.rank := Nat.cast_nonneg _
    by_cases hs : x.sign = y.sign
    · rw [hs, mul_right_inj' y.sign_ne_zero, Nat.cast_inj, unitsAt_inj] at h
      exact Or.inl (ext_rank (sign_eq_iff.1 hs) h)
    · have hopp : y.sign = -x.sign := sign_eq_neg hs
      have hsum : (unitsAt x.rank : ℚ) + unitsAt y.rank = 0 := by
        rcases x.sign_cases with hx | hx <;> rw [hopp, hx] at h <;> linarith
      have hzero : ∀ {k}, (unitsAt k : ℚ) = 0 → k = 0 := by
        intro k hk
        exact unitsAt_inj.1 ((Nat.cast_eq_zero.1 hk).trans unitsAt_zero.symm)
      exact Or.inr ⟨hzero (by linarith), hzero (by linarith)⟩
  · rintro (rfl | ⟨hx, hy⟩)
    · rfl
    · rw [hx, hy, unitsAt_zero, Nat.cast_zero, mul_zero, mul_zero]

/-- A number that rounds to a rank other than zero is positive. -/
theorem RoundsTo.pos (h : RoundsTo q k) (hk : k ≠ 0) : 0 < q := by
  obtain ⟨l, rfl⟩ : ∃ l, k = l + 1 := ⟨k - 1, by omega⟩
  have hl : 0 < halfway l := (Nat.cast_nonneg _).trans_lt (unitsAt_lt_halfway l)
  exact hl.trans_le h.halfway_le

/-- A number that rounds to a finite double is nearer to it than to the limit. -/
theorem RoundsTo.inRange (h : RoundsTo q k) (hq : 0 ≤ q) (hk : k < top) : |q - unitsAt k| < limit - |q| := by
  have hlimit : q < limit := by
    have hle : (unitsAt (k + 1) : ℚ) ≤ limit := by
      rw [← unitsAt_top]
      exact_mod_cast unitsAt_strictMono.monotone (Nat.succ_le_of_lt hk)
    exact (h.le_halfway.trans_lt (halfway_lt_unitsAt k)).trans_le hle
  have hdist : |q - unitsAt top| = limit - |q| := by
    rw [unitsAt_top, abs_sub_comm, abs_of_pos (sub_pos.2 hlimit), abs_of_nonneg hq]
  rw [← hdist]
  refine lt_of_le_of_ne (h.nearest top).1 fun he => ?_
  -- a tie with the limit is halfway from the last finite rank, which is odd
  have hmid := (abs_sub_eq_abs_sub_iff (cast_unitsAt_lt hk)).1 he
  have heven : Even k := (h.nearest top).2 hk.ne' he
  have hhalf := h.le_halfway
  have htop : unitsAt top ≤ unitsAt (k + 1) := by
    rw [hmid, halfway] at hhalf
    have hle : (unitsAt top : ℚ) ≤ unitsAt (k + 1) := by linarith
    exact_mod_cast hle
  have hlast : top ≤ k + 1 := unitsAt_strictMono.le_iff_le.1 htop
  rw [Nat.even_iff] at heven
  unfold top at hlast hk
  omega

/-- Distances in units to the doubles on the side of `x`. -/
theorem abs_sub_unitsAt (hy : y.IsFinite) (hsign : y.sign = x.sign) (q : ℚ) :
    |x.sign * q * one - unitsAt y.rank| = |q - y.value| * one := by
  rw [← abs_sub_value x hy, hsign, sign_mul_self, one_mul]

theorem abs_sign_mul (x : Double) (q : ℚ) : |x.sign * q * one| = |q| * one := by
  rw [abs_mul, abs_mul, abs_sign, one_mul, abs_of_pos one_pos]

/-- The finite doubles of one sign take all ranks. -/
theorem exists_side (x : Double) (hk : k < top) : ∃ y : Double, y.IsFinite ∧ y.rank = k ∧ y.sign = x.sign := by
  obtain ⟨y, hneg, rfl⟩ := exists_rank x.negative (k := k) (hk.trans (by decide))
  exact ⟨y, isFinite_iff.2 hk, rfl, sign_eq_iff.2 hneg⟩

/-- A number rounds to the rank of the double nearest to it. -/
theorem NearestTo.roundsTo (h : x.NearestTo q) : RoundsTo (x.sign * q * one) x.rank := by
  have hone := one_pos
  refine .of_nearest (isFinite_iff.1 h.finite) ?_ ?_ ?_
  · rw [abs_sub_unitsAt h.finite rfl, limit_eq, abs_sign_mul, ← sub_mul]
    exact mul_lt_mul_of_pos_right h.inRange hone
  · intro l hl
    obtain ⟨y, hy, rfl, hsign⟩ := exists_side x hl
    rw [abs_sub_unitsAt h.finite rfl, abs_sub_unitsAt hy hsign]
    exact mul_le_mul_of_nonneg_right (h.nearest y hy) hone.le
  · intro l hl hne he
    obtain ⟨y, hy, rfl, hsign⟩ := exists_side x hl
    rw [abs_sub_unitsAt h.finite rfl, abs_sub_unitsAt hy hsign, mul_left_inj' hone.ne'] at he
    rw [← even_fractionField]
    refine h.even y hy (fun hv => hne ?_) he
    rcases (value_eq_iff hy h.finite).1 hv with rfl | ⟨hy0, hx0⟩
    · rfl
    · rw [hy0, hx0]

/-- **The nearest double is the one that a number rounds to.** -/
theorem nearestTo_iff (hx : x.rank ≠ 0) : x.NearestTo q ↔ x.IsFinite ∧ RoundsTo (x.sign * q * one) x.rank := by
  refine ⟨fun h => ⟨h.finite, h.roundsTo⟩, fun ⟨hfin, h⟩ => ?_⟩
  have hone := one_pos
  have hpos := h.pos hx
  have hnear : ∀ {y : Double}, y.IsFinite → |x.sign * q * one - unitsAt x.rank| ≤ |q - y.value| * one ∧
      (y.value ≠ x.value → |x.sign * q * one - unitsAt x.rank| = |q - y.value| * one → Even x.rank) := by
    intro y hy
    by_cases hsign : x.sign = y.sign
    · rw [← abs_sub_unitsAt hy hsign.symm]
      refine ⟨(h.nearest y.rank).1, fun hv he => (h.nearest y.rank).2 (fun hr => hv ?_) he⟩
      rw [ext_rank (sign_eq_iff.1 hsign.symm) hr]
    · -- zero is nearer than the doubles of the other sign
      have hfar : |q - y.value| * one = x.sign * q * one + unitsAt y.rank := by
        rw [← abs_sub_value x hy, sign_eq_neg hsign, mul_neg, sign_mul_self, neg_one_mul, sub_neg_eq_add]
        exact abs_of_nonneg (add_nonneg hpos.le (Nat.cast_nonneg _))
      have hzero := h.nearest 0
      rw [unitsAt_zero, Nat.cast_zero, sub_zero, abs_of_pos hpos] at hzero
      have hle : x.sign * q * one ≤ |q - y.value| * one := hfar ▸ le_add_of_nonneg_right (Nat.cast_nonneg _)
      exact ⟨hzero.1.trans hle, fun _ he => hzero.2 hx.symm (le_antisymm hzero.1 (he ▸ hle))⟩
  refine ⟨hfin, ?_, fun y hy => ?_, fun y hy hv he => even_fractionField.2 ?_⟩
  · have hrange := h.inRange hpos.le (isFinite_iff.1 hfin)
    rw [abs_sub_unitsAt hfin rfl, limit_eq, abs_sign_mul, ← sub_mul] at hrange
    exact lt_of_mul_lt_mul_right hrange hone.le
  · have hle := (hnear hy).1
    rw [abs_sub_unitsAt hfin rfl] at hle
    exact le_of_mul_le_mul_right hle hone
  · exact (hnear hy).2 hv (by rw [abs_sub_unitsAt hfin rfl, he])

theorem nearestTo_zero (hx : x.IsFinite) (h0 : x.rank = 0) : x.NearestTo 0 := by
  have hv : x.value = 0 := by rw [value_eq hx, h0, unitsAt_zero, Nat.cast_zero, zero_div, mul_zero]
  refine ⟨hx, ?_, fun y _ => ?_, fun y _ hne he => ?_⟩
  · rw [hv, sub_zero, abs_zero, sub_zero]
    positivity
  · rw [hv, sub_zero, abs_zero]
    positivity
  · rw [even_fractionField, h0]
    exact Even.zero

/-- Being nearest to a number is the same for both zeros. -/
theorem NearestTo.of_zero (h : x.NearestTo q) (hy : y.IsFinite) (hx0 : x.rank = 0) (hy0 : y.rank = 0) :
    y.NearestTo q := by
  have hv : x.value = y.value := (value_eq_iff h.finite hy).2 (Or.inr ⟨hx0, hy0⟩)
  refine ⟨hy, hv ▸ h.inRange, hv ▸ h.nearest, fun _ _ _ _ => ?_⟩
  rw [even_fractionField, hy0]
  exact Even.zero

/-- **Doubles nearest to one number have one value.** -/
theorem NearestTo.unique (hx : x.NearestTo q) (hy : y.NearestTo q) : x.value = y.value := by
  rw [value_eq_iff hx.finite hy.finite]
  -- a zero may be taken with either sign
  have hzero : ∀ {x y : Double}, x.NearestTo q → y.NearestTo q → y.rank = 0 → x.rank = 0 := by
    intro x y hx hy hy0
    obtain ⟨z, hz, hz0, hsign⟩ := exists_side x (k := 0) (by decide)
    have hround := (hy.of_zero hz hy0 hz0).roundsTo
    rw [hsign, hz0] at hround
    exact hx.roundsTo.unique hround
  by_cases hx0 : x.rank = 0
  · exact Or.inr ⟨hx0, hzero hy hx hx0⟩
  have hy0 : y.rank ≠ 0 := fun h => hx0 (hzero hx hy h)
  have hposx := hx.roundsTo.pos hx0
  have hposy := hy.roundsTo.pos hy0
  have hsign : x.sign = y.sign := by
    by_contra hne
    rw [sign_eq_neg hne] at hposy
    linarith
  refine Or.inl (ext_rank (sign_eq_iff.1 hsign) (hx.roundsTo.unique ?_))
  rw [hsign]
  exact hy.roundsTo

end Double

/-! ## Reading decimals -/

namespace Decimal

/-- The number that a decimal stands for. -/
def value (d : Decimal) : ℚ := d.coefficient * 10 ^ d.exponent

/-- A power of ten as a quotient of whole numbers, one of which is one. -/
theorem ten_zpow (e : ℤ) : (10 : ℚ) ^ e = tenTo e.toNat / tenTo (-e).toNat := by
  have hexp : e = (e.toNat : ℤ) - ((-e).toNat : ℤ) := by omega
  rw [tenTo_eq, tenTo_eq, Nat.cast_pow, Nat.cast_pow, Nat.cast_ofNat, ← zpow_natCast, ← zpow_natCast,
    ← zpow_sub₀ (by norm_num), ← hexp]

/-- Reading a decimal rounds it to the nearest double. -/
theorem read_eq_finite_iff {d : Decimal} {k : ℕ} (hk : k < Double.top) :
    d.read = .finite (Double.unitsAt k) ↔ Double.RoundsTo (d.value * Double.one) k := by
  have hden : 0 < tenTo (-d.exponent).toNat := by rw [tenTo_eq]; positivity
  rw [read, Double.round_eq_finite_iff hden hk, value, ten_zpow, Nat.cast_mul, Nat.cast_mul, mul_div_assoc',
    div_mul_eq_mul_div]

end Decimal

/-- **The decimals that a double is nearest to are those that read as its magnitude**, with its sign. -/
theorem Double.nearestTo_value_iff {x : Double} (hx : x.IsFinite) (hx0 : x.rank ≠ 0) (d : Decimal) :
    x.NearestTo (x.sign * d.value) ↔ d.read = x.shape := by
  rw [nearestTo_iff hx0, hx.shape_eq, Decimal.read_eq_finite_iff (isFinite_iff.1 hx), ← mul_assoc x.sign, sign_mul_self,
    one_mul, and_iff_right hx]

end ScriptTree
