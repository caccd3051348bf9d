import Mathlib
import ScriptTree.Proofs.NumberNames

/-!
# Names of integral numbers

The search for few digits may stop at a decimal shorter than the integer that it is to name. Where it does, the decimal
is still an integer: the digits down to the ones are exact, so the search stops there at the latest
(`Decimal.brief_exponent_nonneg`). And it is the same integer up to `2 ^ 53`, since all integers up to there are doubles
and no other one rounds to them (`Double.RoundsTo.units_eq`).

Conversely a double that is not integral is less than `2 ^ 53`, so that its decimal cannot be an integer. The layout
then tells both apart by a point or an exponent, as long as the whole part is written out (`Decimal.plain_text_iff`).
-/

namespace ScriptTree

/-! ## Numerals of integers -/

namespace Numeral

variable {c : ℕ}

theorem toString_eq_sign_append (z : ℤ) : toString z = (if z < 0 then "-" else "") ++ toString z.natAbs := by
  cases z with
  | ofNat n =>
    have hnot : ¬ Int.ofNat n < 0 := Int.not_lt.2 (Int.natCast_nonneg n)
    rw [if_neg hnot, String.empty_append]
    rfl
  | negSucc n =>
    rw [if_pos (Int.negSucc_lt_zero n)]
    rfl

/-- Zeros at the end multiply by a power of ten. -/
theorem toList_ofNat_mul_pow (hc : 0 < c) (j : ℕ) :
    (ofNat (c * 10 ^ j)).toList = (ofNat c).toList ++ List.replicate j '0' := by
  induction j with
  | zero => simp
  | succ j ih =>
    have hpos : 0 < c * 10 ^ j := by positivity
    have hlarge : ¬ c * 10 ^ j * 10 < 10 := by omega
    rw [pow_succ, ← mul_assoc, toList_ofNat, digits, if_neg hlarge, Nat.mul_div_cancel _ (by omega), Nat.mul_mod_left,
      List.map_append, ← toList_ofNat, ih, List.append_assoc, List.replicate_succ']
    rfl

/-- Written with neither a point nor an exponent. -/
def Plain (s : String) : Prop := '.' ∉ s.toList ∧ 'e' ∉ s.toList

instance (s : String) : Decidable (Plain s) := inferInstanceAs (Decidable (_ ∧ _))

theorem plain_minus_append (s : String) : Plain ("-" ++ s) ↔ Plain s := by simp [Plain]

end Numeral

namespace Decimal

open Numeral

variable {d : Decimal}

/-- The integer that a decimal without fraction stands for. -/
def whole (d : Decimal) : ℕ := d.coefficient * 10 ^ d.exponent.toNat

theorem value_eq_whole (he : 0 ≤ d.exponent) : d.value = d.whole := by
  obtain ⟨j, hj⟩ := Int.eq_ofNat_of_zero_le he
  rw [value, whole, hj, Int.toNat_natCast, zpow_natCast]
  push_cast
  rfl

theorem digitCount_whole (hc : 0 < d.coefficient) :
    digitCount d.whole = digitCount d.coefficient + d.exponent.toNat := by
  rw [← length_ofNat, ← length_ofNat, whole, toList_ofNat_mul_pow hc, List.length_append, List.length_replicate]

/-- The layouts other than the first one have a point or an exponent. -/
theorem plain_layout_iff {ds : List Char} (hds : ∀ c ∈ ds, c.isDigit = true) (point : ℤ) :
    Plain (String.ofList (layout ds point)) ↔ ds.length ≤ point ∧ point ≤ widest := by
  simp only [Plain, String.toList_ofList, layout]
  by_cases hwhole : ds.length ≤ point ∧ point ≤ widest
  · rw [if_pos hwhole]
    have hdigit : ∀ c ∈ ds ++ zeros (point - ds.length), c.isDigit = true := by
      intro c hc
      rcases List.mem_append.1 hc with hc | hc
      · exact hds c hc
      · rw [List.eq_of_mem_replicate hc]
        decide
    exact iff_of_true ⟨fun h => absurd (hdigit _ h) (by decide), fun h => absurd (hdigit _ h) (by decide)⟩ hwhole
  rw [if_neg hwhole]
  refine iff_of_false (fun h => ?_) hwhole
  by_cases hmiddle : 0 < point ∧ point ≤ widest
  · rw [if_pos hmiddle] at h
    exact h.1 (by simp)
  rw [if_neg hmiddle] at h
  by_cases hsmall : -deepest < point ∧ point ≤ 0
  · rw [if_pos hsmall] at h
    exact h.1 (by simp)
  · rw [if_neg hsmall] at h
    exact h.2 (by simp)

/-- The first layout is for integers of at most 21 digits. -/
theorem layout_whole_iff (hc : 0 < d.coefficient) :
    ((ofNat d.coefficient).toList.length : ℤ) ≤ (ofNat d.coefficient).toList.length + d.exponent ∧
      (ofNat d.coefficient).toList.length + d.exponent ≤ widest ↔ 0 ≤ d.exponent ∧ d.whole < 10 ^ 21 := by
  rw [← digitCount_le_iff (by norm_num), digitCount_whole hc, length_ofNat, widest]
  omega

/-- **A decimal is written with neither a point nor an exponent if it is an integer of at most 21 digits.** -/
theorem plain_text_iff (hc : 0 < d.coefficient) : Plain d.text ↔ 0 ≤ d.exponent ∧ d.whole < 10 ^ 21 := by
  rw [text, plain_layout_iff (isDigit_ofNat _), layout_whole_iff hc]

theorem text_eq_toString (hc : 0 < d.coefficient) (he : 0 ≤ d.exponent) (hlt : d.whole < 10 ^ 21) :
    d.text = toString d.whole := by
  have hpad : ((ofNat d.coefficient).toList.length + d.exponent - (ofNat d.coefficient).toList.length : ℤ).toNat =
      d.exponent.toNat := by omega
  rw [text, layout, if_pos ((layout_whole_iff hc).2 ⟨he, hlt⟩), zeros, hpad, ← toList_ofNat_mul_pow hc,
    String.ofList_toList, ← ofNat_eq_toString, whole]

end Decimal

/-! ## Integers among the doubles -/

namespace Double

variable {k l m n : ℕ} {q : ℚ}

/-- Significands of at most 53 bits are doubles at every exponent. -/
theorem exists_unitsAt (hm : m ≤ 2 ^ 53) (e : ℕ) : ∃ k, unitsAt k = m * 2 ^ e := by
  induction e generalizing m with
  | zero => exact ⟨0 * 2 ^ 52 + m, unitsAt_eq hm (Or.inl rfl)⟩
  | succ e ih =>
    rcases Nat.lt_or_ge m (2 ^ 52) with hlt | hge
    · obtain ⟨k, hk⟩ := ih (m := m * 2) (by omega)
      exact ⟨k, by rw [hk, pow_succ]; ring⟩
    · exact ⟨_, unitsAt_eq hm (Or.inr hge)⟩

/-- The integers up to `2 ^ 53` are doubles. -/
theorem exists_unitsAt_natural (hn : n ≤ 2 ^ 53) : ∃ k, unitsAt k = n * one := by
  obtain ⟨k, hk⟩ := exists_unitsAt hn 1074
  exact ⟨k, by rw [hk, one, twoTo_eq]⟩

theorem exists_unitsAt_widest : ∃ k, unitsAt k = 10 ^ 21 * one := by
  have hten : 10 ^ 21 = 5 ^ 21 * 2 ^ 21 := by norm_num
  obtain ⟨k, hk⟩ := exists_unitsAt (m := 5 ^ 21) (by norm_num) (21 + 1074)
  exact ⟨k, by rw [hk, one, twoTo_eq, hten, mul_assoc, ← pow_add]⟩

theorem roundsTo_unitsAt (k : ℕ) : RoundsTo (unitsAt k) k :=
  (RoundsTo.of_between le_rfl (cast_unitsAt_lt (Nat.lt_succ_self k))).1 (Or.inl (unitsAt_lt_halfway k))

/-- What rounds to a rank is less than the next one. -/
theorem RoundsTo.lt_unitsAt (h : RoundsTo q k) (hkl : unitsAt k < unitsAt l) : q < unitsAt l := by
  have hle : (unitsAt (k + 1) : ℚ) ≤ unitsAt l := by
    exact_mod_cast unitsAt_strictMono.monotone (Nat.succ_le_of_lt (unitsAt_strictMono.lt_iff_lt.1 hkl))
  exact (h.le_halfway.trans_lt (halfway_lt_unitsAt k)).trans_le hle

/-- From `2 ^ 53` on all doubles are integral. -/
theorem one_dvd_unitsAt (h : 2 ^ 53 * one ≤ unitsAt k) : one ∣ unitsAt k := by
  obtain ⟨e, m, rfl, hm, he, -⟩ := exists_fields k
  rw [unitsAt_eq hm.le he] at h ⊢
  rw [one, twoTo_eq] at h ⊢
  generalize 1074 = b at h ⊢
  refine Dvd.dvd.mul_left (pow_dvd_pow 2 (not_lt.1 fun hexp => h.not_gt ?_)) m
  exact Nat.mul_lt_mul_of_lt_of_le hm (Nat.pow_le_pow_right (by omega) hexp.le) (Nat.two_pow_pos _)

/-- **An integer that rounds to a double less than `2 ^ 53` is that double.** -/
theorem RoundsTo.units_eq (h : RoundsTo (n * one) k) (hk : unitsAt k < 2 ^ 53 * one) : unitsAt k = n * one := by
  -- all integers up to `2 ^ 53` are doubles, so none of them rounds to another one
  have hn : n < 2 ^ 53 := by
    obtain ⟨l, hl⟩ := exists_unitsAt_natural (le_refl (2 ^ 53))
    have hlt := h.lt_unitsAt (l := l) (hl ▸ hk)
    rw [hl] at hlt
    exact Nat.lt_of_mul_lt_mul_right (a := one) (by exact_mod_cast hlt)
  obtain ⟨j, hj⟩ := exists_unitsAt_natural hn.le
  have hround := roundsTo_unitsAt j
  rw [hj, Nat.cast_mul] at hround
  rw [h.unique hround, hj]

end Double

/-! ## The decimals of integral doubles -/

namespace Decimal

open Double (unitsAt unitsAt_pos top one RoundsTo)

variable {l : ℕ}

/-- **The search does not go on below the ones**: the digits down to there are exact. -/
theorem brief_exponent_nonneg (hl : l + 1 < top) (hint : one ∣ unitsAt (l + 1)) :
    0 ≤ (brief (unitsAt (l + 1))).trim.exponent := by
  obtain ⟨n, hn⟩ := hint
  have hpos := unitsAt_pos (Nat.succ_pos l)
  have hunits : (unitsAt (l + 1) : ℚ) = n * step 0 := by
    rw [hn, step, zpow_zero, one_mul, Nat.cast_mul, mul_comm]
  have hmag : 0 ≤ magnitude (unitsAt (l + 1)) := by
    have hone : (1 : ℚ) ≤ n := by
      exact_mod_cast Nat.pos_of_ne_zero fun h0 => hpos.ne' (by rw [hn, h0, mul_zero])
    have hge : step 0 ≤ unitsAt (l + 1) := hunits ▸ le_mul_of_one_le_left (step_pos 0).le hone
    exact Int.lt_add_one_iff.1 (step_mono.reflect_lt (hge.trans_lt (magnitude_bounds hpos).2))
  obtain ⟨j, hj⟩ := Int.eq_ofNat_of_zero_le hmag
  -- at the ones the rounded decimal is the integer itself
  have hexact : (rounded (unitsAt (l + 1)) j).value * one = unitsAt (l + 1) := by
    have hle := abs_rounded_le_grid (unitsAt (l + 1)) j n
    rw [hj, sub_self, ← hunits, sub_self, abs_zero] at hle
    exact sub_eq_zero.1 (abs_nonpos_iff.1 hle)
  have hreads : (rounded (unitsAt (l + 1)) j).ReadsAs (l + 1) := by
    rw [ReadsAs, hexact]
    exact Double.roundsTo_unitsAt _
  obtain ⟨p, -, hbrief, -, hfirst⟩ := exists_brief hl
  obtain ⟨i, -, htrim⟩ := (brief (unitsAt (l + 1))).exists_trim
  have hexp : (brief (unitsAt (l + 1))).exponent = j - p := by rw [hbrief, rounded, hj]
  have hp := hfirst j hreads
  omega

theorem brief_trim_coefficient_pos (l : ℕ) : 0 < (brief (unitsAt (l + 1))).trim.coefficient := by
  have hpos : 0 < unitsAt (l + 1) := unitsAt_pos (Nat.succ_pos l)
  have hmod := trim_coefficient_mod (brief_coefficient_ne_zero _ hpos)
  omega

theorem brief_trim_readsAs (hl : l + 1 < top) : (brief (unitsAt (l + 1))).trim.ReadsAs (l + 1) := by
  rw [ReadsAs, trim_value]
  exact brief_readsAs hl

/-- A decimal without fraction rounds to the double as an integer. -/
theorem roundsTo_whole (hl : l + 1 < top) (he : 0 ≤ (brief (unitsAt (l + 1))).trim.exponent) :
    RoundsTo ((brief (unitsAt (l + 1))).trim.whole * one) (l + 1) := by
  rw [← value_eq_whole he]
  exact brief_trim_readsAs hl

/-- `2 ^ 53 + 1` rounds to `2 ^ 53` too, but is not found. -/
theorem brief_twoTo53 : (brief (twoTo 53 * one)).trim = ⟨9007199254740992, 0⟩ := by decide +kernel

/-- **Up to `2 ^ 53` the decimal of an integral double is exact.** -/
theorem whole_brief (hl : l + 1 < top) (hint : one ∣ unitsAt (l + 1)) (hle : unitsAt (l + 1) ≤ 2 ^ 53 * one) :
    (brief (unitsAt (l + 1))).trim.whole * one = unitsAt (l + 1) := by
  rcases Nat.lt_or_eq_of_le hle with hlt | heq
  · exact ((roundsTo_whole hl (brief_exponent_nonneg hl hint)).units_eq hlt).symm
  · rw [heq, ← twoTo_eq, brief_twoTo53, twoTo_eq]
    exact congrArg (· * one) (by norm_num [whole])

/-- **A double whose decimal is an integer is integral.** -/
theorem one_dvd_of_brief (hl : l + 1 < top) (he : 0 ≤ (brief (unitsAt (l + 1))).trim.exponent) :
    one ∣ unitsAt (l + 1) := by
  rcases Nat.lt_or_ge (unitsAt (l + 1)) (2 ^ 53 * one) with hlt | hge
  · exact ⟨_, ((roundsTo_whole hl he).units_eq hlt).trans (mul_comm _ _)⟩
  · exact Double.one_dvd_unitsAt hge

/-- Below `10 ^ 21` the decimal has at most 21 digits before the point. -/
theorem whole_brief_lt (hl : l + 1 < top) (he : 0 ≤ (brief (unitsAt (l + 1))).trim.exponent)
    (hlt : unitsAt (l + 1) < 10 ^ 21 * one) : (brief (unitsAt (l + 1))).trim.whole < 10 ^ 21 := by
  obtain ⟨k, hk⟩ := Double.exists_unitsAt_widest
  have hround := (roundsTo_whole hl he).lt_unitsAt (l := k) (hk ▸ hlt)
  rw [hk] at hround
  exact Nat.lt_of_mul_lt_mul_right (a := one) (by exact_mod_cast hround)

end Decimal

/-! ## Names -/

namespace Double

variable {x : Double} {l : ℕ}

theorem abs_value (hx : x.IsFinite) : |x.value| = unitsAt x.rank / one := by
  rw [value_eq hx, abs_mul, abs_sign, one_mul, abs_of_nonneg (div_nonneg (Nat.cast_nonneg _) one_pos.le)]

theorem negative_iff_value_neg (hx : x.IsFinite) (h0 : x.rank ≠ 0) : x.negative = true ↔ x.value < 0 := by
  have hpos : 0 < |x.value| := abs_pos.2 ((value_ne_zero_iff hx).2 h0)
  rw [abs_value hx] at hpos
  rw [value_eq hx, sign]
  split <;> rename_i hneg
  · exact iff_of_true hneg (by linarith)
  · exact iff_of_false hneg (by linarith)

theorem unitsAt_eq_natAbs {z : ℤ} (hx : x.IsFinite) (hz : x.value = z) : unitsAt x.rank = z.natAbs * one := by
  have habs := abs_value hx
  rw [hz, eq_div_iff one_pos.ne', ← Int.cast_abs, Int.abs_eq_natAbs, Int.cast_natCast] at habs
  exact_mod_cast habs.symm

/-- A double is integral if its magnitude is. -/
theorem integral_iff (hx : x.IsFinite) : (∃ z : ℤ, x.value = z) ↔ one ∣ unitsAt x.rank := by
  constructor
  · rintro ⟨z, hz⟩
    exact ⟨z.natAbs, (unitsAt_eq_natAbs hx hz).trans (mul_comm _ _)⟩
  · rintro ⟨n, hn⟩
    have hvalue : x.value = x.sign * n := by
      rw [value_eq hx, hn, Nat.cast_mul, mul_div_cancel_left₀ _ one_pos.ne']
    rcases x.sign_cases with hsign | hsign
    · exact ⟨n, by rw [hvalue, hsign, one_mul, Int.cast_natCast]⟩
    · exact ⟨-n, by rw [hvalue, hsign, neg_one_mul, Int.cast_neg, Int.cast_natCast]⟩

theorem plain_text_iff (hx : x.IsFinite) (hl : x.rank = l + 1) :
    Numeral.Plain x.text ↔ Numeral.Plain (Decimal.brief (unitsAt (l + 1))).trim.text := by
  rw [text_of_rank_ne_zero hx (by omega), hl]
  split
  · exact Numeral.plain_minus_append _
  · rw [String.empty_append]

/-- **Among the numbers less than `10 ^ 21` the integral ones are those with a plain name.** -/
theorem plain_text_iff_integral (hx : x.IsFinite) (hlt : |x.value| < 10 ^ 21) :
    Numeral.Plain x.text ↔ ∃ z : ℤ, x.value = z := by
  rw [integral_iff hx]
  by_cases h0 : x.rank = 0
  · rw [text_of_rank_eq_zero hx h0, h0, unitsAt_zero]
    exact iff_of_true (by decide) (dvd_zero _)
  obtain ⟨l, hl⟩ : ∃ l, x.rank = l + 1 := Nat.exists_eq_succ_of_ne_zero h0
  have htop : l + 1 < top := hl ▸ isFinite_iff.1 hx
  rw [plain_text_iff hx hl, Decimal.plain_text_iff (Decimal.brief_trim_coefficient_pos l), hl]
  constructor
  · exact fun h => Decimal.one_dvd_of_brief htop h.1
  · intro hint
    have he := Decimal.brief_exponent_nonneg htop hint
    rw [abs_value hx, div_lt_iff₀ one_pos, hl] at hlt
    exact ⟨he, Decimal.whole_brief_lt htop he (by exact_mod_cast hlt)⟩

/-- **Integers up to `2 ^ 53` are named by their numerals.** -/
theorem text_eq_toString {z : ℤ} (hx : x.IsFinite) (hz : x.value = z) (hle : |z| ≤ 2 ^ 53) : x.text = toString z := by
  have hunits := unitsAt_eq_natAbs hx hz
  have hone : 0 < one := by exact_mod_cast one_pos
  by_cases h0 : x.rank = 0
  · rw [h0, unitsAt_zero, eq_comm, Nat.mul_eq_zero, or_iff_left hone.ne', Int.natAbs_eq_zero] at hunits
    rw [text_of_rank_eq_zero hx h0, hunits]
    rfl
  obtain ⟨l, hl⟩ : ∃ l, x.rank = l + 1 := Nat.exists_eq_succ_of_ne_zero h0
  have htop : l + 1 < top := hl ▸ isFinite_iff.1 hx
  rw [hl] at hunits
  have hint : one ∣ unitsAt (l + 1) := ⟨_, hunits.trans (mul_comm _ _)⟩
  have hbound : z.natAbs ≤ 2 ^ 53 := by
    rw [Int.abs_eq_natAbs] at hle
    exact_mod_cast hle
  have hwhole : (Decimal.brief (unitsAt (l + 1))).trim.whole = z.natAbs := by
    have hexact := Decimal.whole_brief htop hint (hunits.le.trans (Nat.mul_le_mul_right one hbound))
    exact Nat.eq_of_mul_eq_mul_right hone (hexact.trans hunits)
  have htext : (Decimal.brief (unitsAt (l + 1))).trim.text = toString z.natAbs := by
    rw [← hwhole]
    exact Decimal.text_eq_toString (Decimal.brief_trim_coefficient_pos l) (Decimal.brief_exponent_nonneg htop hint)
      (by rw [hwhole]; exact hbound.trans_lt (by norm_num))
  rw [text_of_rank_ne_zero hx h0, hl, htext, Numeral.toString_eq_sign_append]
  simp only [negative_iff_value_neg hx h0, hz, Int.cast_lt_zero]

end Double

/-- **Integral numbers are named as integers.** Up to `2 ^ 53` the name is the numeral of the integer, and less than
`10 ^ 21` just the integral numbers have a name with neither a point nor an exponent. -/
theorem integral_numbers_named_as_integers :
    (∀ (x : Double) (z : ℤ), x.IsFinite → x.value = z → |z| ≤ 2 ^ 53 → (Literal.number x).text = toString z) ∧
      ∀ x : Double, x.IsFinite → |x.value| < 10 ^ 21 →
        (('.' ∉ (Literal.number x).text.toList ∧ 'e' ∉ (Literal.number x).text.toList) ↔ ∃ z : ℤ, x.value = z) :=
  ⟨fun _ _ hx hz hle => Double.text_eq_toString hx hz hle, fun _ hx hlt => Double.plain_text_iff_integral hx hlt⟩

/-- `-2 ^ 53` is named in full. The name of `10 ^ 20` shows that it is integral, and that of `2 ^ 52 - 1 / 2` that it is
not. -/
theorem integral_numbers_named_as_integers_bounds :
    let least : Double := ⟨0xc340000000000000⟩
    let large : Double := ⟨0x4415af1d78b58c40⟩
    let half : Double := ⟨0x432fffffffffffff⟩
    least.IsFinite ∧ least.value = (-2 ^ 53 : ℤ) ∧ (Literal.number least).text = "-9007199254740992" ∧
      large.IsFinite ∧ |large.value| < 10 ^ 21 ∧ (Literal.number large).text = "100000000000000000000" ∧
      (∃ z : ℤ, large.value = z) ∧
      half.IsFinite ∧ |half.value| < 10 ^ 21 ∧ (Literal.number half).text = "4503599627370495.5" ∧
      ¬ ∃ z : ℤ, half.value = z := by
  intro least large half
  obtain ⟨hnames, hplain⟩ := integral_numbers_named_as_integers
  have hleast : least.IsFinite := Double.isFinite_iff.2 (by decide +kernel)
  have hlarge : large.IsFinite := Double.isFinite_iff.2 (by decide +kernel)
  have hhalf : half.IsFinite := Double.isFinite_iff.2 (by decide +kernel)
  have hvalue : least.value = (-2 ^ 53 : ℤ) := by
    have hsign : least.sign = -1 := if_pos (by decide +kernel)
    have hunits : Double.unitsAt least.rank = 2 ^ 53 * Double.one := by decide +kernel
    rw [Double.value_eq hleast, hsign, hunits, Nat.cast_mul, mul_div_cancel_right₀ _ Double.one_pos.ne']
    norm_num
  have hbound : ∀ {x : Double}, x.IsFinite → Double.unitsAt x.rank < 10 ^ 21 * Double.one → |x.value| < 10 ^ 21 := by
    intro x hx hlt
    rw [Double.abs_value hx, div_lt_iff₀ Double.one_pos]
    exact_mod_cast hlt
  have hlt : |large.value| < 10 ^ 21 := hbound hlarge (by decide +kernel)
  have hlt' : |half.value| < 10 ^ 21 := hbound hhalf (by decide +kernel)
  have htext : (Literal.number large).text = "100000000000000000000" := by decide +kernel
  have htext' : (Literal.number half).text = "4503599627370495.5" := by decide +kernel
  refine ⟨hleast, hvalue, (hnames least _ hleast hvalue (by norm_num)).trans (by decide +kernel), hlarge, hlt, htext,
    (hplain large hlarge hlt).1 ?_, hhalf, hlt', htext', fun h => ?_⟩
  · rw [htext]
    decide
  · have hpoint := ((hplain half hhalf hlt').2 h).1
    rw [htext'] at hpoint
    exact hpoint (by decide)

end ScriptTree
