import Mathlib
import ScriptTree.Proofs.Rounding

/-!
# The digits that a double needs

Seventeen digits tell any two doubles apart (`rounded_sixteen_reads`), so the search of `Decimal.brief` always ends
with a decimal that reads back (`exists_brief`). The search tries, for each number of digits, only the decimal nearest
to the double. No decimal of as many digits is nearer (`abs_rounded_le_decimal`), so where the gaps on both sides of the
double are equal and some decimal reads back, the nearest one does too (`rounded_reads`). At a power of two the gap
below is half as wide, and one more digit may be needed (`rounded_reads_or`). The digits that are found are counted in
`digitCount_brief_le`.
-/

namespace ScriptTree

open Double (RoundsTo unitsAt unitsAt_pos gapAt top one)

namespace Decimal

variable {units n m p : ℕ} {d : Decimal}

/-! ## Counting digits -/

theorem digitCount_pos (n : ℕ) : 0 < digitCount n := by
  rw [digitCount]
  split
  · exact one_pos
  · exact Nat.succ_pos _

theorem digitCount_le_iff (hm : 0 < m) : digitCount n ≤ m ↔ n < 10 ^ m := by
  fun_induction digitCount n generalizing m with
  | case1 n hn =>
    have hpow : 10 ^ 1 ≤ 10 ^ m := Nat.pow_le_pow_right (by omega) hm
    exact iff_of_true hm (by omega)
  | case2 n hn ih =>
    obtain ⟨m, rfl⟩ : ∃ j, m = j + 1 := ⟨m - 1, by omega⟩
    rcases Nat.eq_zero_or_pos m with rfl | hm
    · have := digitCount_pos (n / 10)
      exact iff_of_false (by omega) (by omega)
    · rw [Nat.add_le_add_iff_right, ih hm, Nat.div_lt_iff_lt_mul (by omega), pow_succ]

theorem lt_pow_digitCount (n : ℕ) : n < 10 ^ digitCount n := (digitCount_le_iff (digitCount_pos n)).1 le_rfl

/-- The first digit is not zero. -/
theorem pow_le_of_digitCount_eq (hn : 0 < n) (hm : digitCount n = m + 1) : 10 ^ m ≤ n := by
  rcases Nat.eq_zero_or_pos m with rfl | hpos
  · exact hn
  · have hnot : ¬ digitCount n ≤ m := by omega
    rwa [digitCount_le_iff hpos, not_lt] at hnot

/-! ## Trailing zeros -/

/-- Trimming takes a power of ten out of the coefficient. -/
theorem exists_trim (d : Decimal) :
    ∃ j : ℕ, d.coefficient = d.trim.coefficient * 10 ^ j ∧ d.trim.exponent = d.exponent + j := by
  fun_induction trim d with
  | case1 d h ih =>
    obtain ⟨j, hc, he⟩ := ih
    refine ⟨j + 1, ?_, ?_⟩
    · rw [pow_succ, ← mul_assoc, ← hc]
      dsimp only
      omega
    · rw [he]
      push_cast
      ring
  | case2 d h => exact ⟨0, by simp, by simp⟩

theorem trim_coefficient_mod (hd : d.coefficient ≠ 0) : d.trim.coefficient % 10 ≠ 0 := by
  fun_induction trim d with
  | case1 d h ih => exact ih (by dsimp only; omega)
  | case2 d h => exact fun hmod => h ⟨hd, hmod⟩

theorem trim_value (d : Decimal) : d.trim.value = d.value := by
  obtain ⟨j, hc, he⟩ := d.exists_trim
  rw [value, value, he, hc, zpow_add₀ (by norm_num), zpow_natCast]
  push_cast
  ring

/-- A coefficient that is rounded up to a power of ten loses all its zeros. -/
theorem trim_coefficient_lt (hd : d.coefficient ≠ 0) (hm : 0 < m) (hle : d.coefficient ≤ 10 ^ m) :
    d.trim.coefficient < 10 ^ m := by
  obtain ⟨j, hc, -⟩ := d.exists_trim
  have htrim : d.trim.coefficient ≤ 10 ^ m := by
    refine le_trans ?_ hle
    rw [hc]
    exact Nat.le_mul_of_pos_right _ (by positivity)
  refine lt_of_le_of_ne htrim fun he => trim_coefficient_mod hd ?_
  obtain ⟨m, rfl⟩ : ∃ j, m = j + 1 := ⟨m - 1, by omega⟩
  rw [he, pow_succ]
  omega

/-! ## Grids of decimals -/

/-- The units in a power of ten. -/
def step (e : ℤ) : ℚ := 10 ^ e * one

theorem step_pos (e : ℤ) : 0 < step e := mul_pos (by positivity) Double.one_pos

theorem step_mono : Monotone step := fun _ _ h =>
  mul_le_mul_of_nonneg_right (zpow_le_zpow_right₀ (by norm_num) h) Double.one_pos.le

theorem step_add (e : ℤ) (j : ℕ) : step (e + j) = 10 ^ j * step e := by
  rw [step, step, zpow_add₀ (by norm_num), zpow_natCast]
  ring

theorem step_sub (e : ℤ) (j : ℕ) : step e = 10 ^ j * step (e - j) := by rw [← step_add, sub_add_cancel]

theorem value_mul_one (d : Decimal) : d.value * one = d.coefficient * step d.exponent := mul_assoc _ _ _

/-- The units in one, as a multiple of the least step. -/
theorem one_eq_step : (one : ℚ) = step (-324) * tenTo 324 := by
  have h := step_add (-324) 324
  rw [show (-324 + (324 : ℕ) : ℤ) = 0 by norm_num, step, zpow_zero, one_mul] at h
  rw [h, tenTo_eq, Nat.cast_pow, Nat.cast_ofNat, mul_comm]

/-- The magnitude is the power of ten of the leading digit. -/
theorem magnitude_bounds (hunits : 0 < units) :
    step (magnitude units) ≤ units ∧ units < step (magnitude units + 1) := by
  have hone : 0 < one := by exact_mod_cast Double.one_pos
  have hscale : one ≤ tenTo 324 := by decide +kernel
  have hten : (0 : ℚ) < tenTo 324 := by exact_mod_cast hone.trans_le hscale
  rw [magnitude]
  generalize hN : units * tenTo 324 / one = N
  have hpos : 0 < N := by
    rw [← hN, Nat.div_pos_iff]
    exact ⟨hone, hscale.trans (Nat.le_mul_of_pos_left _ hunits)⟩
  obtain ⟨j, hj⟩ : ∃ j, digitCount N = j + 1 := Nat.exists_eq_succ_of_ne_zero (digitCount_pos N).ne'
  have hlow : 10 ^ j * one ≤ units * tenTo 324 :=
    (Nat.mul_le_mul_right one (pow_le_of_digitCount_eq hpos hj)).trans (hN ▸ Nat.div_mul_le_self _ _)
  have hhigh : units * tenTo 324 < 10 ^ (j + 1) * one := by
    rw [← Nat.div_lt_iff_lt_mul hone, hN, ← hj]
    exact lt_pow_digitCount N
  -- both sides are divided by the power of ten that made the number whole
  rw [hj]
  constructor
  · rw [show ((j + 1 : ℕ) : ℤ) - 325 = -324 + (j : ℕ) by push_cast; ring, step_add]
    refine le_of_mul_le_mul_right ?_ hten
    rw [mul_assoc, ← one_eq_step]
    exact_mod_cast hlow
  · rw [show ((j + 1 : ℕ) : ℤ) - 325 + 1 = -324 + (j + 1 : ℕ) by push_cast; ring, step_add]
    refine lt_of_mul_lt_mul_right ?_ hten.le
    rw [mul_assoc, ← one_eq_step]
    exact_mod_cast hhigh

theorem rounds_rounded (units p : ℕ) : Rounds (units / step (magnitude units - p)) (rounded units p).coefficient := by
  unfold rounded
  dsimp only
  have hden : 0 < one * tenTo (magnitude units - p).toNat := by
    rw [one, twoTo_eq, tenTo_eq]
    positivity
  have h := rounds_roundDiv (units * tenTo (-(magnitude units - p)).toNat) hden
  rw [Nat.cast_mul, Nat.cast_mul] at h
  rw [step, ten_zpow, mul_comm, mul_div_assoc', div_div_eq_mul_div]
  exact h

theorem rounded_value_mul_one (units p : ℕ) :
    (rounded units p).value * one = (rounded units p).coefficient * step (magnitude units - p) :=
  value_mul_one _

theorem abs_grid_sub (c units : ℕ) (e : ℤ) : |c * step e - units| = |c - units / step e| * step e := by
  have hstep := step_pos e
  rw [← abs_of_pos hstep, ← abs_mul, abs_of_pos hstep, sub_mul, div_mul_cancel₀ _ hstep.ne']

/-- The rounded decimal is at most half a step away. -/
theorem abs_rounded_le_half (units p : ℕ) :
    |(rounded units p).value * one - units| ≤ step (magnitude units - p) / 2 := by
  have h := (rounds_rounded units p).dist_le
  rw [abs_sub_comm] at h
  rw [rounded_value_mul_one, abs_grid_sub]
  exact (mul_le_mul_of_nonneg_right h (step_pos _).le).trans_eq (one_div_mul_eq_div _ _)

theorem step_le_abs_sub {a b : ℕ} (e : ℤ) (h : a ≠ b) : step e ≤ |a * step e - b * step e| := by
  have hone : (1 : ℚ) ≤ |(a : ℚ) - b| := by
    exact_mod_cast Int.one_le_abs (sub_ne_zero.2 (Nat.cast_injective.ne h))
  rw [← sub_mul, abs_mul, abs_of_pos (step_pos e)]
  exact le_mul_of_one_le_left (step_pos e).le hone

/-- No other point of the grid is nearer. -/
theorem abs_rounded_le_grid (units p c : ℕ) :
    |(rounded units p).value * one - units| ≤ |c * step (magnitude units - p) - units| := by
  rw [rounded_value_mul_one, abs_grid_sub, abs_grid_sub]
  exact mul_le_mul_of_nonneg_right ((rounds_rounded units p).nearest c) (step_pos _).le

/-- A decimal of few digits is on the grid, or the grid has a point between it and the number of units. -/
theorem exists_grid (hunits : 0 < units) (hd : d.coefficient < 10 ^ (p + 1)) :
    ∃ c : ℕ, c * step (magnitude units - p) = d.value * one ∨
      d.value * one ≤ c * step (magnitude units - p) ∧ c * step (magnitude units - p) ≤ units := by
  rcases le_or_gt (magnitude units - p) d.exponent with he | he
  · obtain ⟨j, hj⟩ : ∃ j : ℕ, d.exponent = magnitude units - p + j :=
      ⟨(d.exponent - (magnitude units - p)).toNat, by omega⟩
    refine ⟨d.coefficient * 10 ^ j, Or.inl ?_⟩
    rw [value_mul_one, hj, step_add]
    push_cast
    ring
  · -- the decimal is below the power of ten of the leading digit
    have hlead : ((10 ^ p : ℕ) : ℚ) * step (magnitude units - p) = step (magnitude units) := by
      rw [Nat.cast_pow, Nat.cast_ofNat, ← step_sub]
    refine ⟨10 ^ p, Or.inr ⟨?_, ?_⟩⟩
    · have hcoef : (d.coefficient : ℚ) ≤ 10 ^ (p + 1) := by exact_mod_cast hd.le
      rw [hlead, value_mul_one]
      calc d.coefficient * step d.exponent ≤ 10 ^ (p + 1) * step d.exponent :=
            mul_le_mul_of_nonneg_right hcoef (step_pos _).le
        _ = step (d.exponent + (p + 1 : ℕ)) := (step_add _ _).symm
        _ ≤ step (magnitude units) := step_mono (by push_cast; omega)
    · rw [hlead]
      exact (magnitude_bounds hunits).1

/-- **No decimal of as many digits is nearer than the rounded one.** -/
theorem abs_rounded_le_decimal (hunits : 0 < units) (hd : d.coefficient < 10 ^ (p + 1)) :
    |(rounded units p).value * one - units| ≤ |d.value * one - units| := by
  obtain ⟨c, hc⟩ := exists_grid hunits hd
  refine (abs_rounded_le_grid units p c).trans ?_
  rcases hc with hc | ⟨hle, hle'⟩
  · rw [hc]
  · rw [abs_of_nonpos (sub_nonpos.2 hle'), abs_of_nonpos (sub_nonpos.2 (hle.trans hle'))]
    linarith

/-- The rounded decimal has the digits asked for, or is the next power of ten. -/
theorem coefficient_rounded (hunits : 0 < units) (p : ℕ) :
    (rounded units p).coefficient ≠ 0 ∧ (rounded units p).coefficient ≤ 10 ^ (p + 1) := by
  have hstep := step_pos (magnitude units - p)
  obtain ⟨hlow, hhigh⟩ := magnitude_bounds hunits
  have hnext : step (magnitude units + 1) = 10 ^ (p + 1) * step (magnitude units - p) := by
    rw [← step_add]
    congr 1
    push_cast
    ring
  rw [step_sub _ p, ← le_div_iff₀ hstep] at hlow
  rw [hnext, ← div_lt_iff₀ hstep] at hhigh
  obtain ⟨hge, hle⟩ := abs_le.1 (rounds_rounded units p).dist_le
  have hone : (1 : ℚ) ≤ 10 ^ p := one_le_pow₀ (by norm_num)
  constructor
  · intro h0
    rw [h0, Nat.cast_zero] at hle
    linarith
  · have hlt : ((rounded units p).coefficient : ℚ) < (10 ^ (p + 1) : ℕ) + 1 := by
      push_cast
      linarith
    exact Nat.lt_succ_iff.1 (by exact_mod_cast hlt)

end Decimal

/-! ## The numbers that round to a rank -/

namespace Double

variable {l : ℕ} {q r : ℚ}

theorem halfway_eq_sub (l : ℕ) : halfway l = unitsAt (l + 1) - gapAt l / 2 := by
  rw [halfway_eq, unitsAt_succ]
  push_cast
  ring

theorem gapAt_cast_le (l : ℕ) : (gapAt l : ℚ) ≤ gapAt (l + 1) := by exact_mod_cast gapAt_le_succ l

/-- The gap below a rank is not wider than the one above. -/
theorem RoundsTo.of_abs_lt (h : |q - unitsAt (l + 1)| < gapAt l / 2) : RoundsTo q (l + 1) := by
  obtain ⟨hlow, hhigh⟩ := abs_lt.1 h
  refine ⟨fun j hj => Or.inl ?_, Or.inl ?_⟩
  · obtain rfl : j = l := Nat.succ_injective hj
    rw [halfway_eq_sub]
    linarith
  · have hgap := gapAt_cast_le l
    rw [halfway_eq]
    linarith

theorem RoundsTo.abs_sub_le_gap (h : RoundsTo q (l + 1)) : |q - unitsAt (l + 1)| ≤ gapAt (l + 1) / 2 := by
  have hgap := gapAt_cast_le l
  have hbelow := h.halfway_le
  have habove := h.le_halfway
  rw [halfway_eq_sub] at hbelow
  rw [halfway_eq] at habove
  rw [abs_le]
  constructor <;> linarith

/-- What lies between a number and the rank that it rounds to rounds to the same rank. -/
theorem RoundsTo.of_between_rank (h : RoundsTo q (l + 1)) (hq : q ≤ r) (hr : r ≤ unitsAt (l + 1)) :
    RoundsTo r (l + 1) := by
  refine ⟨fun j hj => ?_, Or.inl (hr.trans_lt (unitsAt_lt_halfway _))⟩
  rcases h.below j hj with hlt | ⟨heq, heven⟩
  · exact Or.inl (hlt.trans_le hq)
  · exact (lt_or_eq_of_le (heq.le.trans hq)).imp_right fun h => ⟨h, heven⟩

/-- Between equal gaps only the distance matters. -/
theorem RoundsTo.of_abs_le (hgap : gapAt (l + 1) = gapAt l) (h : RoundsTo q (l + 1))
    (hle : |r - unitsAt (l + 1)| ≤ |q - unitsAt (l + 1)|) : RoundsTo r (l + 1) := by
  have hq := h.abs_sub_le_gap
  rw [hgap] at hq
  rcases lt_or_eq_of_le (hle.trans hq) with hlt | heq
  · exact .of_abs_lt hlt
  · -- at half a gap, on either side, the rank is even
    have hmid : |q - unitsAt (l + 1)| = gapAt l / 2 := le_antisymm hq (heq ▸ hle)
    have heven : Even (l + 1) := by
      rcases h.below l rfl with hlt | h
      · rcases h.above with hlt' | h
        · rw [halfway_eq_sub] at hlt
          rw [halfway_eq, hgap] at hlt'
          exact absurd hmid (abs_lt.2 ⟨by linarith, by linarith⟩).ne
        · exact h.2
      · exact h.2
    obtain ⟨hlow, hhigh⟩ := abs_le.1 heq.le
    refine ⟨fun j hj => ?_, ?_⟩
    · obtain rfl : j = l := Nat.succ_injective hj
      rw [halfway_eq_sub]
      exact (lt_or_eq_of_le (by linarith)).imp_right fun h => ⟨h, heven⟩
    · rw [halfway_eq, hgap]
      exact (lt_or_eq_of_le (by linarith)).imp_right fun h => ⟨h, heven⟩

end Double

/-! ## Reading back -/

namespace Decimal

variable {n p l : ℕ} {d : Decimal}

/-- The decimal rounds to the rank `k`. -/
def ReadsAs (d : Decimal) (k : ℕ) : Prop := RoundsTo (d.value * one) k

/-- **Seventeen digits are enough.** -/
theorem rounded_sixteen_reads (l : ℕ) : (rounded (unitsAt (l + 1)) 16).ReadsAs (l + 1) := by
  have hlead := (magnitude_bounds (unitsAt_pos (Nat.succ_pos l))).1
  have hunits : (unitsAt (l + 1) : ℚ) ≤ 2 ^ 53 * gapAt l := by exact_mod_cast Double.unitsAt_succ_le l
  have hgap : (0 : ℚ) < gapAt l := by exact_mod_cast Double.gapAt_pos l
  have hhalf := abs_rounded_le_half (unitsAt (l + 1)) 16
  rw [step_sub _ 16] at hlead
  refine .of_abs_lt (hhalf.trans_lt ?_)
  norm_num at hlead hunits ⊢
  linarith

/-- **Where the gaps are equal, the rounded decimal reads back if any of as many digits does.** -/
theorem rounded_reads (hgap : gapAt (l + 1) = gapAt l) (hd : d.ReadsAs (l + 1)) (hp : d.coefficient < 10 ^ (p + 1)) :
    (rounded (unitsAt (l + 1)) p).ReadsAs (l + 1) :=
  .of_abs_le hgap hd (abs_rounded_le_decimal (unitsAt_pos (Nat.succ_pos l)) hp)

/-- **One more digit is enough at a power of two.** -/
theorem rounded_reads_or (hd : d.ReadsAs (l + 1)) (hp : d.coefficient < 10 ^ (p + 1)) :
    (rounded (unitsAt (l + 1)) p).ReadsAs (l + 1) ∨ (rounded (unitsAt (l + 1)) (p + 1)).ReadsAs (l + 1) := by
  by_contra hnot
  obtain ⟨hfirst, hsecond⟩ := not_or.1 hnot
  have hpos := unitsAt_pos (Nat.succ_pos l)
  obtain ⟨c, hc⟩ := exists_grid hpos hp
  have hread : RoundsTo (c * step (magnitude (unitsAt (l + 1)) - p)) (l + 1) := by
    rcases hc with hc | ⟨hle, hle'⟩
    · rw [hc]
      exact hd
    · exact hd.of_between_rank hle hle'
  -- two points of the grid are near, so a step is not much wider than the gap
  have hfar : step (magnitude (unitsAt (l + 1)) - p) ≤ gapAt (l + 1) := by
    have hne : c ≠ (rounded (unitsAt (l + 1)) p).coefficient := by
      intro hc
      rw [hc, ← rounded_value_mul_one] at hread
      exact hfirst hread
    have hnear := abs_rounded_le_grid (unitsAt (l + 1)) p c
    have hgap := hread.abs_sub_le_gap
    have hapart := step_le_abs_sub (magnitude (unitsAt (l + 1)) - p) hne
    have htri := abs_sub_le (c * step (magnitude (unitsAt (l + 1)) - p)) (unitsAt (l + 1))
      ((rounded (unitsAt (l + 1)) p).coefficient * step (magnitude (unitsAt (l + 1)) - p))
    rw [abs_sub_comm (unitsAt (l + 1) : ℚ), ← rounded_value_mul_one] at htri
    rw [← rounded_value_mul_one] at hapart
    linarith
  have hwide : (gapAt (l + 1) : ℚ) ≤ 2 * gapAt l := by exact_mod_cast Double.gapAt_succ_le l
  have hgap : (0 : ℚ) < gapAt l := by exact_mod_cast Double.gapAt_pos l
  have hhalf := abs_rounded_le_half (unitsAt (l + 1)) (p + 1)
  rw [step_sub _ 1, sub_sub, ← Nat.cast_add] at hfar
  exact hsecond (.of_abs_lt (by linarith))

/-- **The search ends with the first rounded decimal that reads back.** -/
theorem exists_brief (hl : l + 1 < top) :
    ∃ p ≤ 16, brief (unitsAt (l + 1)) = rounded (unitsAt (l + 1)) p ∧ (rounded (unitsAt (l + 1)) p).ReadsAs (l + 1) ∧
      ∀ p', (rounded (unitsAt (l + 1)) p').ReadsAs (l + 1) → p ≤ p' := by
  have hiff : ∀ d : Decimal, d.read = .finite (unitsAt (l + 1)) ↔ d.ReadsAs (l + 1) := fun d => read_eq_finite_iff hl
  have hskip : ∀ {p}, (!decide ((rounded (unitsAt (l + 1)) p).read = .finite (unitsAt (l + 1)))) = true →
      ¬ (rounded (unitsAt (l + 1)) p).ReadsAs (l + 1) := by
    intro p h
    rwa [Bool.not_eq_true', decide_eq_false_iff_not, hiff] at h
  rw [brief]
  cases hfind : (List.range 16).find? fun p => (rounded (unitsAt (l + 1)) p).read = .finite (unitsAt (l + 1)) with
  | none =>
    rw [List.find?_range_eq_none] at hfind
    exact ⟨16, le_rfl, rfl, rounded_sixteen_reads l, fun p' hp' => not_lt.1 fun hlt => hskip (hfind p' hlt) hp'⟩
  | some p =>
    rw [List.find?_range_eq_some] at hfind
    obtain ⟨hread, hp, hfirst⟩ := hfind
    rw [decide_eq_true_eq, hiff] at hread
    exact ⟨p, (List.mem_range.1 hp).le, rfl, hread, fun p' hp' => not_lt.1 fun hlt => hskip (hfirst p' hlt) hp'⟩

theorem brief_readsAs (hl : l + 1 < top) : (brief (unitsAt (l + 1))).ReadsAs (l + 1) := by
  obtain ⟨p, -, hbrief, hread, -⟩ := exists_brief hl
  rw [hbrief]
  exact hread

theorem brief_coefficient_ne_zero (units : ℕ) (hunits : 0 < units) : (brief units).coefficient ≠ 0 :=
  (coefficient_rounded hunits _).1

/-- The digits are at most those of any rounded decimal that reads back. -/
theorem brief_trim_lt (hl : l + 1 < top) (hp : (rounded (unitsAt (l + 1)) p).ReadsAs (l + 1)) :
    (brief (unitsAt (l + 1))).trim.coefficient < 10 ^ (p + 1) := by
  obtain ⟨p₀, -, hbrief, -, hfirst⟩ := exists_brief hl
  obtain ⟨hne, hle⟩ := coefficient_rounded (unitsAt_pos (Nat.succ_pos l)) p₀
  rw [hbrief]
  refine (trim_coefficient_lt hne (Nat.succ_pos p₀) hle).trans_le ?_
  exact Nat.pow_le_pow_right (by omega) (Nat.succ_le_succ (hfirst p hp))

/-- A decimal that reads as a rank other than zero has a coefficient. -/
theorem ReadsAs.coefficient_ne_zero (hd : d.ReadsAs (l + 1)) : d.coefficient ≠ 0 := by
  intro h0
  have hpos := RoundsTo.pos hd (Nat.succ_ne_zero l)
  rw [value, h0, Nat.cast_zero, zero_mul, zero_mul] at hpos
  exact lt_irrefl _ hpos

/-- **The digits are as few as those of any decimal that reads back**, or one more where the gap below is narrower. -/
theorem digitCount_brief_le (hl : l + 1 < top) (hd : d.ReadsAs (l + 1)) (hn : d.coefficient < 10 ^ n) :
    digitCount (brief (unitsAt (l + 1))).trim.coefficient ≤ n + 1 ∧
      (gapAt (l + 1) = gapAt l → digitCount (brief (unitsAt (l + 1))).trim.coefficient ≤ n) := by
  obtain ⟨p, rfl⟩ : ∃ p, n = p + 1 := by
    refine Nat.exists_eq_succ_of_ne_zero fun h0 => hd.coefficient_ne_zero ?_
    rw [h0, pow_zero] at hn
    omega
  refine ⟨?_, fun hgap => ?_⟩
  · rw [digitCount_le_iff (Nat.succ_pos _)]
    rcases rounded_reads_or hd hn with hp | hp
    · exact (brief_trim_lt hl hp).trans_le (Nat.pow_le_pow_right (by omega) (Nat.le_succ _))
    · exact brief_trim_lt hl hp
  · rw [digitCount_le_iff (Nat.succ_pos _)]
    exact brief_trim_lt hl (rounded_reads hgap hd hn)

/-- **No decimal of as many digits is nearer than the one that is found.** -/
theorem abs_brief_le (hl : l + 1 < top)
    (hd : d.coefficient < 10 ^ digitCount (brief (unitsAt (l + 1))).trim.coefficient) :
    |(brief (unitsAt (l + 1))).value * one - unitsAt (l + 1)| ≤ |d.value * one - unitsAt (l + 1)| := by
  obtain ⟨p, -, hbrief, hread, -⟩ := exists_brief hl
  have hcount := (digitCount_le_iff (Nat.succ_pos p)).2 (brief_trim_lt hl hread)
  rw [hbrief]
  exact abs_rounded_le_decimal (unitsAt_pos (Nat.succ_pos l)) (hd.trans_le (Nat.pow_le_pow_right (by omega) hcount))

end Decimal

end ScriptTree
