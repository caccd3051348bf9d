import Mathlib
import ScriptTree.Decimal
import ScriptTree.Proofs.Rounding

/-!
# Reading numerals

`Numeral.read?` is the number that a numeral stands for: an optional minus, digits, an optional point with digits, and
an optional exponent with its sign. `Numeral.significant` counts the digits of a numeral from the first to the last that
is not zero. Both are stated on the text alone.

`Numeral.Written` says how digits and an exponent may be written. Each layout of a decimal is such a form
(`Numeral.written_layout`), so its text stands for its value (`Decimal.read?_text`), and the significant digits of the
text are those of the coefficient (`Decimal.significant_text`).
-/

namespace ScriptTree

namespace Numeral

/-! ## The grammar -/

/-- The number that a run of digits stands for. -/
def natural (cs : List Char) : ℕ := value (cs.map fun c => c.toNat - 48)

/-- The run of digits at the front, and what follows it. -/
def run? (cs : List Char) : Option (List Char × List Char) :=
  if cs.takeWhile Char.isDigit = [] then none else some (cs.takeWhile Char.isDigit, cs.dropWhile Char.isDigit)

/-- The digits of a fraction, none where there is no point, and what follows them. -/
def fraction? : List Char → Option (List Char × List Char)
  | '.' :: cs => run? cs
  | cs => some ([], cs)

/-- A run of digits with nothing after it. -/
def whole? (cs : List Char) : Option ℕ :=
  match run? cs with
  | some (ds, []) => some (natural ds)
  | _ => none

/-- An exponent with its sign, zero where there is none. -/
def exponent? : List Char → Option ℤ
  | [] => some 0
  | 'e' :: '+' :: cs => (whole? cs).map fun n : ℕ => (n : ℤ)
  | 'e' :: '-' :: cs => (whole? cs).map fun n : ℕ => -(n : ℤ)
  | _ => none

/-- The decimal of a numeral without sign. -/
def decimal? (cs : List Char) : Option Decimal := do
  let (whole, rest) ← run? cs
  let (fraction, rest) ← fraction? rest
  let exponent ← exponent? rest
  return ⟨natural (whole ++ fraction), exponent - fraction.length⟩

/-- The number that a numeral stands for. -/
def read? (s : String) : Option ℚ :=
  match s.toList with
  | '-' :: cs => (decimal? cs).map fun d => -d.value
  | cs => (decimal? cs).map Decimal.value

/-- The number of digits before the exponent, from the first to the last that is not zero. -/
def significant (s : String) : ℕ :=
  let ds := (s.toList.takeWhile (· ≠ 'e')).filter Char.isDigit
  ((ds.dropWhile (· = '0')).rdropWhile (· = '0')).length

/-! ## Digits -/

variable {n : ℕ} {ds rest : List Char}

theorem digits_lt (n : ℕ) : ∀ d ∈ digits n, d < 10 := by
  fun_induction digits n with
  | case1 n h => simpa using h
  | case2 n h ih =>
    intro d hd
    rcases List.mem_append.1 hd with hd | hd
    · exact ih d hd
    · rw [List.mem_singleton.1 hd]
      exact Nat.mod_lt _ (by omega)

theorem digitChar_spec : ∀ d < 10, (digitChar d).isDigit = true ∧ (digitChar d).toNat - 48 = d ∧
    (digitChar d = '0' → d = 0) := by
  decide

theorem toList_ofNat (n : ℕ) : (ofNat n).toList = (digits n).map digitChar := String.toList_ofList

theorem isDigit_ofNat (n : ℕ) : ∀ c ∈ (ofNat n).toList, c.isDigit = true := by
  intro c hc
  rw [toList_ofNat] at hc
  obtain ⟨d, hd, rfl⟩ := List.mem_map.1 hc
  exact (digitChar_spec d (digits_lt n d hd)).1

theorem ofNat_ne_nil (n : ℕ) : (ofNat n).toList ≠ [] := by
  rw [toList_ofNat, digits]
  split <;> simp

@[simp] theorem natural_ofNat (n : ℕ) : natural (ofNat n).toList = n := by
  rw [toList_ofNat, natural, List.map_map]
  have hid : (digits n).map ((fun c => c.toNat - 48) ∘ digitChar) = (digits n).map id :=
    List.map_congr_left fun d hd => (digitChar_spec d (digits_lt n d hd)).2.1
  rw [hid, List.map_id, value_digits]

theorem length_ofNat (n : ℕ) : (ofNat n).toList.length = Decimal.digitCount n := by
  rw [toList_ofNat, List.length_map]
  fun_induction digits n with
  | case1 n h => rw [Decimal.digitCount, if_pos h, List.length_singleton]
  | case2 n h ih => rw [Decimal.digitCount, if_neg h, List.length_append, ih, List.length_singleton]

/-- Only zero starts with a zero. -/
theorem head_ofNat_ne (hn : 0 < n) : (ofNat n).toList.head? ≠ some '0' := by
  have hdigits : (digits n).head? ≠ some 0 := by
    fun_induction digits n with
    | case1 n h => simpa using hn.ne'
    | case2 n h ih =>
      rw [List.head?_append_of_ne_nil _ (by rw [digits]; split <;> simp)]
      exact ih (by omega)
  intro h
  rw [toList_ofNat, List.head?_map, Option.map_eq_some_iff] at h
  obtain ⟨d, hd, h0⟩ := h
  rw [(digitChar_spec d (digits_lt n d (List.mem_of_mem_head? hd))).2.2 h0] at hd
  exact hdigits hd

/-- Only a multiple of ten ends with a zero. -/
theorem getLast_ofNat_ne (hn : n % 10 ≠ 0) : (ofNat n).toList.getLast? ≠ some '0' := by
  have hdigits : (digits n).getLast? = some (n % 10) := by
    rw [digits]
    split
    · rw [List.getLast?_singleton, Nat.mod_eq_of_lt ‹_›]
    · rw [List.getLast?_concat]
  intro h
  rw [toList_ofNat, List.getLast?_map, hdigits, Option.map_some, Option.some_inj] at h
  exact hn ((digitChar_spec _ (Nat.mod_lt _ (by omega))).2.2 h)

theorem value_append (as bs : List ℕ) : value (as ++ bs) = value as * 10 ^ bs.length + value bs := by
  induction bs using List.reverseRecOn with
  | nil => simp [value]
  | append_singleton bs b ih =>
    rw [← List.append_assoc, value_append_singleton, ih, value_append_singleton, List.length_append,
      List.length_singleton, pow_succ]
    ring

theorem natural_append (as bs : List Char) : natural (as ++ bs) = natural as * 10 ^ bs.length + natural bs := by
  rw [natural, List.map_append, value_append, List.length_map]
  rfl

theorem natural_zeros (k : ℕ) : natural (List.replicate k '0') = 0 := by
  induction k with
  | zero => rfl
  | succ k ih =>
    rw [List.replicate_succ', natural_append, ih]
    rfl

theorem dropWhile_zeros_append {cs : List Char} (k : ℕ) (h : cs.head? ≠ some '0') :
    (List.replicate k '0' ++ cs).dropWhile (· = '0') = cs := by
  rw [List.dropWhile_append_of_pos fun c hc => decide_eq_true (List.eq_of_mem_replicate hc)]
  cases cs with
  | nil => rfl
  | cons c cs => exact List.dropWhile_cons_of_neg fun hc => h (congrArg some (of_decide_eq_true hc))

/-! ## Written forms -/

/-- The exponent `k` as it is written. It may be left out where it is zero. -/
inductive ExponentText : ℤ → List Char → Prop
  | omitted : ExponentText 0 []
  | signed (k : ℤ) : ExponentText k ('e' :: (if k < 0 then '-' else '+') :: (ofNat k.natAbs).toList)

/-- A fraction with its point. -/
def pointed (fraction : List Char) : List Char := if fraction = [] then [] else '.' :: fraction

theorem mem_pointed {c : Char} {fraction : List Char} (h : c ∈ pointed fraction) : c = '.' ∨ c ∈ fraction := by
  unfold pointed at h
  split at h
  · cases h
  · exact List.mem_cons.1 h

/-- A written form of the digits `ds` with the exponent `e`: the digits stand between zeros, with a point somewhere, and
the exponent makes up for both. -/
structure Written (ds : List Char) (e : ℤ) (cs : List Char) where
  whole : List Char
  fraction : List Char
  tail : List Char
  power : ℤ
  before : ℕ
  after : ℕ
  eq : cs = whole ++ (pointed fraction ++ tail)
  whole_ne : whole ≠ []
  exponent : ExponentText power tail
  digits_eq : whole ++ fraction = List.replicate before '0' ++ ds ++ List.replicate after '0'
  scale : power - fraction.length = e - after

/-- **A decimal is laid out in a written form of its digits.** -/
theorem written_layout (hne : ds ≠ []) (e : ℤ) : Nonempty (Written ds e (Decimal.layout ds (ds.length + e))) := by
  have hpos : 0 < ds.length := List.length_pos_iff.2 hne
  generalize hpoint : (ds.length + e : ℤ) = point
  simp only [Decimal.layout]
  by_cases hwhole : ds.length ≤ point ∧ point ≤ Decimal.widest
  · rw [if_pos hwhole]
    exact ⟨{
      whole := ds ++ Decimal.zeros (point - ds.length), fraction := [], tail := [], power := 0
      before := 0, after := (point - ds.length).toNat
      eq := by simp [pointed]
      whole_ne := by simp [hne]
      exponent := .omitted
      digits_eq := by simp [Decimal.zeros]
      scale := by simp only [List.length_nil]; omega }⟩
  rw [if_neg hwhole]
  by_cases hmiddle : 0 < point ∧ point ≤ Decimal.widest
  · have hlt : point.toNat < ds.length := by omega
    rw [if_pos hmiddle]
    exact ⟨{
      whole := ds.take point.toNat, fraction := ds.drop point.toNat, tail := [], power := 0, before := 0, after := 0
      eq := by
        have hdrop : ds.drop point.toNat ≠ [] := by rw [Ne, List.drop_eq_nil_iff]; omega
        rw [pointed, if_neg hdrop, List.append_nil]
      whole_ne := by rw [Ne, List.take_eq_nil_iff, not_or]; exact ⟨by omega, hne⟩
      exponent := .omitted
      digits_eq := by simp
      scale := by rw [List.length_drop]; omega }⟩
  rw [if_neg hmiddle]
  by_cases hsmall : -Decimal.deepest < point ∧ point ≤ 0
  · rw [if_pos hsmall]
    exact ⟨{
      whole := ['0'], fraction := Decimal.zeros (-point) ++ ds, tail := [], power := 0
      before := (-point).toNat + 1, after := 0
      eq := by simp [pointed, hne]
      whole_ne := List.cons_ne_nil _ _
      exponent := .omitted
      digits_eq := by simp [Decimal.zeros, List.replicate_succ]
      scale := by rw [List.length_append, Decimal.zeros, List.length_replicate]; omega }⟩
  rw [if_neg hsmall]
  exact ⟨{
    whole := ds.take 1, fraction := ds.drop 1, tail := _, power := point - 1, before := 0, after := 0
    eq := by
      rw [List.append_assoc]
      congr 2
      simp only [pointed, List.drop_eq_nil_iff, gt_iff_lt, ← not_le, ite_not]
    whole_ne := by rw [Ne, List.take_eq_nil_iff, not_or]; exact ⟨by omega, hne⟩
    exponent := .signed _
    digits_eq := by rw [List.take_append_drop]; simp
    scale := by rw [List.length_drop]; omega }⟩

/-! ## Reading what is written -/

/-- The end of a run of digits. -/
def Stops (rest : List Char) : Prop := ∀ c ∈ rest.head?, c.isDigit = false

theorem run?_append (hne : ds ≠ []) (hds : ∀ c ∈ ds, c.isDigit = true) (hrest : Stops rest) :
    run? (ds ++ rest) = some (ds, rest) := by
  have htake : rest.takeWhile Char.isDigit = [] := by
    cases rest with
    | nil => rfl
    | cons c cs => rw [List.takeWhile_cons_of_neg (by simp [hrest c rfl])]
  have hdrop : rest.dropWhile Char.isDigit = rest := by
    cases rest with
    | nil => rfl
    | cons c cs => rw [List.dropWhile_cons_of_neg (by simp [hrest c rfl])]
  rw [run?, List.takeWhile_append_of_pos hds, List.dropWhile_append_of_pos hds, htake, hdrop, List.append_nil,
    if_neg hne]

theorem ExponentText.stops {k : ℤ} {tail : List Char} (h : ExponentText k tail) : Stops tail := by
  intro c hc
  cases h with
  | omitted => cases hc
  | signed =>
    obtain rfl := Option.some_inj.1 hc
    decide

theorem ExponentText.takeWhile_eq_nil {k : ℤ} {tail : List Char} (h : ExponentText k tail) :
    tail.takeWhile (· ≠ 'e') = [] := by
  cases h <;> rfl

theorem whole?_ofNat (n : ℕ) : whole? (ofNat n).toList = some n := by
  have h := run?_append (ofNat_ne_nil n) (isDigit_ofNat n) ExponentText.omitted.stops
  rw [List.append_nil] at h
  rw [whole?, h]
  exact congrArg some (natural_ofNat n)

theorem ExponentText.exponent? {k : ℤ} {tail : List Char} (h : ExponentText k tail) : exponent? tail = some k := by
  cases h with
  | omitted => rfl
  | signed =>
    split_ifs with hk
    · rw [Numeral.exponent?, whole?_ofNat, Option.map_some]
      congr 1
      omega
    · rw [Numeral.exponent?, whole?_ofNat, Option.map_some]
      congr 1
      omega

/-- A point and digits up to the exponent are read as the fraction. -/
theorem ExponentText.fraction? {k : ℤ} {fraction tail : List Char} (h : ExponentText k tail)
    (hdigits : ∀ c ∈ fraction, c.isDigit = true) :
    Stops (pointed fraction ++ tail) ∧ fraction? (pointed fraction ++ tail) = some (fraction, tail) := by
  by_cases hne : fraction = []
  · rw [pointed, if_pos hne, hne]
    refine ⟨h.stops, ?_⟩
    cases h <;> rfl
  · rw [pointed, if_neg hne]
    refine ⟨fun c hc => ?_, run?_append hne hdigits h.stops⟩
    obtain rfl := Option.some_inj.1 hc
    decide

namespace Written

variable {e : ℤ} {cs : List Char}

theorem isDigit (w : Written ds e cs) (hds : ∀ c ∈ ds, c.isDigit = true) :
    ∀ c ∈ w.whole ++ w.fraction, c.isDigit = true := by
  have hzero : ∀ {n} c, c ∈ List.replicate n '0' → c.isDigit = true := fun c hc => by
    rw [List.eq_of_mem_replicate hc]
    decide
  intro c hc
  rw [w.digits_eq, List.mem_append, List.mem_append] at hc
  rcases hc with (hc | hc) | hc
  · exact hzero c hc
  · exact hds c hc
  · exact hzero c hc

theorem natural_eq (w : Written ds e cs) : natural (w.whole ++ w.fraction) = natural ds * 10 ^ w.after := by
  rw [w.digits_eq, natural_append, natural_append, natural_zeros, natural_zeros, List.length_replicate, Nat.zero_mul,
    Nat.zero_add, Nat.add_zero]

/-- **A written form is read back**, up to zeros that the coefficient takes from the exponent. -/
theorem decimal? (w : Written ds e cs) (hds : ∀ c ∈ ds, c.isDigit = true) :
    decimal? cs = some ⟨natural ds * 10 ^ w.after, e - w.after⟩ := by
  have hdigits := w.isDigit hds
  obtain ⟨hstops, hfraction⟩ := w.exponent.fraction? fun c hc => hdigits c (List.mem_append_right _ hc)
  have hrun := run?_append w.whole_ne (fun c hc => hdigits c (List.mem_append_left _ hc)) hstops
  rw [← w.eq] at hrun
  rw [Numeral.decimal?, hrun]
  simp only [Option.bind_eq_bind, Option.bind_some, hfraction, w.exponent.exponent?, w.natural_eq, w.scale]
  rfl

/-- The digits before the exponent. -/
theorem mantissa_eq (w : Written ds e cs) (hds : ∀ c ∈ ds, c.isDigit = true) :
    (cs.takeWhile (· ≠ 'e')).filter Char.isDigit = w.whole ++ w.fraction := by
  have hdigits := w.isDigit hds
  have hwhole : ∀ c ∈ w.whole, c.isDigit = true := fun c hc => hdigits c (List.mem_append_left _ hc)
  have hfraction : ∀ c ∈ w.fraction, c.isDigit = true := fun c hc => hdigits c (List.mem_append_right _ hc)
  have hne : ∀ c ∈ w.whole ++ pointed w.fraction, decide (c ≠ 'e') = true := by
    intro c hc
    rw [decide_eq_true_iff]
    rintro rfl
    rcases List.mem_append.1 hc with hc | hc
    · exact absurd (hwhole _ hc) (by decide)
    · rcases mem_pointed hc with hc | hc
      · exact absurd hc (by decide)
      · exact absurd (hfraction _ hc) (by decide)
  have htail := w.exponent.takeWhile_eq_nil
  have htext : cs.takeWhile (· ≠ 'e') = w.whole ++ pointed w.fraction := by
    have heq := congrArg (List.takeWhile (· ≠ 'e')) w.eq
    rw [← List.append_assoc, List.takeWhile_append_of_pos hne, htail, List.append_nil] at heq
    exact heq
  rw [htext, List.filter_append, List.filter_eq_self.2 hwhole]
  congr 1
  unfold pointed
  split_ifs with hnil
  · rw [hnil]
    rfl
  · rw [List.filter_cons_of_neg (by decide), List.filter_eq_self.2 hfraction]

/-- **The significant digits of a written form are its digits**, if these neither start nor end with a zero. -/
theorem significant (w : Written ds e cs) (hds : ∀ c ∈ ds, c.isDigit = true) (hne : ds ≠ [])
    (hhead : ds.head? ≠ some '0') (hlast : ds.getLast? ≠ some '0') : significant (String.ofList cs) = ds.length := by
  rw [Numeral.significant, String.toList_ofList, w.mantissa_eq hds, w.digits_eq, List.append_assoc,
    dropWhile_zeros_append, List.rdropWhile, List.reverse_append, List.reverse_replicate, dropWhile_zeros_append,
    List.reverse_reverse]
  · rwa [List.head?_reverse]
  · rwa [List.head?_append_of_ne_nil _ hne]

end Written

/-- What starts with a minus is no decimal. -/
theorem decimal?_minus (cs : List Char) : decimal? ('-' :: cs) = none := rfl

theorem read?_of_decimal? {cs : List Char} {d : Decimal} (h : decimal? cs = some d) :
    read? (String.ofList cs) = some d.value ∧ read? ("-" ++ String.ofList cs) = some (-d.value) := by
  constructor
  · rw [read?, String.toList_ofList]
    split
    · rw [decimal?_minus] at h
      cases h
    · rw [h, Option.map_some]
  · have hchars : ("-" ++ String.ofList cs).toList = '-' :: cs := by simp
    rw [read?, hchars]
    exact congrArg (Option.map _) h

end Numeral

namespace Decimal

open Numeral

/-- **The text of a decimal stands for its value.** -/
theorem read?_text (d : Decimal) : read? d.text = some d.value ∧ read? ("-" ++ d.text) = some (-d.value) := by
  obtain ⟨w⟩ := written_layout (ofNat_ne_nil d.coefficient) d.exponent
  have hread := w.decimal? (isDigit_ofNat d.coefficient)
  rw [natural_ofNat] at hread
  have hvalue : (⟨d.coefficient * 10 ^ w.after, d.exponent - w.after⟩ : Decimal).value = d.value := by
    rw [value, value, zpow_sub₀ (by norm_num), zpow_natCast]
    push_cast
    field_simp
  rw [← hvalue]
  exact read?_of_decimal? hread

/-- The significant digits of the text are those of the coefficient. -/
theorem significant_text {d : Decimal} (hd : d.coefficient % 10 ≠ 0) :
    significant d.text = digitCount d.coefficient := by
  obtain ⟨w⟩ := written_layout (ofNat_ne_nil d.coefficient) d.exponent
  rw [← length_ofNat]
  exact w.significant (isDigit_ofNat _) (ofNat_ne_nil _) (head_ofNat_ne (by omega)) (getLast_ofNat_ne hd)

end Decimal

end ScriptTree
