/-!
# Decimal numerals of integers

`Numeral.digits` lists the decimal digits of a natural number, most significant first, and `Numeral.value` reads such
a list back (`value_digits`). `Numeral.ofNat` and `Numeral.ofInt` are the written forms, the usual ones
(`ofNat_eq_toString`, `ofInt_eq_toString`).
-/

namespace ScriptTree.Numeral

/-- The decimal digits, most significant first, without leading zeros. -/
def digits (n : Nat) : List Nat := if n < 10 then [n] else digits (n / 10) ++ [n % 10]
termination_by n
decreasing_by omega

/-- The number that a list of decimal digits stands for. -/
def value (ds : List Nat) : Nat := ds.foldl (fun acc d => 10 * acc + d) 0

/-- The character of a decimal digit. -/
def digitChar (d : Nat) : Char := Char.ofNat (48 + d)

/-- The numeral of a natural number. -/
def ofNat (n : Nat) : String := String.ofList ((digits n).map digitChar)

/-- The numeral of an integer, with `-` when negative. -/
def ofInt : Int → String
  | .ofNat n => ofNat n
  | .negSucc n => "-" ++ ofNat (n + 1)

theorem value_append_singleton (ds : List Nat) (d : Nat) : value (ds ++ [d]) = 10 * value ds + d := by
  simp [value]

@[simp] theorem value_digits (n : Nat) : value (digits n) = n := by
  fun_induction digits n with
  | case1 n h => simp [value]
  | case2 n h ih => rw [value_append_singleton, ih]; omega

theorem digitChar_eq : ∀ d < 10, digitChar d = Nat.digitChar d := by decide

/-- **Numerals of natural numbers are the usual ones.** -/
theorem ofNat_eq_toString (n : Nat) : ofNat n = toString n := by
  have hdigits : (digits n).map digitChar = Nat.toDigits 10 n := by
    fun_induction digits n with
    | case1 n h => rw [Nat.toDigits_of_lt_base h, List.map_singleton, digitChar_eq n h]
    | case2 n h ih =>
      rw [List.map_append, ih, List.map_singleton, digitChar_eq _ (Nat.mod_lt _ (by omega)),
        Nat.toDigits_eq_if (n := n) (by omega), if_neg h]
  rw [ofNat, hdigits]
  exact Nat.repr_eq_ofList_toDigits.symm

theorem ofInt_eq_toString (z : Int) : ofInt z = toString z := by
  cases z with
  | ofNat n => exact ofNat_eq_toString n
  | negSucc n => exact congrArg ("-" ++ ·) (ofNat_eq_toString (n + 1))

end ScriptTree.Numeral
