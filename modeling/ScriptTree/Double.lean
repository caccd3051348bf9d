/-!
# Double-precision numbers

A `Double` is its 64 bits. What a finite one stands for is counted in *units* of `2 ^ -1074`, the least positive
double, so that its magnitude is a natural number (`Double.shape`). `Double.round` rounds a ratio of units to the
nearest double, ties to even; it is built on `roundDiv`, the same rule for quotients of natural numbers.
-/

namespace ScriptTree

/-- The powers of two. -/
def twoTo (n : Nat) : Nat := Nat.pow 2 n

/-- The powers of ten. -/
def tenTo (n : Nat) : Nat := Nat.pow 10 n

/-- The quotient rounded to the nearest natural number, a tie to the even one. -/
def roundDiv (num den : Nat) : Nat :=
  let q := num / den
  let r := num % den
  if 2 * r < den then q
  else if den < 2 * r then q + 1
  else q + q % 2

/-- A double-precision number by its bits: a sign, eleven exponent bits, fifty-two fraction bits. -/
structure Double where
  bits : UInt64
  deriving DecidableEq, Repr, Inhabited

namespace Double

/-- The magnitude of a double. A finite one is `units * 2 ^ -1074`. -/
inductive Shape where
  | nan
  | infinite
  | finite (units : Nat)
  deriving DecidableEq, Repr

/-- The sign bit. -/
def negative (x : Double) : Bool := x.bits.toNat / twoTo 63 == 1

/-- The exponent bits. -/
def exponentField (x : Double) : Nat := x.bits.toNat / twoTo 52 % twoTo 11

/-- The fraction bits. -/
def fractionField (x : Double) : Nat := x.bits.toNat % twoTo 52

/-- The magnitude that the bits stand for. -/
def shape (x : Double) : Shape :=
  if x.exponentField = 2047 then
    if x.fractionField = 0 then .infinite else .nan
  else if x.exponentField = 0 then .finite x.fractionField
  else .finite ((twoTo 52 + x.fractionField) * twoTo (x.exponentField - 1))

/-- The number of units in one. -/
def one : Nat := twoTo 1074

/-- The least number of units that is too large for a finite double. -/
def limit : Nat := twoTo 2098

/-- The units between neighbouring doubles at a magnitude of `n` units. -/
def spacing (n : Nat) : Nat := twoTo (n.log2 - 52)

/-- The magnitude of the double nearest to `num / den` units, ties to even. -/
def round (num den : Nat) : Shape :=
  let gap := spacing (num / den)
  let units := roundDiv num (den * gap) * gap
  if units < limit then .finite units else .infinite

end Double

end ScriptTree
