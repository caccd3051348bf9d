import ScriptTree.Double
import ScriptTree.Numeral

/-!
# Decimal text of numbers

A finite positive double is written with the fewest digits, up to seventeen, for which the correctly rounded decimal
reads back as the same double (`Decimal.brief`). The text is positional while the decimal point stays near the digits
and scientific otherwise (`Decimal.text`). `Double.text` adds the sign and the names of the numbers that have no
digits.
-/

namespace ScriptTree

/-- The decimal `coefficient * 10 ^ exponent`. -/
structure Decimal where
  coefficient : Nat
  exponent : Int
  deriving DecidableEq, Repr

namespace Decimal

/-- The double nearest to a decimal, ties to even. -/
def read (d : Decimal) : Double.Shape :=
  Double.round (d.coefficient * tenTo d.exponent.toNat * Double.one) (tenTo (-d.exponent).toNat)

/-- The number of decimal digits. -/
def digitCount (n : Nat) : Nat := if n < 10 then 1 else digitCount (n / 10) + 1
termination_by n
decreasing_by omega

/-- The power of ten of the leading digit of a positive number of units. No double is below `10 ^ -324`. -/
def magnitude (units : Nat) : Int := (digitCount (units * tenTo 324 / Double.one) : Int) - 325

/-- A number of units rounded to `places` digits after the leading one, ties to even. -/
def rounded (units places : Nat) : Decimal :=
  let e := magnitude units - places
  ⟨roundDiv (units * tenTo (-e).toNat) (Double.one * tenTo e.toNat), e⟩

/-- The first correctly rounded decimal that reads back, by number of digits. Seventeen digits always suffice. -/
def brief (units : Nat) : Decimal :=
  let places := (List.range 16).find? fun p => (rounded units p).read = .finite units
  rounded units (places.getD 16)

/-- The same decimal without trailing zeros in its coefficient. -/
def trim (d : Decimal) : Decimal :=
  if d.coefficient ≠ 0 ∧ d.coefficient % 10 = 0 then trim ⟨d.coefficient / 10, d.exponent + 1⟩ else d
termination_by d.coefficient
decreasing_by omega

/-- The widest whole part written out. -/
def widest : Int := 21

/-- A fraction is written out with fewer than this many zeros between the point and its first digit. -/
def deepest : Int := 6

/-- `count` zeros. -/
def zeros (count : Int) : List Char := List.replicate count.toNat '0'

/-- The digits of a decimal, with the point after the first `point` of them or an exponent. -/
def layout (ds : List Char) (point : Int) : List Char :=
  if ds.length ≤ point ∧ point ≤ widest then ds ++ zeros (point - ds.length)
  else if 0 < point ∧ point ≤ widest then ds.take point.toNat ++ '.' :: ds.drop point.toNat
  else if -deepest < point ∧ point ≤ 0 then '0' :: '.' :: zeros (-point) ++ ds
  else
    let fraction := if ds.length > 1 then '.' :: ds.drop 1 else []
    let sign := if point - 1 < 0 then '-' else '+'
    ds.take 1 ++ fraction ++ 'e' :: sign :: (Numeral.ofNat (point - 1).natAbs).toList

/-- The text of a decimal. -/
def text (d : Decimal) : String :=
  let ds := (Numeral.ofNat d.coefficient).toList
  String.ofList (layout ds (ds.length + d.exponent))

end Decimal

/-- The text of a number. Both zeros are written `0`. -/
def Double.text (x : Double) : String :=
  let sign := if x.negative then "-" else ""
  match x.shape with
  | .nan => "NaN"
  | .infinite => sign ++ "Infinity"
  | .finite 0 => "0"
  | .finite units => sign ++ (Decimal.brief units).trim.text

end ScriptTree
