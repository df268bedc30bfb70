import RowLang.Decimal.Integer

/-!
# Binary64/Basic — the reals of the language, exactly

A real is an IEEE binary64 number: a sign, a significand below `2 ^ 53` and an exponent of two from
`-1074` to `971`, or an infinity, or undefined.  `ofRatio` rounds a quotient of natural numbers to
the nearest real, of two equally near ones to the one with the even significand, and every
operation is the exact operation on `toRat` followed by that rounding.
-/

namespace RowLang

/-- An IEEE binary64 number; `finite neg m e` is `±m · 2 ^ e`. -/
inductive Binary64 where
  | finite (negative : Bool) (significand : Nat) (exponent : Int)
  | infinite (negative : Bool)
  | undefined
  deriving DecidableEq, Repr, Inhabited

namespace Binary64

open RowLang.Decimal (twoTo)

/-- The least exponent, that of the subnormal numbers. -/
def minExponent : Int := -1074

/-- The greatest exponent. -/
def maxExponent : Int := 971

/-- The zero of a sign. -/
def zero (negative : Bool) : Binary64 := .finite negative 0 minExponent

/-- A quotient divided by `2 ^ e`, again as a quotient. -/
def scale (num den : Nat) (e : Int) : Nat × Nat :=
  if 0 ≤ e then (num, den * twoTo e.toNat) else (num * twoTo (-e).toNat, den)

/-- The greatest `e` with `2 ^ e ≤ num / den`, for positive `num` and `den`. -/
def floorLog2 (num den : Nat) : Int :=
  let e := (num.log2 : Int) - den.log2
  let (n, d) := scale num den e
  if d ≤ n then e else e - 1

/-- **The real nearest to `num / den`**, of two equally near ones the even one; beyond the greatest
real it is an infinity. -/
def ofRatio (negative : Bool) (num den : Nat) : Binary64 :=
  if num = 0 then zero negative
  else
    let e := max (floorLog2 num den - 52) minExponent
    let (n, d) := scale num den e
    let m := Decimal.roundHalfEven n d
    let (m, e) := if m = twoTo 53 then (twoTo 52, e + 1) else (m, e)
    if maxExponent < e then .infinite negative else .finite negative m e

/-- The real nearest to a rational; `negative` is the sign of a zero. -/
def ofRat (negative : Bool) (q : Rat) : Binary64 :=
  if q.num = 0 then zero negative else ofRatio (q.num < 0) q.num.natAbs q.den

/-- The real nearest to an integer. -/
def ofInt (i : Int) : Binary64 := ofRat false i

/-- The exact value of a finite real; the others count as zero. -/
def toRat : Binary64 → Rat
  | .finite negative m e =>
    let i : Int := if negative then -m else m
    if 0 ≤ e then (i * twoTo e.toNat : Int) else mkRat i (twoTo (-e).toNat)
  | _ => 0

/-- The sign bit. -/
def isNegative : Binary64 → Bool
  | .finite negative _ _ => negative
  | .infinite negative => negative
  | .undefined => false

/-- Neither infinite nor undefined. -/
def isFinite : Binary64 → Bool
  | .finite .. => true
  | _ => false

/-- Either zero. -/
def isZero : Binary64 → Bool
  | .finite _ m _ => m = 0
  | _ => false

/-- The integer that a whole finite real is. -/
def toInt? (x : Binary64) : Option Int :=
  if x.isFinite && x.toRat.den = 1 then some x.toRat.num else none

/-- A finite real with its fraction dropped. -/
def truncate (x : Binary64) : Int := x.toRat.num.tdiv x.toRat.den

/-- The order of two reals, infinities outermost; an undefined one is incomparable. -/
def compare? : Binary64 → Binary64 → Option Ordering
  | .undefined, _ => none
  | _, .undefined => none
  | .infinite a, .infinite b => some (compare b.toNat a.toNat)
  | .infinite a, .finite .. => some (if a then .lt else .gt)
  | .finite .., .infinite b => some (if b then .gt else .lt)
  | x@(.finite ..), y@(.finite ..) =>
    some (if x.toRat < y.toRat then .lt else if x.toRat = y.toRat then .eq else .gt)

/-- The order of a real and an integer, exactly. -/
def compareInt? : Binary64 → Int → Option Ordering
  | .undefined, _ => none
  | .infinite a, _ => some (if a then .lt else .gt)
  | x@(.finite ..), i => some (if x.toRat < i then .lt else if x.toRat = i then .eq else .gt)

end Binary64

end RowLang
