import RowLang.Binary64.Basic
import RowLang.Decimal.Integer

/-!
# Binary64/Decimal — reals as decimal text

`ofDecimal` is the real nearest to `m · 10 ^ k`.  `shortest` finds the fewest digits that read back
to the same real, the nearest of those, by trying the two neighbours of the value on the grids of
1, 2, … 17 digits.  `Layout` says how the digits are written; `chars` is the written form of a real.
-/

namespace RowLang.Binary64

open RowLang.Decimal (tenTo twoTo)

/-- The number of decimal digits of a natural number. -/
def digitCount (n : Nat) : Nat := (Nat.toDigits 10 n).length

/-- The real nearest to `m · 10 ^ k`.  Exponents far outside the range of the reals are not
computed with. -/
def ofDecimal (negative : Bool) (m : Nat) (k : Int) : Binary64 :=
  if m = 0 then zero negative
  else
    let top := (digitCount m : Int) + k
    if 400 < top then .infinite negative
    else if top < -400 then zero negative
    else if 0 ≤ k then ofRatio negative (m * tenTo k.toNat) 1
    else ofRatio negative m (tenTo (-k).toNat)

/-! ## The fewest digits that read back -/

/-- A decimal numeral `0.d₁d₂… · 10 ^ point`, its digits as one natural number. -/
structure Digits where
  digits : Nat
  point : Int
  deriving DecidableEq, Repr

/-- The `p` with `10 ^ (p - 1) ≤ num / den < 10 ^ p`, for positive `num` and `den`. -/
def decimalPoint (num den : Nat) : Int :=
  if den ≤ num then digitCount (num / den)
  else
    let k := digitCount (den / num)
    if num * tenTo (k - 1) = den then 2 - k else 1 - k

/-- The interval of the values that round to `m · 2 ^ e`, in quarters of `2 ^ e`.  Below a power of
two it is half as wide. -/
def halfWidths (m : Nat) (e : Int) : Nat × Nat :=
  (if m = twoTo 52 && minExponent < e then 4 * m - 1 else 4 * m - 2, 4 * m + 2)

/-- Whether `num / den` rounds to the real whose interval is `low / den'` to `high / den'`; the ends
count when the significand is even. -/
def within (inclusive : Bool) (low high den' num den : Nat) : Bool :=
  if inclusive then low * den ≤ num * den' && num * den' ≤ high * den
  else low * den < num * den' && num * den' < high * den

/-- The neighbour of `value / unit` on the grid of whole numbers that rounds to the same real, the
nearer of two. -/
def gridPoint? (inside : Nat → Bool) (value unit : Nat) : Option Nat :=
  let a := value / unit
  match inside a, inside (a + 1) with
  | true, true => some (Decimal.roundHalfEven value unit)
  | true, false => some a
  | false, true => some (a + 1)
  | false, false => none

/-- **The fewest digits that read back to `m · 2 ^ e`**, of those the nearest. -/
def shortest (m : Nat) (e : Int) : Digits :=
  let (lowQ, highQ) := halfWidths m e
  -- everything over one denominator: quarters of `2 ^ e`
  let (up, down) := if 2 ≤ e then (twoTo (e - 2).toNat, 1) else (1, twoTo (2 - e).toNat)
  let value := 4 * m * up
  let low := lowQ * up
  let high := highQ * up
  let p := decimalPoint value down
  let grid (n : Nat) : Option Nat :=
    let k := p - n
    -- the grid of multiples of `10 ^ k`
    if 0 ≤ k then
      gridPoint? (fun x => within (m % 2 = 0) low high down (x * tenTo k.toNat) 1) value
        (down * tenTo k.toNat)
    else
      gridPoint? (fun x => within (m % 2 = 0) low high down x (tenTo (-k).toNat))
        (value * tenTo (-k).toNat) down
  match (List.range 17).findSome? fun i => (grid (i + 1)).map (i + 1, ·) with
  | some (n, d) => if d = tenTo n then ⟨1, p + 1⟩ else ⟨d, p⟩
  | none => ⟨Decimal.roundHalfEven (value * tenTo (17 - p).toNat) (down * tenTo (p - 17).toNat), p⟩

/-! ## Written form -/

/-- How the digits of a real are written. -/
structure Layout where
  /-- A point further left than this many zeros calls for an exponent. -/
  leadingZeros : Int
  /-- A point further right than this calls for an exponent. -/
  lastPoint : Int
  /-- The least number of digits of an exponent. -/
  exponentDigits : Nat
  /-- The texts of the infinity and of the undefined real. -/
  infinity : String
  undefinedText : String

/-- Zeros in front, to a given width. -/
def padZeros (width : Nat) (cs : List Char) : List Char :=
  List.replicate (width - cs.length) '0' ++ cs

/-- The digits of a numeral with its point in place. -/
def Layout.digits (l : Layout) (d : Digits) : List Char :=
  let cs := Decimal.natChars d.digits
  if -l.leadingZeros < d.point && d.point ≤ l.lastPoint then
    if d.point ≤ 0 then '0' :: '.' :: List.replicate (-d.point).toNat '0' ++ cs
    else
      let whole := d.point.toNat
      if cs.length ≤ whole then cs ++ List.replicate (whole - cs.length) '0' ++ ['.', '0']
      else cs.take whole ++ '.' :: cs.drop whole
  else
    let e := d.point - 1
    let mantissa := match cs with
      | c :: d :: cs => c :: '.' :: d :: cs
      | cs => cs
    mantissa ++ 'e' :: (if e < 0 then '-' else '+') ::
      padZeros l.exponentDigits (Decimal.natChars e.natAbs)

/-- The written form of a real in a layout. -/
def Layout.chars (l : Layout) : Binary64 → List Char
  | .undefined => l.undefinedText.toList
  | .infinite negative => (if negative then ['-'] else []) ++ l.infinity.toList
  | .finite negative m e =>
    (if negative then ['-'] else []) ++
      if m = 0 then ['0', '.', '0'] else l.digits (shortest m e)

/-- Positional from `0.0001` up to sixteen digits before the point, else with an exponent of at
least two digits. -/
def plain : Layout := ⟨4, 16, 2, "inf", "nan"⟩

/-- The same, with the names that JSON text has for the reals that are no number. -/
def json : Layout := { plain with infinity := "Infinity", undefinedText := "NaN" }

/-- The written form of a real. -/
def chars (x : Binary64) : List Char := plain.chars x

/-- The written form of a real, as a string. -/
def text (x : Binary64) : String := String.ofList x.chars

end RowLang.Binary64
