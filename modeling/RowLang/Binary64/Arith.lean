import RowLang.Binary64.Basic

/-!
# Binary64/Arith — arithmetic on reals

Sum, difference, product, quotient and remainder, each the exact result rounded once, with the IEEE
rules for signed zeros and infinities.  A divisor of zero is for the caller to refuse: `div` and
`mod` are only asked for a divisor that is not zero.
-/

namespace RowLang.Binary64

/-- The real of the other sign. -/
def neg : Binary64 → Binary64
  | .finite s m e => .finite (!s) m e
  | .infinite s => .infinite (!s)
  | .undefined => .undefined

/-- The sum; zeros of two signs sum to the positive one. -/
def add : Binary64 → Binary64 → Binary64
  | .undefined, _ => .undefined
  | _, .undefined => .undefined
  | .infinite a, .infinite b => if a = b then .infinite a else .undefined
  | .infinite a, .finite .. => .infinite a
  | .finite .., .infinite b => .infinite b
  | x@(.finite a ..), y@(.finite b ..) => ofRat (a && b) (x.toRat + y.toRat)

/-- The difference. -/
def sub (x y : Binary64) : Binary64 := add x y.neg

/-- The product. -/
def mul : Binary64 → Binary64 → Binary64
  | .undefined, _ => .undefined
  | _, .undefined => .undefined
  | .infinite a, y => if y.isZero then .undefined else .infinite (a ^^ y.isNegative)
  | x, .infinite b => if x.isZero then .undefined else .infinite (x.isNegative ^^ b)
  | x@(.finite a ..), y@(.finite b ..) => ofRat (a ^^ b) (x.toRat * y.toRat)

/-- The quotient by a divisor that is not zero. -/
def div : Binary64 → Binary64 → Binary64
  | .undefined, _ => .undefined
  | _, .undefined => .undefined
  | .infinite a, y => match y with
    | .infinite _ => .undefined
    | y => .infinite (a ^^ y.isNegative)
  | .finite a .., .infinite b => zero (a ^^ b)
  | x@(.finite a ..), y@(.finite b ..) => ofRat (a ^^ b) (x.toRat / y.toRat)

/-- The remainder that has the sign of the dividend, by a divisor that is not zero. -/
def remainder : Binary64 → Binary64 → Binary64
  | .undefined, _ => .undefined
  | _, .undefined => .undefined
  | .infinite _, _ => .undefined
  | x, .infinite _ => x
  | x@(.finite a ..), y@(.finite ..) =>
    let q := x.toRat / y.toRat
    ofRat a (x.toRat - (q.num.tdiv q.den : Int) * y.toRat)

/-- The remainder that has the sign of the divisor, by a divisor that is not zero. -/
def mod (x y : Binary64) : Binary64 :=
  match remainder x y with
  | .undefined => .undefined
  | r =>
    if r.isZero then zero y.isNegative
    else if r.isNegative = y.isNegative then r
    else add r y

/-- The quotient of two integers, rounded once; `none` when it is beyond the greatest real. -/
def ofQuotient? (a b : Int) : Option Binary64 :=
  let negative := (a < 0) ^^ (b < 0)
  match ofRatio negative a.natAbs b.natAbs with
  | .infinite _ => none
  | x => some x

/-- The real nearest to an integer; `none` when it is beyond the greatest real. -/
def ofInt? (i : Int) : Option Binary64 :=
  match ofInt i with
  | .infinite _ => none
  | x => some x

end RowLang.Binary64
