import RowLang.Ty.Basic

/-!
# Operator — the operators that every program knows

Each operator has a spelling, a place in the grammar (`Fixity`) and a type scheme.  The symbols are
tried longest first, so that `++` is not read as `+`.
-/

namespace RowLang

/-- How the grammar writes an operator. -/
inductive Fixity where
  | additive
  | multiplicative
  /-- A symbol in front of its argument. -/
  | leading
  /-- A word that is used like a name. -/
  | word
  deriving DecidableEq, Repr

/-- The operators. -/
inductive Operator where
  | plus
  | minus
  | append
  | times
  | divide
  | modulo
  | size
  | countUp
  | map
  | filter
  | fold
  | eq
  | lt
  | ord
  | chr
  deriving DecidableEq, Repr, Inhabited

namespace Operator

/-- All operators, in the order of their table. -/
def all : List Operator :=
  [plus, minus, append, times, divide, modulo, size, countUp, map, filter, fold, eq, lt, ord, chr]

/-- The spelling of an operator. -/
def spelling : Operator → String
  | plus => "+"
  | minus => "-"
  | append => "++"
  | times => "*"
  | divide => "/"
  | modulo => "%"
  | size => "#"
  | countUp => "&"
  | map => "map"
  | filter => "filter"
  | fold => "fold"
  | eq => "eq"
  | lt => "lt"
  | ord => "ord"
  | chr => "chr"

/-- The place of an operator in the grammar. -/
def fixity : Operator → Fixity
  | plus | minus | append => .additive
  | times | divide | modulo => .multiplicative
  | size | countUp => .leading
  | map | filter | fold | eq | lt | ord | chr => .word

/-- The additive symbols, longest first. -/
def additives : List Operator := [append, plus, minus]

/-- The multiplicative symbols. -/
def multiplicatives : List Operator := [times, divide, modulo]

/-- All symbols, longest first. -/
def symbols : List Operator := [append, plus, minus, times, divide, modulo, size, countUp]

/-- The operator that a word names. -/
def ofWord? (w : String) : Option Operator :=
  all.find? fun o => o.fixity = .word && o.spelling = w

/-! ## Types -/

/-- The type of a pair. -/
def pairType (a b : Ty) : Ty := Ty.closedRecord (Row.positional [a, b])

/-- The type of a verdict: `#false` or `#true`, each with an empty record. -/
def verdict : Ty :=
  Ty.closedVariant [("false", Ty.closedRecord []), ("true", Ty.closedRecord [])]

/-- The type scheme of an operator. -/
def scheme : Operator → Ty
  | plus | minus | times | divide | modulo => .arrow (pairType .number .number) .number
  | append =>
    .bind .forAll 0 (.arrow (pairType (.list (.var 0)) (.list (.var 0))) (.list (.var 0)))
  | size => .bind .forAll 0 (.arrow (.list (.var 0)) .number)
  | countUp => .arrow .number (.list .number)
  | map =>
    .bind .forAll 0 (.bind .forAll 1
      (.arrow (.arrow (.var 0) (.var 1)) (.arrow (.list (.var 0)) (.list (.var 1)))))
  | filter =>
    .bind .forAll 0
      (.arrow (.arrow (.var 0) verdict) (.arrow (.list (.var 0)) (.list (.var 0))))
  | fold =>
    .bind .forAll 0 (.bind .forAll 1
      (.arrow (.arrow (.var 1) (.arrow (.var 0) (.var 1)))
        (.arrow (.var 1) (.arrow (.list (.var 0)) (.var 1)))))
  | eq | lt => .arrow (pairType .number .number) verdict
  | ord => .arrow .char .number
  | chr => .arrow .number .char

end Operator

end RowLang
