import RowLang.Expr.Basic
import RowLang.Text.Quoted

/-!
# Expr/Outline — trees in constructor form

For looking at a tree rather than reading it: each node is its class with its parts in parentheses,
names and labels are quoted, and rows are shown in their own order.
-/

namespace RowLang.Outline

/-- A class with its parts. -/
def node (name : String) (parts : List String) : String :=
  name ++ "(" ++ String.intercalate ", " parts ++ ")"

/-- Entries in square brackets. -/
def entries (items : List String) : String := "[" ++ String.intercalate ", " items ++ "]"

/-- A row in braces, its labels quoted. -/
def row (fields : Row String) : String :=
  "\x7b" ++ String.intercalate ", " (fields.map fun f => Text.quoted f.1 ++ ": " ++ f.2) ++ "\x7d"

end RowLang.Outline

namespace RowLang

mutual

/-- A type in constructor form. -/
def Ty.outline : Ty → String
  | .number => "NumberType()"
  | .char => "CharType()"
  | .unit => "UnitType()"
  | .empty => "EmptyType()"
  | .var n => Outline.node "TypeVariable" [Decimal.natText n]
  | .arrow a b => Outline.node "Arrow" [a.outline, b.outline]
  | .list t => Outline.node "ListType" [t.outline]
  | .row k fields tail =>
    let name := match k with
      | .record => "RecordType"
      | .variant => "VariantType"
    Outline.node name [Outline.row (Ty.outlineOfFields fields), tail.outline]
  | .bind b n body =>
    let name := match b with
      | .mu => "MuType"
      | .forAll => "ForallType"
    Outline.node name [Decimal.natText n, body.outline]

/-- The fields of a row type in constructor form. -/
def Ty.outlineOfFields : List (Label × Ty) → Row String
  | [] => []
  | (l, t) :: fields => (l, t.outline) :: Ty.outlineOfFields fields

end

mutual

/-- A pattern in constructor form. -/
def Pattern.outline : Pattern → String
  | .name x => Outline.node "BindVar" [Text.quoted x]
  | .wildcard => "Wildcard()"
  | .row fields => Outline.node "RowPattern" [Outline.row (Pattern.outlineOfFields fields)]

/-- The fields of a row pattern in constructor form. -/
def Pattern.outlineOfFields : List (Label × Pattern) → Row String
  | [] => []
  | (l, p) :: fields => (l, p.outline) :: Pattern.outlineOfFields fields

end

mutual

/-- An expression in constructor form. -/
def Expr.outline : Expr → String
  | .number n => Outline.node "Number" [String.ofList n.chars]
  | .char c => Outline.node "Char" [Text.quoted (String.singleton c)]
  | .var x => Outline.node "Var" [Text.quoted x]
  | .op o => Outline.node "Op" [Text.quoted o.spelling]
  | .lambda p body => Outline.node "Lambda" [p.outline, body.outline]
  | .apply fn arg => Outline.node "Apply" [fn.outline, arg.outline]
  | .list elts => Outline.node "ListExp" [Outline.entries (Expr.outlines elts)]
  | .record fields =>
    Outline.node "RecordExp" [Outline.row (Expr.outlineOfFields fields), "False"]
  | .tuple items =>
    Outline.node "RecordExp" [Outline.row (Row.positional (Expr.outlines items)), "True"]
  | .dispatch handlers =>
    Outline.node "VariantExp" [Outline.row (Expr.outlineOfFields handlers)]
  | .tag l => Outline.node "Tag" [Text.quoted l]
  | .load name => Outline.node "Import" [Text.quoted name]
  | .ascribe declared e => Outline.node "Ascription" [declared.outline, e.outline]
  | .bindIn p bound body => Outline.node "Let" [p.outline, bound.outline, body.outline]

/-- Several expressions in constructor form. -/
def Expr.outlines : List Expr → List String
  | [] => []
  | e :: es => e.outline :: Expr.outlines es

/-- The fields of a record in constructor form. -/
def Expr.outlineOfFields : List (Label × Expr) → Row String
  | [] => []
  | (l, e) :: fields => (l, e.outline) :: Expr.outlineOfFields fields

end

end RowLang
