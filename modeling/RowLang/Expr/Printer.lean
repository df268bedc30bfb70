import RowLang.Expr.Basic
import RowLang.Pattern.Printer

/-!
# Expr/Printer — expressions as text

The text reads back to an equal expression.  Parentheses go by levels: a place of level `n` takes
any expression that binds at least as tightly.  The short forms are written where they apply:
projections, infix operators, texts, tuples and sequences.  An expression has no text if a type that
it declares has none (`unranked?`).
-/

namespace RowLang

/-- How tightly a place holds its expression. -/
abbrev Level := Nat

namespace Level

/-- Anything, also a `let` or a sequence. -/
def anything : Level := 0

/-- A lambda or an ascription. -/
def lambda : Level := 1

/-- An operand of an additive operator. -/
def additive : Level := 2

/-- An operand of a multiplicative operator. -/
def multiplicative : Level := 3

/-- The function of an application. -/
def application : Level := 4

/-- An atom. -/
def atom : Level := 5

end Level

namespace Operator

/-- The level of an infix operator. -/
def level? (o : Operator) : Option Level :=
  match o.fixity with
  | .additive => some Level.additive
  | .multiplicative => some Level.multiplicative
  | _ => none

end Operator

namespace Expr

/-- Whether an expression is a number, which a point behind it would change. -/
def isNumber : Expr → Bool
  | number _ => true
  | _ => false

/-- The text of a list of characters that can stand between double quotes. -/
def quotedText? : List Expr → Option (List Char)
  | [] => some []
  | char c :: es => if c = '"' then none else (quotedText? es).map (c :: ·)
  | _ :: _ => none

/-- A list as text, with the texts of its elements: a text in double quotes if they make up one. -/
def listText (elts : List Expr) (texts : List (List Char)) : List Char :=
  match elts, quotedText? elts with
  | _ :: _, some cs => '"' :: cs ++ ['"']
  | _, _ => '[' :: commaSeparated texts ++ [']']

/-- The operator and its level, if an application is an infix one. -/
def infixLevel? : Expr → Expr → Option (Operator × Level)
  | op o, tuple [_, _] => o.level?.map (o, ·)
  | _, _ => none

mutual

/-- An expression as text for a place of a level. -/
def render (level : Level) : Expr → List Char
  | number n => n.chars
  | char c => ['\'', c, '\'']
  | var x => x.toList
  | op o => if o.fixity = .word then o.spelling.toList else parenthesize true o.spelling.toList
  | lambda p body =>
    parenthesize (Level.lambda < level) (p.chars ++ " => ".toList ++ render Level.lambda body)
  | apply fn arg =>
    match projectedLabel? fn with
    | some l => parenthesize arg.isNumber (render Level.atom arg) ++ '.' :: l.toList
    | none =>
      match infixLevel? fn arg with
      | some (o, k) => parenthesize (k < level) (renderOperands k o arg)
      | none =>
        parenthesize (Level.application < level)
          (render Level.application fn ++ ' ' :: render Level.atom arg)
  | list elts => listText elts (renderAll elts)
  | record fields => '{' :: commaSeparated ((renderFields fields).map labelled) ++ ['}']
  | tuple items =>
    let texts := renderAll items
    if items.length ≠ 1 then parenthesize true (commaSeparated texts)
    else '{' :: commaSeparated ((Row.positional texts).map labelled) ++ ['}']
  | dispatch handlers => '<' :: commaSeparated ((renderFields handlers).map labelled) ++ ['>']
  | tag l => '#' :: l.toList
  | load name => "import ".toList ++ name.toList
  | ascribe declared e =>
    parenthesize (Level.lambda < level) (declared.chars ++ " : ".toList ++ render Level.lambda e)
  | bindIn p bound body =>
    parenthesize (Level.anything < level)
      (match p with
        | .wildcard =>
          render Level.lambda bound ++ "; ".toList ++ render Level.anything body
        | p =>
          "let ".toList ++ p.chars ++ " = ".toList ++ render Level.lambda bound ++ "; ".toList ++
            render Level.anything body)

/-- The operands of an operator of level `k` around it; the left one may be of the same level. -/
def renderOperands (k : Level) (o : Operator) : Expr → List Char
  | tuple [lhs, rhs] =>
    render k lhs ++ ' ' :: o.spelling.toList ++ ' ' :: render (k + 1) rhs
  | _ => []

/-- The expressions of a list or tuple as texts. -/
def renderAll : List Expr → List (List Char)
  | [] => []
  | e :: es => render Level.anything e :: renderAll es

/-- The fields as texts. -/
def renderFields : List (Label × Expr) → Row (List Char)
  | [] => []
  | (l, e) :: fields => (l, render Level.anything e) :: renderFields fields

end

mutual

/-- The trouble with the first type in an expression that has no text. -/
def unranked? : Expr → Option Label.Unranked
  | number _ => none
  | char _ => none
  | var _ => none
  | op _ => none
  | lambda _ body => unranked? body
  | apply fn arg => (unranked? fn).or (unranked? arg)
  | list elts => unrankedAmong elts
  | record fields => unrankedInFields fields
  | tuple items => unrankedAmong items
  | dispatch handlers => unrankedInFields handlers
  | tag _ => none
  | load _ => none
  | ascribe declared e => declared.unranked?.or (unranked? e)
  | bindIn _ bound body => (unranked? bound).or (unranked? body)

/-- The first such trouble in several expressions. -/
def unrankedAmong : List Expr → Option Label.Unranked
  | [] => none
  | e :: es => (unranked? e).or (unrankedAmong es)

/-- The first such trouble in the fields. -/
def unrankedInFields : List (Label × Expr) → Option Label.Unranked
  | [] => none
  | (_, e) :: fields => (unranked? e).or (unrankedInFields fields)

end

/-- An expression as text. -/
def chars (e : Expr) : List Char := e.render Level.anything

/-- An expression as a string. -/
def text (e : Expr) : String := String.ofList e.chars

end Expr

end RowLang
