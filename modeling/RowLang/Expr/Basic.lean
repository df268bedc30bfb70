import RowLang.Binary64.Decimal
import RowLang.Operator
import RowLang.Pattern.Basic

/-!
# Expr/Basic — the expressions of the language

A program is one expression.  Several forms of the surface are short for others: a text is a list of
characters, `e.l` applies a function that picks the field `l`, an infix operator is applied to the
pair of its operands, and `e; f` is a `let` that binds nothing.
-/

namespace RowLang

/-- A number as it stands in a program. -/
inductive Numeral where
  | int (i : Int)
  | real (x : Binary64)
  deriving DecidableEq, Repr, Inhabited

namespace Numeral

/-- The written form of a number. -/
def chars : Numeral → List Char
  | int i => Decimal.intChars i
  | real x => x.chars

/-- Equal numbers; an integer may equal a real. -/
@[grind] def same : Numeral → Numeral → Bool
  | int i, int j => i = j
  | real x, real y => x.compare? y = some .eq
  | int i, real y => y.compareInt? i = some .eq
  | real x, int j => x.compareInt? j = some .eq

end Numeral

/-- Expressions. -/
inductive Expr where
  | number (n : Numeral)
  | char (c : Char)
  | var (x : String)
  | op (o : Operator)
  | lambda (p : Pattern) (body : Expr)
  | apply (fn arg : Expr)
  | list (elts : List Expr)
  /-- Fields in braces, which see the record as `this`. -/
  | record (fields : List (Label × Expr))
  /-- The record of the positions, which does not. -/
  | tuple (items : List Expr)
  /-- A function by cases: a handler for each label of a tagged argument. -/
  | dispatch (handlers : List (Label × Expr))
  /-- The function that puts a label on its argument. -/
  | tag (l : Label)
  | load (name : String)
  | ascribe (declared : Ty) (e : Expr)
  | bindIn (p : Pattern) (bound body : Expr)
  deriving Repr, Inhabited

namespace Expr

/-! ## Short forms -/

/-- The name under which a projection holds its field. -/
def projectionName (l : Label) : String := if l.toList.all Text.isLetter then l else "it"

/-- The field `l` of an expression. -/
def project (e : Expr) (l : Label) : Expr :=
  apply (lambda (.row [(l, .name (projectionName l))]) (var (projectionName l))) e

/-- The label that a function picks, if it is the function of a projection. -/
def projectedLabel? : Expr → Option Label
  | lambda (.row [(l, .name x)]) (var y) =>
    if x = projectionName l && y = projectionName l then some l else none
  | _ => none

/-- An operator between its operands. -/
def binary (o : Operator) (lhs rhs : Expr) : Expr := apply (op o) (tuple [lhs, rhs])

/-- One expression after another. -/
def andThen (first next : Expr) : Expr := bindIn .wildcard first next

/-- The list of the characters of a text. -/
def ofChars (cs : List Char) : Expr := list (cs.map char)

/-- One expression in parentheses is that expression; otherwise they are a tuple. -/
def ofItems : List Expr → Expr
  | [e] => e
  | es => tuple es

/-- What a word means: an operator, or else a variable. -/
def ofWord (w : String) : Expr :=
  match Operator.ofWord? w with
  | some o => op o
  | none => var w

/-! ## Equality up to the order of fields -/

mutual

/-- The same expression: fields compared as mappings from labels, numbers by value. -/
@[grind] def same : Expr → Expr → Bool
  | number m, number n => m.same n
  | char c, char d => c = d
  | var x, var y => x = y
  | op o, op o' => o = o'
  | lambda p e, lambda q f => p.same q && same e f
  | apply e f, apply e' f' => same e e' && same f f'
  | list es, list fs => sameAll es fs
  | record fields, record fields' =>
    fields.length = fields'.length && sameFields fields fields'
  | tuple es, tuple fs => sameAll es fs
  | dispatch handlers, dispatch handlers' =>
    handlers.length = handlers'.length && sameFields handlers handlers'
  | tag l, tag l' => l = l'
  | load m, load n => m = n
  | ascribe t e, ascribe u f => t.same u && same e f
  | bindIn p e f, bindIn q e' f' => p.same q && same e e' && same f f'
  | _, _ => false

/-- The same expressions, one by one. -/
@[grind] def sameAll : List Expr → List Expr → Bool
  | [], [] => true
  | e :: es, f :: fs => same e f && sameAll es fs
  | _, _ => false

/-- Every field of the first row is in the second. -/
@[grind] def sameFields : List (Label × Expr) → List (Label × Expr) → Bool
  | [], _ => true
  | (l, e) :: fields, others =>
    (match others.lookup l with
      | some f => same e f
      | none => false) && sameFields fields others

end

end Expr

end RowLang
