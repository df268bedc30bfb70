import RowLang.Row.Order
import RowLang.Ty.Basic

/-!
# Ty/Printer — types as text

`render` writes a type with a given name for each variable.  Labels come in order, so that equal
types have equal texts, and closed records of two or more positions are written as tuples.  Two
namings are in use: `chars` gives every variable its own fixed name, and `prettyChars` names the
variables `a`, `b`, … in the order in which they appear.

A label without a rank has no place among the others, so a type that holds one has no text
(`unranked?`); whoever writes a type that may hold one asks for that first.
-/

namespace RowLang

/-- Text in parentheses, if they are needed. -/
def parenthesize (needed : Bool) (cs : List Char) : List Char :=
  if needed then '(' :: cs ++ [')'] else cs

/-- Texts with a comma and a space between them. -/
def commaSeparated (texts : List (List Char)) : List Char := List.intercalate [',', ' '] texts

/-- A label with its text behind a colon. -/
def labelled (p : Label × List Char) : List Char := p.1.toList ++ ':' :: ' ' :: p.2

/-- The brackets of a kind of row. -/
def RowKind.brackets : RowKind → Char × Char
  | .record => ('{', '}')
  | .variant => ('<', '>')

/-- The word of a binder. -/
def Binder.word : Binder → String
  | .mu => "mu"
  | .forAll => "forall"

namespace Ty

/-! ## Names of variables -/

/-- The fixed name of a variable: a letter below 26, else its number. -/
def ownName (n : Nat) : List Char :=
  if n < 26 then [Char.ofNat (97 + n)] else Decimal.natChars n

/-- The `n`-th name of `a`, …, `z`, `aa`, `ab`, …, by at most `fuel` letters. -/
def letterNameWithin : Nat → Nat → List Char
  | 0, _ => []
  | _ + 1, 0 => []
  | fuel + 1, n + 1 => letterNameWithin fuel (n / 26) ++ [Char.ofNat (97 + n % 26)]

/-- The `n`-th name of `a`, …, `z`, `aa`, `ab`, …, counted from one. -/
def letterName (n : Nat) : List Char := letterNameWithin n n

/-- The name that a variable has by its place among others. -/
def nameAmong (vs : List Nat) (n : Nat) : List Char := letterName (vs.idxOf n + 1)

/-! ## Rendering -/

mutual

/-- A type as text; `nested` calls for parentheses around arrows and binders. -/
@[grind] def render (name : Nat → List Char) (nested : Bool) : Ty → List Char
  | number => ['N']
  | char => ['C']
  | unit => ['{', '}']
  | empty => ['<', '>']
  | var n => name n
  | arrow a b => parenthesize nested (render name true a ++ " -> ".toList ++ render name false b)
  | list t => '[' :: render name false t ++ [']']
  | row k fields tail =>
    let texts := renderFields name fields
    if k = .record && 1 < fields.length && Row.isPositional fields && isEnd k tail then
      parenthesize true (commaSeparated (Row.sortedValues texts))
    else
      k.brackets.1 :: commaSeparated ((Row.sorted texts).map labelled) ++
        (if isEnd k tail then [] else " | ".toList ++ render name false tail) ++ [k.brackets.2]
  | bind b n body =>
    parenthesize nested (b.word.toList ++ ' ' :: name n ++ ". ".toList ++ render name false body)

/-- The fields as texts, in the order of the row. -/
def renderFields (name : Nat → List Char) : List (Label × Ty) → Row (List Char)
  | [] => []
  | (l, t) :: fields => (l, render name false t) :: renderFields name fields

end

mutual

/-- The variables in the order in which `render` names them, with repetitions. -/
def appearances : Ty → List Nat
  | number => []
  | char => []
  | unit => []
  | empty => []
  | var n => [n]
  | arrow a b => appearances a ++ appearances b
  | list t => appearances t
  | row _ fields tail => (Row.sortedValues (appearancesOfFields fields)).flatten ++ appearances tail
  | bind _ n body => n :: appearances body

/-- The variables of each field. -/
def appearancesOfFields : List (Label × Ty) → Row (List Nat)
  | [] => []
  | (l, t) :: fields => (l, appearances t) :: appearancesOfFields fields

end

/-! ## Types without a text -/

mutual

/-- The trouble with the first label without a rank, in the order in which `render` comes to them:
first those of a row, then those in its fields, then those in its tail. -/
def unranked? : Ty → Option Label.Unranked
  | number => none
  | char => none
  | unit => none
  | empty => none
  | var _ => none
  | arrow a b => (unranked? a).or (unranked? b)
  | list t => unranked? t
  | row _ fields tail =>
    (Row.unranked? fields).or
      (((Row.sortedValues (unrankedOfFields fields)).findSome? id).or (unranked? tail))
  | bind _ _ body => unranked? body

/-- The trouble in each field. -/
def unrankedOfFields : List (Label × Ty) → Row (Option Label.Unranked)
  | [] => []
  | (l, t) :: fields => (l, unranked? t) :: unrankedOfFields fields

end

/-! ## The two namings -/

/-- A type with every variable under its own name. -/
def chars (t : Ty) : List Char := t.render ownName false

/-- A type with every variable under its own name, as a string. -/
def text (t : Ty) : String := String.ofList t.chars

/-- A type with its variables named in the order of appearance. -/
def prettyChars (t : Ty) : List Char := t.render (nameAmong t.appearances.eraseDups) false

/-- A type with its variables named in the order of appearance, as a string. -/
def pretty (t : Ty) : String := String.ofList t.prettyChars

/-- Two types with their variables named in the order of appearance in both. -/
def prettyPair (s t : Ty) : String × String :=
  let name := nameAmong (s.appearances ++ t.appearances).eraseDups
  (String.ofList (s.render name false), String.ofList (t.render name false))

theorem renderFields_eq_map (name : Nat → List Char) (fields : Row Ty) :
    renderFields name fields = Row.mapValues (render name false) fields := by
  induction fields with
  | nil => rfl
  | cons f fields ih => simp [renderFields, ih, Row.mapValues]

end Ty

end RowLang
