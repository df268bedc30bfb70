import RowLang.Row.Basic
import RowLang.Text.Quoted

/-!
# Row/Order — rows in the order of their labels

Positions come before names; positions stand in numeric order, names in the order of their code
points.  Sorting keeps labels of equal rank (`0` and `00`) in the order in which the row has them.
-/

namespace RowLang

namespace Label

/-- What a label is sorted by. -/
inductive Rank where
  | position (n : Nat)
  | name (l : Label)
  deriving DecidableEq, Repr

/-- The rank of a label: digits only make it a position. -/
def rank (l : Label) : Rank :=
  let cs := l.toList
  if !cs.isEmpty && cs.all Text.isDecimal then .position (Decimal.natOfDigits cs) else .name l

/-- A rank that comes no later than another. -/
def Rank.le : Rank → Rank → Bool
  | .position m, .position n => m ≤ n
  | .position _, .name _ => true
  | .name _, .position _ => false
  | .name a, .name b => !(b < a)

/-- Why a label has no rank. -/
inductive Unranked where
  /-- It looks like a number and denotes none. -/
  | stray (l : Label)
  /-- It has more digits than an integer may have. -/
  | long (digits : Nat)
  deriving DecidableEq, Repr

/-- What is said of a label without a rank. -/
def Unranked.message : Unranked → String
  | .stray l =>
    "invalid literal for int() with base 10: " ++ Text.quotedBriefly (l.toList.map Char.toNat)
  | .long digits => Decimal.readLimitText digits

/-- The trouble with a label that looks like a number and is not a readable one. -/
def unranked? (l : Label) : Option Unranked :=
  let cs := l.toList
  let digits := cs.takeWhile Text.isDecimal
  if cs.isEmpty || !cs.all Text.isDigitLike then none
  else if Decimal.digitLimit < digits.length then some (.long digits.length)
  else if digits.length < cs.length then some (.stray l)
  else none

end Label

namespace Row

variable {α : Type}

/-- Put a label in its place before the first one that does not come before it. -/
def insertSorted (p : Label × α) : Row α → Row α
  | [] => [p]
  | q :: r => if (Label.rank p.1).le (Label.rank q.1) then p :: q :: r else q :: insertSorted p r

/-- The row in the order of its labels. -/
def sorted : Row α → Row α
  | [] => []
  | p :: r => insertSorted p (sorted r)

/-- The values in the order of their labels. -/
def sortedValues (r : Row α) : List α := r.sorted.map (·.2)

/-- The first label that has no rank. -/
def unranked? (r : Row α) : Option Label.Unranked := r.labels.findSome? Label.unranked?

end Row

end RowLang
