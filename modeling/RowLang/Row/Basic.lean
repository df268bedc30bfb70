import RowLang.Decimal.Integer

/-!
# Row/Basic — labels with values, in order

A row lists labels with values in the order in which the labels first came; no label comes twice in
a row built by `set`.  Tuples are the rows whose labels are the positions `0`, `1`, …
(`positional`). Records, variants, patterns and types all share this one form.
-/

namespace RowLang

/-- A label is an identifier or a position in decimal digits. -/
abbrev Label := String

/-- Labels with values, in the order of their first mention. -/
abbrev Row (α : Type) := List (Label × α)

namespace Row

variable {α β : Type}

/-- The labels of a row, in order. -/
def labels (r : Row α) : List Label := r.map (·.1)

/-- The value of a label. -/
def get? (r : Row α) (l : Label) : Option α := r.lookup l

/-- Whether a row has a label. -/
def has (r : Row α) (l : Label) : Bool := r.any (·.1 = l)

/-- The row with one more value.  A label that is there already keeps its place. -/
def set : Row α → Label → α → Row α
  | [], l, x => [(l, x)]
  | (k, y) :: r, l, x => if k = l then (k, x) :: r else (k, y) :: set r l x

/-- The row of some pairs.  A repeated label keeps its first place and takes its last value. -/
def ofPairs (ps : List (Label × α)) : Row α := ps.foldl (fun r p => r.set p.1 p.2) []

/-- The row with its values changed. -/
def mapValues (f : α → β) (r : Row α) : Row β := r.map fun p => (p.1, f p.2)

/-- The labels of `r` that `other` lacks. -/
def difference (f : α → β) (r : Row α) (other : Row α) : Row β :=
  mapValues f (r.filter fun p => !other.has p.1)

/-- The labels of both, with `f` of the two values. -/
def intersect (f : α → α → β) (r other : Row α) : Row β :=
  r.filterMap fun p => (other.get? p.1).map fun y => (p.1, f p.2 y)

/-- The labels of either; where both have one, `f` of the two values. -/
def union (f : α → α → α) (r other : Row α) : Row α :=
  other.foldl (fun acc p => acc.set p.1 (match acc.get? p.1 with
    | some x => f x p.2
    | none => p.2)) r

/-- The label of a position. -/
def position (i : Nat) : Label := Decimal.natText i

/-- The row of a tuple from its first position on. -/
def positionalFrom : Nat → List α → Row α
  | _, [] => []
  | i, x :: xs => (position i, x) :: positionalFrom (i + 1) xs

/-- The row of a tuple: its labels are the positions. -/
def positional (xs : List α) : Row α := positionalFrom 0 xs

/-- Whether the labels are exactly the positions below the length, in any order. -/
def isPositional (r : Row α) : Bool :=
  let positions := (List.range r.length).map position
  r.labels.all positions.contains && positions.all r.labels.contains

@[simp] theorem length_mapValues (f : α → β) (r : Row α) : (r.mapValues f).length = r.length :=
  List.length_map ..

@[simp] theorem labels_mapValues (f : α → β) (r : Row α) : (r.mapValues f).labels = r.labels := by
  simp [mapValues, labels, List.map_map, Function.comp_def]

end Row

end RowLang
