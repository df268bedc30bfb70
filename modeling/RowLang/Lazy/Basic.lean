import RowLang.Row.Basic

/-!
# Lazy/Basic — rows whose values are computed on first access

Each label of a lazy row has an initializer and a cell.  Reading a label whose cell is empty starts
its initializer; while it runs the cell is in progress, and a further read of the label is circular.
When it ends, its value is kept (`finish`), and when it fails the cell is empty again (`abandon`).
-/

namespace RowLang

/-- What is known of a label's value. -/
inductive Cell (α : Type) where
  | absent
  | inProgress
  | ready (x : α)
  deriving Repr, DecidableEq, Inhabited

/-- An initializer with its cell. -/
structure Slot (ι α : Type) where
  initializer : ι
  cell : Cell α
  deriving Repr

/-- A row of initializers and cells. -/
abbrev LazyRow (ι α : Type) := Row (Slot ι α)

/-- What reading a label comes to. -/
inductive Access (ι α : Type) where
  /-- There is no such label. -/
  | missing
  /-- Its value is asked for while it is computed. -/
  | circular
  | ready (x : α)
  /-- Its initializer has to be run. -/
  | start (initializer : ι)

namespace LazyRow

variable {ι α : Type}

/-- The lazy row of some initializers, nothing computed. -/
def ofRow (initializers : Row ι) : LazyRow ι α := initializers.mapValues fun i => ⟨i, .absent⟩

/-- What reading a label comes to. -/
def access (r : LazyRow ι α) (l : Label) : Access ι α :=
  match Row.get? r l with
  | none => .missing
  | some ⟨_, .inProgress⟩ => .circular
  | some ⟨_, .ready x⟩ => .ready x
  | some ⟨i, .absent⟩ => .start i

/-- The row with another cell for a label. -/
def setCell (r : LazyRow ι α) (l : Label) (c : Cell α) : LazyRow ι α :=
  r.map fun p => if p.1 = l then (p.1, { p.2 with cell := c }) else p

/-- The initializer of a label starts. -/
def start (r : LazyRow ι α) (l : Label) : LazyRow ι α := r.setCell l .inProgress

/-- The initializer of a label has ended with a value. -/
def finish (r : LazyRow ι α) (l : Label) (x : α) : LazyRow ι α := r.setCell l (.ready x)

/-- The initializer of a label has failed. -/
def abandon (r : LazyRow ι α) (l : Label) : LazyRow ι α := r.setCell l .absent

/-- The value of a label, if it is computed. -/
def computed? (r : LazyRow ι α) (l : Label) : Option α :=
  match Row.get? r l with
  | some ⟨_, .ready x⟩ => some x
  | _ => none

/-- The labels with their values, where they are computed. -/
def snapshot (r : LazyRow ι α) : Row (Option α) :=
  r.mapValues fun s => match s.cell with
    | .ready x => some x
    | _ => none

/-- The row in braces: values that are computed, and three dots for the others. -/
def shown (write : α → List Char) (r : LazyRow ι α) : List Char :=
  let fields := r.snapshot.map fun p =>
    p.1.toList ++ ':' :: ' ' :: match p.2 with
      | some x => write x
      | none => ['.', '.', '.']
  '{' :: List.intercalate [',', ' '] fields ++ ['}']

@[simp] theorem labels_setCell (r : LazyRow ι α) (l : Label) (c : Cell α) :
    Row.labels (r.setCell l c) = Row.labels r := by
  simp only [Row.labels, setCell, List.map_map]
  refine List.map_congr_left fun p _ => ?_
  simp only [Function.comp_apply]
  split <;> rfl

end LazyRow

end RowLang
