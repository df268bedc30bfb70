import RowLang.Lazy.Basic

/-!
# Lazy/Reader — initializers that read their own row

A `Reader` is an initializer that may read any labels of its row, look at how each read went, and
then give a value or fail; so it can recover from a failed read.  `read` reads a label from outside
and follows the initializers that this starts.  They nest no deeper than the row has labels, since
each that runs has its own label in progress.
-/

namespace RowLang

/-- An initializer: it gives a value or fails, after any reads of its row. -/
inductive Reader (ε α : Type) where
  | give (result : Except ε α)
  | read (l : Label) (next : Except ε α → Reader ε α)

/-- How a read can fail on its own account. -/
class ReadFailure (ε : Type) where
  missing : Label → ε
  circular : Label → ε

namespace LazyRow

variable {ε α : Type}

/-- A row of readers with the labels whose initializers were started, latest first. -/
structure Reading (ε α : Type) where
  row : LazyRow (Reader ε α) α
  started : List Label := []

/-- Run an initializer, given how labels are read. -/
def runReader (read : Label → StateM (Reading ε α) (Except ε α)) :
    Reader ε α → StateM (Reading ε α) (Except ε α)
  | .give result => return result
  | .read l next => do
    let r ← read l
    runReader read (next r)

/-- Read a label, following at most `depth` nested initializers. -/
def readWithin [ReadFailure ε] : Nat → Label → StateM (Reading ε α) (Except ε α)
  | 0, l => return .error (ReadFailure.circular l)
  | depth + 1, l => do
    match (← get).row.access l with
    | .missing => return .error (ReadFailure.missing l)
    | .circular => return .error (ReadFailure.circular l)
    | .ready x => return .ok x
    | .start initializer =>
      modify fun s => { row := s.row.start l, started := l :: s.started }
      let result ← runReader (readWithin depth) initializer
      modify fun s => { s with row := match result with
        | .ok x => s.row.finish l x
        | .error _ => s.row.abandon l }
      return result

/-- **Read a label**, computing its value if need be. -/
def read [ReadFailure ε] (l : Label) : StateM (Reading ε α) (Except ε α) := do
  readWithin ((← get).row.length + 1) l

end LazyRow

end RowLang
