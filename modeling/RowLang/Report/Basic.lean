import RowLang.Report.Picture
import RowLang.Text.Quoted

/-!
# Report/Basic — the issues of a query

An issue says what went wrong, shows where if that is known, and may end with advice.  A report
takes issues up to a limit; the issue that reaches the limit is one too many to go on.
-/

namespace RowLang

/-- Something that went wrong. -/
structure Issue where
  intro : String
  picture : Option Picture := none
  footer : List String := []
  deriving DecidableEq, Repr, Inhabited

namespace Issue

/-- The lines of an issue; a blank line sets the intro apart from what follows it. -/
def lines (draw : Illustrator) (i : Issue) : List String :=
  let more := (i.picture.map fun p => String.ofList (p.chars draw)).toList ++ i.footer
  i.intro :: if more.isEmpty then [] else "" :: more

/-- An issue as text. -/
def text (i : Issue) (draw : Illustrator := .byLines) : String :=
  String.intercalate "\n" (i.lines draw)

/-- The picture of an offset, if there is one and it lies in the text. -/
def pictureOf (source : String) (offset : Option Nat) : Option Picture :=
  let cs := source.toList
  match offset with
  | some k => if k < cs.length then some (.ofOffset cs k) else none
  | none => none

/-- The hint as a footer; an empty hint is none. -/
def hintFooter : Option String → List String
  | none => []
  | some h => if h.isEmpty then [] else [h]

/-- A query failed. -/
def failure (source message : String) (offset : Option Nat) (hint : Option String) : Issue :=
  ⟨message, pictureOf source offset, hintFooter hint⟩

/-- A module's text cannot be read. -/
def brokenModule (name source message : String) (offset : Option Nat) (hint : Option String) :
    Issue :=
  ⟨"Module " ++ Text.quoted name ++ " could not be loaded: " ++ message, pictureOf source offset,
    hintFooter hint⟩

/-- There is no module of a name in the folder, if one was given. -/
def noSuchModule (name : String) (folder : Option String) : Issue :=
  ⟨"I see no module called " ++ Text.quoted name, none,
    [match folder with
      | some path => "(I looked in " ++ path ++ ")"
      | none => "(No folder of modules was given.)"]⟩

/-- A module is imported while it is being loaded. -/
def cyclicImport (name : String) (cycle : List String) : Issue :=
  ⟨"Importing " ++ Text.quoted name ++ " would begin a cycle of imports. That is an error.", none,
    " - The full cycle is:" :: (cycle ++ [name]).map ("     " ++ ·)⟩

end Issue

/-- The issues so far, and how many are too many. -/
structure Report where
  issues : List Issue := []
  limit : Nat := 10
  deriving Repr, Inhabited

namespace Report

/-- No issues. -/
def isHealthy (r : Report) : Bool := r.issues.isEmpty

/-- The report with one more issue. -/
def post (r : Report) (i : Issue) : Report := { r with issues := r.issues ++ [i] }

/-- Whether the last issue was one too many. -/
def isFull (r : Report) : Bool := r.issues.length = r.limit

/-- The report without its issues. -/
def clear (r : Report) : Report := { r with issues := [] }

@[simp] theorem issues_post (r : Report) (i : Issue) : (r.post i).issues = r.issues ++ [i] := rfl

@[simp] theorem isHealthy_clear (r : Report) : r.clear.isHealthy = true := rfl

end Report

end RowLang
