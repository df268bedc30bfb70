/-!
# Location — where a file is

A location is a list of steps from the root or from wherever one stands.  Empty steps and steps that
stay where they are (`.`) do not count; a step up (`..`) is kept, since only the file system knows
where it leads.
-/

namespace RowLang

/-- A location: the slashes before the first step, and the steps. -/
structure Location where
  root : String := ""
  steps : List String := []
  deriving DecidableEq, Repr, Inhabited

namespace Location

/-- What stands between the slashes of a text. -/
def pieces : List Char → List (List Char)
  | [] => [[]]
  | c :: s =>
    if c = '/' then [] :: pieces s
    else
      match pieces s with
      | [] => [[c]]
      | p :: ps => (c :: p) :: ps

/-- The slashes that a text begins with; two of them differ from one, but more than two do not. -/
def rootOf : List Char → String
  | '/' :: '/' :: '/' :: _ => "/"
  | '/' :: '/' :: _ => "//"
  | '/' :: _ => "/"
  | _ => ""

/-- Whether a step leads anywhere. -/
def leads (step : List Char) : Bool := step ≠ [] && step ≠ ['.']

/-- The location that a text tells. -/
def ofText (text : String) : Location :=
  ⟨rootOf text.toList, ((pieces text.toList).filter leads).map String.ofList⟩

/-- The text of a location. -/
def text (l : Location) : String :=
  if l.root.isEmpty && l.steps.isEmpty then "." else l.root ++ String.intercalate "/" l.steps

/-- Whether there can be a file: no name on the way holds a null character. -/
def isPossible (l : Location) : Bool := l.steps.all fun step => !step.toList.contains '\x00'

/-- A location as seen from another one: one that begins at the root is the same from everywhere. -/
def within (base l : Location) : Location :=
  if l.root.isEmpty then ⟨base.root, base.steps ++ l.steps⟩ else l

/-- The folder of a file. -/
def folder (l : Location) : Location := { l with steps := l.steps.dropLast }

/-- **It does not matter where one stops on the way.** -/
theorem within_assoc (a b c : Location) : within (within a b) c = within a (within b c) := by
  by_cases hb : b.root.isEmpty <;> by_cases hc : c.root.isEmpty <;> simp [within, hb, hc]

end Location

end RowLang
