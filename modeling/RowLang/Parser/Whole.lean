import RowLang.Decimal.Integer
import RowLang.Parser.Token

/-!
# Parser/Whole — reading a whole text

`whole p s` succeeds when exactly one reading of `p` leaves nothing but blanks.  When every reading
leaves something, the one that got furthest is blamed: the error holds what it left and where that
stands.
-/

namespace RowLang

/-- Why a text has no single complete reading. -/
inductive ParseError where
  /-- The text has no reading at all. -/
  | noReading
  /-- Every reading leaves something; `remainder` is the least, and stands at `offset`. -/
  | stuck (remainder : List Char) (offset : Nat)
  /-- Several readings are complete. -/
  | ambiguous (readings : Nat)
  /-- The parse was stopped. -/
  | halted (why : Halt)
  deriving DecidableEq, Repr, Inhabited

namespace ParseError

/-- What is shown of an error. -/
def message : ParseError → String
  | noReading => "Parse error"
  | stuck remainder _ => "Parse error at: \"" ++ String.ofList remainder ++ "\""
  | ambiguous n => "Ambiguous parse! (" ++ Decimal.natText n ++ " readings)"
  | halted .endless => ""
  | halted (.fault f) => f.message

/-- Where the trouble stands, if that is known. -/
def offset? : ParseError → Option Nat
  | stuck _ offset => some offset
  | _ => none

end ParseError

namespace Parser

variable {α : Type}

/-- The first of the shortest texts. -/
def shortestText : List (List Char) → List Char
  | [] => []
  | [s] => s
  | s :: more =>
    let t := shortestText more
    if s.length ≤ t.length then s else t

/-- The one reading of a whole text, trailing blanks aside. -/
def whole (p : Parser α) (s : List Char) : Except ParseError α :=
  match p.endedBy blanks s with
  | .error h => .error (.halted h)
  | .ok readings =>
    match readings.filter fun r => r.2.isEmpty with
    | [r] => .ok r.1
    | [] =>
      if readings.isEmpty then .error .noReading
      else
        let rest := Text.dropBlanks (shortestText (readings.map (·.2)))
        .error (.stuck rest (s.length - rest.length))
    | complete => .error (.ambiguous complete.length)

end Parser

end RowLang
