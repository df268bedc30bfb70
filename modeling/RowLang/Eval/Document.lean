import RowLang.Json.Document
import RowLang.Value.Basic

/-!
# Eval/Document — values as documents

What a tuple holds is written as it is, and what has no JSON form there cannot be written.
Elsewhere a function becomes a marker, and so does a record that is met again inside itself.
-/

namespace RowLang

namespace Value

mutual

/-- A value as it is. -/
def asItIs : Value → Document
  | int _ i => .int i
  | real _ x => .real x
  | text _ codes => .text codes
  | list _ items => .array (asTheyAre items)
  | tuple _ items => .array (asTheyAre items)
  | tagged _ ⟨l, _⟩ payload => .array [.ofString l, asItIs payload]
  | record a => .alien (Value.kind (record a))
  | v => .alien v.kind

/-- Values as they are. -/
def asTheyAre : List Value → List Document
  | [] => []
  | v :: vs => asItIs v :: asTheyAre vs

end

end Value

namespace Eval

/-- What stands for a record inside itself. -/
def cycleMarker : Document := .ofString "<cycle>"

/-- What stands for a function. -/
def functionMarker : Document := .ofString "<function>"

end Eval

end RowLang
