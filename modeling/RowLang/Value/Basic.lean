import RowLang.Binary64.Basic
import RowLang.Scope
import RowLang.Value.Origin

/-!
# Value/Basic — what programs compute

Values are dynamic: an operator meets any of them.  Records live in a store and are known by their
address; any other value that is not the only one of its content has an origin.  A text is a list of
code points, which may be lone surrogates.
-/

namespace RowLang

/-- Where imports are resolved: nowhere, or by a resolver of the library. -/
abbrev ImportRoot := Option Nat

/-- Values. -/
inductive Value where
  | int (origin : Origin) (i : Int)
  | real (origin : Origin) (x : Binary64)
  | text (origin : Origin) (codes : List Nat)
  | list (origin : Origin) (items : List Value)
  /-- What joining or repeating tagged values makes of them. -/
  | tuple (origin : Origin) (items : List Value)
  | tagged (origin : Origin) (tag : Tag) (payload : Value)
  | record (address : Nat)
  | operator (o : Operator)
  /-- An operator that waits for more arguments. -/
  | waiting (origin : Origin) (o : Operator) (args : List Value)
  /-- The function that puts a label on its argument. -/
  | tagger (origin : Origin) (tag : Tag)
  | closure (origin : Origin) (scope : Scope ImportRoot Value) (p : Pattern) (body : Code)
  | dispatcher (origin : Origin) (scope : Scope ImportRoot Value) (handlers : List (Label × Code))
  deriving Repr, Inhabited

/-- The scope of an expression. -/
abbrev Env := Scope ImportRoot Value

namespace Value

/-- A text of characters. -/
def ofString (origin : Origin) (s : String) : Value := .text origin (s.toList.map Char.toNat)

/-- The address of the empty record that all verdicts share. -/
def sharedEmpty : Nat := 0

/-- A verdict: `#true` or `#false` with the shared empty record.  Their labels are always there. -/
def verdict (origin : Origin) (b : Bool) : Value :=
  .tagged origin ⟨if b then "true" else "false", .before⟩ (.record sharedEmpty)

/-- Whether a value can be applied. -/
def isProcedure : Value → Bool
  | operator _ | waiting .. | tagger .. | closure .. | dispatcher .. => true
  | _ => false

/-- The name of a value's kind in messages. -/
def kind : Value → String
  | int .. => "int"
  | real .. => "float"
  | text .. => "str"
  | list .. => "list"
  | tuple .. => "tuple"
  | tagged .. => "Tagged"
  | record _ => "LazyRecord"
  | operator _ | waiting .. => "Primitive"
  | tagger .. => "TagConstructor"
  | closure .. => "Closure"
  | dispatcher .. => "Dispatcher"

/-- The entries of a tuple; a tagged value is the pair of its label and its payload. -/
def tupleItems? : Value → Option (List Value)
  | tuple _ items => some items
  | tagged _ t payload => some [ofString t.origin t.label, payload]
  | _ => none

end Value

end RowLang
