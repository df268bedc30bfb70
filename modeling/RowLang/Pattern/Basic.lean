import RowLang.Row.Basic

/-!
# Pattern/Basic — the left sides of bindings

A pattern is a name, `_`, or a row of patterns for the fields of a record; a tuple of patterns is
the row of its positions.
-/

namespace RowLang

/-- What a binding takes apart. -/
inductive Pattern where
  | name (x : String)
  | wildcard
  | row (fields : List (Label × Pattern))
  deriving Repr, Inhabited

namespace Pattern

mutual

/-- The same pattern, fields compared as mappings from labels. -/
@[grind] def same : Pattern → Pattern → Bool
  | name x, name y => x = y
  | wildcard, wildcard => true
  | row fields, row fields' => fields.length = fields'.length && sameFields fields fields'
  | _, _ => false

/-- Every field of the first row is in the second. -/
@[grind] def sameFields : List (Label × Pattern) → List (Label × Pattern) → Bool
  | [], _ => true
  | (l, p) :: fields, others =>
    (match others.lookup l with
      | some p' => same p p'
      | none => false) && sameFields fields others

end

mutual

/-- The names that a pattern binds, in order. -/
def names : Pattern → List String
  | name x => [x]
  | wildcard => []
  | row fields => namesOfFields fields

/-- The names that the fields bind. -/
def namesOfFields : List (Label × Pattern) → List String
  | [] => []
  | (_, p) :: fields => names p ++ namesOfFields fields

end

end Pattern

end RowLang
