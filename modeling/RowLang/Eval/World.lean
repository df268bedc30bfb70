import RowLang.Lazy.Basic
import RowLang.Library
import RowLang.Report.Basic
import RowLang.Value.Fault

/-!
# Eval/World — what evaluation changes

Evaluation makes records and fills their cells, gives birth to values, loads modules and posts
issues.  All of that is one state, the world; `Evaluating` is the monad of what may change it and
fail, and a failure leaves the world as it was when it failed.
-/

namespace RowLang

/-- A record in the store: its lazy fields and the scope that they are evaluated in. -/
structure StoredRecord where
  scope : Env
  /-- Whether the fields see the record as `this`. -/
  seesItself : Bool
  row : LazyRow Code Value
  deriving Repr, Inhabited

/-- What the machine decides. -/
structure Machine where
  /-- The number of entries that there is no room for. -/
  room : Nat := 0x40000000
  /-- Where in the memory what has an origin is kept. -/
  address : Origin → Nat := Origin.birth

instance : Inhabited Machine := ⟨{}⟩

/-- The store and all else that lasts from one evaluation to the next. -/
structure World where
  /-- Records by address; the first is the empty record that verdicts share. -/
  records : Array StoredRecord := #[⟨.ofRoot none, false, []⟩]
  /-- The number of the next birth. -/
  births : Nat := 1
  library : Library := {}
  machine : Machine := {}
  resolvers : Array Resolver := #[]
  report : Report := {}
  /-- What was told of the work, latest line first. -/
  trace : List String := []
  deriving Inhabited

/-- Why an evaluation fails. -/
inductive Failure where
  | unboundName (name : String)
  | notAProcedure (shown : String)
  | missingField (l : Label) (shown : String)
  | unhandledTag (shown : String)
  | selfReferentialField (l : Label)
  | importFailed (name : String)
  /-- An operator refused its arguments. -/
  | refused (o : Operator) (fault : Fault)
  /-- A fault outside of any operator. -/
  | bare (fault : Fault)
  /-- The evaluation nests deeper than it is followed. -/
  | tooDeep
  | tooManyIssues
  deriving Repr, Inhabited

namespace Failure

/-- What is said of a failure. -/
def message : Failure → String
  | unboundName name => "Unbound variable: " ++ name
  | notAProcedure shown => "Cannot apply a non-function: " ++ shown
  | missingField l shown => "No field " ++ Text.quoted l ++ " in " ++ shown
  | unhandledTag shown => "No case for " ++ shown
  | selfReferentialField l => "Field " ++ Text.quoted l ++ " depends on itself"
  | importFailed name => "Cannot import " ++ Text.quoted name
  | refused o fault => o.spelling ++ " failed: " ++ fault.message
  | bare fault => fault.message
  | tooDeep => "This is nested too deeply for me to follow."
  | tooManyIssues => ""

end Failure

/-- Computations that change a state and may fail. -/
abbrev Running (σ α : Type) := ExceptT Failure (StateM σ) α

/-- Computations that change the world and may fail. -/
abbrev Evaluating (α : Type) := Running World α

namespace World

/-- A fault outside of any operator. -/
def faulty {σ α : Type} : Except Fault α → Running σ α
  | .ok x => return x
  | .error f => throw (.bare f)

/-- A birth of its own. -/
def birth : Evaluating Origin :=
  modifyGet fun w => ({ birth := w.births }, { w with births := w.births + 1 })

/-- How many entries there is no room for. -/
def room : Evaluating Nat := do return (← get).machine.room

/-- A new record. -/
def allocate (r : StoredRecord) : Evaluating Value :=
  modifyGet fun w => (.record w.records.size, { w with records := w.records.push r })

/-- Change the fields of a record. -/
def updateRow (address : Nat) (f : LazyRow Code Value → LazyRow Code Value) : Evaluating Unit :=
  modify fun w =>
    { w with records := w.records.modify address fun r => { r with row := f r.row } }

/-- Change a resolver. -/
def updateResolver (n : Nat) (f : Resolver → Resolver) : Evaluating Unit :=
  modify fun w => { w with resolvers := w.resolvers.modify n f }

/-- Post an issue. -/
def post (i : Issue) : Evaluating Unit := do
  modify fun w => { w with report := w.report.post i }
  if (← get).report.isFull then throw .tooManyIssues

/-- The fields of a record; an unknown address has none. -/
def row (w : World) (address : Nat) : LazyRow Code Value :=
  (w.records[address]?.map (·.row)).getD []

end World

end RowLang
