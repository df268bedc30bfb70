import RowLang.Eval.Basic
import RowLang.Typing.Infer

/-!
# Session — questions about programs, answered with texts

A session answers what type a program has and what its value is.  A failure becomes the text of the
answer, and an issue in the report shows where it happened if that is known.  Only two things are no
answer (`Escape`): a fault outside of every operator, and an issue too many.
-/

namespace RowLang

/-- A failure that is told in an answer. -/
inductive Trouble where
  | unreadable (e : ParseError)
  | untyped (e : TypeFailure)
  | failed (e : Failure)
  | nestedTooDeeply
  deriving Repr, Inhabited

namespace Trouble

/-- What is said of a failure. -/
def message : Trouble → String
  | unreadable e => e.message
  | untyped e => e.message
  | failed e => e.message
  | nestedTooDeeply => "This is nested too deeply for me to follow."

/-- Where the failure stands in the program, if that is known. -/
def offset? : Trouble → Option Nat
  | unreadable e => e.offset?
  | _ => none

/-- The hint about a failure. -/
def hint? : Trouble → Option String
  | unreadable (.stuck remainder _) => Grammar.hint? remainder
  | _ => none

end Trouble

/-- What is no answer. -/
inductive Escape where
  | fault (f : Fault)
  | tooManyIssues
  deriving Repr, Inhabited

/-- The text of an answer, with the failure that it tells of. -/
structure Answer where
  text : String
  trouble : Option Trouble := none
  deriving Repr, Inhabited

/-- A session: the world of its evaluations and the solver of its last question about types. -/
structure Session where
  world : World := {}
  /-- The resolver of its imports; without one they are refused. -/
  resolver : ImportRoot := none
  solver : Solver := {}
  deriving Inhabited

/-- What a session does. -/
abbrev Acting (α : Type) := ExceptT Escape (StateM Session) α

namespace Session

/-- The issues of the last question. -/
def issues (s : Session) : List Issue := s.world.report.issues

/-- Change the report. -/
def onReport (f : Report → Report) : Acting Unit :=
  modify fun s => { s with world := { s.world with report := f s.world.report } }

/-- Post an issue; one too many is no answer. -/
def post (i : Issue) : Acting Unit := do
  onReport fun r => r.post i
  if (← get).world.report.isFull then throw .tooManyIssues

/-- Tell a failure, of which the report shows where in `source` it stands. -/
def complain (source : String) (t : Trouble) : Acting Answer := do
  post (.failure source t.message t.offset? t.hint?)
  return ⟨t.message, some t⟩

/-- Run a solving operation on the session's solver. -/
def onSolver {α : Type} (m : Solving α) : Acting (Except TypeFailure α) := do
  let s ← get
  let (result, solver) := m.run s.solver
  set { s with solver := solver }
  return result

/-- Run an evaluation in the session's world. -/
def onWorld {α : Type} (m : Evaluating α) : Acting (Except Failure α) := do
  let s ← get
  let (result, world) := m.run s.world
  set { s with world := world }
  return result

/-- Tell a failure of typing.  That a type has no text is no answer. -/
def complainOfType (source : String) : TypeFailure → Acting Answer
  | .unwritable why => throw (.fault (.unranked why))
  | .tooDeep => complain source .nestedTooDeeply
  | e => complain source (.untyped e)

/-- Forget all about the last question about types. -/
def reset : Acting Unit := modify fun s => { s with solver := {} }

/-- Read a program, and tell why it cannot be read. -/
def reading (source : String) (next : Expr → Acting Answer) : Acting Answer :=
  match Expr.parse source.toList with
  | .ok e => next e
  | .error (.halted (.fault f)) => throw (.fault f)
  | .error (.halted .endless) => complain source .nestedTooDeeply
  | .error e => complain source (.unreadable e)

/-- The text of the type under study. -/
def lastType : Acting String := do
  match (← get).solver.lastType with
  | none => return ""
  | some t =>
    match t.unranked? with
    | some why => throw (.fault (.unranked why))
    | none => return t.pretty

/-- **The type of a program**, or its raw type with the equations still pending. -/
def typeOf (source : String) (solve : Bool) : Acting Answer := do
  reset
  onReport Report.clear
  reading source fun e => do
    let result ← onSolver do
      let t ← Solver.infer Solver.depthLimit e
      modify fun st => st.studying t
      if solve then Solver.solve Solver.depthLimit
    match result with
    | .ok () => return ⟨← lastType, none⟩
    | .error e => complainOfType source e

/-- Work on the pending equations; without a type under study there is nothing to do. -/
def solving (m : Solving Unit) : Acting Answer := do
  if (← get).solver.lastType.isNone then return ⟨"", none⟩
  match ← onSolver m with
  | .ok () => return ⟨← lastType, none⟩
  | .error e => complainOfType "" e

/-- One pass over the pending equations. -/
def solveStep : Acting Answer := solving (Solver.solveStep Solver.depthLimit)

/-- All passes over the pending equations. -/
def solveFull : Acting Answer := solving (Solver.solve Solver.depthLimit)

/-- The pending equations under a heading. -/
def equationLog (s : Session) : List String := s.solver.equationLog

/-- The value of a program, as text. -/
def valueTextBy {σ : Type} (h : Host σ) (root : ImportRoot) (e : Expr) : Running σ String := do
  let evaluation := Eval.within h Eval.depthLimit
  let v ← evaluation.eval (.ofRoot root) ⟨← h.plainly World.birth, e⟩
  Eval.toTextBy evaluation v

/-- The value of a program, as text. -/
def valueText : ImportRoot → Expr → Evaluating String := valueTextBy .plain

/-- **The value of a program** as JSON text. -/
def evaluate (source : String) : Acting Answer := do
  onReport Report.clear
  reading source fun e => do
    match ← onWorld (valueText (← get).resolver e) with
    | .ok text => return ⟨text, none⟩
    | .error (.bare fault) => throw (.fault fault)
    | .error .tooManyIssues => throw .tooManyIssues
    | .error .tooDeep => complain source .nestedTooDeeply
    | .error e => complain source (.failed e)

/-- Define a module. -/
def define (name source : String) : Acting Unit :=
  modify fun s =>
    { s with world := { s.world with library := s.world.library.define name source } }

/-- Begin anew with no module loaded. -/
def refresh : Acting Unit :=
  modify fun s =>
    { s with
      resolver := some s.world.resolvers.size
      world := { s.world with resolvers := s.world.resolvers.push {} } }

/-- A session on some modules, run by a machine. -/
def ofLibrary (lib : Library) (machine : Machine := {}) : Session :=
  { world := { library := lib, machine, resolvers := #[{}] }, resolver := some 0 }

end Session

end RowLang
