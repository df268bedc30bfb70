import RowLang.Ty.Printer

/-!
# Solver/Basic — the state of solving

A solver holds the equations that still pin a variable down, in the order in which they were posted.
Each is known by its text, so an equation is pending once.  `Solving` is the monad of its
operations: a failure leaves the state as it was when it failed.  A `Manner` says how these
operations are done, how types are flattened and how variables are replaced: the solver proper just
does so, and one that keeps an account of it is the same solver in another manner.
-/

namespace RowLang

/-- Why a type cannot be found. -/
inductive TypeFailure where
  | unbound (name : String)
  | mismatch (this that : Ty)
  /-- A type has no text to be known by. -/
  | unwritable (why : Label.Unranked)
  /-- Binders directly under binders never come to an end. -/
  | endlessUnfolding (key : String)
  | tooManyPasses
  /-- The comparison of two types nests deeper than it is followed. -/
  | tooDeep
  deriving Repr, Inhabited

/-- What is said of a failure. -/
def TypeFailure.message : TypeFailure → String
  | unbound name => "Unbound variable: " ++ name
  | mismatch this that =>
    let (s, t) := Ty.prettyPair this that
    "Type error: cannot match " ++ s ++ " with " ++ t
  | unwritable why => why.message
  | endlessUnfolding key => "Recursive type unfolds without end: " ++ key
  | tooManyPasses => "Maximum iterations exceeded"
  | tooDeep => "This is nested too deeply for me to follow."

/-- A variable and the type that it shall be. -/
structure Equation where
  var : Nat
  type : Ty
  /-- The text by which the equation is known. -/
  key : String
  key_eq : key = String.ofList (Ty.ownName var) ++ " = " ++ type.text

namespace Equation

/-- The equation of a variable with a type. -/
def of (n : Nat) (t : Ty) : Equation := ⟨n, t, String.ofList (Ty.ownName n) ++ " = " ++ t.text, rfl⟩

/-- A variable that shall be itself. -/
def isTrivial (e : Equation) : Bool :=
  match e.type with
  | .var n => n = e.var
  | _ => false

/-- One more pending equation.  One that is pending already keeps its place. -/
def post : List Equation → Equation → List Equation
  | [], e => [e]
  | d :: ds, e => if d.key = e.key then e :: ds else d :: post ds e

end Equation

/-- The state of one query. -/
structure Solver where
  /-- The number of the next fresh variable; below 26 are the letters of the surface. -/
  counter : Nat := 26
  /-- The texts of the equalities considered since the last pass began. -/
  visited : List String := []
  /-- The equations that remain. -/
  pending : List Equation := []
  /-- The type under study, kept up to date by each pass. -/
  lastType : Option Ty := none
  /-- What was done, latest first. -/
  trace : List String := []

/-- Operations on a state of some kind that may fail. -/
abbrev Working (σ α : Type) := ExceptT TypeFailure (StateM σ) α

/-- Operations on a solver that may fail. -/
abbrev Solving (α : Type) := Working Solver α

/-- **How a solver works**: how it does what it does to its own state, flattens types and replaces
variables in them. -/
structure Manner (σ : Type) where
  plainly {α : Type} (m : Solving α) : Working σ α
  flatten (t : Ty) : Working σ Ty
  substitute (τ : Subst) (t : Ty) : Working σ Ty

/-- The manner of the solver proper. -/
def Manner.plain : Manner Solver := ⟨id, fun t => pure t.flatten, fun τ t => pure (t.substitute τ)⟩

namespace Solver

/-- A fresh variable. -/
def fresh : Solving Nat := do
  let s ← get
  set { s with counter := s.counter + 1 }
  return s.counter

/-- The state with one more line noted. -/
def saying (st : Solver) (line : String) : Solver := { st with trace := line :: st.trace }

/-- The state in which an equality has been considered. -/
def noting (st : Solver) (key : String) : Solver :=
  { st with visited := key :: st.visited, trace := key :: st.trace }

@[simp] theorem noting_counter (st : Solver)
    (key : String) : (st.noting key).counter = st.counter := rfl

/-- The state at the start of a round. -/
def emptied (st : Solver) : Solver := { st with visited := [], pending := [] }

/-- The state with the equations pending that were pending before. -/
def restoring (st : Solver) (pending : List Equation) : Solver := { st with pending := pending }

/-- The state with a type under study. -/
def studying (st : Solver) (t : Ty) : Solver := { st with lastType := some t }

/-- Note what is done. -/
def note (line : String) : Solving Unit := modify fun s => s.saying line

/-- Leave an equation for later. -/
def defer (n : Nat) (t : Ty) : Solving Unit :=
  modify fun s => { s with pending := Equation.post s.pending (.of n t) }

/-- The texts of the pending equations, in order. -/
def keys (s : Solver) : List String := s.pending.map (·.key)

/-- The pending equations under a heading. -/
def equationLog (s : Solver) : List String := "TYPE EQUALITIES:" :: s.keys

end Solver

end RowLang
