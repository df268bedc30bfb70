import RowLang.Expr.Basic
import RowLang.Solver.Solve
import RowLang.Typing.Deduction

/-!
# Typing/Infer — the type of an expression

`deduce` walks an expression and demands the equalities that its parts call for.  A name bound by a
`let` or a lambda has one type for all of its scope; only operators and names of a declared `forall`
type are instantiated afresh at each use.  `infer` runs the walk against a solver.
-/

namespace RowLang

/-- The types of the names in scope, innermost first. -/
abbrev Context := List (String × Ty)

namespace Pattern

mutual

/-- The context that a pattern makes, and the type that it accepts. -/
def deduce (ctx : Context) : Pattern → Deduction (Context × Ty)
  | name x => do
    let t ← Deduction.freshVar
    return ((x, t) :: ctx, t)
  | wildcard => return (ctx, ← Deduction.freshVar)
  | row fields => do
    let (ctx, types) ← deduceFields ctx fields
    return (ctx, .row .record types (← Deduction.freshVar))

/-- The context that the fields make one after the other, and the types that they accept. -/
def deduceFields (ctx : Context) : List (Label × Pattern) → Deduction (Context × Row Ty)
  | [] => return (ctx, [])
  | (l, p) :: fields => do
    let (ctx, t) ← deduce ctx p
    let (ctx, types) ← deduceFields ctx fields
    return (ctx, (l, t) :: types)

end

/-- The context in which a pattern is bound to something of a known type. -/
def deduceBinding (ctx : Context) (p : Pattern) (t : Ty) : Deduction Context :=
  match p with
  | name x => return (x, t) :: ctx
  | wildcard => return ctx
  | row fields => do
    let (inner, shape) ← deduce ctx (row fields)
    Deduction.demand shape t
    return inner

end Pattern

namespace Expr

mutual

/-- The type of an expression, with the demands that it makes. -/
def deduce (ctx : Context) : Expr → Deduction Ty
  | number _ => return .number
  | char _ => return .char
  | var x =>
    match ctx.lookup x with
    | some t => Deduction.instantiate t
    | none => .unbound x
  | op o => Deduction.instantiate o.scheme
  | lambda p body => do
    let (inner, arg) ← p.deduce ctx
    return .arrow arg (← deduce inner body)
  | apply fn arg => do
    let fn ← deduce ctx fn
    let arg ← deduce ctx arg
    let res ← Deduction.freshVar
    Deduction.demand fn (.arrow arg res)
    return res
  | list elts => do
    let elt ← Deduction.freshVar
    deduceElements ctx elt elts
    return .list elt
  | record fields => do
    let this ← Deduction.freshVar
    let t := Ty.closedRecord (← deduceFields (("this", this) :: ctx) fields)
    Deduction.demand this t
    return t
  | tuple items => return Ty.closedRecord (Row.positional (← deduceItems ctx items))
  | dispatch handlers => do
    let res ← Deduction.freshVar
    return .arrow (Ty.closedVariant (← deduceHandlers ctx res handlers)) res
  | tag l => do
    let payload ← Deduction.freshVar
    return .arrow payload (.row .variant [(l, payload)] (← Deduction.freshVar))
  | load _ => Deduction.freshVar
  | ascribe declared e => do
    let actual ← deduce ctx e
    Deduction.demand (← Deduction.instantiate declared) actual
    return declared
  | bindIn p bound body => do
    let t ← deduce ctx bound
    deduce (← p.deduceBinding ctx t) body

/-- Every element has the type of the list's elements. -/
def deduceElements (ctx : Context) (elt : Ty) : List Expr → Deduction Unit
  | [] => return
  | e :: es => do
    Deduction.demand elt (← deduce ctx e)
    deduceElements ctx elt es

/-- The types of the items of a tuple. -/
def deduceItems (ctx : Context) : List Expr → Deduction (List Ty)
  | [] => return []
  | e :: es => do
    let t ← deduce ctx e
    return t :: (← deduceItems ctx es)

/-- The types of the fields of a record. -/
def deduceFields (ctx : Context) : List (Label × Expr) → Deduction (Row Ty)
  | [] => return []
  | (l, e) :: fields => do
    let t ← deduce ctx e
    return (l, t) :: (← deduceFields ctx fields)

/-- The types that the handlers take, all of which give `res`. -/
def deduceHandlers (ctx : Context) (res : Ty) : List (Label × Expr) → Deduction (Row Ty)
  | [] => return []
  | (l, e) :: handlers => do
    let arg ← Deduction.freshVar
    Deduction.demand (← deduce ctx e) (.arrow arg res)
    return (l, arg) :: (← deduceHandlers ctx res handlers)

end

end Expr

namespace Solver

section

variable {σ α : Type} (h : Manner σ) (budget : Nat)

/-- A deduction run against a solver in some manner. -/
def runBy : Deduction α → Working σ α
  | .done x => return x
  | .unbound name => throw (.unbound name)
  | .fresh next => do runBy (next (← h.plainly fresh))
  | .replace τ t next => do runBy (next (← h.substitute τ t))
  | .agree this that next => do
    demandBy h budget this that
    runBy next

/-- The raw type of a program; what it implies is left pending. -/
def inferBy (e : Expr) : Working σ Ty := runBy h budget (e.deduce [])

end

/-- A deduction run against the solver, which answers each demand at once. -/
def run {α : Type} (budget : Nat) : Deduction α → Solving α := runBy .plain budget

theorem run_agree {α : Type} (budget : Nat) (s t : Ty) (next : Deduction α) :
    run budget (.agree s t next) = demand budget s t >>= fun _ => run budget next := rfl

/-- The raw type of a program; what it implies is left pending. -/
def infer (budget : Nat) : Expr → Solving Ty := inferBy .plain budget

theorem infer_eq (budget : Nat) (e : Expr) : infer budget e = run budget (e.deduce []) := rfl

end Solver

end RowLang

/-!
## The equalities that a walk demands

`Solver.demands` lists them in the order in which a run against the solver meets them, so that one
can say of all of them at once what solving makes true.
-/

namespace RowLang.Solver

/-- The equalities that a deduction demands when it is run, in order, up to the first that fails. -/
def demands {α : Type} (budget : Nat) : Deduction α → Solver → List (Ty × Ty)
  | .done _, _ => []
  | .unbound _, _ => []
  | .fresh next, s => demands budget (next s.counter) { s with counter := s.counter + 1 }
  | .replace σ t next, s => demands budget (next (t.substitute σ)) s
  | .agree this that next, s =>
    (this, that) ::
      match (demand budget this that).run s with
      | (.ok (), s) => demands budget next s
      | (.error _, _) => []

end RowLang.Solver
