import RowLang.Solver.Basic

/-!
# Solver/Equate — two types shall be the same

`equate` looks at two types, notes that it has, and either is done, defers an equality that pins
down a variable, opens binders or goes on with parts; `outcome` says which.  An equality that was
considered before is taken for granted, which is what makes the comparison of recursive types come
to an end.  Rows agree on the labels that they share; each side's tail must supply what the other
side has and it lacks.
-/

namespace RowLang.Solver

/-- How deep the comparison of two types is followed. -/
def depthLimit : Nat := 3000

/-- The most binders that are opened in a row. -/
def maxUnfoldings : Nat := 100

/-- The equality of two types by its text. -/
def equalityKey (this that : Ty) : String := this.text ++ " == " ++ that.text

/-! ## What one equality comes to -/

/-- Something that is left to do. -/
inductive Task where
  /-- Two types shall be the same. -/
  | agree (s t : Ty)
  /-- Each of two tails shall have the fields that only the other's row has, with one tail behind.
  -/
  | meet (kind : RowKind) (fields : Row Ty) (tail : Ty) (others : Row Ty) (tail' : Ty)

/-- What the equality of two flat types comes to. -/
inductive Outcome where
  | defer (n : Nat) (t : Ty)
  | reopen
  | clash
  | split (tasks : List Task)

/-- The fields that two rows share shall be the same. -/
def sharedTasks (fields others : Row Ty) : List Task :=
  (Row.intersect Task.agree fields others).map (·.2)

/-- What is left of two rows of a kind when the fields that they share are done. -/
def tailTasks (k : RowKind) (fields others : Row Ty) (tail tail' : Ty) : List Task :=
  let onlyThis := Row.difference id fields others
  let onlyThat := Row.difference id others fields
  match onlyThis, onlyThat with
  | [], [] => [.agree tail tail']
  | _ :: _, [] => [.agree tail' (.row k onlyThis tail)]
  | [], _ :: _ => [.agree tail (.row k onlyThat tail')]
  | _ :: _, _ :: _ => [.meet k onlyThis tail onlyThat tail']

/-- What the equality of two flat types comes to. -/
def outcome : Ty → Ty → Outcome
  | .var m, .var n => if m = n then .split [] else .defer m (.var n)
  | .var m, that => .defer m that
  | this, .var n => .defer n this
  | .bind .., _ => .reopen
  | _, .bind .. => .reopen
  | .arrow a b, .arrow c d => .split [.agree a c, .agree b d]
  | .list s, .list t => .split [.agree s t]
  | .row k fields tail, .row k' others tail' =>
    if k = k' then .split (sharedTasks fields others ++ tailTasks k fields others tail tail')
    else .clash
  | .number, .number => .split []
  | .char, .char => .split []
  | .unit, .unit => .split []
  | .empty, .empty => .split []
  | _, _ => .clash

/-! ## In any manner -/

section

variable {σ : Type} (h : Manner σ)

/-- A binder opened: a recursive type unfolds, a polymorphic one gets a fresh variable. -/
def openBinderBy (b : Binder) (n : Nat) (body : Ty) : Working σ Ty :=
  match b with
  | .mu => do h.flatten (← h.substitute [(n, .bind .mu n body)] body)
  | .forAll => do h.flatten (← h.substitute [(n, .var (← h.plainly fresh))] body)

/-- Open binders, first those of the left type, until neither type is a binder. -/
def openBindersBy (key : String) : Nat → Ty → Ty → Working σ (Ty × Ty)
  | 0, _, _ => throw (.endlessUnfolding key)
  | n + 1, .bind b v body, that => do openBindersBy key n (← openBinderBy h b v body) that
  | n + 1, this, .bind b v body => do openBindersBy key n this (← openBinderBy h b v body)
  | _ + 1, this, that => return (this, that)

variable (compare : Ty → Ty → Working σ Unit)

/-- Do what is left to do. -/
def performBy : Task → Working σ Unit
  | .agree s t => compare s t
  | .meet k fields tail others tail' => do
    let shared ← h.plainly fresh
    compare tail' (.row k fields (.var shared))
    compare tail (.row k others (.var shared))

/-- Go on with what an equality has come to. -/
def followBy (key : String) (this that : Ty) : Outcome → Working σ Unit
  | .defer n t => h.plainly (defer n t)
  | .reopen => do
    let (this, that) ← openBindersBy h key maxUnfoldings this that
    compare this that
  | .clash => throw (.mismatch this that)
  | .split tasks => tasks.forM (performBy h compare)

/-- Make two types agree, following at most `budget` nested comparisons. -/
def equateBy : Nat → Ty → Ty → Working σ Unit
  | 0, _, _ => throw .tooDeep
  | budget + 1, this, that => do
    let key := equalityKey this that
    if (← h.plainly get).visited.contains key then return
    h.plainly (modify (·.noting key))
    let this ← h.flatten this
    let that ← h.flatten that
    followBy h (fun s t => equateBy budget s t) key this that (outcome this that)

/-- Demand that two types agree, each of which needs a text to be known by. -/
def demandBy (budget : Nat) (this that : Ty) : Working σ Unit :=
  match this.unranked?.or that.unranked? with
  | some why => throw (.unwritable why)
  | none => equateBy h budget this that

end

/-! ## In the solver -/

/-- A binder opened: a recursive type unfolds, a polymorphic one gets a fresh variable. -/
def openBinder : Binder → Nat → Ty → Solving Ty := openBinderBy .plain

/-- Open binders until neither type is a binder. -/
def openBinders (key : String) : Nat → Ty → Ty → Solving (Ty × Ty) := openBindersBy .plain key

/-- **Make two types agree**, following at most `budget` nested comparisons. -/
def equate (budget : Nat) : Ty → Ty → Solving Unit := equateBy .plain budget

/-- Do what is left to do. -/
def perform (budget : Nat) : Task → Solving Unit := performBy .plain (equate budget)

/-- Go on with what an equality has come to. -/
def follow (budget : Nat) : String → Ty → Ty → Outcome → Solving Unit :=
  followBy .plain (equate budget)

/-- **Demand that two types agree.**  Each needs a text to be known by; then all types that the
comparison comes to have one too, since no label comes in that is not in one of the two. -/
def demand (budget : Nat) : Ty → Ty → Solving Unit := demandBy .plain budget

end RowLang.Solver
