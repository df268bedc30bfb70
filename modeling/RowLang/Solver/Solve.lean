import RowLang.Solver.Equate

/-!
# Solver/Solve — eliminating one variable per pass

A pass binds the variable of the first pending equation and looks at every other one in the light of
that binding; what they come to is pending afterwards.  A variable that occurs in its own type is
bound to a recursive type.  A pass that fails puts the pending equations back, unless it was given
up for its depth.  `solve` repeats passes until nothing is pending or nothing changes.
-/

namespace RowLang.Solver

/-- The most passes of one `solve`. -/
def maxPasses : Nat := 10000

/-- The first equation that is not trivial, and those behind it. -/
def firstBinding : List Equation → Option (Equation × List Equation)
  | [] => none
  | e :: es => if e.isTrivial then firstBinding es else some (e, es)

/-! ## In any manner -/

section

variable {σ : Type} (h : Manner σ)

/-- The type to bind a variable to: a recursive one, if the variable occurs in it. -/
def closeOverBy (n : Nat) (t : Ty) : Working σ Ty := do
  if t.free.contains n then
    let placeholder ← h.plainly fresh
    return .bind .mu placeholder (← h.substitute [(n, .var placeholder)] t)
  else return t

/-- The type under study, if there is one, brought up to date. -/
def updateBy (τ : Subst) : Working σ Unit := do
  match (← h.plainly get).lastType with
  | none => return
  | some t => do
    let t ← h.flatten (← h.substitute τ t)
    h.plainly (modify (·.studying t))

/-- One round of elimination, without putting anything back. -/
def passBy (budget : Nat) (pending : List Equation) : Working σ Unit := do
  match firstBinding pending with
  | none => updateBy h []
  | some (e, others) => do
    let t ← closeOverBy h e.var e.type
    h.plainly (note ("Bind " ++ String.ofList (Ty.ownName e.var) ++ " := " ++ t.text))
    (others.filter fun d => !d.isTrivial).forM fun d => do
      let this ← h.substitute [(e.var, t)] (.var d.var)
      let that ← h.substitute [(e.var, t)] d.type
      equateBy h budget this that
    updateBy h [(e.var, t)]

/-- One round of elimination, and what is put back when it fails. -/
def solveStepBy (budget : Nat) : Working σ Unit := do
  let pending := (← h.plainly get).pending
  h.plainly (modify emptied)
  tryCatch (passBy h budget pending) fun e => do
    match e with
    | .tooDeep => throw .tooDeep
    | e =>
      h.plainly (modify (·.restoring pending))
      throw e

/-- Up to `remaining` more rounds, after `done` of them. -/
def solvePassesBy (budget : Nat) : Nat → Nat → Working σ Unit
  | 0, _ => throw .tooManyPasses
  | remaining + 1, done => do
    let before := (← h.plainly get).keys
    solveStepBy h budget
    let after := (← h.plainly get).keys
    if after.isEmpty || after = before then
      h.plainly (note ("Solved in " ++ Decimal.natText (done + 1) ++ " pass(es)"))
    else solvePassesBy budget remaining (done + 1)

end

/-! ## In the solver -/

/-- The type to bind a variable to: a recursive one, if the variable occurs in it. -/
def closeOver : Nat → Ty → Solving Ty := closeOverBy .plain

/-- One round of elimination, without putting anything back. -/
def pass : Nat → List Equation → Solving Unit := passBy .plain

/-- **One round of elimination.**  When it fails, the pending equations are as they were before,
unless it failed for its depth. -/
def solveStep : Nat → Solving Unit := solveStepBy .plain

/-- Up to `remaining` more rounds, after `done` of them. -/
def solvePasses : Nat → Nat → Nat → Solving Unit := solvePassesBy .plain

/-- Rounds of elimination until none is left to do. -/
def solve (budget : Nat) : Solving Unit := solvePasses budget maxPasses 0

end RowLang.Solver
