import RowLang.Session

/-!
# Proofs/Eval/Discreet — evaluation that shows neither fields nor addresses

A record that is written out in full shows which of its fields have been computed by then, and a
dispatcher shows where in the memory it is kept.  Discreet evaluation is evaluation that gives up
where it would write out one of these (`Discreet.host`): nothing else of what it does depends on
what has been computed before.
-/

namespace RowLang

mutual

/-- Whether a value that is written in full shows no field of a record and no address. -/
def Value.reticent (w : World) : Value → Bool
  | .list _ items => allReticent w items
  | .tuple _ items => allReticent w items
  | .tagged _ _ payload => payload.reticent w
  | .record a => (w.row a).isEmpty
  | .dispatcher .. => false
  | _ => true

/-- Whether values that are written in full show no field of a record and no address. -/
def Value.allReticent (w : World) : List Value → Bool
  | [] => true
  | v :: vs => v.reticent w && allReticent w vs

end

namespace Discreet

/-- An operation that writes a value in full, given up unless the value is reticent. -/
def guarded {α : Type} (v : Value) (m : Evaluating α) : Evaluating α := do
  if v.reticent (← get) then m else throw .tooDeep

/-- Fail with a description of a value; only a tuple is described by what is in it. -/
def failWith {α : Type} (make : String → Failure) (v : Value) : Evaluating α :=
  match v with
  | .tuple .. => guarded v (World.failWith make v)
  | v => World.failWith make v

/-- A value as the conversions `s`, `r` and `a` write it. -/
def written (conversion : Char) (v : Value) : Evaluating Format.Piece :=
  guarded v (Format.written conversion v)

/-- **The world by itself, as long as it is discreet.** -/
def host : Host World where
  plainly m := m
  failWith := failWith
  written := written
  calling _ _ m := m
  computing _ _ m := m

/-! ## Evaluation -/

variable (depth : Nat)

/-- The value of an expression in a scope. -/
def eval : Env → Code → Evaluating Value := (Eval.within host depth).eval

/-- A function applied to an argument. -/
def apply : Value → Value → Evaluating Value := (Eval.within host depth).apply

/-- An operator applied to the arguments that it has so far. -/
def operate : Operator → List Value → Evaluating Value := (Eval.within host depth).operate

/-- A field of a value. -/
def field : Value → Label → Evaluating Value := (Eval.within host depth).field

/-- The value of a field of a record, computed if need be. -/
def force : Nat → Label → Evaluating Value := (Eval.within host depth).force

/-- The value of a module. -/
def load : Nat → String → Evaluating (Option Value) := (Eval.within host depth).load

/-- A value as a document, inside the records of `path`. -/
def document : List Nat → Value → Evaluating Document := (Eval.within host depth).document

theorem eval_succ (env : Env) (code : Code) :
    eval (depth + 1) env code = Eval.evalBy host (Eval.within host depth) env code := rfl

theorem field_succ (v : Value) (l : Label) :
    field (depth + 1) v l = Eval.fieldBy host (Eval.within host depth) v l := rfl

theorem document_succ (path : List Nat) (v : Value) :
    document (depth + 1) path v = Eval.documentBy host (Eval.within host depth) path v := rfl

/-- The value of a program, as text. -/
def valueText : ImportRoot → Expr → Evaluating String := Session.valueTextBy host

end Discreet

end RowLang
