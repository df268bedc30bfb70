import Mathlib
import RowLang.Proofs.Eval.Document
import RowLang.Proofs.Typing.Solution

/-!
# Proofs/Typing/Soundness — a program that has a type does not go wrong

Solving makes true all that the walk over a program demands, so the program has the tree of its type
by the rules of typing, and evaluating it and writing its value can fail only in ways that no type
could have prevented.  An equality that has been lost on the way is the one exception: then the tree
of the type need not be one of the program.
-/

namespace RowLang

open Eval (Runs)

/-- The empty record that all verdicts share is in the store. -/
def World.HasShared (w : World) : Prop :=
  ∃ r, w.records[Value.sharedEmpty]? = some r ∧ r.row = []

theorem World.hasShared_default : World.HasShared {} := ⟨_, rfl, rfl⟩

/-- Of any store that has the shared record, nothing else need be known. -/
theorem World.HasShared.exists_sound {w : World} (h : w.HasShared) : ∃ M, w.Sound M := by
  obtain ⟨r, hr, hrow⟩ := h
  refine ⟨fun a => if a = Value.sharedEmpty then some fun _ => none else none, ?_, if_pos rfl⟩
  intro a f ha
  split at ha
  case isFalse => cases ha
  case isTrue he =>
    cases ha
    subst he
    have hsound : r.Sound (fun a => if a = Value.sharedEmpty then some fun _ => none else none)
        Value.sharedEmpty fun _ => none :=
      ⟨by simp [hrow], ⟨[], by simp [Env.HasTrees], by simp⟩, by simp⟩
    exact ⟨r, hr, hsound⟩

namespace Session

open Solver

/-- **Type soundness**: when a program has a type and no equality has been lost, its value is
computed and written, or this fails in a way that no type could have prevented. -/
theorem benign_of_solved {budget : Nat} {e : Expr} {raw : Ty} {st st' : Solver} (htidy : e.Tidy)
    (hun : e.Unascribed) (hself : e.Selfcontained)
    (hinfer : (infer budget e).run {} = (.ok raw, st))
    (hsolve : (solve budget).run (st.studying raw) = (.ok (), st')) (hlost : ¬ st'.Lost)
    {root : ImportRoot} {w w' : World} {failure : Failure} (hshared : w.HasShared)
    (hrun : (valueText root e).run w = (.error failure, w')) : failure.Benign := by
  obtain ⟨S, σ, answer⟩ := exists_answer htidy hun hinfer hsolve hlost
  have htyped : e.HasTree [] (raw.tree (Ty.after Ty.selves σ)) :=
    answer.found.typed hself _ answer.solved
  obtain ⟨M, hsound⟩ := hshared.exists_sound
  have hvalue := Eval.runs_valueText root htyped w hsound
  rw [hrun] at hvalue
  exact hvalue

/-! ## A character and a record -/

/-- The character after the last one. -/
def noCharacter : Expr := .apply (.op .chr) (.number (.int 1114112))

/-- The empty record, handed on by a function and asked for a field. -/
def handed : Expr :=
  .bindIn (.row [("x", .name "x")]) (.apply (.lambda (.name "v") (.var "v")) (.record []))
    (.var "x")

/-- What the solver finds of a program. -/
private def found (e : Expr) : Except TypeFailure Ty × Solver := (typing depthLimit e).run {}

private theorem exists_found {e : Expr} (h : (found e).1.toBool = true) :
    ∃ raw st, (infer depthLimit e).run {} = (.ok raw, st) ∧
      (solve depthLimit).run (st.studying raw) = (.ok (), (found e).2) := by
  cases hr : (found e).1 with
  | error f =>
    rw [hr] at h
    cases h
  | ok raw => exact ⟨raw, run_typing_eq_ok (Prod.ext hr rfl)⟩

/-- A character that does not exist has a type, and is refused when it is computed. -/
theorem benign_of_noCharacter : ∃ raw st st' w',
    (infer depthLimit noCharacter).run {} = (.ok raw, st) ∧
      (solve depthLimit).run (st.studying raw) = (.ok (), st') ∧ ¬ st'.Lost ∧
      (valueText none noCharacter).run {} = (.error (.refused .chr .noSuchCharacter), w') ∧
      (Failure.refused .chr .noSuchCharacter).Benign := by
  obtain ⟨raw, st, hinfer, hsolve⟩ := exists_found (e := noCharacter) (by decide +kernel)
  have hlost : ¬ (found noCharacter).2.Lost := not_lost_of_forall (by decide +kernel)
  have hrun : (valueText none noCharacter).run {}
      = (.error (.refused .chr .noSuchCharacter), ((valueText none noCharacter).run {}).2) :=
    Prod.ext rfl rfl
  exact ⟨raw, st, _, _, hinfer, hsolve, hlost, hrun, benign_of_solved (e := noCharacter)
    ⟨trivial, trivial⟩ ⟨trivial, trivial⟩ ⟨trivial, trivial⟩ hinfer hsolve hlost
      World.hasShared_default hrun⟩

/-- **The empty record has a type that has a field** when an equality has been lost, and is asked
for the field in vain. -/
theorem missing_field_of_handed : handed.Tidy ∧ handed.Unascribed ∧ handed.Selfcontained ∧
    ∃ raw st st' w', (infer depthLimit handed).run {} = (.ok raw, st) ∧
      (solve depthLimit).run (st.studying raw) = (.ok (), st') ∧
      (valueText none handed).run {} = (.error (.missingField "x" "a record"), w') ∧
      ¬ (Failure.missingField "x" "a record").Benign := by
  obtain ⟨raw, st, hinfer, hsolve⟩ := exists_found (e := handed) (by decide +kernel)
  have hrun : (valueText none handed).run {}
      = (.error (.missingField "x" "a record"), ((valueText none handed).run {}).2) :=
    Prod.ext rfl rfl
  exact ⟨⟨⟨Row.tidy_single (show Label.Plain "x" by decide) _, trivial, trivial⟩,
      ⟨⟨trivial, trivial⟩, Row.tidy_nil, trivial⟩, trivial⟩,
    ⟨⟨trivial, trivial⟩, trivial⟩, ⟨⟨trivial, trivial⟩, trivial⟩,
    raw, st, _, _, hinfer, hsolve, hrun, id⟩

end Session

end RowLang
