import RowLang.Proofs.Eval.Discreet
import RowLang.Proofs.Run
import RowLang.Proofs.Value.Like

/-!
# Proofs/Eval/Clauses — what the evaluator does with a value

What a dispatcher applies to the payload of a value (`Value.handled?`), which record a field is read
from (`Value.holder?`) and what is written without looking into a value (`Value.plain?`) depend on
the value alone, and so evaluation takes the same clause wherever it takes place.
-/

namespace RowLang

/-! ## Application -/

/-- What a dispatcher applies to the payload of a value, if it handles the value. -/
def Value.handled? (handlers : Row Code) : Value → Option (Code × Value)
  | tagged _ ⟨l, _⟩ payload => (Row.get? handlers l).map (·, payload)
  | _ => none

/-- Like values have like handlers. -/
theorem Value.Like.handled? {A : Likeness} {v v' : Value} {handlers handlers' : Row Code}
    (h : v.Like A v') (hhandlers : Row.Matches A.code handlers handlers') :
    Option.Rel (fun p q => A.code p.1 q.1 ∧ p.2.Like A q.2) (v.handled? handlers)
      (v'.handled? handlers') := by
  cases h with
  | @tagged _ _ l _ _ _ _ _ _ hpayload =>
    have hlookup := Row.Matches.lookup hhandlers l
    simp only [Value.handled?, Row.get?]
    generalize handlers.lookup l = r, handlers'.lookup l = r' at hlookup ⊢
    cases hlookup with
    | none => exact .none
    | some hcode => exact .some ⟨hcode, hpayload⟩
  | _ => exact .none

section Apply

variable {σ : Type} {h : Host σ} {go : Eval.Callees σ} {fn : Value}

theorem Eval.applyBy_not_procedure (hfn : ¬ fn.isProcedure = true) (arg : Value) :
    applyBy h go fn arg = h.failWith .notAProcedure fn := by
  cases fn with
  | closure | tagger | dispatcher | operator | waiting => exact absurd rfl hfn
  | _ => rfl

theorem Eval.applyBy_dispatcher (p : Origin) (env : Env) (handlers : Row Code) (arg : Value) :
    applyBy h go (.dispatcher p env handlers) arg
      = (arg.handled? handlers).elim (h.failWith .unhandledTag arg)
        (fun c => do go.apply (← go.eval env c.1) c.2) := by
  cases arg with
  | tagged _ tag payload =>
    rw [applyBy, Value.handled?]
    cases Row.get? handlers tag.label <;> rfl
  | _ => rfl

end Apply

/-! ## Fields -/

/-- The address of the record that a value is, if it has a label. -/
def Value.holder? (w : World) (l : Label) : Value → Option Nat
  | record a => if Row.has (w.row a) l then some a else none
  | _ => none

/-- Like values hold a field at like addresses, if the records there have the same labels. -/
theorem Value.Like.holder? {A : Likeness} {v v' : Value} {w w' : World}
    (h : v.Like A v') (l : Label)
    (hlabels : ∀ a a', A.address a a' → Row.has (w.row a) l = Row.has (w'.row a') l) :
    Option.Rel A.address (v.holder? w l) (v'.holder? w' l) := by
  cases h with
  | record ha =>
    rw [Value.holder?, Value.holder?, hlabels _ _ ha]
    split
    · exact .some ha
    · exact .none
  | _ => exact .none

/-- Reading a field depends on the world where it is read. -/
theorem Eval.run_fieldBy {h : Host World} {go : Callees World}
    (hget : h.plainly get = get) (v : Value) (l : Label) (w : World) : (fieldBy h go v l).run w
      = ((v.holder? w l).elim (h.failWith (.missingField l) v) fun a => go.force a l).run w := by
  cases v with
  | record a =>
    rw [fieldBy, hget, Run.run_bind, Run.run_get, Value.holder?]
    dsimp only
    split <;> rfl
  | _ => rfl

/-! ## Operators -/

section Operate

variable {σ : Type} {h : Host σ} {go : Eval.Callees σ} {op : Operator} {args : List Value}

theorem Eval.operateBy_of_lt (hlt : args.length < Eval.arity op) :
    operateBy h go op args = do return .waiting (← h.plainly World.birth) op args := if_pos hlt

/-- No operator takes more arguments than its number. -/
theorem Eval.operateBy_of_gt (hgt : Eval.arity op < args.length) :
    operateBy h go op args = throw (.bare (.noLength "Primitive")) := by
  have hpos : 0 < Eval.arity op := by cases op <;> decide
  unfold operateBy
  rw [if_neg (Nat.lt_asymm hgt)]
  split
  case h_9 => rfl
  all_goals simp [Eval.arity] at hgt hpos
  omega

end Operate

/-! ## Documents -/

/-- The document of a value that is not looked into. -/
def Value.plain? : Value → Option Document
  | tagged .. | list .. | record _ => none
  | real _ x => some (x.toInt?.elim (.real x) .int)
  | v => some (if v.isProcedure then Eval.functionMarker else v.asItIs)

section Write

variable {σ : Type} {h : Host σ} {go : Eval.Callees σ} {v : Value}

theorem Eval.documentBy_plain {doc : Document} (hplain : v.plain? = some doc) (path : List Nat) :
    documentBy h go path v = pure doc := by
  cases v with
  | tagged | list | record => cases hplain
  | real p x =>
    cases hplain
    rw [documentBy]
    cases x.toInt? <;> rfl
  | _ =>
    cases hplain
    rw [documentBy] <;> first | rfl | (intros; contradiction)

end Write

end RowLang
