import RowLang.Proofs.Eval.Contained
import RowLang.Proofs.Eval.Closed
import RowLang.Proofs.Expr.Written

/-!
# Proofs/Eval/Loose — the faults that evaluation does not wrap

A fault inside an operator is told as the operator's refusal, so an operator may meet with any fault
(`Fault.Any`).  What comes out of an evaluation bare is that something is too long to be read or
written, that there is no room left, that modules are looked for where no file can be, or that the
bytes of a module's file are no text (`Fault.Loose`).  A computation is `Tame` when it is contained
in all worlds; all that operators do is.
-/

namespace RowLang

/-- A fault that comes out of an evaluation as it is. -/
def Fault.Loose (f : Fault) : Prop :=
  f.Oversized ∨ f = .outOfMemory ∨ f = .nullInPath ∨ ∃ why, f = .undecodable why

/-- Any fault. -/
def Fault.Any (_ : Fault) : Prop := True

/-- The reading of a program fails so only at an integer that is too long. -/
theorem Expr.oversized_of_parse {s : List Char} {f : Fault}
    (h : parse s = .error (.halted (.fault f))) : f.Oversized := by
  obtain ⟨n, hn, hf⟩ := tooLong_of_parse h
  cases hf
  exact hn

/-- What cannot be read of a module. -/
theorem Library.loose_of_source {lib : Library} {name : String} {f : Fault}
    (h : lib.source name = .error f) : f.Loose := by
  unfold source at h
  split at h
  case h_2 =>
    unfold read at h
    split at h
    · split at h <;> cases h
      exact Or.inr (Or.inr (Or.inr ⟨_, rfl⟩))
    · cases h
      exact Or.inr (Or.inr (Or.inl rfl))
  all_goals cases h

theorem Failure.OfShowing.within {Q : Fault → Prop} {e : Failure} (h : e.OfShowing)
    (hQ : ∀ f, f.Oversized → Q f) (limit : Nat) : e.Within Q limit := by
  cases e with
  | tooDeep => trivial
  | bare f => exact hQ f h
  | _ => exact h.elim

namespace Eval

variable {α β : Type} {Q : Fault → Prop} {w : World} {post : World → α → Prop}

/-- A failure that tells of a value. -/
theorem contained_failWith (hQ : ∀ f, f.Oversized → Q f) {make : String → Failure}
    (h : ∀ shown limit, (make shown).Within Q limit) (v : Value) :
    Contained Q w (World.failWith make v : Evaluating α) post := by
  refine contained_get fun w' _ => ?_
  split
  case h_1 shown _ => exact contained_throw (h shown)
  case h_2 e he => exact contained_throw ((v.fails_describe _ e he).within hQ)

/-- A computation that is contained in all worlds. -/
def Tame (Q : Fault → Prop) (m : Evaluating α) : Prop := ∀ w, Contained Q w m fun _ _ => True

theorem Tame.bind {m : Evaluating α} {f : α → Evaluating β} (h : Tame Q m)
    (hf : ∀ x, Tame Q (f x)) :
    Tame Q (m >>= f) := fun w => (h w).bind fun w' x _ _ => hf x w'

theorem tame_pure (x : α) : Tame Q (pure x) := fun _ => contained_pure fun _ _ => trivial

theorem tame_throw {e : Failure} (h : ∀ limit, e.Within Q limit) :
    Tame Q (throw e : Evaluating α) :=
  fun _ => contained_throw h

theorem tame_birth : Tame Q World.birth := fun _ => contained_birth

theorem tame_get {f : World → Evaluating β} (h : ∀ w, Tame Q (f w)) : Tame Q (get >>= f) :=
  fun _ => contained_get fun w' _ => h w' w'

theorem tame_mapM {f : α → Evaluating β} (h : ∀ x, Tame Q (f x)) (xs : List α) :
    Tame Q (xs.mapM f) := fun _ =>
  (contained_mapM durable_true fun x _ w' _ => h x w').weaken (fun _ h => h) fun _ _ _ _ => trivial

theorem Tame.mono {m : Evaluating α} (h : Tame Q m) : Tame Fault.Any m :=
  fun w => (h w).weaken (fun _ _ => trivial) fun _ _ _ h => h

/-! ## Operators

Inside an operator any fault may come up. -/

/-- **All that operators do is contained** in all worlds. -/
theorem closed_tame : Closed (Tame Fault.Any) where
  pure := tame_pure
  bind := Tame.bind
  throw {_ e} h := tame_throw fun _ => by
    cases e with
    | tooManyIssues => exact h.elim
    | _ => trivial
  look h _ := contained_get fun w' _ => h w' w'
  birth _ := contained_birth

end Eval

end RowLang
