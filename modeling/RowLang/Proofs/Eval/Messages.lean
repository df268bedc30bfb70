import RowLang.Eval.Show

/-!
# Proofs/Eval/Messages — values in messages

A value is shown in full unless it is nested too deep, or an integer or a label in it is too long to
be written (`Failure.OfShowing`).
-/

namespace RowLang

/-- An integer, or a label that is one, has too many digits to be read or written. -/
def Fault.Oversized : Fault → Prop
  | numeralTooLong n => Decimal.digitLimit < n
  | integerTooLong | unranked _ => True
  | _ => False

/-- Whatever goes wrong is of some sort. -/
def Fails {ε α : Type} (P : ε → Prop) (r : Except ε α) : Prop := ∀ e, r = .error e → P e

namespace Fails

variable {ε α β : Type} {P : ε → Prop}

theorem ok (x : α) : Fails P (.ok x) := fun _ h => by cases h

theorem error {e : ε} (h : P e) : Fails P (.error e : Except ε α) := fun _ he => by
  cases he
  exact h

theorem bind {r : Except ε α} {f : α → Except ε β} (h : Fails P r) (hf : ∀ x, Fails P (f x)) :
    Fails P (r >>= f) := by
  cases r with
  | error e => exact error (h e rfl)
  | ok x => exact hf x

theorem mapM {f : α → Except ε β} : ∀ {xs : List α}, (∀ x ∈ xs, Fails P (f x)) → Fails P (xs.mapM f)
  | [], _ => by
    rw [List.mapM_nil]
    exact ok _
  | x :: xs, h => by
    rw [List.mapM_cons]
    exact (h x List.mem_cons_self).bind fun _ =>
      (mapM fun x hx => h x (List.mem_cons_of_mem _ hx)).bind fun _ => ok _

end Fails

/-- The failure to show a value: it is nested too deep, or something is too long. -/
def Failure.OfShowing : Failure → Prop
  | .tooDeep => True
  | .bare f => f.Oversized
  | _ => False

namespace Value

theorem fails_fullChars (w : World) (depth : Nat) :
    ∀ v : Value, Fails Failure.OfShowing (v.fullChars w depth) := by
  induction depth with
  | zero => exact fun v => .error trivial
  | succ depth ih =>
    intro v
    have hitems : ∀ items : List Value, Fails Failure.OfShowing (items.mapM (fullChars w depth)) :=
      fun items => Fails.mapM fun x _ => ih x
    unfold fullChars
    split
    · split
      · exact .ok _
      · exact .error trivial
    · exact .ok _
    · exact .ok _
    · exact (hitems _).bind fun _ => .ok _
    · exact (ih _).bind fun _ => .ok _
    · exact (hitems _).bind fun _ => .ok _
    · exact (ih _).bind fun _ => .ok _
    · refine (Fails.mapM fun p _ => ?_).bind fun _ => .ok _
      obtain ⟨l, v⟩ := p
      cases v with
      | none => exact .ok _
      | some v => exact (ih v).bind fun _ => .ok _
    · exact .ok _
    · exact .ok _
    · exact .ok _
    · split
      · exact .error trivial
      · exact .ok _
    · exact .ok _

theorem fails_describe (w : World) (v : Value) : Fails Failure.OfShowing (v.describe w) := by
  unfold describe
  split
  · exact .ok _
  · exact .ok _
  · exact .ok _
  · split
    · exact .ok _
    · intro e he
      cases h : v.fullChars w showDepth with
      | ok cs =>
        rw [h] at he
        cases he
      | error e' =>
        rw [h] at he
        cases he
        exact fails_fullChars w showDepth v _ h

end Value

end RowLang
