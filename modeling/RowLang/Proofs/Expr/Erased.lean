import RowLang.Proofs.Expr.Tidy

/-!
# Proofs/Expr/Erased — expressions without their ascriptions

What is left of an expression without the types that it declares is its erasure (`Expr.erased`).
The numbers that stand in an expression stand in its erasure too, at other places (`Expr.Stands`):
each has one place there, and no two have the same.
-/

namespace RowLang.Expr

/-! ## Erasure -/

mutual

/-- The expression without its ascriptions. -/
def erased : Expr → Expr
  | number n => number n
  | char c => char c
  | var x => var x
  | op o => op o
  | lambda p body => lambda p (erased body)
  | apply fn arg => apply (erased fn) (erased arg)
  | list elts => list (erasedAll elts)
  | record fields => record (erasedFields fields)
  | tuple items => tuple (erasedAll items)
  | dispatch handlers => dispatch (erasedFields handlers)
  | tag l => tag l
  | load name => load name
  | ascribe _ e => erased e
  | bindIn p bound body => bindIn p (erased bound) (erased body)

/-- The expressions without their ascriptions. -/
def erasedAll : List Expr → List Expr
  | [] => []
  | e :: es => erased e :: erasedAll es

/-- The fields without their ascriptions. -/
def erasedFields : List (Label × Expr) → List (Label × Expr)
  | [] => []
  | (l, e) :: fields => (l, erased e) :: erasedFields fields

end

theorem erasedAll_eq (es : List Expr) : erasedAll es = es.map erased := by
  induction es with
  | nil => rfl
  | cons e es ih => rw [erasedAll, ih, List.map_cons]

theorem erasedFields_eq
    (fields : Row Expr) : erasedFields fields = Row.mapValues erased fields := by
  induction fields with
  | nil => rfl
  | cons p fields ih =>
    obtain ⟨l, e⟩ := p
    rw [erasedFields, ih]
    rfl

/-! ## Operators in expressions -/

mutual

/-- An expression in which an operator does not stand. -/
def Without (o : Operator) : Expr → Prop
  | op p => p ≠ o
  | lambda _ body => Without o body
  | apply fn arg => Without o fn ∧ Without o arg
  | list elts => WithoutAll o elts
  | record fields => WithoutFields o fields
  | tuple items => WithoutAll o items
  | dispatch handlers => WithoutFields o handlers
  | ascribe _ e => Without o e
  | bindIn _ bound body => Without o bound ∧ Without o body
  | _ => True

/-- Expressions in which an operator does not stand. -/
def WithoutAll (o : Operator) : List Expr → Prop
  | [] => True
  | e :: es => Without o e ∧ WithoutAll o es

/-- Fields in which an operator does not stand. -/
def WithoutFields (o : Operator) : List (Label × Expr) → Prop
  | [] => True
  | (_, e) :: fields => Without o e ∧ WithoutFields o fields

end

variable {o : Operator}

theorem withoutAll_iff {es : List Expr} : WithoutAll o es ↔ ∀ e ∈ es, e.Without o := by
  induction es with
  | nil => simp [WithoutAll]
  | cons e es ih => simp [WithoutAll, ih]

theorem withoutFields_iff {fields : Row Expr} :
    WithoutFields o fields ↔ ∀ p ∈ fields, p.2.Without o := by
  induction fields with
  | nil => simp [WithoutFields]
  | cons p fields ih => simp [WithoutFields, ih]

/-! ## Places -/

/-- The expressions that an expression consists of, in the order of their places.  What an
ascription is about is not counted. -/
def children : Expr → List Expr
  | lambda _ body => [body]
  | apply fn arg => [fn, arg]
  | list elts => elts
  | record fields => fields.map (·.2)
  | tuple items => items
  | dispatch handlers => handlers.map (·.2)
  | bindIn _ bound body => [bound, body]
  | _ => []

/-- A number at one place in an expression stands at another place in its erasure.  A place is told
by the steps that lead there, outermost first; no step of the erasure leads into an ascription. -/
inductive Stands : Expr → List Nat → List Nat → Prop
  | number (n : Numeral) : Stands (.number n) [] []
  | child {e f : Expr} {i : Nat} {s r : List Nat} :
      e.children[i]? = some f → Stands f s r → Stands e (i :: s) (i :: r)
  | ascribed {t : Ty} {e : Expr} {s r : List Nat} : Stands e s r → Stands (.ascribe t e) (0 :: s) r

variable {e f : Expr} {t : Ty} {i : Nat} {s s' r r' : List Nat}

theorem children_ascribe_ne : (ascribe t e).children[i]? ≠ some f := by simp [children]

/-- **A number stands at one place of the erasure.** -/
theorem Stands.right_unique (h : Stands e s r) (h' : Stands e s r') : r = r' := by
  induction h generalizing r' with
  | number n =>
    cases h'
    rfl
  | child hf _ ih =>
    cases h' with
    | child hf' h' => rw [ih (Option.some.inj (hf.symm.trans hf') ▸ h')]
    | ascribed => exact absurd hf children_ascribe_ne
  | ascribed _ ih =>
    cases h' with
    | child hf => exact absurd hf children_ascribe_ne
    | ascribed h' => exact ih h'

/-- **No two numbers stand at the same place of the erasure.** -/
theorem Stands.left_unique (h : Stands e s r) (h' : Stands e s' r) : s = s' := by
  induction h generalizing s' with
  | number n =>
    cases h'
    rfl
  | child hf _ ih =>
    cases h' with
    | child hf' h' => rw [ih (Option.some.inj (hf.symm.trans hf') ▸ h')]
    | ascribed => exact absurd hf children_ascribe_ne
  | ascribed _ ih =>
    cases h' with
    | child hf => exact absurd hf children_ascribe_ne
    | ascribed h' => rw [ih h']

end RowLang.Expr
