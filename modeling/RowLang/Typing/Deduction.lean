import RowLang.Ty.Basic

/-!
# Typing/Deduction — what a walk over an expression asks for

A deduction is a computation that may ask for a fresh variable, demand that two types agree, have
variables replaced in a type, or stop at an unbound name.  It says what is asked, in which order,
and leaves the answers to whoever runs it: the solver answers as it goes along.
-/

namespace RowLang

/-- A computation that asks for fresh variables, has variables replaced and demands equalities. -/
inductive Deduction (α : Type) where
  | done (x : α)
  | unbound (name : String)
  | fresh (next : Nat → Deduction α)
  | replace (σ : Subst) (t : Ty) (next : Ty → Deduction α)
  | agree (this that : Ty) (next : Deduction α)

namespace Deduction

variable {α β : Type}

/-- One deduction after another. -/
protected def bind (d : Deduction α) (f : α → Deduction β) : Deduction β :=
  match d with
  | done x => f x
  | unbound name => unbound name
  | fresh next => fresh fun n => (next n).bind f
  | replace σ t next => replace σ t fun u => (next u).bind f
  | agree this that next => agree this that (next.bind f)

instance : Monad Deduction where
  pure := done
  bind := Deduction.bind

/-- A fresh variable. -/
def freshVar : Deduction Ty := fresh fun n => done (.var n)

/-- Demand that two types agree. -/
def demand (this that : Ty) : Deduction Unit := agree this that (done ())

/-- Strip the outermost quantifiers, each with a fresh variable in its place; `σ` holds those of the
quantifiers that are already stripped. -/
def instantiateUnder (σ : Subst) : Ty → Deduction Ty
  | .bind .forAll n body => fresh fun v => instantiateUnder ((n, .var v) :: σ) body
  | t => replace σ t done

/-- Strip the outermost quantifiers, each with a fresh variable in its place. -/
def instantiate (t : Ty) : Deduction Ty := instantiateUnder [] t

@[simp] theorem pure_bind (x : α) (f : α → Deduction β) : (done x).bind f = f x := rfl

theorem bind_done (d : Deduction α) : d.bind done = d := by
  induction d with
  | done x => rfl
  | unbound name => rfl
  | fresh next ih | replace σ t next ih => simp [Deduction.bind, ih]
  | agree this that next ih => simp [Deduction.bind, ih]

theorem bind_assoc {γ : Type} (d : Deduction α) (f : α → Deduction β) (g : β → Deduction γ) :
    (d.bind f).bind g = d.bind fun x => (f x).bind g := by
  induction d with
  | done x => rfl
  | unbound name => rfl
  | fresh next ih | replace σ t next ih => simp [Deduction.bind, ih]
  | agree this that next ih => simp [Deduction.bind, ih]

end Deduction

end RowLang
