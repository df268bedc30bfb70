import RowLang.Proofs.Solver.Outcome
import RowLang.Proofs.Ty.Capture
import RowLang.Typing.Infer

/-!
# Proofs/Solver/Logged — the solver with an account of what it does to types

The solver in another manner, with an account of all types that it flattens and of all replacements
of variables.  With the account left out it is the solver itself (`Erases`), so that whatever is
said of the account is said of what the solver does.
-/

namespace RowLang.Solver

open Ty

/-- A solver, and what it has done to types. -/
structure Logged where
  solver : Solver
  /-- The types that were flattened, latest first. -/
  flattened : List Ty := []
  /-- The types in which variables were replaced, latest first. -/
  replaced : List (Subst × Ty) := []

namespace Logged

variable {α β : Type}

/-- **The solver with an account.** -/
def manner : Manner Logged where
  plainly m := ExceptT.mk fun l => ((m.run l.solver).1, { l with solver := (m.run l.solver).2 })
  flatten t := modify (fun l => { l with flattened := t :: l.flattened }) >>= fun _ =>
    pure t.flatten
  substitute τ t :=
    modify (fun l => { l with replaced := (τ, t) :: l.replaced }) >>= fun _ => pure (t.substitute τ)

instance (σ : Subst) (t : Ty) (v : Nat) : Decidable (Captured σ t v) :=
  decidable_of_iff ((t.shade v).any fun n => match σ.lookup n with
      | some s => s.free.contains v
      | none => false) <| by
    rw [List.any_eq_true, Captured]
    refine exists_congr fun n => and_congr_right' ?_
    cases σ.lookup n <;> simp

/-- What an operation comes to if no variable is captured where it replaces some, and nothing at all
if one is. -/
def checked (w : Working Logged α) (st : Solver) : Option (Except TypeFailure α × Solver) :=
  let (r, l) := w.run ⟨st, [], []⟩
  if ∀ p ∈ l.replaced, ∀ v ∈ p.2.binders, ¬ Captured p.1 p.2 v then some (r, l.solver) else none

/-! ## The account left out -/

/-- The operation is another one with the account left out. -/
def Erases (w : Working Logged α) (m : Solving α) : Prop :=
  ∀ l, ∃ l', w.run l = ((m.run l.solver).1, l') ∧ l'.solver = (m.run l.solver).2

theorem erases_plainly (m : Solving α) : Erases (manner.plainly m) m := fun _ => ⟨_, rfl, rfl⟩

/-- Flattening with an account is flattening. -/
theorem erases_flatten (t : Ty) : Erases (manner.flatten t) (Manner.plain.flatten t) :=
  fun _ => ⟨_, rfl, rfl⟩

/-- Replacing variables with an account is replacing them. -/
theorem erases_substitute (τ : Subst) (t : Ty) :
    Erases (manner.substitute τ t) (Manner.plain.substitute τ t) := fun _ => ⟨_, rfl, rfl⟩

theorem erases_pure (x : α) : Erases (pure x) (pure x) := fun _ => ⟨_, rfl, rfl⟩

theorem erases_throw (e : TypeFailure) : Erases (throw e : Working Logged α) (throw e) :=
  fun _ => ⟨_, rfl, rfl⟩

/-- Computations that erase to others do so one after the other. -/
theorem Erases.bind {w : Working Logged α} {m : Solving α} {f : α → Working Logged β}
    {g : α → Solving β} (h : Erases w m) (hf : ∀ x, Erases (f x) (g x)) :
    Erases (w >>= f) (m >>= g) := by
  intro l
  obtain ⟨mid, hw, hsolver⟩ := h l
  rw [Run.run_bind, Run.run_bind, hw]
  cases hm : m.run l.solver with
  | mk r st =>
    obtain rfl : mid.solver = st := hsolver.trans (congrArg Prod.snd hm)
    cases r with
    | ok x => exact hf x mid
    | error e => exact ⟨mid, rfl, rfl⟩

theorem Erases.forM {w : β → Working Logged Unit} {m : β → Solving Unit} {xs : List β}
    (h : ∀ x, Erases (w x) (m x)) : Erases (xs.forM w) (xs.forM m) := by
  induction xs with
  | nil => exact erases_pure _
  | cons x xs ih => exact (h x).bind fun _ => ih

/-- They do so where failures are caught. -/
theorem Erases.tryCatch {w : Working Logged α} {m : Solving α} {f : TypeFailure → Working Logged α}
    {g : TypeFailure → Solving α} (h : Erases w m) (hf : ∀ e, Erases (f e) (g e)) :
    Erases (tryCatch w f) (tryCatch m g) := by
  intro l
  obtain ⟨mid, hw, hsolver⟩ := h l
  rw [Run.run_tryCatch, Run.run_tryCatch, hw]
  cases hm : m.run l.solver with
  | mk r st =>
    obtain rfl : mid.solver = st := hsolver.trans (congrArg Prod.snd hm)
    cases r with
    | ok x => exact ⟨mid, rfl, rfl⟩
    | error e => exact hf e mid

/-- **What captures nothing does what it does without the checks.** -/
theorem Erases.checked_eq {w : Working Logged α} {m : Solving α} (h : Erases w m) {st : Solver}
    (hnone : ∀ p ∈ (w.run ⟨st, [], []⟩).2.replaced, ∀ v ∈ p.2.binders, ¬ Captured p.1 p.2 v) :
    checked w st = some (m.run st) := by
  obtain ⟨l, hrun, hsolver⟩ := h ⟨st, [], []⟩
  rw [checked]
  rw [hrun] at hnone ⊢
  exact (if_pos hnone).trans (congrArg some (Prod.ext rfl hsolver))

/-! ## The operations -/

theorem erases_openBinder (b : Binder) (n : Nat) (body : Ty) :
    Erases (openBinderBy manner b n body) (openBinder b n body) := by
  cases b with
  | mu => exact (erases_substitute _ _).bind erases_flatten
  | forAll =>
    exact (erases_plainly fresh).bind fun v => (erases_substitute _ _).bind erases_flatten

/-- Binders are opened alike. -/
theorem erases_openBinders (key : String) : ∀ (n : Nat) (s t : Ty),
    Erases (openBindersBy manner key n s t) (openBinders key n s t)
  | 0, _, _ => erases_throw _
  | n + 1, s, t => by
    cases s with
    | bind b v body =>
      exact (erases_openBinder b v body).bind fun s => erases_openBinders key n s t
    | _ =>
      cases t with
      | bind b v body =>
        exact (erases_openBinder b v body).bind fun t => erases_openBinders key n _ t
      | _ => exact erases_pure _

theorem erases_perform {compare : Ty → Ty → Working Logged Unit} {budget : Nat}
    (h : ∀ s t, Erases (compare s t) (equate budget s t)) (task : Task) :
    Erases (performBy manner compare task) (perform budget task) := by
  cases task with
  | agree s t => exact h s t
  | meet k fields tail others tail' =>
    exact (erases_plainly fresh).bind fun shared => (h _ _).bind fun _ => h _ _

/-- What a comparison comes to is followed alike, if parts are compared alike. -/
theorem erases_follow {compare : Ty → Ty → Working Logged Unit} {budget : Nat}
    (h : ∀ s t, Erases (compare s t) (equate budget s t)) (key : String) (s t : Ty) (o : Outcome) :
    Erases (followBy manner compare key s t o) (follow budget key s t o) := by
  cases o with
  | defer n u => exact erases_plainly _
  | reopen => exact (erases_openBinders _ _ _ _).bind fun p => h p.1 p.2
  | clash => exact erases_throw _
  | split tasks => exact .forM (erases_perform h)

/-- **Comparisons are what they are without the account.** -/
theorem erases_equate : ∀ (budget : Nat) (s t : Ty), Erases (equateBy manner budget s t)
    (equate budget s t)
  | 0, _, _ => erases_throw _
  | budget + 1, s, t => by
    refine (erases_plainly get).bind fun st => ?_
    split
    · exact erases_pure ()
    · exact (erases_plainly _).bind fun _ => (erases_flatten s).bind fun s =>
        (erases_flatten t).bind fun t => erases_follow (erases_equate budget) _ s t _

theorem erases_demand (budget : Nat) (s t : Ty) :
    Erases (demandBy manner budget s t) (demand budget s t) := by
  rw [demandBy, demand_eq]
  cases s.unranked?.or t.unranked? with
  | some why => exact erases_throw _
  | none => exact erases_equate budget s t

/-- **A deduction is run alike.** -/
theorem erases_run (budget : Nat) (d : Deduction α) :
    Erases (runBy manner budget d) (run budget d) := by
  induction d with
  | done x => exact erases_pure x
  | unbound name => exact erases_throw _
  | fresh next ih => exact (erases_plainly fresh).bind ih
  | replace σ t next ih => exact (erases_substitute σ t).bind ih
  | agree s t next ih => exact (erases_demand budget s t).bind fun _ => ih

/-- **Inference is what it is without the account.** -/
theorem erases_infer (budget : Nat) (e : Expr) :
    Erases (inferBy manner budget e) (infer budget e) :=
  erases_run budget _

theorem erases_closeOver (n : Nat) (t : Ty) : Erases (closeOverBy manner n t) (closeOver n t) := by
  rw [closeOverBy, closeOver, closeOverBy]
  split
  · exact (erases_plainly fresh).bind fun p => (erases_substitute _ _).bind fun t => erases_pure _
  · exact erases_pure t

theorem erases_update (σ : Subst) : Erases (updateBy manner σ) (updateBy .plain σ) := by
  refine (erases_plainly get).bind fun st => ?_
  cases st.lastType with
  | none => exact erases_pure ()
  | some t =>
    exact (erases_substitute σ t).bind fun t => (erases_flatten t).bind fun t => erases_plainly _

/-- **A pass goes alike.** -/
theorem erases_pass (budget : Nat) (pending : List Equation) :
    Erases (passBy manner budget pending) (pass budget pending) := by
  rw [passBy, pass, passBy]
  cases firstBinding pending with
  | none => exact erases_update []
  | some found =>
    exact (erases_closeOver _ _).bind fun t => (erases_plainly _).bind fun _ =>
      (Erases.forM fun d => (erases_substitute _ _).bind fun s =>
        (erases_substitute _ _).bind fun t =>
        erases_equate budget s t).bind fun _ => erases_update _

/-- **A round of elimination is what it is without the account.** -/
theorem erases_solveStep (budget : Nat) :
    Erases (solveStepBy manner budget) (solveStep budget) := by
  refine (erases_plainly get).bind fun st => (erases_plainly _).bind fun _ =>
    (erases_pass budget st.pending).tryCatch fun e => ?_
  cases e with
  | tooDeep => exact erases_throw _
  | _ => exact (erases_plainly _).bind fun _ => erases_throw _

end Logged

end RowLang.Solver
