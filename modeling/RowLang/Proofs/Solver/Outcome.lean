import RowLang.Proofs.Run
import RowLang.Solver.Solve
import Mathlib.Data.Set.Card

/-!
# Proofs/Solver/Outcome — what the operations of the solver come to

The steps of the solver proper, one equation for each: `equate_succ` says what one equality comes to
and puts the state back around it, and binders, what is left to do and the closing of a type follow.
-/

namespace RowLang.Solver

/-- The state with the type under study brought up to date. -/
def updating (st : Solver) (σ : Subst) : Solver :=
  { st with lastType := st.lastType.map fun t => (t.substitute σ).flatten }

variable {budget : Nat} {key : String} {s t : Ty}

/-! ## Binders -/

/-- A recursive type is opened by unfolding it. -/
theorem openBinder_mu (n : Nat) (body : Ty) :
    openBinder .mu n body = pure (Ty.unfold n body).flatten := rfl

/-- A quantifier is opened with a fresh variable. -/
theorem openBinder_forAll (n : Nat) (body : Ty) : openBinder .forAll n body =
    fresh >>= fun v => pure (body.substitute [(n, .var v)]).flatten := rfl

/-- Binders are opened one at a time, first those of the left type. -/
theorem openBinders_eq (key : String) (n : Nat) (s t : Ty) : openBinders key n s t =
    match n, s, t with
    | 0, _, _ => throw (.endlessUnfolding key)
    | n + 1, .bind b p body, that => openBinder b p body >>= fun s => openBinders key n s that
    | n + 1, this, .bind b p body => openBinder b p body >>= fun t => openBinders key n this t
    | _ + 1, this, that => pure (this, that) := by
  rw [openBinders, openBindersBy.eq_def]
  rfl

/-! ## Comparisons -/

@[simp] theorem perform_agree (budget : Nat) (s t : Ty) : perform budget
    (.agree s t) = equate budget s t := rfl

/-- Rows meet in a fresh variable for what is behind both of them. -/
theorem perform_meet (budget : Nat) (k : RowKind) (fields : Row Ty) (tail : Ty) (others : Row Ty)
    (tail' : Ty) : perform budget (.meet k fields tail others tail') = fresh >>= fun shared =>
      equate budget tail' (.row k fields (.var shared)) >>= fun _ =>
        equate budget tail (.row k others (.var shared)) := rfl

theorem follow_defer (n : Nat) (u : Ty) : follow budget key s t (.defer n u) = defer n u := rfl

/-- Binders are opened as far as they go before the comparison goes on. -/
theorem follow_reopen : follow budget key s t .reopen =
    openBinders key maxUnfoldings s t >>= fun p => equate budget p.1 p.2 := rfl

theorem follow_clash : follow budget key s t .clash = throw (.mismatch s t) := rfl

/-- Parts are compared one after the other. -/
theorem follow_split (tasks : List Task) : follow budget key s t (.split tasks) =
    tasks.forM (perform budget) := rfl

theorem forM_singleton (budget : Nat) (task : Task) :
    [task].forM (perform budget) = perform budget task := bind_pure _

/-- No comparison nests deeper than its budget. -/
theorem equate_zero (s t : Ty) : equate 0 s t = throw .tooDeep := rfl

/-- **One equality, step by step.** -/
theorem equate_succ (budget : Nat) (this that : Ty) (st : Solver) :
    (equate (budget + 1) this that).run st =
      if st.visited.contains (equalityKey this that) then (.ok (), st)
      else (follow budget (equalityKey this that) this.flatten that.flatten
        (outcome this.flatten that.flatten)).run (st.noting (equalityKey this that)) := by
  rw [equate, equateBy, Run.run_bind]
  show (if st.visited.contains (equalityKey this that) then pure () else _ :
    Solving Unit).run st = _
  split
  · rfl
  · rfl

/-- **A demand is refused before anything is compared** if one side of it has no text. -/
theorem demand_eq (budget : Nat) (s t : Ty) : demand budget s t =
    match s.unranked?.or t.unranked? with
    | some why => throw (.unwritable why)
    | none => equate budget s t := rfl

/-! ## Rounds -/

/-- A type is closed over a variable only if it mentions it. -/
theorem closeOver_eq (n : Nat) (t : Ty) : closeOver n t =
    if t.free.contains n then fresh >>= fun p => pure (.bind .mu p (t.substitute [(n, .var p)]))
    else pure t := rfl

/-- The type under study is brought up to date. -/
theorem updateBy_plain (σ : Subst) : updateBy .plain σ = modify fun st => st.updating σ := by
  funext st
  obtain ⟨counter, visited, pending, lastType, trace⟩ := st
  cases lastType <;> rfl

/-- **A pass binds the first pending equation**, or has nothing left to do. -/
theorem pass_eq (budget : Nat) (pending : List Equation) : pass budget pending =
    match firstBinding pending with
    | none => modify fun st => st.updating []
    | some (e, others) => closeOver e.var e.type >>= fun t => (do
      note ("Bind " ++ String.ofList (Ty.ownName e.var) ++ " := " ++ t.text)
      (others.filter fun d => !d.isTrivial).forM fun d =>
        equate budget ((Ty.var d.var).substitute [(e.var, t)]) (d.type.substitute [(e.var, t)])
      modify fun st => st.updating [(e.var, t)]) := by
  simp only [← updateBy_plain]
  rfl

/-- **A step takes the pending equations up** and puts them back if it fails, unless that is for
depth. -/
theorem solveStep_eq (budget : Nat) : solveStep budget = get >>= fun st => (do
    modify emptied
    tryCatch (pass budget st.pending) fun e =>
      match e with
      | .tooDeep => throw .tooDeep
      | e => modify (fun mid => mid.restoring st.pending) >>= fun _ => throw e) := rfl

theorem solvePasses_zero (budget done : Nat) : solvePasses budget 0 done = throw .tooManyPasses :=
  rfl

/-- Passes follow until one leaves nothing pending or changes nothing. -/
theorem solvePasses_succ (budget remaining done : Nat) : solvePasses budget (remaining + 1) done =
    get >>= fun before => solveStep budget >>= fun _ => get >>= fun after =>
      if after.keys.isEmpty || after.keys = before.keys then
        note ("Solved in " ++ Decimal.natText (done + 1) ++ " pass(es)")
      else solvePasses budget remaining (done + 1) := rfl

/-!
## The equalities that are left to consider

Of the equalities between types of a finite set only finitely many have not been considered yet
(`unseen`), and each one that is noted leaves one less (`unseen_noting_lt`).
-/

/-- The equalities of a set of types that have not been considered yet. -/
def unseenKeys (U : Set Ty) (st : Solver) : Set String :=
  {key | (∃ s ∈ U, ∃ t ∈ U, key = equalityKey s t) ∧ key ∉ st.visited}

/-- The number of equalities that have not been considered yet. -/
noncomputable def unseen (U : Set Ty) (st : Solver) : Nat := (unseenKeys U st).ncard

variable {U : Set Ty}

/-- Of finitely many comparisons finitely many are left to consider. -/
theorem finite_unseenKeys (hU : U.Finite) (st : Solver) : (unseenKeys U st).Finite := by
  refine ((hU.prod hU).image fun p => equalityKey p.1 p.2).subset ?_
  rintro key ⟨⟨s, hs, t, ht, rfl⟩, -⟩
  exact ⟨(s, t), ⟨hs, ht⟩, rfl⟩

/-- Fewer are left as more have been seen. -/
theorem unseen_le (hU : U.Finite) {st st' : Solver} (h : ∀ key ∈ st.visited, key ∈ st'.visited) :
    unseen U st' ≤ unseen U st :=
  Set.ncard_le_ncard (fun _ hkey => ⟨hkey.1, fun hv => hkey.2 (h _ hv)⟩) (finite_unseenKeys hU st)

/-- **Noting a new equality leaves one less to consider.** -/
theorem unseen_noting_lt (hU : U.Finite) {st : Solver} {s t : Ty} (hs : s ∈ U) (ht : t ∈ U)
    (hkey : equalityKey s t ∉ st.visited) :
    unseen U (st.noting (equalityKey s t)) < unseen U st := by
  refine Set.ncard_lt_ncard ⟨fun key h => ⟨h.1, fun hv => h.2 (List.mem_cons_of_mem _ hv)⟩, ?_⟩
    (finite_unseenKeys hU st)
  intro hsub
  exact (hsub ⟨⟨s, hs, t, ht, rfl⟩, hkey⟩).2 List.mem_cons_self

end RowLang.Solver
