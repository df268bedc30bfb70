import RowLang.Proofs.Solver.Grows
import RowLang.Solver.Solve

/-!
# Proofs/Solver/Round — a round of elimination, however it ends

A round takes the first pending equation, closes it into a recursive type if need be, and goes
through the others with its variable replaced.  `Round st r st'` lists its ends: nothing to bind,
all done, a failure after which the pending equations are put back, and the depth limit, after which
they are not. `round_of_run` turns every run of a round into one of these.
-/

namespace RowLang.Solver

/-- What is asked of an equation when a variable is replaced. -/
def replacing (n : Nat) (t : Ty) (e : Equation) : Task :=
  .agree ((Ty.var e.var).substitute [(n, t)]) (e.type.substitute [(n, t)])

/-- What is asked of all equations that are not trivial. -/
def replacingAll (n : Nat) (t : Ty) (es : List Equation) : List Task :=
  (es.filter fun d => !d.isTrivial).map (replacing n t)

/-- **A round of elimination and its end.** -/
inductive Round (st : Solver) : Except TypeFailure Unit → Solver → Prop
  | idle : firstBinding st.pending = none → Round st (.ok ()) (st.emptied.updating [])
  | done {e others t line mid mid'} : firstBinding st.pending = some (e, others) →
      (closeOver e.var e.type).run st.emptied = (.ok t, mid) →
      Course (replacingAll e.var t others) (mid.saying line) (.ok ()) mid' →
      Round st (.ok ()) (mid'.updating [(e.var, t)])
  | failed {e others t line mid mid' f} : firstBinding st.pending = some (e, others) →
      (closeOver e.var e.type).run st.emptied = (.ok t, mid) →
      Course (replacingAll e.var t others) (mid.saying line) (.error f) mid' → f ≠ .tooDeep →
      Round st (.error f) (mid'.restoring st.pending)
  | tooDeep {e others t line mid mid'} : firstBinding st.pending = some (e, others) →
      (closeOver e.var e.type).run st.emptied = (.ok t, mid) →
      Course (replacingAll e.var t others) (mid.saying line) (.error .tooDeep) mid' →
      Round st (.error .tooDeep) mid'

/-- A round is a pass over what was pending; one that fails, but not for its depth, puts it back. -/
theorem run_solveStep (budget : Nat) (st : Solver) : (solveStep budget).run st =
    match (pass budget st.pending).run st.emptied with
    | (.ok _, st') => (.ok (), st')
    | (.error .tooDeep, st') => (.error .tooDeep, st')
    | (.error e, st') => (.error e, st'.restoring st.pending) := by
  rw [solveStep_eq, Run.run_bind, Run.run_get]
  dsimp only
  rw [Run.run_bind, Run.run_modify]
  dsimp only
  rw [Run.run_tryCatch]
  cases (pass budget st.pending).run st.emptied with
  | mk result st' =>
    cases result with
    | ok _ => rfl
    | error e => cases e <;> rfl

/-- Closing a type over a variable does not fail, and numbers at most one variable. -/
theorem exists_run_closeOver (n : Nat) (t : Ty) (st : Solver) :
    ∃ t' c, (closeOver n t).run st = (.ok t', st.numbering c) ∧ st.counter ≤ c := by
  rw [closeOver_eq]
  split
  · exact ⟨_, _, rfl, Nat.le_succ _⟩
  · exact ⟨_, _, rfl, Nat.le_refl _⟩

theorem numbering_of_closeOver {n : Nat} {t t' : Ty} {st mid : Solver}
    (h : (closeOver n t).run st = (.ok t', mid)) : ∃ c, mid = st.numbering c ∧ st.counter ≤ c := by
  obtain ⟨t₁, c, hrun, hc⟩ := exists_run_closeOver n t st
  rw [h] at hrun
  cases hrun
  exact ⟨c, rfl, hc⟩

/-- To go through the others is to do what is asked of them. -/
theorem forM_replacingAll (budget n : Nat) (t : Ty) (es : List Equation) :
    (replacingAll n t es).forM (perform budget) = (es.filter fun d => !d.isTrivial).forM fun d =>
      equate budget ((Ty.var d.var).substitute [(n, t)]) (d.type.substitute [(n, t)]) :=
  List.forM_map

/-- A pass binds the first variable and goes through the others. -/
theorem run_pass {budget : Nat} {pending others : List Equation} {st mid : Solver} {e : Equation}
    {t : Ty} (hfirst : firstBinding pending = some (e, others))
    (hclose : (closeOver e.var e.type).run st = (.ok t, mid)) : (pass budget pending).run st =
    match ((replacingAll e.var t others).forM (perform budget)).run (mid.saying
      ("Bind " ++ String.ofList (Ty.ownName e.var) ++ " := " ++ t.text)) with
    | (.ok _, st') => (.ok (), st'.updating [(e.var, t)])
    | (.error f, st') => (.error f, st') := by
  rw [pass_eq, hfirst, Run.run_bind, hclose]
  dsimp only
  rw [Run.run_bind, note, Run.run_modify]
  dsimp only
  rw [← forM_replacingAll, Run.run_bind]
  cases ((replacingAll e.var t others).forM (perform budget)).run (mid.saying
      ("Bind " ++ String.ofList (Ty.ownName e.var) ++ " := " ++ t.text)) with
  | mk result st' => cases result <;> rfl

/-- **What a pass does**: nothing, or it binds the first variable and goes through the others. -/
theorem pass_cases {budget : Nat} {pending : List Equation} {st st' : Solver}
    {r : Except TypeFailure Unit} (h : (pass budget pending).run st = (r, st')) :
    (firstBinding pending = none ∧ r = .ok () ∧ st' = st.updating []) ∨
    ∃ e others t line mid mid', firstBinding pending = some (e, others) ∧
      (closeOver e.var e.type).run st = (.ok t, mid) ∧
      Course (replacingAll e.var t others) (mid.saying line) r mid' ∧
      (r = .ok () → st' = mid'.updating [(e.var, t)]) ∧ ∀ f, r = .error f → st' = mid' := by
  cases hfirst : firstBinding pending with
  | none =>
    rw [pass_eq, hfirst] at h
    cases h
    exact Or.inl ⟨rfl, rfl, rfl⟩
  | some found =>
    obtain ⟨e, others⟩ := found
    obtain ⟨t, c, hclose, -⟩ := exists_run_closeOver e.var e.type st
    rw [run_pass hfirst hclose] at h
    cases hwork : ((replacingAll e.var t others).forM (perform budget)).run
        ((st.numbering c).saying
          ("Bind " ++ String.ofList (Ty.ownName e.var) ++ " := " ++ t.text)) with
    | mk result mid' =>
      rw [hwork] at h
      have hcourse := course_of_forM hwork
      cases result with
      | ok _ =>
        cases h
        exact Or.inr ⟨e, others, t, _, _, mid', rfl, hclose, hcourse, fun _ => rfl, by simp⟩
      | error f =>
        cases h
        exact Or.inr ⟨e, others, t, _, _, _, rfl, hclose, hcourse, by simp, fun _ _ => rfl⟩

/-- **Every run of a round is a round.** -/
theorem round_of_run {budget : Nat} {st st' : Solver} {r : Except TypeFailure Unit}
    (h : (solveStep budget).run st = (r, st')) : Round st r st' := by
  rw [run_solveStep] at h
  cases hpass : (pass budget st.pending).run st.emptied with
  | mk result last =>
    rw [hpass] at h
    rcases pass_cases hpass with ⟨hfirst, rfl, rfl⟩ |
      ⟨e, others, t, line, mid, mid', hfirst, hclose, hwork, hok, herror⟩
    · cases h
      exact .idle hfirst
    cases result with
    | ok _ =>
      cases h
      rw [hok rfl]
      exact .done hfirst hclose hwork
    | error f =>
      rw [herror f rfl] at h
      cases f with
      | tooDeep =>
        cases h
        exact .tooDeep hfirst hclose hwork
      | _ =>
        cases h
        exact .failed hfirst hclose hwork (by simp)

/-- A round that fails leaves the type under study as it was. -/
theorem Round.lastType {st st' : Solver} {f : TypeFailure} (h : Round st (.error f) st') :
    st'.lastType = st.lastType := by
  cases h with
  | failed _ hclose hwork | tooDeep _ hclose hwork =>
    obtain ⟨c, rfl, -⟩ := numbering_of_closeOver hclose
    exact hwork.grows.lastType

private theorem isTrivial_eq_false {e : Equation} (h : e.type ≠ .var e.var) :
    e.isTrivial = false := by
  rw [Equation.isTrivial]
  split
  case h_1 n hn =>
    refine decide_eq_false fun he => h ?_
    rw [hn, he]
  case h_2 => rfl

/-- Without trivial equations the first one is bound and all others are gone through. -/
theorem firstBinding_eq {e : Equation} {es : List Equation}
    (h : ∀ d ∈ e :: es, d.type ≠ .var d.var) : firstBinding (e :: es) = some (e, es) ∧
      (es.filter fun d => !d.isTrivial) = es := by
  refine ⟨?_, List.filter_eq_self.mpr fun d hd => ?_⟩
  · rw [firstBinding, isTrivial_eq_false (h e List.mem_cons_self)]
    rfl
  · rw [isTrivial_eq_false (h d (List.mem_cons_of_mem _ hd))]
    rfl

/-- The first equation that is bound and those behind it were pending. -/
theorem mem_of_firstBinding {es others : List Equation} {e : Equation}
    (h : firstBinding es = some (e, others)) : e ∈ es ∧ ∀ d ∈ others, d ∈ es := by
  induction es with
  | nil => cases h
  | cons d es ih =>
    rw [firstBinding] at h
    split at h
    · exact ⟨List.mem_cons_of_mem _ (ih h).1, fun x hx => List.mem_cons_of_mem _ ((ih h).2 x hx)⟩
    · cases h
      exact ⟨List.mem_cons_self, fun x hx => List.mem_cons_of_mem _ hx⟩

/-! ## Rounds -/

/-- **One round, and then all others**, unless none is left to do. -/
theorem run_solvePasses (budget remaining done : Nat) (st : Solver) :
    (solvePasses budget (remaining + 1) done).run st =
      match (solveStep budget).run st with
      | (.error e, mid) => (.error e, mid)
      | (.ok _, mid) =>
        if mid.keys.isEmpty || mid.keys = st.keys then
          (.ok (), mid.saying ("Solved in " ++ Decimal.natText (done + 1) ++ " pass(es)"))
        else (solvePasses budget remaining (done + 1)).run mid := by
  rw [solvePasses_succ, Run.run_bind, Run.run_get]
  dsimp only
  rw [Run.run_bind]
  cases (solveStep budget).run st with
  | mk result mid =>
    cases result with
    | error e => rfl
    | ok _ =>
      dsimp only
      rw [Run.run_bind, Run.run_get]
      dsimp only
      split <;> rfl

/-- Rounds that succeed: one of them, and then no more or all others. -/
theorem solvePasses_cases {budget remaining done : Nat} {st st' : Solver}
    (h : (solvePasses budget (remaining + 1) done).run st = (.ok (), st')) :
    ∃ mid, (solveStep budget).run st = (.ok (), mid) ∧
      (((mid.pending = [] ∨ mid.keys = st.keys) ∧ ∃ line, st' = mid.saying line) ∨
        (mid.pending ≠ [] ∧ (solvePasses budget remaining (done + 1)).run mid =
          (.ok (), st'))) := by
  rw [run_solvePasses] at h
  cases hstep : (solveStep budget).run st with
  | mk result mid =>
    rw [hstep] at h
    cases result with
    | error e => cases h
    | ok _ =>
      refine ⟨mid, rfl, ?_⟩
      dsimp only at h
      split at h
      case isTrue hdone =>
        cases h
        rw [Bool.or_eq_true, List.isEmpty_iff, decide_eq_true_eq, keys,
          List.map_eq_nil_iff] at hdone
        exact Or.inl ⟨hdone, _, rfl⟩
      case isFalse hdone =>
        refine Or.inr ⟨fun hnil => hdone ?_, h⟩
        rw [keys, hnil]
        rfl

end RowLang.Solver
