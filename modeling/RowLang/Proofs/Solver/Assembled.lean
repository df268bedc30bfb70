import Mathlib
import RowLang.Proofs.Solver.Live

/-!
# Proofs/Solver/Assembled — solving finishes its work

A solver is `Assembled` when it comes from a new one by fresh variables, comparisons of types of its
variables, a type to study and rounds, however these end.  Then it mentions no variable that it has
not numbered, none that a round has bound, and no trivial equation.  So every round that succeeds
gets rid of the variable of the first pending equation for good, and rounds stop only when nothing
is pending (`Assembled.solving_finishes`).
-/

namespace RowLang.Solver

open Ty

/-- **A solver that a query has made**, out of types whose free variables it has numbered. -/
inductive Assembled : Solver → Prop
  | new : Assembled {}
  | fresh {st} : Assembled st → Assembled st.counting
  | equate {budget s t st r st'} : Assembled st → (∀ v ∈ s.free, v < st.counter) →
      (∀ v ∈ t.free, v < st.counter) → (Solver.equate budget s t).run st = (r, st') → Assembled st'
  | studying {t st} : Assembled st → (∀ v ∈ t.free, v < st.counter) → Assembled (st.studying t)
  | round {budget st r st'} : Assembled st → (solveStep budget).run st = (r, st') → Assembled st'

theorem allLive_of_lt {c : Nat} {t : Ty} (h : ∀ v ∈ t.free, v < c) : AllLive (fun _ => False) c t :=
  fun v hv => ⟨h v hv, id⟩

/-- A solver mentions only variables that it has numbered, and no trivial equation is pending. -/
theorem Assembled.clear {st : Solver} (h : st.Assembled) : Clear (fun _ => False) st := by
  induction h with
  | new => exact ⟨⟨by simp, by simp, by simp⟩, by simp⟩
  | @fresh st _ ih =>
    have hst := ih.toPendingClear.numbering (Nat.le_succ st.counter)
    exact ⟨⟨hst.past, hst.equation, hst.nontrivial⟩,
      fun t ht => (ih.lastType t ht).mono (Nat.le_succ _)⟩
  | equate _ hs ht hrun ih =>
    have hcourse := course_of_run hrun
    have hgrows := hcourse.grows
    refine ⟨hcourse.pendingClear ih.toPendingClear fun task htask => ?_, fun t ht => ?_⟩
    · rw [List.mem_singleton.mp htask]
      exact ⟨allLive_of_lt hs, allLive_of_lt ht⟩
    · exact (ih.lastType t (hgrows.lastType ▸ ht)).mono hgrows.counter
  | studying _ ht ih =>
    refine ⟨⟨ih.past, ih.equation, ih.nontrivial⟩, fun u hu => ?_⟩
    cases hu
    exact allLive_of_lt ht
  | round _ hrun ih => exact ih.round (round_of_run hrun)

/-- A state that rounds lead to, however each of them ends. -/
def Later (st st' : Solver) : Prop :=
  Relation.ReflTransGen (fun a b => ∃ budget r, (solveStep budget).run a = (r, b)) st st'

theorem Clear.later {gone : Nat → Prop} {st st' : Solver} (h : Clear gone st)
    (hlater : st.Later st') :
    Clear gone st' := by
  induction hlater with
  | refl => exact h
  | tail _ hstep ih =>
    obtain ⟨budget, r, hrun⟩ := hstep
    exact ih.round (round_of_run hrun)

/-- The first pending equation is the one that is bound. -/
theorem Clear.firstBinding_eq {gone : Nat → Prop} {st : Solver} (h : Clear gone st) {e : Equation}
    {others : List Equation} (hpending : st.pending = e :: others) :
    firstBinding st.pending = some (e, others) := by
  rw [hpending]
  exact (Solver.firstBinding_eq fun d hd => h.nontrivial d (hpending ▸ hd)).1

/-- After a round something else is pending than before. -/
theorem Clear.keys_ne {gone : Nat → Prop} {st mid : Solver} {e : Equation} {others : List Equation}
    (h : Clear gone st) (hpending : st.pending = e :: others) (hround : Round st (.ok ()) mid) :
    mid.keys ≠ st.keys :=
  keys_ne_of_forall_var_ne hpending fun d hd hvar =>
    ((h.insert (h.firstBinding_eq hpending) hround).equation d hd).1.2 (Or.inr hvar)

/-- **Rounds come to an end only when nothing is pending.** -/
theorem Clear.pending_eq_nil {gone : Nat → Prop} {budget : Nat} : ∀ {remaining done : Nat}
    {st st' : Solver}, Clear gone st →
      (solvePasses budget remaining done).run st = (.ok (), st') → st'.pending = []
  | 0, _, _, _, _, hrun => by cases hrun
  | remaining + 1, done, st, st', h, hrun => by
    obtain ⟨mid, hstep, hrest⟩ := solvePasses_cases hrun
    have hround := round_of_run hstep
    obtain ⟨hdone, line, rfl⟩ | ⟨-, hrun⟩ := hrest
    · refine hdone.elim id fun hkeys => ?_
      cases hpending : st.pending with
      | nil =>
        rw [keys, keys, hpending] at hkeys
        exact List.map_eq_nil_iff.mp hkeys
      | cons e others => exact absurd hkeys (h.keys_ne hpending hround)
    · exact (h.round hround).pending_eq_nil hrun

/-- **Solving finishes its work.** A round that succeeds changes what is pending and eliminates the
variable of the first pending equation: no later state mentions it.  When all rounds are over,
nothing is pending. -/
theorem Assembled.solving_finishes {st : Solver} (hst : st.Assembled) :
    (∀ budget e others mid, st.pending = e :: others → (solveStep budget).run st = (.ok (), mid) →
      mid.keys ≠ st.keys ∧ ∀ st', mid.Later st' → ¬ st'.Mentions e.var) ∧
    ∀ budget st', (solve budget).run st = (.ok (), st') → st'.pending = [] := by
  refine ⟨fun budget e others mid hpending hrun => ?_, fun budget st' hrun => ?_⟩
  · have hround := round_of_run hrun
    refine ⟨hst.clear.keys_ne hpending hround, fun st' hlater => ?_⟩
    have hmid := hst.clear.insert (hst.clear.firstBinding_eq hpending) hround
    exact (hmid.later hlater).not_mentions (Or.inr rfl)
  · exact hst.clear.pending_eq_nil hrun

/-! ## Two lists -/

/-- The state when a variable has been made a list of another one, and a list of numbers. -/
private def posted : Solver :=
  ((equate depthLimit (.var 0) (.list .number)).run
    ((equate depthLimit (.var 0) (.list (.var 1))).run {}).2).2

private theorem assembled_posted : posted.Assembled := by
  have hfirst : Assembled ((equate depthLimit (.var 0) (.list (.var 1))).run {}).2 :=
    .equate .new (by decide) (by decide) rfl
  have hcounter : ((equate depthLimit (.var 0) (.list (.var 1))).run {}).2.counter = 26 := by cbv
  exact .equate hfirst (by rw [hcounter]; decide) (by rw [hcounter]; decide) rfl

private theorem pending_posted :
    posted.pending = [.of 0 (.list (.var 1)), .of 0 (.list .number)] := by
  cbv

/-- One equation goes into the other, and then nothing is left. -/
theorem solving_finishes_of_lists : ∃ st mid : Solver, st.Assembled ∧
    st.pending = [.of 0 (.list (.var 1)), .of 0 (.list .number)] ∧
    (solveStep depthLimit).run st = (.ok (), mid) ∧ mid.pending = [.of 1 .number] ∧
    (∀ st', mid.Later st' → ¬ st'.Mentions 0) ∧
    ∃ st', (solve depthLimit).run st = (.ok (), st') ∧ st'.pending = [] := by
  have hstep : (solveStep depthLimit).run posted
      = (.ok (), ((solveStep depthLimit).run posted).2) := Prod.ext (by cbv) rfl
  have hsolve : (solve depthLimit).run posted
      = (.ok (), ((solve depthLimit).run posted).2) := Prod.ext (by cbv) rfl
  obtain ⟨hround, hrounds⟩ := Assembled.solving_finishes assembled_posted
  exact ⟨posted, _, assembled_posted, pending_posted, hstep, by cbv,
    (hround _ _ _ _ pending_posted hstep).2, _, hsolve, hrounds _ _ hsolve⟩

end RowLang.Solver
