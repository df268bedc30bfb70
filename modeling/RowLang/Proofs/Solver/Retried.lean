import RowLang.Proofs.Solver.Assembled
import RowLang.Proofs.Solver.Equivariant
import RowLang.Proofs.Ty.Chain
import RowLang.Proofs.Ty.Rename

/-!
# Proofs/Solver/Retried — rounds before solving change nothing

A round that fails puts everything back but the count of fresh variables (`Resumed`), so the next
one goes the same way with other numbers for its fresh variables, and fails with the same message
(`Resumed.solveStep`).  A round that succeeds is the one that solving would have begun with.  And
when nothing is pending any more, further rounds leave the type under study as it is.  So solving
comes to the same after any number of rounds (`Steady.attempts`).
-/

namespace RowLang.Solver

open Ty

theorem message_mismatch (s t : Ty) : (TypeFailure.mismatch s t).message
    = "Type error: cannot match " ++ (prettyPair s t).1 ++ " with " ++ (prettyPair s t).2 := by
  unfold TypeFailure.message
  dsimp only

/-! ## Attempts -/

/-- One round; what is said of it, if it fails for a mismatch. -/
def attempt (budget : Nat) : Solving (Option String) :=
  tryCatch (do
    solveStep budget
    return none) fun e =>
    match e with
    | .mismatch s t => return some (TypeFailure.mismatch s t).message
    | e => throw e

/-- Rounds one after the other, a mismatch being followed by the next; what is said of those. -/
def attempts (budget : Nat) : Nat → Solving (List String)
  | 0 => return []
  | k + 1 => do
    let said ← attempt budget
    return said.toList ++ (← attempts budget k)

theorem run_attempt_of_ok {budget : Nat} {st mid : Solver}
    (h : (solveStep budget).run st = (.ok (), mid)) : (attempt budget).run st =
      (.ok none, mid) := by
  rw [attempt, Run.run_tryCatch, Run.run_bind, h]
  rfl

theorem run_attempt_of_mismatch {budget : Nat} {st mid : Solver} {s t : Ty}
    (h : (solveStep budget).run st = (.error (.mismatch s t), mid)) :
    (attempt budget).run st = (.ok (some (TypeFailure.mismatch s t).message), mid) := by
  rw [attempt, Run.run_tryCatch, Run.run_bind, h]
  rfl

theorem run_attempts_succ {budget k : Nat} {st mid st' : Solver} {said : Option String}
    {more : List String} (h : (attempt budget).run st = (.ok said, mid))
    (hmore : (attempts budget k).run mid = (.ok more, st')) :
    (attempts budget (k + 1)).run st = (.ok (said.toList ++ more), st') :=
  Run.run_bind_eq_ok.mpr ⟨said, mid, h, Run.run_bind_eq_ok.mpr ⟨more, st', hmore, rfl⟩⟩

/-! ## Failures once more -/

/-- The numbers from `c` on moved up to those from `c'` on. -/
def shifting (c c' n : Nat) : Nat := if n < c then n else n + (c' - c)

theorem shifting_of_lt {c c' n : Nat} (h : n < c) : shifting c c' n = n := if_pos h

theorem shifting_injective (c c' : Nat) : (shifting c c').Injective := by
  intro m n h
  unfold shifting at h
  split at h <;> split at h <;> omega

/-- The same is pending and under study, and no number is used again. -/
structure Resumed (st st' : Solver) : Prop where
  pending : st'.pending = st.pending
  lastType : st'.lastType = st.lastType
  counter : st.counter ≤ st'.counter

theorem Resumed.refl (st : Solver) : st.Resumed st := ⟨rfl, rfl, le_rfl⟩

theorem Resumed.trans {st mid st' : Solver} (h : st.Resumed mid) (h' : mid.Resumed st') :
    st.Resumed st' :=
  ⟨h'.pending.trans h.pending, h'.lastType.trans h.lastType, h.counter.trans h'.counter⟩

/-- A round that fails, but not for its depth, puts everything back. -/
theorem resumed_of_failure {budget : Nat} {st st' : Solver} {f : TypeFailure} (hf : f ≠ .tooDeep)
    (h : (solveStep budget).run st = (.error f, st')) : st.Resumed st' := by
  have hround := round_of_run h
  have hlast := hround.lastType
  cases hround with
  | failed _ hclose hwork =>
    obtain ⟨c, rfl, hc⟩ := numbering_of_closeOver hclose
    exact ⟨rfl, hlast, hc.trans hwork.grows.counter⟩
  | tooDeep => exact absurd rfl hf

/-- Whatever the numbers, no two variables get one. -/
theorem keepsApart_shifting (c c' : Nat) : KeepsApart (fun _ => True) (shifting c c') :=
  fun _ _ _ _ h => shifting_injective c c' h

theorem Resumed.alongside {st st' : Solver} (h : st.Resumed st') :
    Alongside (fun _ => True) (shifting st.counter st'.counter) st.emptied st'.emptied where
  visited := ⟨[], by simp, rfl, rfl⟩
  proper e he := by cases he
  pending := rfl
  fresh n hn := by
    have hcounter := h.counter
    have hnot : ¬ n < st.counter := Nat.not_lt.mpr hn
    refine ⟨trivial, ?_⟩
    show shifting st.counter st'.counter n + st.counter = n + st'.counter
    rw [shifting, if_neg hnot]
    omega

/-- All that is pending is about variables that have been numbered, and labels that can be read. -/
def PendingProper (st : Solver) : Prop :=
  ∀ e ∈ st.pending, ProperEquation (fun _ => True) st.counter e

/-- Numbers below the count stay as they are. -/
theorem PendingProper.map_renamed {st : Solver} (h : st.PendingProper) (c' : Nat) :
    st.pending.map (renamed (shifting st.counter c')) = st.pending :=
  (List.map_congr_left fun e he => renamed_eq_self (shifting_of_lt (h e he).lt)
    (rename_eq_self ((h e he).type.numbers.mono fun _ hn => shifting_of_lt hn.2))).trans
    (List.map_id _)

/-- A round fails for what its pass fails for. -/
theorem solveStep_fst (budget : Nat) (st : Solver) :
    ((solveStep budget).run st).1 = ((pass budget st.pending).run st.emptied).1 := by
  rw [run_solveStep]
  cases (pass budget st.pending).run st.emptied with
  | mk result last =>
    cases result with
    | ok _ => rfl
    | error f => cases f <;> rfl

theorem exists_run_of_fst {α : Type} {m : Solving α} {st : Solver} {r : Except TypeFailure α}
    (h : (m.run st).1 = r) : ∃ mid, m.run st = (r, mid) := ⟨(m.run st).2, h ▸ rfl⟩

/-- **A round that failed fails once more, with the same message.** -/
theorem Resumed.solveStep {budget : Nat} {st st' : Solver} {s t : Ty} (h : st.Resumed st')
    (hproper : st.PendingProper)
    (hrun : ((Solver.solveStep budget).run st).1 = .error (.mismatch s t)) :
    ∃ s' t' mid, (Solver.solveStep budget).run st' = (.error (.mismatch s' t'), mid) ∧
      (TypeFailure.mismatch s' t').message = (TypeFailure.mismatch s t).message ∧
      st.Resumed mid := by
  have hends := parallel_pass (keepsApart_shifting st.counter st'.counter) budget hproper _ _
    h.alongside le_rfl
  have hfst := solveStep_fst budget st'
  rw [solveStep_fst] at hrun
  rw [hproper.map_renamed] at hends
  rw [h.pending] at hfst
  cases hpass : (pass budget st.pending).run st.emptied with
  | mk r last =>
    cases hpass' : (pass budget st.pending).run st'.emptied with
    | mk r' last' =>
      rw [hpass, hpass'] at hends
      rw [hpass] at hrun
      rw [hpass'] at hfst
      subst hrun
      cases r' with
      | ok _ => exact hends.elim
      | error f =>
        cases hends with
        | mismatch hs ht =>
          obtain ⟨mid, hmid⟩ := exists_run_of_fst hfst
          refine ⟨_, _, mid, hmid, ?_, h.trans (resumed_of_failure (by simp) hmid)⟩
          rw [message_mismatch, message_mismatch, prettyPair_rename (shifting_injective _ _)]

/-- **Attempts at a round that fails all fail**, and with the same message. -/
theorem Resumed.attempts {budget : Nat} {st : Solver} {s t : Ty} (hproper : st.PendingProper)
    (hrun : ((Solver.solveStep budget).run st).1 = .error (.mismatch s t)) :
    ∀ (k : Nat) {st' : Solver}, st.Resumed st' → ∃ said mid,
      (Solver.attempts budget k).run st' = (.ok said, mid) ∧ st.Resumed mid ∧
        ∀ line ∈ said, line = (TypeFailure.mismatch s t).message
  | 0, st', h => ⟨[], st', rfl, h, by simp⟩
  | k + 1, st', h => by
    obtain ⟨s', t', mid, hstep, hmessage, hmid⟩ := h.solveStep hproper hrun
    obtain ⟨said, last, hrest, hlast, hsaid⟩ := Resumed.attempts hproper hrun k hmid
    refine ⟨_, last, run_attempts_succ (run_attempt_of_mismatch hstep) hrest, hlast, ?_⟩
    rw [hmessage]
    exact List.forall_mem_cons.mpr ⟨rfl, hsaid⟩

/-- **Solving fails for what its first round failed for**, and with the same message. -/
theorem Resumed.solve {budget : Nat} {st st' : Solver} {s t : Ty} (h : st.Resumed st')
    (hproper : st.PendingProper)
    (hrun : ((Solver.solveStep budget).run st).1 = .error (.mismatch s t)) :
    ∃ s' t' last, (Solver.solve budget).run st' = (.error (.mismatch s' t'), last) ∧
      (TypeFailure.mismatch s' t').message = (TypeFailure.mismatch s t).message := by
  obtain ⟨s', t', last, hstep, hmessage, -⟩ := h.solveStep hproper hrun
  refine ⟨s', t', last, ?_, hmessage⟩
  rw [Solver.solve, maxPasses, run_solvePasses, hstep]

/-! ## The fixpoint -/

/-- Nothing is pending, and what is under study is flat. -/
structure Finished (st : Solver) : Prop where
  pending : st.pending = []
  lastType : ∀ t, st.lastType = some t → t.flatten = t

/-- **When nothing is pending a round changes nothing.** -/
theorem Finished.solveStep {st : Solver} (h : st.Finished) (budget : Nat) :
    (Solver.solveStep budget).run st = (.ok (), { st with visited := [] }) := by
  have hlast : (st.lastType.map fun t => (t.substitute []).flatten) = st.lastType := by
    cases hst : st.lastType with
    | none => rfl
    | some t => rw [Option.map_some, substitute_nil, h.lastType t hst]
  rw [run_solveStep, h.pending, pass_eq]
  show (_, updating _ _) = _
  rw [updating, emptied, hlast, ← h.pending]

/-- **Solving again changes nothing.** -/
theorem Finished.solve {st : Solver} (h : st.Finished) (budget : Nat) : (solve budget).run st
    = (.ok (), { st with visited := [], trace := "Solved in 1 pass(es)" :: st.trace }) := by
  rw [Solver.solve, maxPasses, run_solvePasses, h.solveStep budget]
  dsimp only
  rw [if_pos]
  · rfl
  · rw [keys, h.pending]
    rfl

theorem Finished.attempts (budget : Nat) : ∀ (k : Nat) {st : Solver}, st.Finished → ∃ mid,
    (Solver.attempts budget k).run st = (.ok [], mid) ∧ mid.Finished ∧ mid.lastType = st.lastType
  | 0, st, h => ⟨st, rfl, h, rfl⟩
  | k + 1, st, h => by
    have hnext : Finished { st with visited := [] } := ⟨h.pending, h.lastType⟩
    obtain ⟨mid, hrest, hmid, hlast⟩ := Finished.attempts budget k hnext
    exact ⟨mid, run_attempts_succ (run_attempt_of_ok (h.solveStep budget)) hrest, hmid, hlast⟩

/-- A round that succeeds leaves a flat type under study. -/
theorem finished_of_round {st mid : Solver} (h : Round st (.ok ()) mid) (hnil : mid.pending = []) :
    mid.Finished := by
  refine ⟨hnil, fun t ht => ?_⟩
  cases h with
  | idle | done =>
    obtain ⟨u, -, rfl⟩ := Option.map_eq_some_iff.mp ht
    exact flatten_flatten _

/-! ## Runs of rounds -/

/-- **With more rounds left, solving comes to the same**, unless there were too few. -/
theorem exists_solvePasses_of_le {budget : Nat} {r : Except TypeFailure Unit}
    (hr : r ≠ .error .tooManyPasses) : ∀ {remaining remaining' done done' : Nat} {st st' : Solver},
    remaining ≤ remaining' → (solvePasses budget remaining done).run st = (r, st') →
      ∃ last, (solvePasses budget remaining' done').run st = (r, last) ∧
        last.pending = st'.pending ∧ last.lastType = st'.lastType
  | 0, _, _, _, _, _, _, hrun => by cases hrun; exact absurd rfl hr
  | remaining + 1, 0, _, _, _, _, hle, _ => absurd hle (by omega)
  | remaining + 1, remaining' + 1, done, done', st, st', hle, hrun => by
    rw [run_solvePasses] at hrun ⊢
    cases hstep : (solveStep budget).run st with
    | mk result mid =>
      rw [hstep] at hrun
      cases result with
      | error e =>
        cases hrun
        exact ⟨_, rfl, rfl, rfl⟩
      | ok _ =>
        dsimp only at hrun ⊢
        split at hrun
        case isTrue hdone =>
          cases hrun
          exact ⟨_, if_pos hdone, rfl, rfl⟩
        case isFalse hgoes =>
          rw [if_neg hgoes]
          exact exists_solvePasses_of_le hr (Nat.le_of_succ_le_succ hle) hrun

theorem exists_solve_of_solvePasses {budget remaining done : Nat} {r : Except TypeFailure Unit}
    {st st' : Solver} (hle : remaining ≤ maxPasses)
    (hrun : (solvePasses budget remaining done).run st = (r, st'))
    (hr : r ≠ .error .tooManyPasses) :
    ∃ last, (solve budget).run st = (r, last) ∧
      last.pending = st'.pending ∧ last.lastType = st'.lastType :=
  exists_solvePasses_of_le hr hle hrun

/-- A state in which rounds go on as they should: all that is pending is about live variables and is
known by its text. -/
structure Steady (st : Solver) : Prop where
  clear : Clear (fun _ => False) st
  alongside : Alongside (fun _ => True) id st st

theorem Steady.round {budget : Nat} {st mid : Solver} (h : st.Steady)
    (hstep : (solveStep budget).run st = (.ok (), mid)) : mid.Steady := by
  refine ⟨h.clear.round (round_of_run hstep), ?_⟩
  have hends := parallel_solveStep (fun _ _ _ _ h => h) budget st st h.alongside le_rfl
  rw [hstep] at hends
  exact hends.1

/-- **Solving that succeeds succeeds after any number of rounds**, which all succeed, with the same
type under study and nothing pending. -/
theorem Steady.attempts_of_ok {budget : Nat} : ∀ (k : Nat) {remaining done : Nat} {st st' : Solver},
    st.Steady → remaining ≤ maxPasses → (solvePasses budget remaining done).run st = (.ok (), st') →
      ∃ mid last, (attempts budget k).run st = (.ok [], mid) ∧
      (solve budget).run mid = (.ok (), last) ∧
        last.pending = [] ∧ last.lastType = st'.lastType
  | 0, remaining, done, st, st', h, hle, hrun => by
    obtain ⟨last, hlast, hpending, htype⟩ := exists_solve_of_solvePasses hle hrun (by simp)
    exact ⟨st, last, rfl, hlast, hpending.trans (h.clear.pending_eq_nil hrun), htype⟩
  | k + 1, 0, _, _, _, _, _, hrun => by cases hrun
  | k + 1, remaining + 1, done, st, st', h, hle, hrun => by
    have hnil := h.clear.pending_eq_nil hrun
    obtain ⟨mid, hstep, hrest⟩ := solvePasses_cases hrun
    have hfirst := run_attempt_of_ok hstep
    obtain ⟨-, line, rfl⟩ | ⟨-, hrun⟩ := hrest
    · obtain ⟨last, hrest, hlast, htype⟩ :=
        (finished_of_round (round_of_run hstep) hnil).attempts budget k
      exact ⟨last, _, run_attempts_succ hfirst hrest, hlast.solve budget, hlast.pending, htype⟩
    · obtain ⟨last, st₂, hrest, hsolve⟩ :=
        (h.round hstep).attempts_of_ok k (Nat.le_of_succ_le hle) hrun
      exact ⟨last, st₂, run_attempts_succ hfirst hrest, hsolve⟩

/-- **Solving that fails for a mismatch fails after any number of rounds**, and each round that
fails, as the solving, with the same message. -/
theorem Steady.attempts_of_mismatch {budget : Nat} {s t : Ty} : ∀ (k : Nat) {remaining done : Nat}
    {st st' : Solver}, st.Steady → remaining ≤ maxPasses →
      (solvePasses budget remaining done).run st = (.error (.mismatch s t), st') →
      ∃ said mid s' t' last, (attempts budget k).run st = (.ok said, mid) ∧
        (∀ line ∈ said, line = (TypeFailure.mismatch s t).message) ∧
        (solve budget).run mid = (.error (.mismatch s' t'), last) ∧
        (TypeFailure.mismatch s' t').message = (TypeFailure.mismatch s t).message
  | 0, remaining, done, st, st', h, hle, hrun => by
    obtain ⟨last, hlast, -⟩ := exists_solve_of_solvePasses hle hrun (by simp)
    exact ⟨[], st, s, t, last, rfl, by simp, hlast, rfl⟩
  | k + 1, 0, _, _, _, _, _, hrun => by cases hrun
  | k + 1, remaining + 1, done, st, st', h, hle, hrun => by
    rw [run_solvePasses] at hrun
    cases hstep : (solveStep budget).run st with
    | mk result mid =>
      rw [hstep] at hrun
      cases result with
      | error f =>
        cases hrun
        have hproper : st.PendingProper := h.alongside.proper
        have hfails : ((solveStep budget).run st).1 = .error (.mismatch s t) := by rw [hstep]
        obtain ⟨said, mid, hrest, hmid, hsaid⟩ := Resumed.attempts hproper hfails (k + 1) (.refl st)
        obtain ⟨s', t', last, hsolve⟩ := hmid.solve hproper hfails
        exact ⟨said, mid, s', t', last, hrest, hsaid, hsolve⟩
      | ok _ =>
        dsimp only at hrun
        split at hrun
        case isTrue => cases hrun
        case isFalse =>
          obtain ⟨said, mid, s', t', last, hrest, hsolve⟩ :=
            (h.round hstep).attempts_of_mismatch k (Nat.le_of_succ_le hle) hrun
          exact ⟨said, mid, s', t', last, run_attempts_succ (run_attempt_of_ok hstep) hrest, hsolve⟩

/-- When solving has succeeded, nothing is left to do. -/
theorem Steady.finished {budget : Nat} : ∀ {remaining done : Nat} {st st' : Solver}, st.Steady →
    (solvePasses budget remaining done).run st = (.ok (), st') → st'.Finished
  | 0, _, _, _, _, hrun => by cases hrun
  | remaining + 1, done, st, st', h, hrun => by
    have hnil := h.clear.pending_eq_nil hrun
    obtain ⟨mid, hstep, hrest⟩ := solvePasses_cases hrun
    obtain ⟨-, line, rfl⟩ | ⟨-, hrun⟩ := hrest
    · have hmid := finished_of_round (round_of_run hstep) hnil
      exact ⟨hmid.pending, hmid.lastType⟩
    · exact (h.round hstep).finished hrun

/-- **When solving has failed for a mismatch, it fails again**, and with the same message. -/
theorem Steady.solve_again {budget : Nat} {s t : Ty} : ∀ {remaining done : Nat} {st st' : Solver},
    st.Steady → (solvePasses budget remaining done).run st = (.error (.mismatch s t), st') →
      ∃ s' t' last, (solve budget).run st' = (.error (.mismatch s' t'), last) ∧
        (TypeFailure.mismatch s' t').message = (TypeFailure.mismatch s t).message
  | 0, _, _, _, _, hrun => by cases hrun
  | remaining + 1, done, st, st', h, hrun => by
    rw [run_solvePasses] at hrun
    cases hstep : (solveStep budget).run st with
    | mk result mid =>
      rw [hstep] at hrun
      cases result with
      | error f =>
        cases hrun
        exact (resumed_of_failure (by simp) hstep).solve h.alongside.proper (by rw [hstep])
      | ok _ =>
        dsimp only at hrun
        split at hrun
        case isTrue => cases hrun
        case isFalse => exact (h.round hstep).solve_again hrun

end RowLang.Solver
