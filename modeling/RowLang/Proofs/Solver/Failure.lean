import RowLang.Proofs.Solver.Assembled

/-!
# Proofs/Solver/Failure — what a round that fails leaves behind

A round that fails leaves the type under study as it was.  When it fails for a mismatch or for
binders without end, what was pending is pending again.  When it is nested too deeply it is not:
then the equation that it has bound is lost, with all others that it had not come to
(`solveStep_failure`). The comparison of `mu p. {x: N | p}` with an open row that has another field
is nested without end, since each of its steps asks for the same with a fresh tail
(`tooDeep_endless`).
-/

namespace RowLang.Solver

open Ty

/-- A round that is nested too deeply loses the equation that it has bound. -/
theorem Assembled.lost_of_tooDeep {st st' : Solver} (hst : st.Assembled)
    (h : Round st (.error .tooDeep) st') :
    ∃ e ∈ st.pending, ∀ d ∈ st'.pending, ¬ d.Mentions e.var := by
  cases h with
  | failed _ _ _ hdeep => exact absurd rfl hdeep
  | tooDeep hfirst hclose hwork =>
    obtain ⟨hpending, -⟩ := hst.clear.replacingAll hfirst hclose hwork
    refine ⟨_, (mem_of_firstBinding hfirst).1, fun d hd => ?_⟩
    rintro (hvar | hmem)
    · exact (hpending.equation d hd).1.2 (Or.inr hvar.symm)
    · exact ((hpending.equation d hd).2 _ hmem).2 (Or.inr rfl)

/-- **What a failed round leaves**: the same type under study, and the same equations unless it was
nested too deeply; then no equation is left that a query's solver had of the variable it has bound.
-/
theorem solveStep_failure {budget : Nat} {st st' : Solver} {f : TypeFailure}
    (h : (solveStep budget).run st = (.error f, st')) :
    st'.lastType = st.lastType ∧ (f ≠ .tooDeep → st'.pending = st.pending) ∧
      (f = .tooDeep → st.Assembled →
        ∃ e ∈ st.pending, ∀ d ∈ st'.pending, ¬ d.Mentions e.var) := by
  have hround := round_of_run h
  refine ⟨hround.lastType, fun hf => ?_, fun hf hst => ?_⟩
  · cases hround with
    | failed => rfl
    | tooDeep => exact absurd rfl hf
  · subst hf
    exact hst.lost_of_tooDeep hround

/-- Two equations of a variable that do not go together. -/
private def numberOrChar : Solver :=
  { pending := [.of 0 .number, .of 0 .char], lastType := some (.var 0) }

/-- A round that finds a mismatch, and what it leaves. -/
theorem solveStep_failure_of_mismatch :
    ∃ st st' : Solver, st.pending = [.of 0 .number, .of 0 .char] ∧
    (solveStep depthLimit).run st = (.error (.mismatch .number .char), st') ∧
    st'.lastType = some (.var 0) ∧ st'.pending = st.pending := by
  have hrun : (solveStep depthLimit).run numberOrChar
      = (.error (.mismatch .number .char), ((solveStep depthLimit).run numberOrChar).2) :=
    Prod.ext (by cbv) rfl
  obtain ⟨hlast, hpending, -⟩ := solveStep_failure hrun
  exact ⟨numberOrChar, _, rfl, hrun, hlast, hpending (by simp)⟩

/-! ## A comparison without end -/

/-- The open record of one field, a number. -/
def oneField (l : Label) (n : Nat) : Ty := .row .record [(l, .number)] (.var n)

/-- The recursive type of records with a field `x` without end. -/
def endless : Ty := .bind .mu 1 (oneField "x" 1)

/-- The same, unfolded once. -/
def endlessUnfolded : Ty := .row .record [("x", .number)] endless

theorem tidy_oneField {l : Label} (h : Label.Plain l) (n : Nat) : (oneField l n).Tidy :=
  tidy_row.mpr ⟨Row.tidy_single h _, by simp [Ty.Tidy], trivial⟩

theorem endless_text_ne : endlessUnfolded.text ≠ endless.text := by decide

theorem oneField_eq_of_text_eq {l l' : Label} {n n' : Nat} (h : Label.Plain l) (h' : Label.Plain l')
    (htext : (oneField l n).text = (oneField l' n').text) : l = l' ∧ n = n' := by
  have hshown := shown_eq_of_text_eq (tidy_oneField h n) (tidy_oneField h' n') htext
  have hopen : ∀ l n, (oneField l n).shown = oneField l n := fun _ _ => rfl
  rw [hopen, hopen] at hshown
  simpa [oneField] using hshown

theorem plain_x : Label.Plain "x" := by decide

theorem plain_y : Label.Plain "y" := by decide

theorem tidy_endless : endless.Tidy := tidy_oneField plain_x 1

theorem tidy_endlessUnfolded : endlessUnfolded.Tidy :=
  tidy_row.mpr ⟨Row.tidy_single plain_x _, by simp [Ty.Tidy], tidy_endless⟩

/-- Equalities with a record of one field, of an earlier variable or not of this one under this
label. -/
def Passed (l : Label) (n : Nat) (keys : List String) : Prop :=
  ∀ key ∈ keys, ∃ s l' i, s.Tidy ∧ Label.Plain l' ∧ key = equalityKey s (oneField l' i) ∧
    (i < n ∨ i = n ∧ l' ≠ l)

section

variable {keys : List String} {n m : Nat} {l : Label} {s : Ty}

theorem Passed.not_mem (h : Passed l n keys) (hl : Label.Plain l) (hs : s.Tidy) :
    equalityKey s (oneField l n) ∉ keys := by
  intro hmem
  obtain ⟨s', l', i, hs', hl', hkey, hother⟩ := h _ hmem
  obtain ⟨rfl, rfl⟩ := oneField_eq_of_text_eq hl hl' (text_eq_of_equalityKey_eq hs hs' hkey).2
  rcases hother with hlt | ⟨-, hne⟩
  exacts [Nat.lt_irrefl _ hlt, hne rfl]

theorem Passed.later (h : Passed l n keys) (hn : n < m) (l' : Label) : Passed l' m keys := by
  intro key hkey
  obtain ⟨s, l₁, i, hs, hl₁, hkey, hother⟩ := h key hkey
  exact ⟨s, l₁, i, hs, hl₁, hkey, Or.inl (by omega)⟩

theorem Passed.cons {l' : Label} {n' : Nat} (h : Passed l n keys) (hs : s.Tidy)
    (hl : Label.Plain l') (hother : n' < n ∨ n' = n ∧ l' ≠ l) :
    Passed l n (equalityKey s (oneField l' n') :: keys) := by
  intro key hkey
  rcases List.mem_cons.mp hkey with rfl | hkey
  · exact ⟨s, l', n', hs, hl, rfl, hother⟩
  · exact h key hkey

end

section

variable {st : Solver} {budget n m : Nat} {l : Label}

/-- The recursive type is unfolded. -/
theorem run_equate_endless (hkey : equalityKey endless (oneField "y" n) ∉ st.visited) :
    (equate (budget + 1) endless (oneField "y" n)).run st =
      (equate budget endlessUnfolded (oneField "y" n)).run
        (st.noting (equalityKey endless (oneField "y" n))) := by
  rw [equate_succ, if_neg (by simpa using hkey)]
  generalize equalityKey endless (oneField "y" n) = key
  have hopen : openBinders key maxUnfoldings endless (oneField "y" n)
      = pure (endlessUnfolded, oneField "y" n) := by
    rw [maxUnfoldings, endless, openBinders_left key 99]
    exact openBinders_done key 98 (by simp [oneField, unfold, substitute, flatten, prependRow])
      (by simp [oneField])
  show (follow budget key endless (oneField "y" n) .reopen).run _ = _
  rw [follow_reopen, hopen, pure_bind]

theorem Passed.not_mem_unfolded {keys : List String} (h : Passed "y" n keys) :
    equalityKey endlessUnfolded (oneField "y" n) ∉ equalityKey endless
      (oneField "y" n) :: keys := by
  intro hmem
  rcases List.mem_cons.mp hmem with hkey | hmem
  · exact endless_text_ne (text_eq_of_equalityKey_eq tidy_endlessUnfolded tidy_endless hkey).1
  · exact h.not_mem plain_y tidy_endlessUnfolded hmem

/-- Each tail shall have the other's field, with a fresh one behind. -/
theorem run_equate_endlessUnfolded
    (hkey : equalityKey endlessUnfolded (oneField "y" n) ∉ st.visited) :
    (equate (budget + 1) endlessUnfolded (oneField "y" n)).run st =
      (do equate budget (.var n) (oneField "x" st.counter)
          equate budget endless (oneField "y" st.counter) : Solving Unit).run
        (st.noting (equalityKey endlessUnfolded (oneField "y" n))).counting := by
  rw [equate_succ, if_neg (by simpa using hkey)]
  have hout : outcome endlessUnfolded.flatten (oneField "y" n).flatten
      = .split [.meet .record [("x", .number)] endless [("y", .number)] (.var n)] := rfl
  rw [hout, follow_split, forM_singleton, perform_meet, Run.run_bind, Run.run_fresh]
  rfl

/-- A variable shall be a type with structure. -/
theorem run_equate_var {t : Ty} (hkey : equalityKey (.var n) t ∉ st.visited) (hflat : t.flatten = t)
    (ht : ∀ m, t ≠ .var m) : (equate (budget + 1) (.var n) t).run st
      = (.ok (), (st.noting (equalityKey (.var n) t)).posting n t) := by
  rw [equate_succ, if_neg (by simpa using hkey), hflat]
  cases t with
  | var m => exact absurd rfl (ht m)
  | _ => rfl

end

/-- **The comparison is nested too deeply**, however deep it is followed. -/
theorem tooDeep_endless : ∀ (budget : Nat) {n : Nat} {st : Solver}, n < st.counter →
    Passed "y" n st.visited →
      ∃ st', (equate budget endless (oneField "y" n)).run st = (.error .tooDeep, st')
  | 0, n, st, _, _ => ⟨st, rfl⟩
  | 1, n, st, _, h => by
    rw [run_equate_endless (h.not_mem plain_y tidy_endless)]
    exact ⟨_, rfl⟩
  | 2, n, st, _, h => by
    rw [run_equate_endless (h.not_mem plain_y tidy_endless),
      run_equate_endlessUnfolded (h.not_mem_unfolded), Run.run_bind]
    exact ⟨_, rfl⟩
  | budget + 3, n, st, hn, h => by
    rw [run_equate_endless (h.not_mem plain_y tidy_endless),
      run_equate_endlessUnfolded (h.not_mem_unfolded), Run.run_bind]
    -- From here on all equalities so far are about rows before the fresh one.
    have hpassed : ∀ l, Passed l st.counter (equalityKey endlessUnfolded (oneField "y" n) ::
        equalityKey endless (oneField "y" n) :: st.visited) := fun l =>
      ((h.later hn l).cons tidy_endless plain_y (Or.inl hn)).cons tidy_endlessUnfolded plain_y
        (Or.inl hn)
    have hkey := (hpassed "x").not_mem plain_x (s := .var n) trivial
    rw [noting_counter, run_equate_var hkey rfl (by simp [oneField])]
    exact tooDeep_endless (budget + 1) (Nat.lt_succ_self st.counter)
      ((hpassed "y").cons trivial plain_x (Or.inr ⟨rfl, by decide⟩))

/-! ## A round that is nested too deeply -/

/-- A variable that shall be the recursive type and the other row. -/
def endlessPair : List Equation := [.of 0 endless, .of 0 (oneField "y" 2)]

/-- A solver for which both have been posted. -/
theorem exists_assembled_endlessPair : ∃ st : Solver, st.Assembled ∧ st.pending = endlessPair ∧
    2 < st.counter := by
  have htext : (oneField "y" 2).text ≠ endless.text := by decide
  have hfirst : (equate 1 (.var 0) endless).run {} = (.ok (), _) :=
    run_equate_var (by simp) rfl (by simp [endless])
  have htidy : (Ty.var 0).Tidy := trivial
  have hkey : equalityKey (.var 0) (oneField "y" 2) ≠ equalityKey (.var 0) endless := fun hkey =>
    htext (text_eq_of_equalityKey_eq htidy htidy hkey).2
  have hsecond : (equate 1 (.var 0) (oneField "y" 2)).run
      ((({} : Solver).noting (equalityKey (.var 0) endless)).posting 0 endless) = (.ok (), _) :=
    run_equate_var (fun hmem => hkey (List.mem_singleton.mp hmem)) rfl (by simp [oneField])
  have hpost : Equation.post [.of 0 endless] (.of 0 (oneField "y" 2)) = endlessPair := by
    rw [Equation.post, if_neg fun hkey => htext (Equation.text_eq_of_key_eq hkey).2.symm]
    rfl
  exact ⟨_, .equate (.equate .new (by decide) (by decide) hfirst) (by decide) (by decide) hsecond,
    hpost, by decide⟩

/-- A pass over these equations is nested too deeply. -/
theorem tooDeep_endlessPair (budget : Nat) (st : Solver) (hcounter : 2 < st.counter)
    (hvisited : st.visited = []) :
    ∃ st', (pass budget endlessPair).run st = (.error .tooDeep, st') := by
  have hfirst : firstBinding endlessPair = some (.of 0 endless, [.of 0 (oneField "y" 2)]) := rfl
  have htasks : replacingAll (Equation.of 0 endless).var endless [.of 0 (oneField "y" 2)]
      = [.agree endless (oneField "y" 2)] := rfl
  have hclose : (closeOver (Equation.of 0 endless).var (Equation.of 0 endless).type).run st
      = (.ok endless, st) := rfl
  rw [run_pass hfirst hclose, htasks, forM_singleton, perform_agree]
  obtain ⟨st', hdeep⟩ := tooDeep_endless budget (n := 2) (show 2 < (st.saying
    ("Bind " ++ String.ofList (ownName (Equation.of 0 endless).var) ++ " := " ++
      endless.text)).counter
      from hcounter) (by simp [Passed, saying, hvisited])
  exact ⟨st', by rw [hdeep]⟩

/-- **A round loses equations**, however deep it is followed. -/
theorem solveStep_loses_equations : ∃ st : Solver, st.Assembled ∧ ∀ budget, ∃ st',
    (solveStep budget).run st = (.error .tooDeep, st') ∧ st'.pending ≠ st.pending := by
  obtain ⟨st, hst, hpending, hcounter⟩ := exists_assembled_endlessPair
  refine ⟨st, hst, fun budget => ?_⟩
  obtain ⟨st', hdeep⟩ := tooDeep_endlessPair budget st.emptied hcounter rfl
  have hrun : (solveStep budget).run st = (.error .tooDeep, st') := by
    rw [run_solveStep, hpending, hdeep]
  obtain ⟨e, he, hne⟩ := hst.lost_of_tooDeep (round_of_run hrun)
  exact ⟨st', hrun, fun hsame => hne e (hsame ▸ he) (Or.inl rfl)⟩

end RowLang.Solver
