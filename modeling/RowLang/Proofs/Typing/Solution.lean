import Mathlib
import RowLang.Proofs.Solver.Assembled
import RowLang.Proofs.Solver.Rounds
import RowLang.Proofs.Typing.Safe
import RowLang.Typing.Infer

/-!
# Proofs/Typing/Solution — solving makes true all that a walk demands

While a safe deduction is run, what its demands come to stays backed (`Kept.run`), so that all of
them hold for whatever satisfies what is pending in the end.  Rounds of elimination find such a
substitution, and hence the type of an expression solves all that the walk over it demands, unless
an equality has been lost on the way.
-/

namespace RowLang.Solver

open Ty

variable {α : Type} {K : Census}

/-! ## A deduction, run -/

theorem run_equate_of_demand {budget : Nat} {s t : Ty} {st st' : Solver}
    (h : (demand budget s t).run st = (.ok (), st')) :
    (equate budget s t).run st = (.ok (), st') := by
  rw [demand_eq] at h
  split at h
  · cases h
  · exact h

/-- A run forgets nothing. -/
theorem grows_run {budget : Nat} {d : Deduction α} : ∀ {st st' : Solver} {x : α},
    (run budget d).run st = (.ok x, st') → st.Grows st' := by
  induction d with
  | done x => intro st st' y h; cases h; exact .refl st
  | unbound name => intro st st' y h; cases h
  | fresh next ih =>
    intro st st' y h
    obtain ⟨n, mid, hfresh, h⟩ := Run.run_bind_eq_ok.mp h
    cases hfresh
    exact (grows_counting st).trans (ih _ h)
  | replace σ t next ih => exact fun h => ih _ h
  | agree s t next ih =>
    intro st st' y h
    obtain ⟨_, mid, hdemand, h⟩ := Run.run_bind_eq_ok.mp h
    exact (works_of_run (run_equate_of_demand hdemand)).grows.trans (ih h)

/-- An equality of two good types in one place that is in the memo. -/
def Answered (K : Census) (st : Solver) (p : Ty × Ty) : Prop :=
  ∃ r, p.1.Good K r ∧ p.2.Good K r ∧ equalityKey p.1 p.2 ∈ st.visited

/-- **A safe deduction leaves all its demands in the memo**, and what they come to is backed; what
it finds may be judged by all trees in which its demands hold. -/
theorem Kept.run {post : Setting → α → Prop} {budget : Nat} {d : Deduction α} :
    ∀ {S : Setting} {st st' : Solver} {x : α}, Kept S.toCensus st → d.Safe post S → S.numbered →
      (∀ key ∈ st.visited, Backed S.toCensus st key) → (run budget d).run st = (.ok x, st') →
      ¬ st'.Lost → ∃ S' : Setting, S.toCensus.Le S'.toCensus ∧ Kept S'.toCensus st' ∧
        (∀ key ∈ st'.visited, Backed S'.toCensus st' key) ∧ post S' x ∧
        (∀ p ∈ demands budget d st, Answered S'.toCensus st' p) ∧
        ∀ ρ, S.holds ρ → (∀ p ∈ demands budget d st, p.1.tree ρ = p.2.tree ρ) → S'.holds ρ := by
  induction d with
  | done x =>
    intro S st st' y hK hsafe _ hback h _
    cases h
    exact ⟨S, .refl _, hK, hback, hsafe, by simp [demands], fun _ hρ _ => hρ⟩
  | unbound name => intro S st st' y _ _ _ _ h _; cases h
  | fresh next ih =>
    intro S st st' y hK hsafe hnum hback h hlost
    obtain ⟨n, mid, hfresh, h⟩ := Run.run_bind_eq_ok.mp h
    cases hfresh
    obtain ⟨r, hsafe⟩ := hsafe
    have hnew := hK.not_known hnum
    have hle : S.toCensus.Le (S.toCensus.addFree st.counter r (fun hb => hnew (Or.inr hb)) hnum) :=
      Census.le_addFree hnew
    obtain ⟨S', hle', hrest⟩ := ih _ (S := ⟨_, S.holds⟩) (hK.counting hnum hnew)
      (hsafe _ _ ⟨hle, fun _ h => h⟩ (Or.inl rfl) (by simp)) hnum
      (fun key hkey => (hback key hkey).mono hle (grows_counting st)) h hlost
    exact ⟨S', hle.trans hle', hrest⟩
  | replace σ t next ih => exact fun hK hsafe => ih _ hK hsafe.2
  | agree s t next ih =>
    intro S st st' y hK hsafe hnum hback h hlost
    obtain ⟨⟨r, hs, ht⟩, hsafe⟩ := hsafe
    rw [run_agree] at h
    obtain ⟨_, mid, hdemand, h⟩ := Run.run_bind_eq_ok.mp h
    have hwork := works_of_run (run_equate_of_demand hdemand)
    have hgrows := grows_run h
    obtain ⟨K₁, hle, hmid, hdone, hback₁⟩ := hwork.kept (fun hl => hlost (hl.mono hgrows.trace)) hK
      fun task htask => by
        rw [List.mem_singleton.mp htask]
        exact ⟨r, hs, ht⟩
    -- From here on the trees shall satisfy the equality that has been demanded.
    obtain ⟨S', hle', hK', hback', hpost, hall, hholds⟩ :=
      ih (S := ⟨K₁, fun ρ => S.holds ρ ∧ s.tree ρ = t.tree ρ⟩) hmid
        (hsafe _ ⟨hle, fun _ h => h.1⟩ fun _ h => h.holds.2) (hle.numbered.mpr hnum)
        (fun key hkey => (hback₁ key hkey).elim
          (fun hkey => (hback key hkey).mono hle hwork.grows) id) h hlost
    rw [demands, hdemand]
    refine ⟨S', hle.trans hle', hK', hback', hpost, fun p hp => ?_, fun ρ hρ hsat => ?_⟩
    · rcases List.mem_cons.mp hp with rfl | hp
      · exact ⟨r, (hs.mono hle).mono hle', (ht.mono hle).mono hle',
          hgrows.visited _ (hdone _ (List.mem_singleton_self _))⟩
      · exact hall p hp
    · exact hholds ρ ⟨hρ, hsat (s, t) List.mem_cons_self⟩ fun p hp =>
        hsat p (List.mem_cons_of_mem _ hp)

/-! ## An expression -/

/-- The raw type of a program, when the rounds over it are done. -/
def typing (budget : Nat) (e : Expr) : Solving Ty := do
  let raw ← infer budget e
  modify fun st => st.studying raw
  solve budget
  return raw

/-- What is typed has a raw type, and the rounds over it come to an end. -/
theorem run_typing_eq_ok {budget : Nat} {e : Expr} {raw : Ty} {st' : Solver}
    (h : (typing budget e).run {} = (.ok raw, st')) : ∃ st,
      (infer budget e).run {} = (.ok raw, st) ∧
      (solve budget).run (st.studying raw) = (.ok (), st') := by
  obtain ⟨raw, st, hinfer, h⟩ := Run.run_bind_eq_ok.mp h
  obtain ⟨_, _, hstudy, h⟩ := Run.run_bind_eq_ok.mp h
  cases hstudy
  obtain ⟨_, _, hsolve, hdone⟩ := Run.run_bind_eq_ok.mp h
  cases hdone
  exact ⟨st, hinfer, hsolve⟩

/-- What one knows of variables before there are any. -/
def beginning (L : Finset Label) : Setting where
  labels := L
  role _ := .whole
  free _ := False
  bound _ := False
  disjoint _ h := h.elim
  numbered := True
  whole h := absurd trivial h
  holds _ := True

theorem kept_beginning (L : Finset Label) : Kept (beginning L).toCensus {} where
  pending := by simp
  numbers _ v hv := hv.elim False.elim False.elim
  seen := by simp

/-- What a walk has found and rounds of elimination have solved: the demands hold under the
substitution, and the type that the walk found has the tree of the solved one. -/
structure Answer (budget : Nat) (e : Expr) (raw : Ty) (st' : Solver) (S : Setting) (σ : Subst) :
    Prop where
  found : e.Found [] S raw
  uncaught : Uncaught S.toCensus σ
  solved : S.Solved (after selves σ)
  demands : ∀ p ∈ demands budget (e.deduce []) {},
    (∃ r, p.1.Good S.toCensus r ∧ p.2.Good S.toCensus r) ∧
      p.1.tree (after selves σ) = p.2.tree (after selves σ)
  lastType : ∃ t, st'.lastType = some t ∧ t.tree selves = raw.tree (after selves σ)

/-- **Rounds of elimination answer what a walk demands**, unless an equality has been lost. -/
theorem exists_answer {budget passes : Nat} {e : Expr} {raw : Ty} {st st' : Solver} (htidy : e.Tidy)
    (hun : e.Unascribed) (hinfer : (infer budget e).run {} = (.ok raw, st))
    (hsolve : (solvePasses budget passes 0).run (st.studying raw) = (.ok (), st'))
    (hlost : ¬ st'.Lost) : ∃ S σ, Answer budget e raw st' S σ := by
  have hsafe := Expr.safe_deduce (S := beginning (e.labels ∪ Operator.labels)) htidy hun
    Finset.subset_union_left Finset.subset_union_right
  have htrace : ∀ line ∈ (st.studying raw).trace, line ∈ st'.trace := trace_solvePasses hsolve
  have hlost₀ : ¬ st.Lost := fun hl => hlost (hl.mono htrace)
  obtain ⟨S, hle, hK, hback, hfound, hall, hholds⟩ := (kept_beginning _).run hsafe trivial (by simp)
    hinfer hlost₀
  have hstudying : Kept S.toCensus (st.studying raw) := ⟨hK.pending, hK.numbers, hK.seen⟩
  obtain ⟨σ, hσ⟩ := hstudying.solvePasses (hle.numbered.mpr trivial) (fun u hu => by
    cases hu
    exact hfound.good) hsolve hlost
  have hdemands : ∀ p ∈ Solver.demands budget (e.deduce []) {},
      (∃ r, p.1.Good S.toCensus r ∧ p.2.Good S.toCensus r) ∧
        p.1.tree (after selves σ) = p.2.tree (after selves σ) := by
    intro p hp
    obtain ⟨r, hs, ht, hkey⟩ := hall p hp
    exact ⟨⟨r, hs, ht⟩, hK.tree_eq hlost₀ (fun r s t _ _ hmem => Or.inr (hback _ hmem)) hσ.pending
      hs ht hkey⟩
  exact ⟨S, σ, hfound, hσ.uncaught, ⟨hholds _ trivial fun p hp => (hdemands p hp).2, hσ.placed⟩,
    hdemands, hσ.lastType raw rfl⟩

/-- **Solving is sound**: when an expression has a type and no equality has been lost, there is a
substitution under which all that the walk demands holds and the raw type is the one found. -/
theorem solve_satisfies_demands {budget : Nat} {e : Expr} {raw : Ty} {st st' : Solver}
    (htidy : e.Tidy) (hun : e.Unascribed) (hinfer : (infer budget e).run {} = (.ok raw, st))
    (hsolve : (solve budget).run (st.studying raw) = (.ok (), st')) (hlost : ¬ st'.Lost) :
    ∃ σ : Subst, (∀ p ∈ demands budget (e.deduce []) {},
        SameTree (p.1.substitute σ) (p.2.substitute σ)) ∧
      ∃ t, st'.lastType = some t ∧ SameTree t (raw.substitute σ) := by
  obtain ⟨S, σ, h⟩ := exists_answer htidy hun hinfer hsolve hlost
  obtain ⟨t, ht, htree⟩ := h.lastType
  refine ⟨σ, fun p hp => ?_, t, ht, ?_⟩
  · obtain ⟨⟨r, hs, ht⟩, htree⟩ := h.demands p hp
    rw [SameTree, tree_substitute (h.uncaught.catchesNone hs),
      tree_substitute (h.uncaught.catchesNone ht), htree]
  · rw [SameTree, tree_substitute (h.uncaught.catchesNone h.found.good), htree]

/-! ## Two lists of records -/

/-- Where no equality begins with a marker, none is lost. -/
theorem not_lost_of_forall {st : Solver}
    (h : ∀ line ∈ st.trace, ∀ k ∈ [RowKind.record, .variant], ¬ k.end.chars <+: line.toList) :
    ¬ st.Lost := by
  rintro ⟨k, fields, tail, -, -, hmem⟩
  refine h _ hmem k (by cases k <;> simp) ?_
  simp [equalityKey, text]

/-- The list of two records with one field each. -/
def evenList : Expr :=
  .list [.record [("x", .number (.int 1))], .record [("x", .number (.int 2))]]

/-- The list of the empty record and a record with a field. -/
def mixedList : Expr := .list [.record [], .record [("x", .number (.int 1))]]

/-- The state when the walk over an expression is over. -/
private def walked (e : Expr) : Solver := ((infer depthLimit e).run {}).2

/-- The state when the rounds are over for an expression of some raw type. -/
private def solved (e : Expr) (raw : Ty) : Solver :=
  ((solve depthLimit).run ((walked e).studying raw)).2

private theorem infer_evenList :
    (infer depthLimit evenList).run {} = (.ok (.list (.var 26)), walked evenList) :=
  Prod.ext (by cbv) rfl

private theorem solve_evenList :
    (solve depthLimit).run ((walked evenList).studying (.list (.var 26)))
    = (.ok (), solved evenList (.list (.var 26))) :=
  Prod.ext (by cbv) rfl

private theorem infer_mixedList :
    (infer depthLimit mixedList).run {} = (.ok (.list (.var 26)), walked mixedList) :=
  Prod.ext (by cbv) rfl

private theorem solve_mixedList :
    (solve depthLimit).run ((walked mixedList).studying (.list (.var 26)))
      = (.ok (), solved mixedList (.list (.var 26))) :=
  Prod.ext (by cbv) rfl

private theorem tidy_fields {fields : Row Expr}
    (h : fields = [] ∨ ∃ n, fields = [("x", .number n)]) : (Expr.record fields).Tidy := by
  rcases h with rfl | ⟨n, rfl⟩
  · exact ⟨Row.tidy_nil, trivial⟩
  · exact ⟨Row.tidy_single (show Label.Plain "x" by decide) _, trivial, trivial⟩

/-- Two records with one field have one type, and nothing is lost. -/
theorem solve_satisfies_demands_of_records :
    ∃ raw st st', (infer depthLimit evenList).run {} = (.ok raw, st) ∧
      (solve depthLimit).run (st.studying raw) = (.ok (), st') ∧ ¬ st'.Lost ∧
      ∃ σ : Subst, (∀ p ∈ demands depthLimit (evenList.deduce []) {},
          SameTree (p.1.substitute σ) (p.2.substitute σ)) ∧
        ∃ t, st'.lastType = some t ∧ SameTree t (raw.substitute σ) := by
  have htrace : (solved evenList (.list (.var 26))).trace
      = ["Solved in 3 pass(es)", "Bind 28 := {x: N}", "28 == {x: N}", "Bind 26 := {x: N}",
        "28 == {x: N}", "26 == {x: N}", "Bind 27 := {x: N}", "28 == {x: N}", "26 == {x: N}",
        "27 == {x: N}"] := by
    cbv
  have hlost : ¬ (solved evenList (.list (.var 26))).Lost :=
    not_lost_of_forall (by rw [htrace]; decide)
  exact ⟨_, _, _, infer_evenList, solve_evenList, hlost, solve_satisfies_demands
    ⟨tidy_fields (Or.inr ⟨_, rfl⟩), tidy_fields (Or.inr ⟨_, rfl⟩), trivial⟩
    ⟨⟨trivial, trivial⟩, ⟨trivial, trivial⟩, trivial⟩ infer_evenList solve_evenList hlost⟩

/-- **The list of the empty record and a record with a field has a type**, though no substitution
makes its elements agree. -/
theorem mixed_list_solved_without_solution : mixedList.Tidy ∧ mixedList.Unascribed ∧
    ∃ raw st st', (infer depthLimit mixedList).run {} = (.ok raw, st) ∧
      (solve depthLimit).run (st.studying raw) = (.ok (), st') ∧
      ¬ ∃ σ : Subst, ∀ p ∈ demands depthLimit (mixedList.deduce []) {},
        SameTree (p.1.substitute σ) (p.2.substitute σ) := by
  refine ⟨⟨tidy_fields (Or.inl rfl), tidy_fields (Or.inr ⟨_, rfl⟩), trivial⟩,
    ⟨trivial, ⟨trivial, trivial⟩, trivial⟩, _, _, _, infer_mixedList, solve_mixedList, ?_⟩
  rintro ⟨σ, hσ⟩
  have hdemands : demands depthLimit (mixedList.deduce []) {}
      = [(.var 27, closedRecord []), (.var 26, closedRecord []),
        (.var 28, closedRecord [("x", .number)]), (.var 26, closedRecord [("x", .number)])] := by
    cbv
  rw [hdemands] at hσ
  have hempty := hσ (.var 26, closedRecord []) (by simp)
  have hfield := hσ (.var 26, closedRecord [("x", .number)]) (by simp)
  have hnil : [("x", Ty.number)] = [] := fields_eq_nil_of_sameTree (hempty.symm.trans hfield)
  simp at hnil

end RowLang.Solver
