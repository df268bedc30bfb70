import Mathlib
import RowLang.Proofs.Ty.Value
import RowLang.Proofs.Solver.Viable

/-!
# Proofs/Solver/Mismatch — equalities that a substitution solves

A substitution that makes the two sides of each equality equal gives the variables figures under
which both sides stand for one.  Posting the equalities keeps such figures, and so does every round:
the bound variable is replaced by what it stands for.  So solving comes upon no mismatch, unless a
row without fields was written down (`mismatch_of_solution`).  With one there are spurious
mismatches: an open tail becomes the end marker where the written row has an empty row, and the two
do not agree (`empty_record_against_marker`).
-/

namespace RowLang.Solver

open Ty Figure

variable {bare : Prop} {gone gone' : Nat → Prop} {c c' : Nat} {ρ : Nat → Figure}

/-! ## Rounds -/

/-- One more variable is gone, and whatever else is gone was never live. -/
structure Retires (gone gone' : Nat → Prop) (c c' n : Nat) : Prop where
  le : c ≤ c'
  kept : ∀ v, gone v → gone' v
  past : ∀ v, gone' v → v < c'
  live : ∀ v, Live gone c v → v ≠ n → Live gone' c' v

/-- A type in play whose variable is replaced by a type that has no use for it. -/
theorem Fair.retire {n : Nat} {s t : Ty} (ht : Fair bare gone c t)
    (h : Retires gone gone' c c' n) (hs : Fair bare gone' c' s) :
    Fair bare gone' c' (t.substitute [(n, s)]) :=
  .substitute (fun v hv hn => h.live v (ht.live v hv) hn) (fun q hq => h.kept q (ht.bound q hq))
    ht.full hs

/-- The replaced variable stands for what replaces it. -/
theorem means_retire {n : Nat} {s t : Ty} {x : Figure} (ht : Fair bare gone c t)
    (h : Retires gone gone' c c' n) (hs : Fair bare gone' c' s) (hx : t.Means ρ x)
    (hn : s.Means ρ (ρ n)) : (t.substitute [(n, s)]).Means ρ x :=
  hx.substitute (replaces_single hn fun _ _ _ => rfl)
    (catchesNone_single fun q hq hfree => (hs.live q hfree).2 (h.kept q (ht.bound q hq)))

/-- **What a variable is bound to means what the variable stands for.** -/
theorem closeOver_means {n : Nat} {t t' : Ty} {st mid : Solver}
    (hrun : (closeOver n t).run st = (.ok t', mid)) (hρ : ∀ n, (ρ n).Canonical)
    (hpast : ∀ v, gone v → v < st.counter) (hn : Live gone st.counter n)
    (ht : Fair bare gone st.counter t) (hx : t.Means ρ (ρ n)) :
    ∃ gone' c, mid = st.numbering c ∧ Retires gone gone' st.counter c n ∧
      Fair bare gone' c t' ∧ t'.Means ρ (ρ n) := by
  have hinsert : Retires gone (fun v => gone v ∨ v = n) st.counter st.counter n := by
    refine ⟨Nat.le_refl _, fun v => Or.inl, ?_, fun v hv hne => ⟨hv.1, not_or.mpr ⟨hv.2, hne⟩⟩⟩
    rintro v (hv | rfl)
    exacts [hpast v hv, hn.1]
  rw [closeOver_eq] at hrun
  split at hrun
  case isFalse hmem =>
    cases hrun
    refine ⟨_, st.counter, rfl, hinsert, ⟨fun v hv => hinsert.live v (ht.live v hv) ?_,
      fun q hq => Or.inl (ht.bound q hq), ht.full⟩, hx⟩
    rintro rfl
    exact hmem (List.contains_iff_mem.mpr hv)
  case isTrue =>
    rw [Run.run_bind, Run.run_fresh] at hrun
    cases hrun
    have hlt := Nat.lt_succ_self st.counter
    have hfresh : ∀ v, gone v ∨ v = n → v ≠ st.counter := fun v hv =>
      Nat.ne_of_lt (hinsert.past v hv)
    -- The placeholder is live in the body, and bound outside of it.
    have hbody : Fair bare (fun v => gone v ∨ v = n) (st.counter + 1)
        (t.substitute [(n, .var st.counter)]) :=
      .substitute (fun v hv hne => (hinsert.live v (ht.live v hv) hne).mono hlt.le)
        (fun q hq => Or.inl (ht.bound q hq)) ht.full
        (fair_var ⟨hlt, fun hgone => hfresh _ hgone rfl⟩)
    refine ⟨fun v => (gone v ∨ v = n) ∨ v = st.counter, st.counter + 1, rfl,
      ⟨hlt.le, fun v hv => Or.inl (Or.inl hv), ?_, fun v hv hne => ⟨hv.1.trans hlt, ?_⟩⟩,
      ⟨fun v hv => ?_, fun q hq => ?_, hbody.full⟩, ?_⟩
    · rintro v (hv | rfl)
      exacts [(hinsert.past v hv).trans hlt, hlt]
    · exact not_or.mpr ⟨(hinsert.live v hv hne).2, Nat.ne_of_lt hv.1⟩
    · obtain ⟨hv, hne⟩ := mem_free_bind.mp hv
      exact ⟨(hbody.live v hv).1, not_or.mpr ⟨(hbody.live v hv).2, hne⟩⟩
    · exact (mem_binders_bind.mp hq).elim Or.inr fun hq => Or.inl (hbody.bound q hq)
    · exact hx.mu hρ (fun hmem => Nat.lt_irrefl _ (ht.live _ hmem).1)
        fun hmem => Nat.lt_irrefl _ (hpast _ (ht.bound _ hmem))

section

variable {st st' mid mid' : Solver} {r : Except TypeFailure Unit} {e : Equation}
  {others : List Equation} {t : Ty} {line : String}

/-- **Once a variable is replaced, all others still have a solution.** -/
theorem PendingViable.replacingAll (h : PendingViable bare gone ρ st)
    (hfirst : firstBinding st.pending = some (e, others))
    (hclose : (closeOver e.var e.type).run st.emptied = (.ok t, mid))
    (hwork : Course (replacingAll e.var t others) (mid.saying line) r mid') :
    OnlyBare bare r ∧ (r = .ok () → ∃ gone' ρ', PendingViable bare gone' ρ' mid') := by
  obtain ⟨he, hothers⟩ := mem_of_firstBinding hfirst
  obtain ⟨hvar, htype, hx⟩ := h.equation e he
  obtain ⟨gone', c, rfl, hgone, ht, hxt⟩ :=
    closeOver_means hclose h.canonical h.past hvar htype hx
  have hstart : PendingViable bare gone' ρ ((st.emptied.numbering c).saying line) :=
    ⟨h.canonical, hgone.past, by simp [saying, numbering, emptied]⟩
  obtain ⟨honly, hok⟩ := hwork.viable hstart fun task htask => by
    obtain ⟨d, hd, rfl⟩ := List.mem_map.mp htask
    obtain ⟨hd, hdt, hxd⟩ := h.equation d (hothers d (List.mem_filter.mp hd).1)
    have hself := means_retire (fair_var hd) hgone ht (means_var.mpr rfl) hxt
    exact viable_agree h.canonical ((fair_var hd).retire hgone ht) (hdt.retire hgone ht)
      hself (means_retire hdt hgone ht hxd hxt)
  refine ⟨honly, fun hr => ?_⟩
  obtain ⟨ρ', -, hst'⟩ := hok hr
  exact ⟨gone', ρ', hst'⟩

/-- **A round of equations that have a solution comes upon no mismatch but that of a row without
fields**, and then the others have one. -/
theorem Round.viable (hround : Round st r st') (h : PendingViable bare gone ρ st) :
    OnlyBare bare r ∧ (r = .ok () → ∃ gone' ρ', PendingViable bare gone' ρ' st') := by
  cases hround with
  | idle =>
    exact ⟨fun s t h => (by cases h), fun _ =>
      ⟨gone, ρ, h.canonical, h.past, by simp [updating, emptied]⟩⟩
  | done hfirst hclose hwork =>
    obtain ⟨honly, hok⟩ := h.replacingAll hfirst hclose hwork
    refine ⟨honly, fun hr => ?_⟩
    obtain ⟨gone', ρ', hst'⟩ := hok hr
    exact ⟨gone', ρ', hst'.canonical, hst'.past, hst'.equation⟩
  | failed hfirst hclose hwork | tooDeep hfirst hclose hwork =>
    exact ⟨(h.replacingAll hfirst hclose hwork).1, fun h => (by cases h)⟩

end

theorem solvePasses_onlyBare {budget : Nat} : ∀ {remaining done : Nat} {gone : Nat → Prop}
    {ρ : Nat → Figure} {st st' : Solver} {r : Except TypeFailure Unit},
      PendingViable bare gone ρ st →
      (solvePasses budget remaining done).run st = (r, st') → OnlyBare bare r
  | 0, _, _, _, _, _, _, _, hrun => by
    cases hrun
    exact fun s t h => (by cases h)
  | remaining + 1, done, gone, ρ, st, st', r, h, hrun => by
    rw [run_solvePasses] at hrun
    cases hstep : (solveStep budget).run st with
    | mk result mid =>
      rw [hstep] at hrun
      obtain ⟨honly, hok⟩ := (round_of_run hstep).viable h
      cases result with
      | error e => cases hrun; exact honly
      | ok _ =>
        dsimp only at hrun
        split at hrun
        case isTrue => cases hrun; exact honly
        case isFalse =>
          obtain ⟨gone', ρ', hmid⟩ := hok rfl
          exact solvePasses_onlyBare hmid hrun

/-! ## Failures -/

/-- Post some equalities. -/
def postAll (budget : Nat) (equalities : List (Ty × Ty)) : Solving Unit :=
  equalities.forM fun p => demand budget p.1 p.2

theorem postAll_cons (budget : Nat) (p : Ty × Ty) (ps : List (Ty × Ty)) :
    postAll budget (p :: ps) = demand budget p.1 p.2 >>= fun _ => postAll budget ps := rfl

/-- Post some equalities and solve them. -/
def postAndSolve (budget : Nat) (equalities : List (Ty × Ty)) : Solving Unit := do
  postAll budget equalities
  solve budget

/-- A type that can be written with letters for variables and without binders. -/
structure Surface (t : Ty) : Prop where
  distinct : t.Distinct
  unbound : t.binders = []
  letters : ∀ v ∈ t.free, v < 26

/-- **A substitution makes two types equal**, and no row in them gets a label again from what is put
in behind it. -/
structure Reconciles (σ : Subst) (s t : Ty) : Prop where
  same : (s.substitute σ).flatten.same (t.substitute σ).flatten = true
  apart : s.flatten.Apart σ
  apart' : t.flatten.Apart σ

/-- Types that a substitution makes equal can stand for one figure. -/
theorem Reconciles.canAgree {σ : Subst} {s t : Ty} (h : Reconciles σ s t)
    (hσ : ∀ n u, σ.lookup n = some u → u.Distinct) (hs : Surface s) (ht : Surface t) :
    CanAgree (valueAfter σ) s t := by
  have hvalue : ∀ {t : Ty}, Surface t →
      t.flatten.value (valueAfter σ) = (t.substitute σ).flatten.value Figure.var := fun ht => by
    rw [value_flatten ht.distinct (canonical_valueAfter σ),
      value_flatten (ht.distinct.substitute hσ) canonical_var, value_substitute ht.unbound]
  have hmeans : ∀ {t : Ty}, Surface t → t.flatten.Apart σ →
      t.flatten.Means (valueAfter σ) ((t.substitute σ).flatten.value Figure.var) :=
    fun {t} ht hapart => by
      rw [← hvalue ht]
      refine hapart.means_value ht.distinct.flatten
        (List.eq_nil_iff_forall_not_mem.mpr fun q hq => ?_)
      exact List.not_mem_nil (ht.unbound ▸ mem_binders_flatten hq)
  refine ⟨_, hmeans hs h.apart, ?_⟩
  rw [value_eq_of_same h.same (hs.distinct.substitute hσ).flatten
    (ht.distinct.substitute hσ).flatten]
  exact hmeans ht h.apart'

theorem Surface.fair {t : Ty} (h : Surface t) (hfull : bare ∨ t.Full) :
    Fair bare (fun _ => False) 26 t :=
  ⟨fun v hv => ⟨h.letters v hv, id⟩, fun q hq => by simp [h.unbound] at hq, hfull⟩

/-- A type without a text to be known by is no mismatch. -/
theorem demand_cases {budget : Nat} {s t : Ty} {st st' : Solver} {r : Except TypeFailure Unit}
    (h : (demand budget s t).run st = (r, st')) :
    (equate budget s t).run st = (r, st') ∨ ∃ why, r = .error (.unwritable why) := by
  rw [demand_eq] at h
  split at h
  · cases h; exact Or.inr ⟨_, rfl⟩
  · exact Or.inl h

/-- **Posting equalities that have one solution comes upon no mismatch but that of a row without
fields.** -/
theorem postAll_viable {budget : Nat} {ρ₀ : Nat → Figure} : ∀ {equalities : List (Ty × Ty)}
    {ρ : Nat → Figure} {st st' : Solver} {r : Except TypeFailure Unit},
    (∀ p ∈ equalities, Viable bare (fun _ => False) 26 ρ₀ (.agree p.1 p.2)) → 26 ≤ st.counter →
      (∀ v < 26, ρ₀ v = ρ v) → PendingViable bare (fun _ => False) ρ st →
        (postAll budget equalities).run st = (r, st') → OnlyBare bare r ∧
          (r = .ok () → ∃ ρ', PendingViable bare (fun _ => False) ρ' st')
  | [], ρ, st, st', r, _, _, _, hst, hrun => by
    cases hrun
    exact ⟨fun s t h => (by cases h), fun _ => ⟨ρ, hst⟩⟩
  | p :: ps, ρ, st, st', r, hps, hcounter, hρ, hst, hrun => by
    rw [postAll_cons, Run.run_bind] at hrun
    cases hp : (demand budget p.1 p.2).run st with
    | mk result mid =>
      rw [hp] at hrun
      rcases demand_cases hp with hequate | ⟨why, rfl⟩
      · have hcourse := course_of_run hequate
        obtain ⟨honly, hok⟩ := hcourse.viable hst fun task htask => by
          rw [List.mem_singleton.mp htask]
          exact (hps p List.mem_cons_self).mono hcounter hρ
        cases result with
        | error e => cases hrun; exact ⟨honly, fun h => (by cases h)⟩
        | ok _ =>
          obtain ⟨ρ', hρ', hmid⟩ := hok rfl
          exact postAll_viable (fun q hq => hps q (List.mem_cons_of_mem _ hq))
            (hcounter.trans hcourse.grows.counter)
            (fun v hv => (hρ v hv).trans (hρ' v (hv.trans_le hcounter))) hmid hrun
      · cases hrun
        exact ⟨fun s t h => (by cases h), fun h => (by cases h)⟩

/-- **Equalities that a substitution solves come upon no mismatch**, unless a row without fields was
written down; then each mismatch is about a row without fields. -/
theorem mismatch_of_solution {budget : Nat} {equalities : List (Ty × Ty)} {σ : Subst}
    (hσ : ∀ n u, σ.lookup n = some u → u.Distinct)
    (hsurface : ∀ p ∈ equalities, Surface p.1 ∧ Surface p.2)
    (hreconciles : ∀ p ∈ equalities, Reconciles σ p.1 p.2) {s t : Ty} {st : Solver}
    (hrun : (postAndSolve budget equalities).run {} = (.error (.mismatch s t), st)) :
    (∃ p ∈ equalities, ¬ (p.1.Full ∧ p.2.Full)) ∧ (s.Bare ∨ t.Bare) := by
  generalize hbare : (∃ p ∈ equalities, ¬ (p.1.Full ∧ p.2.Full)) = bare
  have hfull : ∀ p ∈ equalities, (bare ∨ p.1.Full) ∧ (bare ∨ p.2.Full) := fun p hp => by
    rw [← or_and_left]
    by_cases h : p.1.Full ∧ p.2.Full
    · exact Or.inr h
    · exact Or.inl (hbare ▸ ⟨p, hp, h⟩)
  have hviable : ∀ p ∈ equalities, Viable bare (fun _ => False) 26 (valueAfter σ)
    (.agree p.1 p.2) :=
    fun p hp => ⟨⟨(hsurface p hp).1.fair (hfull p hp).1, (hsurface p hp).2.fair (hfull p hp).2⟩,
      (hreconciles p hp).canAgree hσ (hsurface p hp).1 (hsurface p hp).2⟩
  have hstart : PendingViable bare (fun _ => False) (valueAfter σ) {} :=
    ⟨canonical_valueAfter σ, by simp, by simp⟩
  rw [postAndSolve, Run.run_bind] at hrun
  cases hpost : (postAll budget equalities).run {} with
  | mk result mid =>
    rw [hpost] at hrun
    obtain ⟨honly, hok⟩ := postAll_viable hviable (Nat.le_refl 26) (fun _ _ => rfl) hstart hpost
    cases result with
    | error e =>
      cases hrun
      exact honly s t rfl
    | ok _ =>
      obtain ⟨ρ', hmid⟩ := hok rfl
      exact solvePasses_onlyBare hmid hrun s t rfl

/-! ## An empty record and the end of a record -/

/-- An open record shall have nothing behind its field, and its tail shall be an open record of no
field. -/
def emptyTail : List (Ty × Ty) :=
  [(.row .record [("x", .number)] (.var 17), closedRecord [("x", .number)]),
    (.row .record [] (.var 18), .var 17)]

/-- Both tails are the empty record. -/
def emptyTailSolution : Subst := [(17, closedRecord []), (18, closedRecord [])]

theorem distinct_emptyTailSolution (n : Nat) (u : Ty) (h : emptyTailSolution.lookup n = some u) :
    u.Distinct := by
  have hmem : ∀ p ∈ emptyTailSolution, p.2.Distinct := by decide
  obtain ⟨before, behind, he, -⟩ := List.lookup_eq_some_iff.mp h
  exact hmem (n, u) (he ▸ List.mem_append_right before List.mem_cons_self)

theorem surface_emptyTail : ∀ p ∈ emptyTail, Surface p.1 ∧ Surface p.2 := by
  simp only [emptyTail, List.mem_cons, List.not_mem_nil, or_false]
  rintro p (rfl | rfl) <;> exact ⟨⟨by decide, rfl, by decide⟩, ⟨by decide, rfl, by decide⟩⟩

theorem reconciles_emptyTail : ∀ p ∈ emptyTail, Reconciles emptyTailSolution p.1 p.2 := by
  simp only [emptyTail, List.mem_cons, List.not_mem_nil, or_false]
  rintro p (rfl | rfl) <;> exact ⟨by decide, by decide, by decide⟩

/-- The state when the first equality has been posted. -/
def emptyTailFirst : Solver where
  visited := ["r == {}", "N == N", "{x: N | r} == {x: N}"]
  trace := ["r == {}", "N == N", "{x: N | r} == {x: N}"]
  pending := [.of 17 .unit]

/-- The state when both have been posted. -/
def emptyTailPosted : Solver where
  visited := ["{ | s} == r", "r == {}", "N == N", "{x: N | r} == {x: N}"]
  trace := ["{ | s} == r", "r == {}", "N == N", "{x: N | r} == {x: N}"]
  pending := [.of 17 .unit, .of 17 (.row .record [] (.var 18))]

theorem run_postAll_emptyTail :
    (postAll depthLimit emptyTail).run {} = (.ok (), emptyTailPosted) := by
  have hfirst : (demand depthLimit (.row .record [("x", .number)] (.var 17))
      (closedRecord [("x", .number)])).run {} = (.ok (), emptyTailFirst) := by cbv
  have hsecond : (demand depthLimit (.row .record [] (.var 18)) (.var 17)).run emptyTailFirst
      = (.ok (), emptyTailPosted) := by
    show (equate depthLimit (.row .record [] (.var 18)) (.var 17)).run emptyTailFirst = _
    rw [depthLimit, equate_succ, if_neg (by decide)]
    rfl
  rw [emptyTail, postAll_cons, Run.run_bind, hfirst]
  dsimp only
  rw [postAll_cons, Run.run_bind, hsecond]
  rfl

/-- The end of the record is compared with the open record of no field. -/
theorem run_solve_emptyTail : ((solve depthLimit).run emptyTailPosted).1
    = .error (.mismatch .unit (.row .record [] (.var 18))) := by cbv

theorem run_emptyTail : ∃ st, (postAndSolve depthLimit emptyTail).run {}
    = (.error (.mismatch .unit (.row .record [] (.var 18))), st) := by
  refine ⟨((solve depthLimit).run emptyTailPosted).2, ?_⟩
  rw [postAndSolve, Run.run_bind, run_postAll_emptyTail]
  exact Prod.ext run_solve_emptyTail rfl

/-- **A mismatch that is about a row without fields.** -/
theorem mismatch_of_emptyTail : ∃ st : Solver,
    (∀ n u, emptyTailSolution.lookup n = some u → u.Distinct) ∧
    (∀ p ∈ emptyTail, Surface p.1 ∧ Surface p.2) ∧
    (∀ p ∈ emptyTail, Reconciles emptyTailSolution p.1 p.2) ∧
    (postAndSolve depthLimit emptyTail).run {}
      = (.error (.mismatch .unit (.row .record [] (.var 18))), st) ∧
    (∃ p ∈ emptyTail, ¬ (p.1.Full ∧ p.2.Full)) ∧
    (Ty.unit.Bare ∨ (Ty.row .record [] (.var 18)).Bare) := by
  obtain ⟨st, hrun⟩ := run_emptyTail
  exact ⟨st, distinct_emptyTailSolution, surface_emptyTail, reconciles_emptyTail, hrun,
    mismatch_of_solution distinct_emptyTailSolution surface_emptyTail reconciles_emptyTail hrun⟩

/-- **Equalities that a substitution solves come upon a mismatch.** -/
theorem empty_record_against_marker :
    (∀ p ∈ emptyTailSolution, p.2.Distinct ∧ p.2.binders = []) ∧
    (∀ p ∈ emptyTail, Surface p.1 ∧ Surface p.2) ∧
    (∀ p ∈ emptyTail, Reconciles emptyTailSolution p.1 p.2) ∧
    ∃ s t st, (postAndSolve depthLimit emptyTail).run {} = (.error (.mismatch s t), st) := by
  exact ⟨by decide, surface_emptyTail, reconciles_emptyTail, _, _, run_emptyTail⟩

end RowLang.Solver
