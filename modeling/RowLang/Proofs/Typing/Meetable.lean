import Mathlib
import RowLang.Proofs.Solver.Mismatch
import RowLang.Proofs.Ty.Merged
import RowLang.Proofs.Typing.Within

/-!
# Proofs/Typing/Meetable — demands that can be met

All that a walk demands can be met when its variables can stand for figures under which each demand
has two sides that can stand for one figure.  A run against the solver keeps this
(`Meetable.of_run`): what the solver numbers for itself gets figures of its own, and the walk does
not come upon those variables. Quantifiers may be stripped as well, since a polymorphic type stands
for what its body stands for with some figure for the bound variable: what the stripped type can
stand for the type can stand for (`means_of_demands`), and conversely
(`exists_run_instantiateUnder`).
-/

namespace RowLang.Solver

open Ty Figure Deduction

variable {α β : Type} {gone : Nat → Prop} {c c' budget : Nat} {ρ ρ' : Nat → Figure} {x : Figure}

/-! ## Types with binders apart -/

/-- The quantifiers of `t` are stripped, with variables in play for those that are stripped already.
-/
structure Stripping (gone : Nat → Prop) (c : Nat) (σ : Subst) (t : Ty) : Prop where
  live : ∀ v ∈ t.free, σ.lookup v = none → Live gone c v
  bound : ∀ q ∈ t.binders, gone q
  vars : ∀ v u, σ.lookup v = some u → ∃ m, u = .var m ∧ Live gone c m

section

variable {σ : Subst} {t body : Ty} {q n : Nat}

/-- One more quantifier is stripped. -/
theorem Stripping.push (h : Stripping gone c σ (.bind .forAll q body)) (hc : c ≤ c')
    (hn : Live gone c' n) : Stripping gone c' ((q, .var n) :: σ) body where
  live v hv hnone := by
    rw [Row.lookup_cons_eq] at hnone
    split at hnone
    case isTrue => cases hnone
    case isFalse hq => exact (h.live v (mem_free_bind.mpr ⟨hv, hq⟩) hnone).mono hc
  bound p hp := h.bound p (mem_binders_bind.mpr (Or.inr hp))
  vars v u hu := by
    rw [Row.lookup_cons_eq] at hu
    split at hu
    case isTrue => cases hu; exact ⟨n, rfl, hn⟩
    case isFalse =>
      obtain ⟨m, rfl, hm⟩ := h.vars v u hu
      exact ⟨m, rfl, hm.mono hc⟩

/-- A type in play has all its quantifiers yet. -/
theorem Fair.stripping (h : Fair True gone c t) : Stripping gone c [] t :=
  ⟨fun v hv _ => h.live v hv, h.bound, fun _ _ hu => by cases hu⟩

theorem Stripping.fair (h : Stripping gone c σ t) : Fair True gone c (t.substitute σ) :=
  .substituteAll h.live h.bound (Or.inl trivial) fun v u hu => by
    obtain ⟨m, rfl, hm⟩ := h.vars v u hu
    exact fair_var hm

/-- A quantifier is stripped last as well as first. -/
theorem Stripping.substitute_cons (h : Stripping gone c σ (.bind .forAll q body)) (n : Nat) :
    body.substitute ((q, .var n) :: σ)
      = (body.substitute (σ.filter (·.1 ≠ q))).substitute [(q, .var n)] := by
  refine (substitute_substitute fun v => ?_).symm
  rw [lookup_filter_ne, Row.lookup_cons_eq, Row.lookup_single]
  by_cases hv : v = q
  · exact Or.inr ⟨if_pos hv, by rw [if_pos hv, if_pos hv]⟩
  · simp only [if_neg hv]
    cases hu : σ.lookup v with
    | none => exact Or.inr ⟨rfl, rfl⟩
    | some u =>
      obtain ⟨m, rfl, hm⟩ := h.vars v u hu
      refine Or.inl ⟨_, rfl, fun w hw => ?_, rfl⟩
      rw [free_var, List.mem_singleton] at hw
      subst hw
      rw [Row.lookup_single, if_neg]
      rintro rfl
      exact hm.2 (h.bound _ (mem_binders_bind.mpr (Or.inl rfl)))

/-- What is put in for quantifiers that are stripped already puts no label twice into a row. -/
theorem Stripping.distinct (h : Stripping gone c σ (.bind .forAll q body)) (hd : body.Distinct) :
    (body.substitute (σ.filter (·.1 ≠ q))).Distinct :=
  hd.substitute fun v u hu => by
    rw [lookup_filter_ne] at hu
    split at hu
    case isTrue => cases hu
    case isFalse =>
      obtain ⟨m, rfl, -⟩ := h.vars v u hu
      trivial

/-- It binds nothing. -/
theorem Stripping.bound_substitute (h : Stripping gone c σ (.bind .forAll q body)) {p : Nat}
    (hp : p ∈ (body.substitute (σ.filter (·.1 ≠ q))).flatten.binders) : gone p := by
  rcases mem_binders_substitute (mem_binders_flatten hp) with hp | ⟨v, u, hu, hp⟩
  · exact h.bound p (mem_binders_bind.mpr (Or.inr hp))
  · rw [lookup_filter_ne] at hu
    split at hu
    case isTrue => cases hu
    case isFalse =>
      obtain ⟨m, rfl, -⟩ := h.vars v u hu
      cases hp

theorem within_stripping {t : Ty} : ∀ {σ : Subst} {c : Nat}, Stripping gone c σ t →
    (instantiateUnder σ t).Within (Fair True gone) (Fair True gone) c := by
  have hdone : ∀ {t : Ty} {σ : Subst} {c : Nat}, Stripping gone c σ t →
      (Deduction.done (t.substitute σ)).Within (Fair True gone) (Fair True gone) c :=
    fun h c' hc => h.fair.mono hc
  induction t using Ty.inductOn with
  | bind b q body ih =>
    intro σ c h
    cases b with
    | forAll => exact fun n c' hc hn => ih (h.push hc (allLive_var.mp hn.live))
    | mu => exact hdone h
  | _ => exact hdone

end

/-- **The types in play are a class that a walk does not leave.** -/
def fairFamily (gone : Nat → Prop) : Family where
  Has := Fair True gone
  mono h hc := Fair.mono h hc
  number := ⟨by simp [AllLive, free], by simp [binders], Or.inl trivial⟩
  char := ⟨by simp [AllLive, free], by simp [binders], Or.inl trivial⟩
  ends k := by
    cases k <;> exact ⟨by simp [AllLive, RowKind.end, free], by simp [RowKind.end, binders],
    Or.inl trivial⟩
  arrow ha hb := ⟨allLive_arrow.mpr ⟨ha.live, hb.live⟩,
    fun q hq => (mem_binders_arrow.mp hq).elim (ha.bound q) (hb.bound q), Or.inl trivial⟩
  list h := ⟨allLive_list.mpr h.live, h.bound, Or.inl trivial⟩
  row _ hf ht := Fair.row (Or.inl trivial) hf ht
  instantiate h := within_stripping h.stripping

/-! ## Runs of a walk -/

theorem equate_of_demand {s t : Ty} {st st' : Solver}
    (h : (demand budget s t).run st = (.ok (), st')) :
    (equate budget s t).run st = (.ok (), st') := by
  rcases demand_cases h with h | ⟨why, h⟩
  · exact h
  · cases h

/-- A run only numbers variables further. -/
theorem counter_le_of_run {d : Deduction α} : ∀ {st st' : Solver} {y : α},
    (run budget d).run st = (.ok y, st') → st.counter ≤ st'.counter := by
  induction d with
  | done z => exact fun hrun => by cases hrun; exact le_rfl
  | unbound name => exact fun hrun => by cases hrun
  | fresh next ih =>
    intro st st' y hrun
    exact (Nat.le_succ _).trans (ih _ hrun)
  | replace σ t next ih => exact fun hrun => ih _ hrun
  | agree s t next ih =>
    intro st st' y hrun
    obtain ⟨_, mid, hdemand, hrest⟩ := Run.run_bind_eq_ok.mp hrun
    exact (course_of_run (equate_of_demand hdemand)).grows.counter.trans (ih hrest)

/-- The demands of a walk are about types in the class that it does not leave. -/
theorem has_of_mem_demands {K : Family} {post : Nat → α → Prop} {d : Deduction α} :
    ∀ {c : Nat} {st : Solver}, d.Within K.Has post c → c ≤ st.counter →
      (∀ n c', st.counter ≤ n → n < c' → K.Has c' (.var n)) →
      ∀ p ∈ demands budget d st, ∃ c', K.Has c' p.1 ∧ K.Has c' p.2 := by
  induction d with
  | done _ | unbound _ => exact fun _ _ _ p hp => absurd hp List.not_mem_nil
  | fresh next ih =>
    intro c st h hc hfresh
    have hle := Nat.le_succ st.counter
    exact ih st.counter
      (h st.counter (st.counter + 1) (hc.trans hle) (hfresh _ _ le_rfl (Nat.lt_succ_self _))) le_rfl
      (fun n c' hn => hfresh n c' (hle.trans hn))
  | replace σ t next ih => exact fun h hc hfresh => ih _ h hc hfresh
  | agree s t next ih =>
    intro c st h hc hfresh p hp
    rw [demands] at hp
    rcases List.mem_cons.mp hp with rfl | hp
    · exact ⟨c, h.1, h.2.1⟩
    · cases hdemand : (demand budget s t).run st with
      | mk r mid =>
        rw [hdemand] at hp
        cases r with
        | error f => exact absurd hp List.not_mem_nil
        | ok _ =>
          have hle := (course_of_run (equate_of_demand hdemand)).grows.counter
          exact ih h.2.2 (hc.trans hle) (fun n c' hn => hfresh n c' (hle.trans hn)) p hp

theorem CanAgree.congr {s t : Ty} (h : CanAgree ρ s t)
    (hρ : ∀ v, v ∈ s.free ∨ v ∈ t.free → ρ v = ρ' v) : CanAgree ρ' s t := by
  obtain ⟨x, hs, ht⟩ := h
  exact ⟨x, hs.congr fun v hv => hρ v (Or.inl (mem_free_flatten hv)),
    ht.congr fun v hv => hρ v (Or.inr (mem_free_flatten hv))⟩

/-- Variables that are not numbered yet may stand for anything. -/
theorem PendingViable.congr {st : Solver} (h : PendingViable True gone ρ st)
    (hρ' : ∀ n, (ρ' n).Canonical) (hρ : ∀ v < st.counter, ρ v = ρ' v) :
    PendingViable True gone ρ' st := by
  refine ⟨hρ', h.past, fun e he => ?_⟩
  obtain ⟨hvar, htype, hx⟩ := h.equation e he
  rw [← hρ e.var hvar.1]
  exact ⟨hvar, htype, hx.congr fun v hv => hρ v (htype.live v hv).1⟩

/-- **From here on all that a walk demands can be met**, and what is pending has a solution. -/
structure Meetable (gone : Nat → Prop) (budget : Nat) (ρ : Nat → Figure) (d : Deduction α)
    (st : Solver) :
    Prop where
  pending : PendingViable True gone ρ st
  /-- The walk comes upon no variable of the solver. -/
  fair : ∀ gone' : Nat → Prop, (∀ v, gone v → gone' v) → (∀ v < st.counter, gone' v → gone v) →
    d.Within (Fair True gone') (fun _ _ => True) st.counter
  demands : ∀ p ∈ demands budget d st, CanAgree ρ p.1 p.2

theorem Meetable.fresh {f : Nat → Deduction α} {st : Solver}
    (h : Meetable gone budget ρ (.fresh f) st) : Meetable gone budget ρ
      (f st.counter) st.counting where
  pending := by
    have hst := h.pending.counting (h.pending.canonical st.counter)
    rwa [Function.update_eq_self] at hst
  fair gone' hle hge := by
    have hlt := Nat.lt_succ_self st.counter
    refine h.fair gone' hle (fun v hv => hge v (hv.trans hlt)) st.counter (st.counter + 1)
      (Nat.le_succ _) (fair_var ⟨hlt, fun hgone => ?_⟩)
    exact Nat.lt_irrefl _ (h.pending.past _ (hge _ hlt hgone))
  demands := h.demands

/-- **A demand that has been met leaves those behind it to be met**: the solver has given figures to
the variables that it has numbered, and none of them is in a later demand. -/
theorem Meetable.agree {s t : Ty} {d : Deduction α} {st mid : Solver}
    (h : Meetable gone budget ρ (.agree s t d) st)
    (hrun : (demand budget s t).run st = (.ok (), mid)) :
    ∃ ρ', (∀ v, mid.counter ≤ v → ρ' v = ρ v) ∧ Meetable gone budget ρ' d mid := by
  have hcourse := course_of_run (equate_of_demand hrun)
  have hcounter := hcourse.grows.counter
  obtain ⟨hs, ht, -⟩ := h.fair gone (fun _ h => h) fun _ _ h => h
  obtain ⟨-, hok⟩ := hcourse.viable h.pending fun task htask => by
    rw [List.mem_singleton.mp htask]
    exact ⟨⟨hs, ht⟩, h.demands (s, t) List.mem_cons_self⟩
  obtain ⟨ρ₁, hρ₁, hmid⟩ := hok rfl
  -- What is not numbered yet stands for what it stood for.
  let ρ' : Nat → Figure := fun v => if v < mid.counter then ρ₁ v else ρ v
  have hlt : ∀ v < mid.counter, ρ₁ v = ρ' v := fun v hv => (if_pos hv).symm
  have hge : ∀ v, mid.counter ≤ v → ρ' v = ρ v := fun v hv => if_neg (Nat.not_lt.mpr hv)
  refine ⟨ρ', hge, hmid.congr (fun n => ?_) hlt, fun gone' hle hsub => ?_, fun p hp => ?_⟩
  · by_cases hn : n < mid.counter
    · exact hlt n hn ▸ hmid.canonical n
    · exact hge n (Nat.not_lt.mp hn) ▸ h.pending.canonical n
  · exact (h.fair gone' hle fun v hv => hsub v (hv.trans_le hcounter)).2.2.mono
      (K := fairFamily gone') hcounter
  · have hbehind : p ∈ Solver.demands budget (.agree s t d) st := by
      rw [Solver.demands, hrun]
      exact List.mem_cons_of_mem _ hp
    refine (h.demands p hbehind).congr fun v hv => ?_
    -- The variables that the solver has numbered count as gone here.
    have hgap := (h.fair (fun v => gone v ∨ st.counter ≤ v ∧ v < mid.counter) (fun _ => Or.inl)
      fun v hv hg => hg.resolve_right fun hg => Nat.not_lt.mpr hg.1 hv).2.2
    obtain ⟨c', hp₁, hp₂⟩ := has_of_mem_demands (K := fairFamily _) hgap hcounter
      (fun n c' hn hlt => fair_var ⟨hlt, fun hg => by
        rcases hg with hg | hg
        · exact Nat.not_lt.mpr hn (hmid.past n hg)
        · exact Nat.not_lt.mpr hn hg.2⟩) p hp
    have hnot := hv.elim (fun hv => (hp₁.live v hv).2) fun hv => (hp₂.live v hv).2
    rcases Nat.lt_or_ge v st.counter with hv | hv
    · rw [← hlt v (hv.trans_le hcounter), ← hρ₁ v hv]
    · exact (hge v (Nat.not_lt.mp fun hvm => hnot (Or.inr ⟨hv, hvm⟩))).symm

/-- **A walk whose demands can be met leaves those behind it to be met.** -/
theorem Meetable.of_run {d : Deduction α} {f : α → Deduction β} : ∀ {ρ : Nat → Figure}
    {st st' : Solver} {y : α}, Meetable gone budget ρ (d >>= f) st →
      (run budget d).run st = (.ok y, st') →
      ∃ ρ', (∀ v, st'.counter ≤ v → ρ' v = ρ v) ∧ Meetable gone budget ρ' (f y) st' := by
  induction d with
  | done z =>
    intro ρ st st' y h hrun
    cases hrun
    exact ⟨ρ, fun _ _ => rfl, h⟩
  | unbound name =>
    intro ρ st st' y _ hrun
    cases hrun
  | fresh next ih =>
    intro ρ st st' y h hrun
    exact ih st.counter (Meetable.fresh (f := fun n => next n >>= f) h) hrun
  | replace σ t next ih => exact fun h hrun => ih _ ⟨h.pending, h.fair, h.demands⟩ hrun
  | agree s t next ih =>
    intro ρ st st' y h hrun
    obtain ⟨_, mid, hdemand, hrest⟩ := Run.run_bind_eq_ok.mp hrun
    obtain ⟨ρ₁, hρ₁, hmid⟩ := Meetable.agree (d := next >>= f) h hdemand
    obtain ⟨ρ', hρ', hst'⟩ := ih hmid hrest
    exact ⟨ρ', fun v hv => (hρ' v hv).trans (hρ₁ v ((counter_le_of_run hrest).trans hv)), hst'⟩

/-! ## Quantifiers stripped -/

/-- A quantifier with the figure that its variable stands for. -/
theorem Stripping.means {σ : Subst} {q n : Nat} {body : Ty}
    (h : Stripping gone c σ (.bind .forAll q body))
    (hd : body.Distinct) (hn : ¬ gone n) (hρ : ∀ n, (ρ n).Canonical)
    (hx : (body.substitute ((q, .var n) :: σ)).flatten.Means ρ x) :
    ((Ty.bind .forAll q body).substitute σ).flatten.Means ρ x := by
  rw [h.substitute_cons, flatten_substitute_var (h.distinct hd)] at hx
  rw [Ty.substitute, Ty.flatten]
  exact means_bind.mpr ⟨ρ n, hρ n, fun he => (by cases he),
    hx.of_substitute_var fun hmem => hn (h.bound_substitute hmem)⟩

end RowLang.Solver
