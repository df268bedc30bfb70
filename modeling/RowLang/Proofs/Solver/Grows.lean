import RowLang.Proofs.Solver.Course
import RowLang.Proofs.Solver.Key

/-!
# Proofs/Solver/Grows — what a comparison keeps, whatever its end

While types are compared, the memo, the keys of what is pending and the trace only grow, variables
are only numbered further, and the type under study stays the same (`Course.grows`).  Opening
binders does nothing but number variables, and frees none that was bound (`openBinders_cases`); it
fails only for binders that never come to an end (`openBinders_error`).
-/

namespace RowLang.Solver

open Ty

/-- Nothing that was noted or pending is forgotten. -/
structure Grows (st st' : Solver) : Prop where
  visited : ∀ key ∈ st.visited, key ∈ st'.visited
  keys : ∀ key ∈ st.keys, key ∈ st'.keys
  trace : ∀ line ∈ st.trace, line ∈ st'.trace
  counter : st.counter ≤ st'.counter
  lastType : st'.lastType = st.lastType

theorem Grows.refl (st : Solver) : st.Grows st :=
  ⟨fun _ h => h, fun _ h => h, fun _ h => h, Nat.le_refl _, rfl⟩

theorem Grows.trans {st mid st' : Solver} (h : st.Grows mid) (h' : mid.Grows st') : st.Grows st' :=
  ⟨fun key hk => h'.visited key (h.visited key hk), fun key hk => h'.keys key (h.keys key hk),
    fun line hl => h'.trace line (h.trace line hl), h.counter.trans h'.counter,
    h'.lastType.trans h.lastType⟩

theorem grows_noting (st : Solver) (key : String) : st.Grows (st.noting key) :=
  ⟨fun _ h => List.mem_cons_of_mem _ h, fun _ h => h, fun _ h => List.mem_cons_of_mem _ h,
    Nat.le_refl _, rfl⟩

theorem grows_posting (st : Solver) (n : Nat) (t : Ty) : st.Grows (st.posting n t) :=
  ⟨fun _ h => h, fun _ h => Equation.mem_keys_post.mpr (Or.inr h), fun _ h => h, Nat.le_refl _, rfl⟩

theorem grows_counting (st : Solver) : st.Grows st.counting :=
  ⟨fun _ h => h, fun _ h => h, fun _ h => h, Nat.le_succ _, rfl⟩

/-! ## Opening binders -/

/-- The state when variables have been numbered up to some number. -/
def numbering (st : Solver) (c : Nat) : Solver := { st with counter := c }

theorem grows_numbering {st : Solver} {c : Nat} (h : st.counter ≤ c) : st.Grows (st.numbering c) :=
  ⟨fun _ h => h, fun _ h => h, fun _ h => h, h, rfl⟩

/-- An opened binder frees no variable but fresh ones. -/
theorem openBinder_cases (b : Binder) (p : Nat) (body : Ty) (st : Solver) :
    ∃ u c, (openBinder b p body).run st = (.ok u, st.numbering c) ∧ st.counter ≤ c ∧
      ∀ v ∈ u.free, v ∈ (bind b p body).free ∨ (st.counter ≤ v ∧ v < c) := by
  have hkept : ∀ {v s u}, v ∈ body.free → [(p, s)].lookup v = (none : Option Ty) →
      v ∈ (bind b p body).free ∨ u := by
    intro v s u hv hnone
    rw [Row.lookup_single] at hnone
    split at hnone
    case isTrue => cases hnone
    case isFalse hne => exact Or.inl (mem_free_bind.mpr ⟨hv, hne⟩)
  have hsingle : ∀ {v w s : _} {u : Ty}, [(p, s)].lookup w = some u → v ∈ u.free → v ∈ s.free := by
    intro v w s u hu hv
    rw [Row.lookup_single] at hu
    split at hu
    case isTrue => cases hu; exact hv
    case isFalse => cases hu
  cases b with
  | mu =>
    refine ⟨(unfold p body).flatten, st.counter, rfl, Nat.le_refl _, fun v hv => ?_⟩
    rcases mem_free_substitute (mem_free_flatten hv) with ⟨hv, hnone⟩ | ⟨w, s, -, hs, hv⟩
    · exact hkept hv hnone
    · exact Or.inl (hsingle hs hv)
  | forAll =>
    refine ⟨(body.substitute [(p, .var st.counter)]).flatten, st.counter + 1, rfl, Nat.le_succ _,
      fun v hv => ?_⟩
    rcases mem_free_substitute (mem_free_flatten hv) with ⟨hv, hnone⟩ | ⟨w, s, -, hs, hv⟩
    · exact hkept hv hnone
    · have hv := hsingle hs hv
      rw [free_var, List.mem_singleton] at hv
      exact Or.inr (by omega)

/-- **Opening binders numbers variables, and frees none but those.** -/
theorem openBinders_cases {key : String} : ∀ {n : Nat} {s t : Ty} {st mid : Solver}
    {r : Except TypeFailure (Ty × Ty)}, (openBinders key n s t).run st = (r, mid) →
      ∃ c, mid = st.numbering c ∧ st.counter ≤ c ∧ ∀ p, r = .ok p → ∀ v, v ∈ p.1.free ∨
      v ∈ p.2.free →
        (v ∈ s.free ∨ v ∈ t.free) ∨ (st.counter ≤ v ∧ v < c)
  | 0, _, _, st, _, _, h => by
    cases h
    exact ⟨st.counter, rfl, Nat.le_refl _, by simp⟩
  | n + 1, s, t, st, mid, r, h => by
    rw [openBinders_eq] at h
    split at h
    case h_1 => contradiction
    case h_2 b p body hn =>
      cases hn
      obtain ⟨u, c, hrun, hc, hfree⟩ := openBinder_cases b p body st
      rw [Run.run_bind, hrun] at h
      obtain ⟨c', rfl, hc', hmem⟩ := openBinders_cases h
      refine ⟨c', rfl, hc.trans hc', fun q hq v hv => ?_⟩
      rcases hmem q hq v hv with (hv | hv) | ⟨hle, hlt⟩
      · exact (hfree v hv).imp Or.inl (And.imp_right fun h => h.trans_le hc')
      · exact Or.inl (Or.inr hv)
      · exact Or.inr ⟨hc.trans hle, hlt⟩
    case h_3 b p body hn _ =>
      cases hn
      obtain ⟨u, c, hrun, hc, hfree⟩ := openBinder_cases b p body st
      rw [Run.run_bind, hrun] at h
      obtain ⟨c', rfl, hc', hmem⟩ := openBinders_cases h
      refine ⟨c', rfl, hc.trans hc', fun q hq v hv => ?_⟩
      rcases hmem q hq v hv with (hv | hv) | ⟨hle, hlt⟩
      · exact Or.inl (Or.inl hv)
      · exact (hfree v hv).imp Or.inr (And.imp_right fun h => h.trans_le hc')
      · exact Or.inr ⟨hc.trans hle, hlt⟩
    case h_4 =>
      cases h
      refine ⟨st.counter, rfl, Nat.le_refl _, fun q hq v hv => ?_⟩
      cases hq
      exact Or.inl hv

/-- Opening binders fails only for those that never come to an end. -/
theorem openBinders_error {key : String}
    {e : TypeFailure} : ∀ {n : Nat} {s t : Ty} {st mid : Solver},
    (openBinders key n s t).run st = (.error e, mid) → e = .endlessUnfolding key
  | 0, _, _, _, _, h => by
    cases h
    rfl
  | n + 1, s, t, st, mid, h => by
    rw [openBinders_eq] at h
    split at h
    case h_1 => contradiction
    case h_2 b p body hn | h_3 b p body hn _ =>
      cases hn
      obtain ⟨u, c, hrun, -⟩ := openBinder_cases b p body st
      rw [Run.run_bind, hrun] at h
      exact openBinders_error h
    case h_4 => cases h

/-! ## Comparisons -/

/-- **A comparison forgets nothing**, whatever its end. -/
theorem Course.grows {ts : List Task} {st st' : Solver} {r : Except TypeFailure Unit}
    (h : Course ts st r st') : st.Grows st' := by
  induction h with
  | nil st | tooDeep _ _ _ st => exact .refl st
  | known _ _ ih => exact ih
  | defer _ _ _ ih => exact ((grows_noting _ _).trans (grows_posting _ _ _)).trans ih
  | clash => exact grows_noting _ _
  | endless _ _ _ hopen =>
    obtain ⟨c, rfl, hc, -⟩ := openBinders_cases hopen
    exact (grows_noting _ _).trans (grows_numbering hc)
  | reopen _ _ hopen _ ih =>
    obtain ⟨c, rfl, hc, -⟩ := openBinders_cases hopen
    exact ((grows_noting _ _).trans (grows_numbering hc)).trans ih
  | split _ _ _ ih => exact (grows_noting _ _).trans ih
  | meet _ ih => exact (grows_counting _).trans ih

end RowLang.Solver

/-!
## What a successful run does, as a list of tasks

`Works tasks st st'` says that the tasks can be done one after the other from `st` and that `st'` is
the state in the end: it is a course that comes through.  Each step takes the first task off and
puts what it comes to in its place, so that properties of successful runs are proved by one
induction over the steps.
-/

namespace RowLang.Solver

/-- **Tasks done one after the other.** -/
inductive Works : List Task → Solver → Solver → Prop
  | nil (st : Solver) : Works [] st st
  | known {s t ts st st'} : equalityKey s t ∈ st.visited → Works ts st st' →
      Works (.agree s t :: ts) st st'
  | defer {s t ts n u st st'} : equalityKey s t ∉ st.visited →
      outcome s.flatten t.flatten = .defer n u →
      Works ts ((st.noting (equalityKey s t)).posting n u) st' → Works (.agree s t :: ts) st st'
  | reopen {s t s' t' ts st mid st'} : equalityKey s t ∉ st.visited →
      outcome s.flatten t.flatten = .reopen →
      (openBinders (equalityKey s t) maxUnfoldings s.flatten t.flatten).run
        (st.noting (equalityKey s t)) = (.ok (s', t'), mid) →
      Works (.agree s' t' :: ts) mid st' → Works (.agree s t :: ts) st st'
  | split {s t ts tasks st st'} : equalityKey s t ∉ st.visited →
      outcome s.flatten t.flatten = .split tasks →
      Works (tasks ++ ts) (st.noting (equalityKey s t)) st' → Works (.agree s t :: ts) st st'
  | meet {k fields tail others tail' ts st st'} :
      Works (.agree tail' (.row k fields (.var st.counter)) ::
        .agree tail (.row k others (.var st.counter)) :: ts) st.counting st' →
      Works (.meet k fields tail others tail' :: ts) st st'

/-- A course that comes through does its tasks. -/
theorem Course.works {ts : List Task} {st st' : Solver} (h : Course ts st (.ok ()) st') :
    Works ts st st' := by
  generalize hr : Except.ok () = r at h
  induction h with
  | nil => exact .nil _
  | tooDeep | clash | endless => cases hr
  | known hkey _ ih => exact .known hkey (ih hr)
  | defer hkey hout _ ih => exact .defer hkey hout (ih hr)
  | reopen hkey hout hopen _ ih => exact .reopen hkey hout hopen (ih hr)
  | split hkey hout _ ih => exact .split hkey hout (ih hr)
  | meet _ ih => exact .meet (ih hr)

theorem Works.course {ts : List Task} {st st' : Solver} (h : Works ts st st') :
    Course ts st (.ok ()) st' := by
  induction h with
  | nil => exact .nil _
  | known hkey _ ih => exact .known hkey ih
  | defer hkey hout _ ih => exact .defer hkey hout ih
  | reopen hkey hout hopen _ ih => exact .reopen hkey hout hopen ih
  | split hkey hout _ ih => exact .split hkey hout ih
  | meet _ ih => exact .meet ih

theorem Works.grows {ts : List Task} {st st' : Solver} (h : Works ts st st') : st.Grows st' :=
  h.course.grows

/-- **A successful comparison does its task.** -/
theorem works_of_run {budget : Nat} {s t : Ty} {st st' : Solver}
    (h : (equate budget s t).run st = (.ok (), st')) : Works [.agree s t] st st' :=
  (course_of_run h).works

end RowLang.Solver
