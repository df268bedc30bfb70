import RowLang.Proofs.Solver.Outcome

/-!
# Proofs/Solver/Course — how a comparison goes, whatever its end

`Course tasks st r st'` says that the tasks are gone through one after the other from `st`, that
`st'` is the state in the end and `r` how it ended: with all of them done, or with a failure on the
way.  Each step takes the first task off and puts what it comes to in its place, so that what all
runs preserve, those that fail included, is proved by one induction over the steps.  `course_of_run`
turns every run into such a course.
-/

namespace RowLang.Solver

/-- The state with one more pending equation. -/
def posting (st : Solver) (n : Nat) (t : Ty) : Solver :=
  { st with pending := Equation.post st.pending (.of n t) }

/-- The state with one more variable. -/
def counting (st : Solver) : Solver := { st with counter := st.counter + 1 }

/-- **Tasks gone through one after the other**, until all are done or one fails. -/
inductive Course : List Task → Solver → Except TypeFailure Unit → Solver → Prop
  | nil (st : Solver) : Course [] st (.ok ()) st
  | tooDeep (s t : Ty) (ts : List Task) (st : Solver) :
      Course (.agree s t :: ts) st (.error .tooDeep) st
  | known {s t ts st r st'} : equalityKey s t ∈ st.visited → Course ts st r st' →
      Course (.agree s t :: ts) st r st'
  | defer {s t ts n u st r st'} : equalityKey s t ∉ st.visited →
      outcome s.flatten t.flatten = .defer n u →
      Course ts ((st.noting (equalityKey s t)).posting n u) r st' →
        Course (.agree s t :: ts) st r st'
  | clash {s t} (ts : List Task) {st : Solver} : equalityKey s t ∉ st.visited →
      outcome s.flatten t.flatten = .clash →
      Course (.agree s t :: ts) st (.error (.mismatch s.flatten t.flatten))
        (st.noting (equalityKey s t))
  | endless {s t e} (ts : List Task) {st mid : Solver} : equalityKey s t ∉ st.visited →
      outcome s.flatten t.flatten = .reopen →
      (openBinders (equalityKey s t) maxUnfoldings s.flatten t.flatten).run
        (st.noting (equalityKey s t)) = (.error e, mid) →
      Course (.agree s t :: ts) st (.error e) mid
  | reopen {s t s' t' ts st mid r st'} : equalityKey s t ∉ st.visited →
      outcome s.flatten t.flatten = .reopen →
      (openBinders (equalityKey s t) maxUnfoldings s.flatten t.flatten).run
        (st.noting (equalityKey s t)) = (.ok (s', t'), mid) →
      Course (.agree s' t' :: ts) mid r st' → Course (.agree s t :: ts) st r st'
  | split {s t ts tasks st r st'} : equalityKey s t ∉ st.visited →
      outcome s.flatten t.flatten = .split tasks →
      Course (tasks ++ ts) (st.noting (equalityKey s t)) r st' → Course (.agree s t :: ts) st r st'
  | meet {k fields tail others tail' ts st r st'} :
      Course (.agree tail' (.row k fields (.var st.counter)) ::
        .agree tail (.row k others (.var st.counter)) :: ts) st.counting r st' →
      Course (.meet k fields tail others tail' :: ts) st r st'

/-- Once some tasks are done, others may follow. -/
theorem Course.append {ts ts' : List Task} {st mid st' : Solver} {r : Except TypeFailure Unit}
    (h : Course ts st (.ok ()) mid) (h' : Course ts' mid r st') : Course (ts ++ ts') st r st' := by
  generalize hr : Except.ok () = r₀ at h
  induction h with
  | nil => exact h'
  | tooDeep | clash | endless => cases hr
  | known hkey _ ih => exact .known hkey (ih h' hr)
  | defer hkey hout _ ih => exact .defer hkey hout (ih h' hr)
  | reopen hkey hout hopen _ ih => exact .reopen hkey hout hopen (ih h' hr)
  | split hkey hout _ ih => exact .split hkey hout (by simpa using ih h' hr)
  | meet _ ih => exact .meet (ih h' hr)

/-- What fails leaves everything behind it undone. -/
theorem Course.append_error {ts : List Task} {st st' : Solver} {e : TypeFailure}
    (h : Course ts st (.error e) st') (ts' : List Task) : Course (ts ++ ts') st (.error e) st' := by
  generalize hr : Except.error e = r at h
  induction h with
  | nil => cases hr
  | tooDeep => exact .tooDeep ..
  | clash _ hkey hout => exact .clash _ hkey hout
  | endless _ hkey hout hopen => exact .endless _ hkey hout hopen
  | known hkey _ ih => exact .known hkey (ih hr)
  | defer hkey hout _ ih => exact .defer hkey hout (ih hr)
  | reopen hkey hout hopen _ ih => exact .reopen hkey hout hopen (ih hr)
  | split hkey hout _ ih => exact .split hkey hout (by simpa using ih hr)
  | meet _ ih => exact .meet (ih hr)

/-- Two operations that go through tasks, one after the other. -/
theorem Course.bind {m m' : Solving Unit} {ts ts' : List Task} {st : Solver}
    (h : ∀ {r mid}, m.run st = (r, mid) → Course ts st r mid)
    (h' : ∀ {mid r st'}, m'.run mid = (r, st') → Course ts' mid r st') {r : Except TypeFailure Unit}
    {st' : Solver} (hrun : (m >>= fun _ => m').run st = (r, st')) :
    Course (ts ++ ts') st r st' := by
  rw [Run.run_bind] at hrun
  cases hm : m.run st with
  | mk r₁ mid =>
    rw [hm] at hrun
    cases r₁ with
    | ok _ => exact (h hm).append (h' hrun)
    | error e =>
      cases hrun
      exact (h hm).append_error ts'

/-- Comparisons go the course of their equality. -/
private def RunsCourse (budget : Nat) : Prop :=
  ∀ {s t st r st'}, (equate budget s t).run st = (r, st') → Course [.agree s t] st r st'

private theorem course_of_perform {budget : Nat} (h : RunsCourse budget) {task : Task}
    {st st' : Solver} {r : Except TypeFailure Unit}
    (hrun : (perform budget task).run st = (r, st')) :
    Course [task] st r st' := by
  cases task with
  | agree s t => exact h hrun
  | meet k fields tail others tail' =>
    rw [perform_meet, Run.run_bind, Run.run_fresh] at hrun
    exact .meet (Course.bind h h hrun)

private theorem course_of_forM_perform {budget : Nat} (h : RunsCourse budget) :
    ∀ {tasks : List Task} {st st' : Solver} {r : Except TypeFailure Unit},
      (tasks.forM (perform budget)).run st = (r, st') → Course tasks st r st'
  | [], st, st', r, hrun => by
    cases hrun
    exact .nil st
  | task :: tasks, st, st', r, hrun =>
    Course.bind (course_of_perform h) (course_of_forM_perform h) hrun

/-- **Every comparison goes the course of its equality.** -/
theorem course_of_run : ∀ {budget : Nat} {s t : Ty} {st st' : Solver} {r : Except TypeFailure Unit},
    (equate budget s t).run st = (r, st') → Course [.agree s t] st r st'
  | 0, s, t, st, st', r, hrun => by
    rw [equate] at hrun
    cases hrun
    exact .tooDeep ..
  | budget + 1, s, t, st, st', r, hrun => by
    rw [equate_succ] at hrun
    split at hrun
    case isTrue hkey =>
      cases hrun
      exact .known (List.contains_iff_mem.mp hkey) (.nil st)
    case isFalse hkey =>
      have hkey : equalityKey s t ∉ st.visited := fun h => hkey (List.contains_iff_mem.mpr h)
      cases hout : outcome s.flatten t.flatten with
      | defer n u =>
        rw [hout] at hrun
        cases hrun
        exact .defer hkey hout (.nil _)
      | clash =>
        rw [hout] at hrun
        cases hrun
        exact .clash [] hkey hout
      | reopen =>
        rw [hout, follow_reopen, Run.run_bind] at hrun
        cases hopen : (openBinders (equalityKey s t) maxUnfoldings s.flatten t.flatten).run
            (st.noting (equalityKey s t)) with
        | mk opened mid =>
          rw [hopen] at hrun
          cases opened with
          | ok p => exact .reopen hkey hout hopen (course_of_run hrun)
          | error e =>
            cases hrun
            exact .endless [] hkey hout hopen
      | split tasks =>
        rw [hout, follow] at hrun
        refine .split hkey hout ?_
        rw [List.append_nil]
        exact course_of_forM_perform course_of_run hrun

/-- **Comparisons, one after the other, go the course of their tasks.** -/
theorem course_of_forM {budget : Nat} {tasks : List Task} {st st' : Solver}
    {r : Except TypeFailure Unit} (h : (tasks.forM (perform budget)).run st = (r, st')) :
    Course tasks st r st' :=
  course_of_forM_perform course_of_run h

end RowLang.Solver
