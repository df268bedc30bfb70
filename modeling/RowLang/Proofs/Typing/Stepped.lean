import RowLang.Proofs.Expr.Written
import RowLang.Proofs.Solver.Retried
import RowLang.Proofs.Typing.Instance

/-!
# Proofs/Typing/Stepped — stepping and solving agree

A program that a text denotes has tidy rows, and the types that it declares are about the letters
(`Expr.Written.declares`).  So the state in which its type is raw is one in which rounds go on as
they should, and solving comes to the same there after any number of rounds
(`Solver.solve_after_attempts`).
-/

namespace RowLang

open Solver

/-! ## Programs that texts denote -/

theorem Label.Written.plain {l : Label} (h : l.Written) : l.Plain :=
  ⟨h.1, fun c hc => h.2.imp (fun h => h c hc) fun h => h c hc⟩

theorem Grammar.GoodFields.tidy {α : Type} {G : α → Prop} {r : Row α}
    (h : GoodFields G r) : r.Tidy :=
  ⟨h.1, fun l hl => ((goodFields_iff.mp h).1.2 l hl).plain⟩

/-- The types that texts denote are about the letters. -/
theorem Ty.Written.proper {t : Ty} (h : t.Written) : Proper (fun _ => True) 26 t := by
  induction t using Ty.inductOn with
  | number | char => exact ⟨trivial, trivial⟩
  | unit | empty => exact h.elim
  | var n => exact ⟨trivial, trivial, h⟩
  | arrow a b iha ihb =>
    have ha := iha h.1
    have hb := ihb h.2
    exact ⟨⟨ha.tidy, hb.tidy⟩, ha.numbers, hb.numbers⟩
  | list t ih => exact ⟨(ih h).tidy, (ih h).numbers⟩
  | bind b n body ih => exact ⟨(ih h.2).tidy, ⟨trivial, h.1⟩, (ih h.2).numbers⟩
  | row k fields tail ihf iht =>
    obtain ⟨hfields, htail⟩ := written_row.mp h
    refine proper_row.mpr ⟨hfields.tidy, fun p hp => ihf p hp (hfields.2 p hp).2, ?_⟩
    rcases htail with rfl | htail
    · exact proper_end _ 26 k
    · exact iht htail

theorem Pattern.Written.tidy {p : Pattern} (h : p.Written) : p.Tidy := by
  induction p using Pattern.inductOn with
  | name | wildcard => trivial
  | row fields ih =>
    have hfields := written_row.mp h
    refine ⟨hfields.tidy, ?_⟩
    have hall : ∀ p ∈ fields, p.2.Tidy := fun p hp => ih p hp (hfields.2 p hp).2
    clear ih h hfields
    induction fields with
    | nil => trivial
    | cons p fields ihs =>
      exact ⟨hall p List.mem_cons_self, ihs fun q hq => hall q (List.mem_cons_of_mem _ hq)⟩

namespace Expr

/-- The rows are tidy, and the types that are declared are about the letters. -/
structure Grounded (e : Expr) : Prop where
  tidy : e.Tidy
  declares : e.Declares (Proper (fun _ => True) 26)

theorem grounded_all {es : List Expr} (h : ∀ e ∈ es, e.Grounded) :
    TidyAll es ∧ DeclaresAll (Proper (fun _ => True) 26) es := by
  induction es with
  | nil => exact ⟨trivial, trivial⟩
  | cons e es ih =>
    have he := h e List.mem_cons_self
    obtain ⟨htidy, hd⟩ := ih fun d hd => h d (List.mem_cons_of_mem _ hd)
    exact ⟨⟨he.tidy, htidy⟩, he.declares, hd⟩

theorem grounded_fields {fields : Row Expr} (h : ∀ p ∈ fields, p.2.Grounded) :
    TidyFields fields ∧ DeclaresFields (Proper (fun _ => True) 26) fields := by
  induction fields with
  | nil => exact ⟨trivial, trivial⟩
  | cons p fields ih =>
    have hp := h p List.mem_cons_self
    obtain ⟨htidy, hd⟩ := ih fun q hq => h q (List.mem_cons_of_mem _ hq)
    exact ⟨⟨hp.tidy, htidy⟩, hp.declares, hd⟩

/-- **What a text denotes has tidy rows and declares types about the letters.** -/
theorem Written.grounded {e : Expr} (h : e.Written) : e.Grounded := by
  induction e using Expr.inductOn with
  | number | char | var | op | load => exact ⟨trivial, trivial⟩
  | lambda p body ih => exact ⟨⟨h.1.tidy, (ih h.2).tidy⟩, (ih h.2).declares⟩
  | apply fn arg ihf iha =>
    have harg := iha h.2
    obtain ⟨htidy, hd⟩ : fn.Grounded := by
      have hfn := h.1
      cases hproj : projectedLabel? fn with
      | none => rw [hproj] at hfn; exact ihf hfn
      | some l =>
        rw [hproj] at hfn
        rw [projectedLabel?_eq_some hproj]
        exact ⟨⟨⟨Row.tidy_single (Label.Written.plain hfn) _, trivial, trivial⟩, trivial⟩, trivial⟩
    exact ⟨⟨htidy, harg.tidy⟩, hd, harg.declares⟩
  | list elts ih =>
    obtain ⟨cs, rfl, -⟩ | helts := h
    · have hchars : ∀ e ∈ cs.map Expr.char, e.Grounded := fun e he => by
        obtain ⟨c, -, rfl⟩ := List.mem_map.mp he
        exact ⟨trivial, trivial⟩
      obtain ⟨htidy, hd⟩ := grounded_all hchars
      exact ⟨htidy, hd⟩
    · obtain ⟨htidy, hd⟩ := grounded_all fun e he => ih e he (writtenAll_iff.mp helts e he)
      exact ⟨htidy, hd⟩
  | record fields ih =>
    have hfields := written_record.mp h
    obtain ⟨htidy, hd⟩ := grounded_fields fun p hp => ih p hp (hfields.2 p hp).2
    exact ⟨⟨hfields.tidy, htidy⟩, hd⟩
  | tuple items ih =>
    obtain ⟨htidy, hd⟩ := grounded_all fun e he => ih e he (writtenAll_iff.mp h.2 e he)
    exact ⟨htidy, hd⟩
  | dispatch handlers ih =>
    have hhandlers := written_dispatch.mp h
    obtain ⟨htidy, hd⟩ := grounded_fields fun p hp => ih p hp (hhandlers.2 p hp).2
    exact ⟨⟨hhandlers.tidy, htidy⟩, hd⟩
  | tag l => exact ⟨⟨h.1, fun c hc => Or.inl (h.2 c hc)⟩, trivial⟩
  | ascribe declared e ih => exact ⟨(ih h.2).tidy, h.1.proper, (ih h.2).declares⟩
  | bindIn p bound body ihbound ihbody =>
    have hbound := ihbound h.2.1
    have hbody := ihbody h.2.2
    exact ⟨⟨h.1.tidy, hbound.tidy, hbody.tidy⟩, hbound.declares, hbody.declares⟩

end Expr

/-! ## States in which a raw type is under study -/

namespace Solver

/-- A run keeps a solver assembled. -/
theorem Assembled.run {α : Type} {P : Nat → Prop} {post : Nat → α → Prop} {budget : Nat}
    {d : Deduction α} : ∀ {c : Nat} {st st' : Solver} {r : Except TypeFailure α}, st.Assembled →
      d.Within (Proper P) post c → c ≤ st.counter → (∀ n, P n) →
      (Solver.run budget d).run st = (r, st') →
      st'.Assembled := by
  induction d with
  | done x =>
    intro c st st' r h _ _ _ hrun
    cases hrun
    exact h
  | unbound name =>
    intro c st st' r h _ _ _ hrun
    cases hrun
    exact h
  | fresh next ih =>
    intro c st st' r h hw hc hP hrun
    exact ih st.counter h.fresh (hw st.counter (st.counter + 1) (hc.trans (Nat.le_succ _))
      (proper_var (hP _) (Nat.lt_succ_self _))) le_rfl hP hrun
  | replace σ t next ih => exact fun h hw hc hP hrun => ih _ h hw hc hP hrun
  | agree s t next ih =>
    intro c st st' r h hw hc hP hrun
    rw [run_agree, Run.run_bind] at hrun
    cases hdemand : (demand budget s t).run st with
    | mk result mid =>
      have hmid : mid.Assembled ∧ st.counter ≤ mid.counter := by
        rw [demand_eq] at hdemand
        split at hdemand
        case h_1 =>
          cases hdemand
          exact ⟨h, le_rfl⟩
        case h_2 =>
          exact ⟨.equate h (fun v hv => ((hw.1.mono hc).lt_of_mem_free v hv))
            (fun v hv => ((hw.2.1.mono hc).lt_of_mem_free v hv)) hdemand,
            (course_of_run hdemand).grows.counter⟩
      rw [hdemand] at hrun
      cases result with
      | error e =>
        cases hrun
        exact hmid.1
      | ok _ => exact ih hmid.1 hw.2.2 (hc.trans hmid.2) hP hrun

/-- **The state in which the raw type of a program is under study is steady.** -/
theorem steady_of_infer {e : Expr} (he : e.Grounded) {budget : Nat} {raw : Ty} {st : Solver}
    (hinfer : (infer budget e).run {} = (.ok raw, st)) : (st.studying raw).Steady := by
  have hwithin := Expr.within_deduce (K := properFamily fun _ => True) he.tidy he.declares
  have hnew : Alongside (fun _ => True) id {} {} :=
    ⟨⟨[], by simp, rfl, rfl⟩, by simp, rfl, fun _ _ => ⟨trivial, rfl⟩⟩
  have hends := parallel_run budget hwithin _ _ hnew le_rfl
  rw [← infer_eq, hinfer] at hends
  obtain ⟨hst, -, -, hraw⟩ := hends
  have hassembled := Assembled.new.run hwithin le_rfl (fun _ => trivial) hinfer
  exact ⟨(hassembled.studying hraw.lt_of_mem_free).clear, hst.visited, hst.proper,
    hst.pending, hst.fresh⟩

/-- **Stepping and solving agree**: when the solving of a program succeeds or fails for a mismatch,
it does so after any number of rounds too, whether these succeed or not.  If it succeeds, none of
the rounds fails, nothing is pending, the same type is under study, and solving again changes
nothing.  If it fails, the rounds that fail and the solving again have the same message. -/
theorem solve_after_attempts {source : List Char} {e : Expr} (hparse : Expr.parse source = .ok e)
    {depth budget : Nat} {raw : Ty} {st : Solver} (hinfer : (infer depth e).run {} = (.ok raw, st))
    (k : Nat) : (∀ st', (solve budget).run (st.studying raw) = (.ok (), st') → st'.pending = [] ∧
      (∃ mid last, (attempts budget k).run (st.studying raw) = (.ok [], mid) ∧
        (solve budget).run mid = (.ok (), last) ∧ last.pending = [] ∧
        last.lastType = st'.lastType) ∧
      (solve budget).run st'
        = (.ok (), { st' with visited := [], trace := "Solved in 1 pass(es)" :: st'.trace })) ∧
    ∀ s t st', (solve budget).run (st.studying raw) = (.error (.mismatch s t), st') →
      (∃ said mid s' t' last, (attempts budget k).run (st.studying raw) = (.ok said, mid) ∧
        (∀ line ∈ said, line = (TypeFailure.mismatch s t).message) ∧
        (solve budget).run mid = (.error (.mismatch s' t'), last) ∧
        (TypeFailure.mismatch s' t').message = (TypeFailure.mismatch s t).message) ∧
      ∃ s' t' last, (solve budget).run st' = (.error (.mismatch s' t'), last) ∧
        (TypeFailure.mismatch s' t').message = (TypeFailure.mismatch s t).message := by
  have hst := steady_of_infer (Expr.written_of_parse hparse).grounded hinfer
  refine ⟨fun st' hsolve => ?_, fun s t st' hsolve => ?_⟩
  · have hfinished := hst.finished hsolve
    exact ⟨hfinished.pending, hst.attempts_of_ok k le_rfl hsolve, hfinished.solve budget⟩
  · exact ⟨hst.attempts_of_mismatch k le_rfl hsolve, hst.solve_again hsolve⟩

/-- A function that is given itself and a number. -/
private def overworked : Expr := .lambda (.name "x")
  (.list [.apply (.var "x") (.var "x"), .apply (.var "x") (.number (.int 1))])

/-- Whether something has failed for a mismatch. -/
private def mismatched {α : Type} : Except TypeFailure α → Bool
  | .error (.mismatch _ _) => true
  | _ => false

/-- The function is given a number where it was given itself. -/
private theorem exists_mismatch_overworked : ∃ raw st s t st',
    (infer depthLimit overworked).run {} = (.ok raw, st) ∧
      (solve depthLimit).run (st.studying raw) = (.error (.mismatch s t), st') := by
  have hok : ((infer depthLimit overworked).run {}).1.toBool = true := by decide +kernel
  have hfails : mismatched ((typing depthLimit overworked).run {}).1 = true := by decide +kernel
  rw [typing, Run.run_bind] at hfails
  cases hrun : (infer depthLimit overworked).run {} with
  | mk r st =>
    rw [hrun] at hok hfails
    cases r with
    | error f => cases hok
    | ok raw =>
      dsimp only at hfails
      rw [Run.run_bind, Run.run_modify] at hfails
      dsimp only at hfails
      rw [Run.run_bind] at hfails
      cases hsolve : (solve depthLimit).run (st.studying raw) with
      | mk r st' =>
        rw [hsolve] at hfails
        cases r with
        | ok _ => cases hfails
        | error f =>
          cases f with
          | mismatch s t => exact ⟨raw, st, s, t, st', rfl, hsolve⟩
          | _ => cases hfails

/-- A round that fails for a recursive type fails twice, and so does the solving after it. -/
theorem solve_after_attempts_of_overworked : ∃ e raw st s t st',
    Expr.parse "x => [x x, x 1]".toList = .ok e ∧ (infer depthLimit e).run {} = (.ok raw, st) ∧
    (solve depthLimit).run (st.studying raw) = (.error (.mismatch s t), st') ∧
    ∃ said mid s' t' last, (attempts depthLimit 2).run (st.studying raw) = (.ok said, mid) ∧
      (∀ line ∈ said, line = (TypeFailure.mismatch s t).message) ∧
      (solve depthLimit).run mid = (.error (.mismatch s' t'), last) ∧
      (TypeFailure.mismatch s' t').message = (TypeFailure.mismatch s t).message := by
  have hparse : Expr.parse "x => [x x, x 1]".toList = .ok overworked := by rfl
  obtain ⟨raw, st, s, t, st', hinfer, hsolve⟩ := exists_mismatch_overworked
  exact ⟨overworked, raw, st, s, t, st', hparse, hinfer, hsolve,
    ((solve_after_attempts hparse hinfer 2).2 s t st' hsolve).1⟩

end Solver

end RowLang
