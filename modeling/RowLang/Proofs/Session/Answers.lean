import RowLang.Proofs.Eval.Shown
import RowLang.Session

/-!
# Proofs/Session/Answers — questions are answered

A question about a program is answered with its type or its value, or with the message of a failure.
No answer comes of a question only for what no operator takes the blame for (`Fault.Loose`), for a
value that hides something without a JSON form in a tuple (`World.Hides`), or for an issue too many,
if the report takes no more than the two that a question may post.
-/

namespace RowLang

/-- An answer is a text of some sort, or the message of a failure. -/
def Answer.Tells (P : String → Prop) (a : Answer) : Prop :=
  a.trouble = none ∧ P a.text ∨ ∃ t : Trouble, a = ⟨t.message, some t⟩

namespace Session

variable {s s' : Session} {source : String}

/-- The world in which a question about a value is answered: nothing is reported. -/
def cleared (s : Session) : World := { s.world with report := s.world.report.clear }

/-- The value of a program. -/
def valueOf (root : ImportRoot) (e : Expr) : Evaluating Value := do
  Eval.eval Eval.depthLimit (.ofRoot root) ⟨← World.birth, e⟩

/-- The value of a program, and the text of it. -/
theorem valueText_eq (root : ImportRoot) (e : Expr) :
    valueText root e = valueOf root e >>= Eval.toText := rfl

/-- **What a question about a value comes to.** -/
def EndsEvaluation (s : Session) (source : String) : Except Escape Answer × Session → Prop
  | (.ok a, _) => a.Tells fun text => ∃ e w, Expr.parse source.toList = .ok e ∧
    (valueText s.resolver e).run s.cleared = (.ok text, w)
  | (.error .tooManyIssues, _) => s.world.report.limit = 1 ∨ s.world.report.limit = 2
  | (.error (.fault f), s') => f.Loose ∨ ∃ e v w kind, Expr.parse source.toList = .ok e ∧
    (valueOf s.resolver e).run s.cleared = (.ok v, w) ∧ s'.world.Hides v kind ∧
      f = .notSerializable kind

/-- **What a question about a type comes to.** -/
def EndsTyping (s : Session) : Except Escape Answer × Session → Prop
  | (.ok a, s') => a.Tells fun text => text = (s'.solver.lastType.map Ty.pretty).getD ""
  | (.error .tooManyIssues, _) => s.world.report.limit = 1
  | (.error (.fault f), _) => f.Oversized

/-! ## Complaints -/

section Complaints

variable {P : Except Escape Answer × Session → Prop}

/-- A complaint posts one issue, which may be one too many. -/
theorem run_complain (s : Session) (source : String) (t : Trouble) : (complain source t).run s =
    (if s.world.report.issues.length + 1 = s.world.report.limit then .error .tooManyIssues
      else .ok ⟨t.message, some t⟩,
      { s with world := { s.world with
        report := s.world.report.post (.failure source t.message t.offset? t.hint?) } }) := by
  have hpost : (s.world.report.post (.failure source t.message t.offset? t.hint?)).isFull
      = decide (s.world.report.issues.length + 1 = s.world.report.limit) := by
    simp [Report.isFull, Report.post]
  unfold complain post onReport
  simp only [Run.run_bind, Run.run_modify, Run.run_get, hpost]
  by_cases h : s.world.report.issues.length + 1 = s.world.report.limit
  · simp only [h, decide_true, if_true, Run.run_throw]
  · simp only [h, decide_false, Bool.false_eq_true, if_false, Run.run_pure]

/-- A failure is told, unless its issue is one too many. -/
theorem complain_ends {t : Trouble} (htold : ∀ s', P (.ok ⟨t.message, some t⟩, s'))
    (hmany : s.world.report.issues.length + 1 = s.world.report.limit →
      ∀ s', P (.error .tooManyIssues, s')) : P ((complain source t).run s) := by
  rw [run_complain]
  split
  case isTrue h => exact hmany h _
  case isFalse => exact htold _

/-- A program is read, or it is told why not, unless an integer in it is too long. -/
theorem reading_ends {next : Expr → Acting Answer}
    (hnext : ∀ e, Expr.parse source.toList = .ok e → P ((next e).run s))
    (hfault : ∀ f, f.Oversized → P (.error (.fault f), s))
    (htold : ∀ t, P ((complain source t).run s)) : P ((reading source next).run s) := by
  unfold reading
  split
  case h_1 e he => exact hnext e he
  case h_2 f hf => exact hfault f (Expr.oversized_of_parse hf)
  case h_3 => exact htold _
  case h_4 e _ _ _ => exact htold _

end Complaints

/-- The type under study has a text, unless a label of it is too long. -/
theorem lastType_ends {P : Except Escape Answer × Session → Prop}
    (htext : P (.ok ⟨(s.solver.lastType.map Ty.pretty).getD "", none⟩, s))
    (hfault : ∀ why, P (.error (.fault (.unranked why)), s)) :
    P ((do return ⟨← lastType, none⟩ : Acting Answer).run s) := by
  unfold lastType
  simp only [Run.run_bind, Run.run_get]
  cases hlast : s.solver.lastType with
  | none =>
    rw [hlast] at htext
    exact htext
  | some t =>
    rw [hlast] at htext
    cases h : t.unranked? with
    | none =>
      simp only [h]
      exact htext
    | some why =>
      simp only [h]
      exact hfault why

/-! ## Questions -/

/-- How the text of a program's value fails to be computed. -/
theorem of_valueText_eq_error {root : ImportRoot} {e : Expr} {w w' : World} {failure : Failure}
    (hi : w.report.issues = []) (h : (valueText root e).run w = (.error failure, w')) :
    w'.report.limit = w.report.limit ∧ w'.report.issues.length ≤ 1 ∧
      (failure.Within Fault.Loose w.report.limit ∨ ∃ v w₁ kind,
        (valueOf root e).run w = (.ok v, w₁) ∧ w'.Hides v kind ∧
          failure = .bare (.notSerializable kind)) := by
  have hvalue : Eval.Ends Fault.Loose w (fun _ _ => True) ((valueOf root e).run w) :=
    (Eval.tame_birth.bind fun _ => (Eval.levels _).eval _ _) w w (.refl w) hi
  rw [valueText_eq, Run.run_bind] at h
  cases hrun : (valueOf root e).run w with
  | mk r w₁ =>
    rw [hrun] at h hvalue
    cases r with
    | error f =>
      cases h
      exact ⟨hvalue.1, hvalue.2.1, Or.inl hvalue.2.2⟩
    | ok v =>
      have hreport := hvalue.1.report
      have htext := Eval.writes_toText v (hreport ▸ hi)
      dsimp only at h
      rw [h, Eval.Writes, hreport] at htext
      exact ⟨htext.1, htext.2.1, htext.2.2.imp id fun ⟨kind, hk⟩ => ⟨v, w₁, kind, rfl, hk⟩⟩

theorem run_onWorld {α : Type} (m : Evaluating α) (s : Session) :
    (onWorld m).run s = (.ok (m.run s.world).1, { s with world := (m.run s.world).2 }) := rfl

theorem run_onSolver {α : Type} (m : Solving α) (s : Session) :
    (onSolver m).run s = (.ok (m.run s.solver).1, { s with solver := (m.run s.solver).2 }) := rfl

/-- **A question about a value is answered**, but for what is in `EndsEvaluation`. -/
theorem evaluate_ends (s : Session) (source : String) :
    s.EndsEvaluation source ((evaluate source).run s) := by
  have hclear : (onReport Report.clear).run s = (.ok ⟨⟩, { s with world := s.cleared }) := rfl
  have htold : ∀ (w : World) t, w.report.limit = s.world.report.limit → w.report.issues.length ≤ 1 →
      s.EndsEvaluation source ((complain source t).run { s with world := w }) := by
    intro w t hlimit hissues
    refine complain_ends (fun _ => Or.inr ⟨t, rfl⟩) fun h _ => ?_
    have h : w.report.issues.length + 1 = w.report.limit := h
    show s.world.report.limit = 1 ∨ s.world.report.limit = 2
    omega
  rw [evaluate, Run.run_bind, hclear]
  refine reading_ends (fun e he => ?_) (fun f hf => Or.inl (Or.inl hf)) fun t =>
    htold s.cleared t rfl (Nat.zero_le _)
  simp only [Run.run_bind, Run.run_get, run_onWorld]
  cases hrun : (valueText s.resolver e).run s.cleared with
  | mk r w =>
    cases r with
    | ok text => exact Or.inl ⟨rfl, e, w, he, hrun⟩
    | error failure =>
      obtain ⟨hlimit, hissues, hfailure⟩ := of_valueText_eq_error rfl hrun
      cases failure with
      | bare f =>
        refine hfailure.imp id ?_
        rintro ⟨v, w₁, kind, hv, hkind, hf⟩
        cases hf
        exact ⟨e, v, w₁, kind, he, hv, hkind, rfl⟩
      | tooManyIssues =>
        rcases hfailure with h | ⟨_, _, _, _, _, h⟩
        · exact Or.inl h
        · cases h
      | tooDeep => exact htold w _ hlimit hissues
      | _ => exact htold w _ hlimit hissues

/-- **A question about a type is answered**, but for what is in `EndsTyping`. -/
theorem typeOf_ends (s : Session) (source : String) (solve : Bool) :
    s.EndsTyping ((typeOf source solve).run s) := by
  have hreset : reset.run s = (.ok ⟨⟩, { s with solver := {} }) := rfl
  have hclear : (onReport Report.clear).run { s with solver := {} }
      = (.ok ⟨⟩, { s with world := s.cleared, solver := {} }) := rfl
  have htold : ∀ solver t, s.EndsTyping
      ((complain source t).run { s with world := s.cleared, solver := solver }) := fun _ t =>
    complain_ends (fun _ => Or.inr ⟨t, rfl⟩) fun h _ => h.symm
  rw [typeOf, Run.run_bind, hreset]
  dsimp only
  rw [Run.run_bind, hclear]
  refine reading_ends (fun e he => ?_) (fun f hf => hf) fun t => htold _ t
  rw [Run.run_bind, run_onSolver]
  dsimp only
  split
  case h_1 => exact lastType_ends (Or.inl ⟨rfl, rfl⟩) fun _ => trivial
  case h_2 failure _ =>
    unfold complainOfType
    split
    · exact trivial
    · exact htold _ _
    · exact htold _ _

/-- **Every question is answered**: with the type or the value of the program, or with the message
of what went wrong, but for what is in `EndsEvaluation` and `EndsTyping`. -/
theorem answers (s : Session) (source : String) :
    s.EndsEvaluation source ((evaluate source).run s) ∧
    ∀ solve, s.EndsTyping ((typeOf source solve).run s) :=
  ⟨evaluate_ends s source, typeOf_ends s source⟩

/-- The fault for which there is no answer. -/
def fault? : Except Escape Answer → Option Fault
  | .error (.fault f) => some f
  | _ => none

/-- **A tuple of records is no answer**: two tagged values joined are one. -/
theorem escape_of_joined_records :
    fault? ((evaluate "#a \x7b\x7d + #b \x7b\x7d").run {}).1 = some
      (.notSerializable "LazyRecord") := by
  decide +kernel

end Session

end RowLang
