import RowLang.Proofs.Eval.Scoped
import RowLang.Proofs.Eval.Shown
import RowLang.Typing.Infer

/-!
# Proofs/Eval/Explored — reading a value bit by bit

Whoever has a value may read the fields of the records in it, one after the other and in any order,
and write it as text; each reading computes something and may fail, and the value can be read on
afterwards (`World.Explored`).  If an expression has a type, then neither its evaluation nor any
reading of its value comes upon an unbound name (`Eval.never_unbound`).
-/

namespace RowLang

/-- **What a world may become** when a value is explored: fields are read of the records that it
shows, or it is written as text, whatever comes of that. -/
inductive World.Explored (v : Value) (w : World) : World → Prop
  | unread : Explored v w w
  | field {w' : World} {a : Nat} (depth : Nat) (l : Label) : Explored v w w' →
    w'.Shows v (.record a) →
      Explored v w ((Eval.force depth a l).run w').2
  | text {w' : World} : Explored v w w' → Explored v w ((Eval.toText v).run w').2

variable {K : Nat → Prop} {w w' : World} {u v : Value}

/-- What a scoped value shows is scoped. -/
theorem World.Shows.scoped (h : w.Shows v u) (hw : w.Scoped K) (hv : v.Scoped K) : u.Scoped K := by
  induction h with
  | itself => exact hv
  | payload _ ih =>
    cases hv with
    | tagged hv => exact ih hv
  | entry hmem _ ih =>
    cases hv with
    | list hv => exact ih (hv _ hmem)
  | item hmem _ ih =>
    cases hv with
    | tuple hv => exact ih (hv _ hmem)
  | field haccess _ ih =>
    cases hv with
    | record ha =>
      obtain ⟨i, hslot⟩ := LazyRow.mem_of_access_ready haccess
      obtain ⟨r, -, hscoped, hmem⟩ := hw.exists_of_mem_row ha hslot
      exact ih (hscoped.computed _ hmem _ rfl)

namespace Eval

open Law

theorem keeps_document (depth : Nat) : ∀ (path : List Nat) {v : Value}, v.Scoped K →
    (scoping K).Keeps (document depth path v) fun _ => True := by
  induction depth with
  | zero => exact fun _ _ _ => keeps_throw fun _ he => nomatch he
  | succ depth ih =>
    intro path v hv
    rw [document_succ]
    unfold documentBy
    split
    · cases hv with
      | tagged hv => exact (ih path hv).bind fun _ _ => keeps_pure trivial
    · cases hv with
      | list hv =>
        exact (keeps_mapM fun v hmem => ih path (hv v hmem)).bind fun _ _ => keeps_pure trivial
    · cases hv with
      | record ha =>
        split
        · exact keeps_pure trivial
        · refine keeps_get fun w _ =>
            (keeps_mapM (Q := fun _ => True) fun l _ => ?_).bind fun _ _ =>
            keeps_pure trivial
          exact ((scopedLevels depth).force l ha).bind fun v hv => (ih _ hv).bind fun _ _ =>
            keeps_pure trivial
    · split <;> exact keeps_pure trivial
    · split <;> exact keeps_pure trivial

theorem keeps_toText (hv : v.Scoped K) : (scoping K).Keeps (toText v) fun _ => True :=
  (keeps_document depthLimit [] hv).bind fun _ _ => keeps_faulty fun _ _ => trivial

/-- Whatever is read of a scoped value, the store stays scoped. -/
theorem scoped_of_explored (h : w.Explored v w') (hw : w.Scoped K)
    (hv : v.Scoped K) : w'.Scoped K := by
  induction h with
  | unread => exact hw
  | field depth l _ hshows ih =>
    cases hshows.scoped ih hv with
    | record ha => exact ((scopedLevels depth).force l ha _ ih).holds
  | text _ ih => exact (keeps_toText hv _ ih).holds

/-- The addresses of the records that an evaluation makes, and that of the empty record that all
verdicts share. -/
def OwnRecord (w : World) (a : Nat) : Prop := a = Value.sharedEmpty ∨ w.records.size ≤ a

/-- Before an evaluation none of its records keeps any code. -/
theorem scoped_own (hshared : w.row Value.sharedEmpty = []) : w.Scoped (OwnRecord w) where
  shared := Or.inl rfl
  later _ := Or.inr
  records a r ha hr := by
    have hrow : r.row = [] := by
      rcases ha with rfl | ha
      · rwa [World.row, hr] at hshared
      · rw [Array.getElem?_eq_none ha] at hr
        cases hr
    exact ⟨by simp [hrow], by simp [hrow]⟩

/-- **What has a type comes upon no unbound name**: neither does its evaluation where imports are
refused, nor the reading of any field of its value, nor the writing of the value, however much has
been read before. -/
theorem never_unbound {budget : Nat} {e : Expr} {t : Ty} {solver : Solver}
    (htype : (Solver.infer budget e).run {} = (.ok t, solver)) {w : World}
    (hshared : w.row Value.sharedEmpty = []) (depth : Nat) (here : Origin) :
    (∀ x, ((eval depth (.ofRoot none) ⟨here, e⟩).run w).1 ≠ .error (.unboundName x)) ∧
      ∀ v w', (eval depth (.ofRoot none) ⟨here, e⟩).run w = (.ok v, w') → ∀ w'', w'.Explored v w'' →
        (∀ depth a l x, w''.Shows v (.record a) →
          ((force depth a l).run w'').1 ≠ .error (.unboundName x)) ∧
        ∀ x, ((toText v).run w'').1 ≠ .error (.unboundName x) := by
  have heval := @(scopedLevels depth).eval _ _ ⟨here, e⟩ Env.provides_ofRoot
    (Expr.scoped_of_infer htype) w (scoped_own hshared)
  refine ⟨fun x hx => heval.failure hx x rfl, fun v w' hrun w'' hexplored => ?_⟩
  rw [hrun] at heval
  obtain ⟨hw', -, hv⟩ := heval
  have hw'' := scoped_of_explored hexplored hw' hv
  refine ⟨fun depth a l x hshows hx => ?_, fun x hx => (keeps_toText hv w'' hw'').failure hx x rfl⟩
  cases hshows.scoped hw'' hv with
  | record ha => exact ((scopedLevels depth).force l ha w'' hw'').failure hx x rfl

/-- A function that is taken out of a record, and applied in a field that another field of its
record reads. -/
def lazily : Expr :=
  .bindIn (.row [("a", .name "f")]) (.record [("a", .lambda (.name "x") (.var "x"))])
    (.record [("b", .apply (.var "f") (.number (.int 1))), ("c", .project (.var "this") "b")])

/-- Its fields are read in any order, without coming upon an unbound name. -/
theorem never_unbound_lazily : ∃ t solver a w',
    (Solver.infer Solver.depthLimit lazily).run {} = (.ok t, solver) ∧
    (eval depthLimit (.ofRoot none) ⟨.before, lazily⟩).run {} = (.ok (.record a), w') ∧
    ∀ w'', w'.Explored (.record a) w'' → ∀ l x,
      ((force depthLimit a l).run w'').1 ≠ .error (.unboundName x) := by
  have hok : ((Solver.infer Solver.depthLimit lazily).run {}).1.toBool = true := by decide +kernel
  cases hrun : (Solver.infer Solver.depthLimit lazily).run {} with
  | mk r solver =>
    cases r with
    | error e =>
      rw [hrun] at hok
      cases hok
    | ok t =>
      have hvalue : ((eval depthLimit (.ofRoot none) ⟨.before, lazily⟩).run {}).1
        = .ok (.record 2) := by rfl
      refine ⟨t, solver, 2, _, rfl, Prod.ext hvalue rfl, fun w'' hw'' l x => ?_⟩
      exact ((never_unbound hrun rfl depthLimit .before).2 _ _ (Prod.ext hvalue rfl) w'' hw'').1
        depthLimit 2 l x (.itself _)

end Eval

end RowLang
