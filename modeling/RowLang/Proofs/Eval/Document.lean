import RowLang.Proofs.Eval.Sound
import RowLang.Session

/-!
# Proofs/Eval/Document — a value of some tree can be written

Writing a value computes all the fields of the records in it.  What has a tree holds nothing that
has no JSON form, so that only an integer can be too long to be written (`Document.Writable`).
-/

namespace RowLang

namespace Document

/-- Writing a document fails for no wrong type, however deep it stands. -/
structure Writable (d : Document) : Prop where
  renders : ∀ level, Eval.Yields (fun _ => True) (d.render level)

theorem writable_int (i : Int) : (int i).Writable := by
  refine ⟨fun level => ?_⟩
  rw [render]
  generalize Decimal.writable i = short
  cases short with
  | true => trivial
  | false => exact Eval.yields_error (by decide)

theorem writable_real (x : Binary64) : (real x).Writable := ⟨fun _ => trivial⟩

theorem writable_text (codes : List Nat) : (text codes).Writable := ⟨fun _ => trivial⟩

theorem writable_array {items : List Document} (h : ∀ d ∈ items, d.Writable) :
    (array items).Writable := by
  have hall : ∀ level, Eval.Yields (fun _ => True) (renderAll level items) := by
    intro level
    induction items with
    | nil => trivial
    | cons d ds ih =>
      exact Eval.yields_bind ((h d List.mem_cons_self).renders level) fun _ _ =>
        Eval.yields_bind (ih fun d hd => h d (List.mem_cons_of_mem _ hd)) fun _ _ => trivial
  exact ⟨fun level => Eval.yields_bind (hall (level + 1)) fun _ _ => trivial⟩

theorem writable_object {fields : List (Label × Document)} (h : ∀ p ∈ fields, p.2.Writable) :
    (object fields).Writable := by
  have hall : ∀ level, Eval.Yields (fun _ => True) (renderFields level fields) := by
    intro level
    induction fields with
    | nil => trivial
    | cons p fields ih =>
      exact Eval.yields_bind ((h p List.mem_cons_self).renders level) fun _ _ =>
        Eval.yields_bind (ih fun q hq => h q (List.mem_cons_of_mem _ hq)) fun _ _ => trivial
  exact ⟨fun level => Eval.yields_bind (hall (level + 1)) fun _ _ => trivial⟩

end Document

namespace Eval

open Document

variable {M : StoreType} {v : Value} {x : Tree}

theorem lasting_const {α : Type} (P : α → Prop) : Lasting fun _ => P := fun _ _ _ h _ => h

/-- **A value of some tree becomes a document that can be written.** -/
theorem runs_document (depth : Nat) : ∀ {M : StoreType} {path : List Nat} {v : Value} {x : Tree},
    v.HasTree M x → Runs M (document depth path v) fun _ d => d.Writable := by
  induction depth with
  | zero => exact fun _ => runs_throw trivial
  | succ depth ih =>
    intro M path v x hv
    cases hv with
    | int => exact runs_pure (writable_int _)
    | text => exact runs_pure (writable_text _)
    | operator | waiting | tagger | closure | dispatcher => exact runs_pure (writable_text _)
    | real =>
      rw [document_succ, documentBy]
      split
      · exact runs_pure (writable_int _)
      · exact runs_pure (writable_real _)
    | list hitems =>
      exact (runs_mapM (lasting_const Document.Writable) fun w hw M' hM =>
        ih ((hitems w hw).mono hM)).bind fun M₁ ds _ hds => runs_pure (writable_array hds)
    | tagged hf hpayload =>
      refine (ih hpayload).bind fun M₁ d _ hd => runs_pure (writable_array fun e he => ?_)
      rcases List.mem_pair.mp he with rfl | rfl
      · exact writable_text _
      · exact hd
    | @record a f ha =>
      rw [document_succ, documentBy]
      split
      · exact runs_pure (writable_text _)
      refine runs_get fun w hw => ?_
      obtain ⟨r, -, hrow, hr⟩ := row_of_sound hw ha
      rw [hrow]
      refine (runs_mapM (lasting_const fun p => p.2.Writable) fun l hl M' hM => ?_).bind
        fun M₁ ps _ hps => runs_pure (writable_object hps)
      obtain ⟨t, ht⟩ := Option.isSome_iff_exists.mp ((hr.labels l).mpr hl)
      exact ((sound depth).force (hM _ _ ha) ht).bind fun M₁ w _ hw => (ih hw).bind
        fun M₂ d _ hd => runs_pure hd

/-- Writing a value of some tree as text. -/
theorem runs_toText (h : v.HasTree M x) : Runs M (toText v) fun _ _ => True :=
  (runs_document depthLimit h).bind fun _ _ _ hd =>
    runs_faulty (yields_bind (hd.renders 0) fun _ _ => trivial)

/-- **A program that has a tree does not go wrong**, nor does the writing of its value. -/
theorem runs_valueText (root : ImportRoot) {e : Expr} (h : e.HasTree [] x) :
    Runs M (Session.valueText root e) fun _ _ => True := by
  refine runs_birth fun origin => ?_
  have henv : Env.HasTrees M (.ofRoot root) [] := fun n y hy => by cases hy
  exact ((sound depthLimit).eval (c := ⟨origin, e⟩) henv h).bind fun _ _ _ hv => runs_toText hv

end Eval

end RowLang
