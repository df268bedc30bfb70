import RowLang.Proofs.Eval.Runs
import RowLang.Proofs.Lazy.Cells

/-!
# Proofs/Eval/Store — the store keeps what is known of it

Evaluation changes the store in two ways: it puts a record behind the others, which is known from
then on (`runs_allocate`), and it changes the cell of a field, in which only values of the tree of
the field are kept (`runs_updateRow`).  Initializers never change, so what is known of a record
stays so.
-/

namespace RowLang

variable {M : StoreType} {a : Nat} {f : Label → Option Tree} {l : Label} {w : World}

/-- A cell may hold any value of the tree of its field. -/
theorem StoredRecord.Sound.setCell {r : StoredRecord} {c : Cell Value} (h : r.Sound M a f)
    (hc : ∀ v x, c = .ready v → f l = some x → v.HasTree M x) :
    StoredRecord.Sound M a f { r with row := r.row.setCell l c } where
  labels k := by
    rw [LazyRow.labels_setCell]
    exact h.labels k
  typed := by
    obtain ⟨Γ, henv, htyped⟩ := h.typed
    refine ⟨Γ, henv, fun p hp x hx => ?_⟩
    obtain ⟨q, hq, hlabel, hinit, -⟩ := LazyRow.mem_setCell hp
    exact hinit ▸ htyped q hq x (hlabel ▸ hx)
  computed p hp v x hx hv := by
    obtain ⟨q, hq, hlabel, -, hcell | ⟨rfl, hcell⟩⟩ := LazyRow.mem_setCell hp
    · exact h.computed q hq v x (hlabel ▸ hx) (hcell ▸ hv)
    · exact hc v x (hcell ▸ hv) hx

/-- A record of initializers, none of them run. -/
theorem StoredRecord.sound_ofRow {scope : Env} {seesItself : Bool} {row : Row Code}
    {Γ : TreeContext} (hlabels : ∀ l, (f l).isSome ↔ l ∈ Row.labels row)
    (henv : Env.HasTrees M (StoredRecord.inner ⟨scope, seesItself, .ofRow row⟩ a) Γ)
    (htyped : ∀ p ∈ row, ∀ x, f p.1 = some x → p.2.expr.HasTree Γ x) :
    StoredRecord.Sound M a f ⟨scope, seesItself, .ofRow row⟩ where
  labels k := by
    rw [LazyRow.ofRow, Row.labels_mapValues]
    exact hlabels k
  typed := by
    refine ⟨Γ, henv, fun p hp x hx => ?_⟩
    obtain ⟨q, hq, rfl⟩ := LazyRow.mem_ofRow.mp hp
    exact htyped q hq x hx
  computed p hp v x hx hv := by
    obtain ⟨q, -, rfl⟩ := LazyRow.mem_ofRow.mp hp
    cases hv

/-! ## The store -/

/-- A known record may be changed into one of which the same holds. -/
theorem World.Sound.modify {g : StoredRecord → StoredRecord} (hw : w.Sound M)
    (h : ∀ r f, M a = some f → r.Sound M a f → (g r).Sound M a f) :
    World.Sound M { w with records := w.records.modify a g } where
  records b f hb := by
    obtain ⟨r, hr, hsound⟩ := hw.records b f hb
    rw [Array.getElem?_modify]
    split
    case isTrue he =>
      subst he
      exact ⟨g r, by rw [hr]; rfl, h r f hb hsound⟩
    case isFalse => exact ⟨r, hr, hsound⟩
  shared := hw.shared

/-- A new record is known once it is there. -/
theorem World.Sound.push {r : StoredRecord} (hw : w.Sound M)
    (h : ∀ M', M.Le M' → M' w.records.size = some f → r.Sound M' w.records.size f) :
    ∃ M', M.Le M' ∧ M' w.records.size = some f ∧
      World.Sound M' { w with records := w.records.push r } := by
  -- Nothing was known of an address behind the store.
  have hbound : ∀ b g, M b = some g → b ≠ w.records.size := by
    rintro b g hb rfl
    obtain ⟨_, hr, -⟩ := hw.records _ _ hb
    simp at hr
  have hle : M.Le (Function.update M w.records.size (some f)) := fun b g hb => by
    rwa [Function.update_of_ne (hbound b g hb)]
  refine ⟨_, hle, Function.update_self .., ⟨fun b g hb => ?_, hle _ _ hw.shared⟩⟩
  rw [Array.getElem?_push]
  by_cases he : b = w.records.size
  · subst he
    rw [Function.update_self] at hb
    cases hb
    exact ⟨r, if_pos rfl, h _ hle (Function.update_self ..)⟩
  · rw [Function.update_of_ne he] at hb
    obtain ⟨s, hs, hsound⟩ := hw.records b g hb
    exact ⟨s, by rw [if_neg he, hs], hsound.mono hle⟩

namespace Eval

variable {α : Type} {post : StoreType → α → Prop}

/-- **A new record has the closed row of its fields.** -/
theorem runs_allocate {r : StoredRecord}
    (h : ∀ M' a, M.Le M' → M' a = some f → r.Sound M' a f) :
    Runs M (World.allocate r) fun M' v => v.HasTree M' (.closed .record f) := by
  intro w hw
  obtain ⟨M', hle, ha, hw'⟩ := hw.push fun M' hle ha => h M' _ hle ha
  exact ⟨M', hle, hw', .record ha⟩

/-- **A cell may be changed**, if what it holds has the tree of its field. -/
theorem runs_setCell {c : Cell Value} (ha : M a = some f)
    (hc : ∀ v x, c = .ready v → f l = some x → v.HasTree M x) :
    Runs M (World.updateRow a (·.setCell l c)) fun _ _ => True := by
  intro w hw
  refine ⟨M, .refl M, hw.modify fun r g hg hr => ?_, trivial⟩
  rw [ha] at hg
  cases hg
  exact hr.setCell hc

/-- Cleaning up after a failure does not hide it. -/
theorem Runs.orElse {m : Evaluating α} {cleanUp : World → World} (h : Runs M m post) :
    Runs M (tryCatch m fun e => do modify cleanUp; throw e) post := by
  intro w hw
  have hm := h w hw
  rw [Run.run_tryCatch]
  split
  case h_1 x w' hrun => rwa [hrun] at hm
  case h_2 e w' hrun =>
    rw [hrun] at hm
    exact hm

end Eval

end RowLang
