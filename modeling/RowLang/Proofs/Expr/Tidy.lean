import RowLang.Expr.Basic
import RowLang.Proofs.Row.Sorted
import RowLang.Proofs.Ty.Tidy

/-!
# Proofs/Expr/Tidy — expressions whose rows are mappings

Induction on patterns and expressions with one hypothesis for all their fields (`Pattern.inductOn`,
`Expr.inductOn`).  An expression is `Tidy` when no row in it has a label twice and all its labels
are words, as the grammar makes them; `Unascribed` when it declares no type; `Selfcontained` when it
loads no module.
-/

namespace RowLang

/-! ## Induction -/

/-- **Induction on patterns**: the fields of a row are all smaller than it. -/
@[elab_as_elim]
theorem Pattern.inductOn {motive : Pattern → Prop} (name : ∀ x, motive (.name x))
    (wildcard : motive .wildcard)
    (row : ∀ fields, (∀ p ∈ fields, motive p.2) → motive (.row fields)) (p : Pattern) : motive p :=
  @Pattern.rec motive (fun fields => ∀ p ∈ fields, motive p.2) (fun p => motive p.2)
    name wildcard row
    (fun _ h => absurd h List.not_mem_nil)
    (fun _ _ hp hfields q hq => (List.mem_cons.mp hq).elim (fun h => h ▸ hp) (hfields q))
    (fun _ _ h => h) p

/-- **Induction on expressions**: elements, items, fields and handlers are all smaller. -/
@[elab_as_elim]
theorem Expr.inductOn {motive : Expr → Prop} (number : ∀ n, motive (.number n))
    (char : ∀ c, motive (.char c)) (var : ∀ x, motive (.var x)) (op : ∀ o, motive (.op o))
    (lambda : ∀ p body, motive body → motive (.lambda p body))
    (apply : ∀ fn arg, motive fn → motive arg → motive (.apply fn arg))
    (list : ∀ elts, (∀ e ∈ elts, motive e) → motive (.list elts))
    (record : ∀ fields, (∀ f ∈ fields, motive f.2) → motive (.record fields))
    (tuple : ∀ items, (∀ e ∈ items, motive e) → motive (.tuple items))
    (dispatch : ∀ handlers, (∀ h ∈ handlers, motive h.2) → motive (.dispatch handlers))
    (tag : ∀ l, motive (.tag l)) (load : ∀ name, motive (.load name))
    (ascribe : ∀ declared e, motive e → motive (.ascribe declared e))
    (bindIn : ∀ p bound body, motive bound → motive body → motive (.bindIn p bound body))
    (e : Expr) : motive e :=
  @Expr.rec motive (fun es => ∀ e ∈ es, motive e) (fun fields => ∀ f ∈ fields, motive f.2)
    (fun f => motive f.2) number char var op lambda apply list record tuple dispatch tag
      load ascribe
    bindIn
    (fun _ h => absurd h List.not_mem_nil)
    (fun _ _ hp hes e he => (List.mem_cons.mp he).elim (fun h => h ▸ hp) (hes e))
    (fun _ h => absurd h List.not_mem_nil)
    (fun _ _ hp hfields f hf => (List.mem_cons.mp hf).elim (fun h => h ▸ hp) (hfields f))
    (fun _ _ h => h) e

/-! ## Tidy expressions -/

/-- Positions are distinct words. -/
theorem Row.tidy_positional {α : Type} (xs : List α) : Row.Tidy (Row.positional xs) := by
  constructor
  · rw [Row.Distinct, Row.labels_positional]
    exact List.nodup_range.map Row.position_injective
  · intro l hl
    rw [Row.labels_positional] at hl
    obtain ⟨i, -, rfl⟩ := List.mem_map.mp hl
    rw [Label.Plain, Row.position, Decimal.natText, String.toList_ofList]
    exact ⟨by simp [Decimal.natChars, Nat.toDigits_ne_nil],
      fun c hc => Or.inr (Decimal.isDigit_natChars c hc)⟩

namespace Pattern

mutual

/-- The rows of a pattern are tidy. -/
def Tidy : Pattern → Prop
  | row fields => Row.Tidy fields ∧ TidyFields fields
  | _ => True

/-- The rows of the fields are tidy. -/
def TidyFields : List (Label × Pattern) → Prop
  | [] => True
  | (_, p) :: fields => Tidy p ∧ TidyFields fields

end

mutual

/-- The labels in a pattern. -/
def labels : Pattern → Finset Label
  | row fields => Row.domain fields ∪ labelsOfFields fields
  | _ => ∅

/-- The labels in the patterns of the fields. -/
def labelsOfFields : List (Label × Pattern) → Finset Label
  | [] => ∅
  | (_, p) :: fields => labels p ∪ labelsOfFields fields

end

end Pattern

namespace Expr

mutual

/-- The rows of an expression are tidy, and its tags are words. -/
def Tidy : Expr → Prop
  | lambda p body => p.Tidy ∧ Tidy body
  | apply fn arg => Tidy fn ∧ Tidy arg
  | list elts => TidyAll elts
  | record fields => Row.Tidy fields ∧ TidyFields fields
  | tuple items => TidyAll items
  | dispatch handlers => Row.Tidy handlers ∧ TidyFields handlers
  | tag l => Label.Plain l
  | ascribe _ e => Tidy e
  | bindIn p bound body => p.Tidy ∧ Tidy bound ∧ Tidy body
  | _ => True

/-- The rows of all the expressions are tidy. -/
def TidyAll : List Expr → Prop
  | [] => True
  | e :: es => Tidy e ∧ TidyAll es

/-- The rows of the fields are tidy. -/
def TidyFields : List (Label × Expr) → Prop
  | [] => True
  | (_, e) :: fields => Tidy e ∧ TidyFields fields

end

mutual

/-- The labels in an expression, with the positions of its tuples. -/
def labels : Expr → Finset Label
  | lambda p body => p.labels ∪ labels body
  | apply fn arg => labels fn ∪ labels arg
  | list elts => labelsOfAll elts
  | record fields => Row.domain fields ∪ labelsOfFields fields
  | tuple items => Row.domain (Row.positional items) ∪ labelsOfAll items
  | dispatch handlers => Row.domain handlers ∪ labelsOfFields handlers
  | tag l => {l}
  | ascribe _ e => labels e
  | bindIn p bound body => p.labels ∪ (labels bound ∪ labels body)
  | _ => ∅

/-- The labels in all the expressions. -/
def labelsOfAll : List Expr → Finset Label
  | [] => ∅
  | e :: es => labels e ∪ labelsOfAll es

/-- The labels in the expressions of the fields. -/
def labelsOfFields : List (Label × Expr) → Finset Label
  | [] => ∅
  | (_, e) :: fields => labels e ∪ labelsOfFields fields

end

mutual

/-- An expression that declares no type. -/
def Unascribed : Expr → Prop
  | lambda _ body => Unascribed body
  | apply fn arg => Unascribed fn ∧ Unascribed arg
  | list elts => UnascribedAll elts
  | record fields => UnascribedFields fields
  | tuple items => UnascribedAll items
  | dispatch handlers => UnascribedFields handlers
  | ascribe _ _ => False
  | bindIn _ bound body => Unascribed bound ∧ Unascribed body
  | _ => True

/-- Expressions that declare no types. -/
def UnascribedAll : List Expr → Prop
  | [] => True
  | e :: es => Unascribed e ∧ UnascribedAll es

/-- Fields that declare no types. -/
def UnascribedFields : List (Label × Expr) → Prop
  | [] => True
  | (_, e) :: fields => Unascribed e ∧ UnascribedFields fields

end

mutual

/-- An expression that loads no module. -/
def Selfcontained : Expr → Prop
  | lambda _ body => Selfcontained body
  | apply fn arg => Selfcontained fn ∧ Selfcontained arg
  | list elts => SelfcontainedAll elts
  | record fields => SelfcontainedFields fields
  | tuple items => SelfcontainedAll items
  | dispatch handlers => SelfcontainedFields handlers
  | load _ => False
  | ascribe _ e => Selfcontained e
  | bindIn _ bound body => Selfcontained bound ∧ Selfcontained body
  | _ => True

/-- Expressions that load no module. -/
def SelfcontainedAll : List Expr → Prop
  | [] => True
  | e :: es => Selfcontained e ∧ SelfcontainedAll es

/-- Fields that load no module. -/
def SelfcontainedFields : List (Label × Expr) → Prop
  | [] => True
  | (_, e) :: fields => Selfcontained e ∧ SelfcontainedFields fields

end

end Expr

end RowLang
