import RowLang.Proofs.Expr.Spelling
import RowLang.Proofs.Pattern.Printed
import RowLang.Proofs.Ty.RoundTrip

/-!
# Proofs/Expr/Shown — what the text of an expression shows of it

The text of an expression shows its types and patterns as theirs do, and a variable by its name
alone: where that is the word of an operator, the text shows the operator (`Expr.shown`).  A name
alone between braces can be such a word, and nothing else can, so an expression is what its text
shows just if no variable of it is called like an operator (`Expr.Legible.same_shown_iff`).  The
function of a projection is not spelled out, so its variable does not count.
-/

namespace RowLang

namespace Expr

mutual

/-- An expression as its text shows it. -/
@[grind] def shown : Expr → Expr
  | var x => ofWord x
  | lambda p body => lambda p.shown (shown body)
  | apply fn arg => apply (match projectedLabel? fn with
      | some _ => fn
      | none => shown fn) (shown arg)
  | list elts => list (shownAll elts)
  | record fields => record (shownFields fields)
  | tuple items => tuple (shownAll items)
  | dispatch handlers => dispatch (shownFields handlers)
  | ascribe declared e => ascribe declared.shown (shown e)
  | bindIn p bound body => bindIn p.shown (shown bound) (shown body)
  | e => e

/-- Several expressions as their texts show them. -/
@[grind] def shownAll : List Expr → List Expr
  | [] => []
  | e :: es => shown e :: shownAll es

/-- Fields as their texts show them. -/
@[grind] def shownFields : List (Label × Expr) → Row Expr
  | [] => []
  | (l, e) :: fields => (l, shown e) :: shownFields fields

end

mutual

/-- The variables in an expression, those of projections aside. -/
@[grind] def vars : Expr → List String
  | var x => [x]
  | lambda _ body => vars body
  | apply fn arg => (match projectedLabel? fn with
      | some _ => []
      | none => vars fn) ++ vars arg
  | list elts => varsOfAll elts
  | record fields => varsOfFields fields
  | tuple items => varsOfAll items
  | dispatch handlers => varsOfFields handlers
  | ascribe _ e => vars e
  | bindIn _ bound body => vars bound ++ vars body
  | _ => []

/-- The variables in several expressions. -/
@[grind] def varsOfAll : List Expr → List String
  | [] => []
  | e :: es => vars e ++ varsOfAll es

/-- The variables in the fields. -/
@[grind] def varsOfFields : List (Label × Expr) → List String
  | [] => []
  | (_, e) :: fields => vars e ++ varsOfFields fields

end

theorem shownAll_eq (es : List Expr) : shownAll es = es.map shown := by
  induction es with
  | nil => rfl
  | cons e es ih => exact congrArg (shown e :: ·) ih

theorem shownFields_eq (fields : Row Expr) : shownFields fields = Row.mapValues shown fields := by
  induction fields with
  | nil => rfl
  | cons p fields ih => exact congrArg ((p.1, shown p.2) :: ·) ih

/-- The variables of expressions are those of each one. -/
theorem mem_varsOfAll {es : List Expr} {x : String} :
    x ∈ varsOfAll es ↔ ∃ e ∈ es, x ∈ e.vars := by
  induction es with
  | nil => simp [varsOfAll]
  | cons e es ih => simp [varsOfAll, ih]

/-- The variables of fields are those of each one. -/
theorem mem_varsOfFields {fields : Row Expr} {x : String} :
    x ∈ varsOfFields fields ↔ ∃ p ∈ fields, x ∈ p.2.vars := by
  induction fields with
  | nil => simp [varsOfFields]
  | cons p fields ih => simp [varsOfFields, ih]

/-! ## Short forms -/

/-- A projection shows what its subject shows. -/
theorem shown_project (e : Expr) (l : Label) : (e.project l).shown = e.shown.project l := by
  rw [project, shown, projectedLabel?_projection, project]

theorem shown_binary (o : Operator)
    (a b : Expr) : (binary o a b).shown = binary o a.shown b.shown := rfl

/-- Any other application shows what its parts show. -/
theorem shown_apply {fn arg : Expr} (h : projectedLabel? fn = none) :
    (apply fn arg).shown = apply fn.shown arg.shown := by
  rw [shown, h]

/-- A text shows all of itself. -/
theorem shown_text (cs : List Char) : (list (cs.map char)).shown = list (cs.map char) := by
  rw [shown, shownAll_eq, List.map_map]
  rfl

/-- The variable of a projection is not spelled out. -/
theorem vars_project (e : Expr) (l : Label) : (e.project l).vars = e.vars := by
  rw [project, vars, projectedLabel?_projection, List.nil_append]

theorem vars_binary (o : Operator) (a b : Expr) :
    (binary o a b).vars = a.vars ++ b.vars := by
  show [] ++ (a.vars ++ (b.vars ++ [])) = _
  rw [List.nil_append, List.append_nil]

theorem vars_apply {fn arg : Expr} (h : projectedLabel? fn = none) :
    (apply fn arg).vars = fn.vars ++ arg.vars := by
  rw [vars, h]

theorem vars_text (cs : List Char) : (list (cs.map char)).vars = [] := by
  rw [List.eq_nil_iff_forall_not_mem]
  intro x hx
  obtain ⟨e, he, hx⟩ := mem_varsOfAll.mp hx
  obtain ⟨c, -, rfl⟩ := List.mem_map.mp he
  exact absurd hx List.not_mem_nil

/-! ## Equality up to the order of fields -/

/-- A list is the same as the list of its shown items just if each item is. -/
theorem sameAll_map_iff {es : List Expr} {f : Expr → Expr} :
    sameAll es (es.map f) = true ↔ ∀ e ∈ es, e.same (f e) = true := by
  induction es with
  | nil => simp [sameAll]
  | cons e es ih => simp [sameAll, ih]

/-- Fields are the same as the shown ones just if each field is. -/
theorem sameFields_mapValues_iff {fields : Row Expr} (hfields : fields.Distinct) {f : Expr → Expr} :
    sameFields fields (Row.mapValues f fields) = true ↔ ∀ p ∈ fields, p.2.same (f p.2) = true := by
  have hpart : ∀ {part : Row Expr}, (∀ p ∈ part, p ∈ fields) →
      (sameFields part (Row.mapValues f fields) = true ↔ ∀ p ∈ part, p.2.same (f p.2) = true) := by
    intro part hmem
    induction part with
    | nil => simp [sameFields]
    | cons p part ih =>
      rw [sameFields, Row.lookup_mapValues, hfields.lookup_of_mem (hmem p List.mem_cons_self),
        Bool.and_eq_true, ih fun q hq => hmem q (List.mem_cons_of_mem _ hq), List.forall_mem_cons]
      rfl
  exact hpart fun _ h => h

theorem same_record_iff {fields : Row Expr} (hfields : fields.Distinct) :
    (record fields).same (record fields).shown = true ↔
      ∀ p ∈ fields, p.2.same p.2.shown = true := by
  rw [shown, shownFields_eq, same, Row.length_mapValues, decide_eq_true rfl, Bool.true_and,
    sameFields_mapValues_iff hfields]

theorem same_dispatch_iff {handlers : Row Expr} (hhandlers : handlers.Distinct) :
    (dispatch handlers).same (dispatch handlers).shown = true ↔
      ∀ p ∈ handlers, p.2.same p.2.shown = true := by
  rw [shown, shownFields_eq, same, Row.length_mapValues, decide_eq_true rfl, Bool.true_and,
    sameFields_mapValues_iff hhandlers]

theorem same_list_iff {elts : List Expr} :
    (list elts).same (list elts).shown = true ↔ ∀ e ∈ elts, e.same e.shown = true := by
  rw [shown, shownAll_eq, same, sameAll_map_iff]

theorem same_tuple_iff {items : List Expr} :
    (tuple items).same (tuple items).shown = true ↔ ∀ e ∈ items, e.same e.shown = true := by
  rw [shown, shownAll_eq, same, sameAll_map_iff]

/-- A function of a projection is the same as itself. -/
theorem same_projection (l : Label) :
    (lambda (.row [(l, .name (projectionName l))]) (var (projectionName l))).same
      (lambda (.row [(l, .name (projectionName l))]) (var (projectionName l))) = true := by
  simp [same, Pattern.same, Pattern.sameFields]

/-- A projection is what it shows just if its subject is. -/
theorem same_project_iff {e : Expr} {l : Label} :
    (e.project l).same (e.project l).shown = true ↔ e.same e.shown = true := by
  rw [shown_project, project, project, same, same_projection, Bool.true_and]

theorem same_binary_iff {o : Operator} {a b : Expr} :
    (binary o a b).same (binary o a b).shown = true ↔ a.same a.shown = true ∧
      b.same b.shown = true := by
  rw [shown_binary, binary, binary]
  simp [same, sameAll]

theorem same_apply_iff {fn arg : Expr} (h : projectedLabel? fn = none) :
    (apply fn arg).same (apply fn arg).shown = true ↔
      fn.same fn.shown = true ∧ arg.same arg.shown = true := by
  rw [shown_apply h, same, Bool.and_eq_true]

/-- **A variable is what it shows** just if it is not called like an operator. -/
theorem same_var_iff {x : String} :
    (var x).same (var x).shown = true ↔ Operator.ofWord? x = none := by
  rw [shown, ofWord]
  split
  case h_1 o h => simp [same, h]
  case h_2 h => simp [same, h]

end Expr

/-- A number that a text denotes equals itself, since it is not undefined. -/
theorem Numeral.Written.same_self {n : Numeral} (h : n.Written) : n.same n = true := by
  cases n with
  | int i => exact decide_eq_true rfl
  | real x =>
    cases x with
    | finite => simp [same, Binary64.compare?]
    | infinite | undefined => cases h

namespace Expr

/-- **A legible expression is what its text shows of it** just if no variable of it is called like
an operator. -/
theorem Legible.same_shown_iff {e : Expr} (h : e.Legible) :
    e.same e.shown = true ↔ ∀ x ∈ e.vars, Operator.ofWord? x = none := by
  have hall : ∀ {es : List Expr}, (∀ e ∈ es, (e.same e.shown = true ↔ ∀ x ∈ e.vars,
      Operator.ofWord? x = none)) → ((∀ e ∈ es, e.same e.shown = true) ↔ ∀ x ∈ varsOfAll es,
        Operator.ofWord? x = none) := fun ih => by
    simp only [mem_varsOfAll, forall_exists_index, and_imp]
    exact ⟨fun h x e he hx => (ih e he).mp (h e he) x hx,
      fun h e he => (ih e he).mpr fun x hx => h x e he hx⟩
  have hfields : ∀ {fields : Row Expr}, (∀ p ∈ fields, (p.2.same p.2.shown = true ↔ ∀ x ∈ p.2.vars,
      Operator.ofWord? x = none)) → ((∀ p ∈ fields, p.2.same p.2.shown = true) ↔
        ∀ x ∈ varsOfFields fields, Operator.ofWord? x = none) := fun ih => by
    simp only [mem_varsOfFields, forall_exists_index, and_imp]
    exact ⟨fun h x p hp hx => (ih p hp).mp (h p hp) x hx,
      fun h p hp => (ih p hp).mpr fun x hx => h x p hp hx⟩
  have hboth : ∀ {xs ys : List String} {p q : Prop}, (p ↔ ∀ x ∈ xs, Operator.ofWord? x = none) →
      (q ↔ ∀ x ∈ ys, Operator.ofWord? x = none) →
        (p ∧ q ↔ ∀ x ∈ xs ++ ys, Operator.ofWord? x = none) := fun hp hq =>
    (and_congr hp hq).trans List.forall_mem_append.symm
  induction h with
  | number hn => simp [shown, same, vars, hn.same_self]
  | char => simp [shown, same, vars]
  | var => rw [same_var_iff, vars, List.forall_mem_singleton]
  | op => simp [shown, same, vars]
  | lambda hp _ ih =>
    rw [shown, same, hp.same_shown, Bool.true_and, vars]
    exact ih
  | project _ _ ih =>
    rw [same_project_iff, vars_project]
    exact ih
  | binary _ _ _ iha ihb =>
    rw [same_binary_iff, vars_binary]
    exact hboth iha ihb
  | apply hp _ _ _ ihf iha =>
    rw [same_apply_iff hp, vars_apply hp]
    exact hboth ihf iha
  | @text cs =>
    rw [vars_text, same_list_iff]
    simp [shown, same]
  | list _ _ ih => exact same_list_iff.trans (hall ih)
  | record hdistinct _ _ ih => exact (same_record_iff hdistinct).trans (hfields ih)
  | tuple _ _ ih => exact same_tuple_iff.trans (hall ih)
  | dispatch hdistinct _ _ ih => exact (same_dispatch_iff hdistinct).trans (hfields ih)
  | tag => simp [shown, same, vars]
  | load => simp [shown, same, vars]
  | ascribe ht _ ih =>
    rw [shown, same, ht.same_shown, Bool.true_and, vars]
    exact ih
  | andThen _ _ ihb ihe =>
    rw [shown, same, Pattern.shown, Pattern.same, Bool.true_and, Bool.and_eq_true, vars]
    exact hboth ihb ihe
  | bindIn hp _ _ _ ihb ihe =>
    rw [shown, same, hp.same_shown, Bool.true_and, Bool.and_eq_true, vars]
    exact hboth ihb ihe

end Expr

end RowLang
