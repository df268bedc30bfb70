import RowLang.Expr.Basic

/-!
# Value/Origin — where a value came about

Equal values need not be one and the same value: what tells them apart is their **origin**.  Each
operation of an evaluation is a birth, and what it makes at one go has places in it.  The reading of
a program is a birth as well, in which each part of the program has its place; so a literal is one
value, however often it is evaluated, and so is a label.
-/

namespace RowLang

/-- A birth and a place in what came about then, innermost step first. -/
structure Origin where
  birth : Nat
  place : List Nat := []
  /-- Whether a position was counted and its number written down. -/
  counted : Bool := false
  deriving DecidableEq, Repr, Inhabited

/-- The origin of a part. -/
def Origin.part (o : Origin) (i : Nat) : Origin := { o with place := i :: o.place }

/-- The origin of what was there before any birth. -/
def Origin.before : Origin := { birth := 0 }

/-- The origin of the numeral that counts the position of a part. -/
def Origin.numeral (o : Origin) : Origin := { o with counted := true }

/-- A label as it stands in a program. -/
structure Tag where
  label : Label
  origin : Origin
  deriving Repr, Inhabited

/-- An expression at its place in a program. -/
structure Code where
  origin : Origin
  expr : Expr
  deriving Repr, Inhabited

namespace Code

/-- The expressions that are the parts of another one. -/
def parts (o : Origin) (es : List Expr) : List Code := es.mapIdx fun i e => ⟨o.part i, e⟩

/-- The fields that are the parts of an expression. -/
def fields (o : Origin) (r : Row Expr) : Row Code := r.mapIdx fun i f => (f.1, ⟨o.part i, f.2⟩)

@[simp] theorem map_expr_parts (o : Origin) (es : List Expr) : (parts o es).map (·.expr) = es := by
  apply List.ext_getElem <;> simp [parts]

@[simp] theorem labels_fields (o : Origin) (r : Row Expr) : (fields o r).labels = r.labels := by
  apply List.ext_getElem <;> simp [Row.labels, fields]

theorem expr_mem_of_mem_parts {o : Origin} {es : List Expr} {c : Code} (h : c ∈ parts o es) :
    c.expr ∈ es := by
  rw [← map_expr_parts o es]
  exact List.mem_map_of_mem h

theorem exists_of_mem_fields {o : Origin} {r : Row Expr} {p : Label × Code} (h : p ∈ fields o r) :
    (p.1, p.2.expr) ∈ r := by
  obtain ⟨i, hi, rfl⟩ := List.mem_mapIdx.mp h
  exact List.getElem_mem hi

end Code

/-- **Parts of one origin are told apart by their places.** -/
theorem Origin.part_injective (o : Origin) {i j : Nat} (h : o.part i = o.part j) : i = j := by
  simpa [Origin.part] using h

end RowLang
