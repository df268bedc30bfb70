import RowLang.Proofs.Ty.Chain

/-!
# Proofs/Ty/Merged — when chains of rows are merged does not matter

Substitution may lengthen a chain of rows at its end, wherever the chain stands.  To merge rows is
associative (`prependRow_prependRow`), so that the result is the same whether the chain is merged
before as well or only afterwards (`flatten_substitute_flatten`).  The merged row has, for each
label, the type in the deepest row of the chain that has the label, and behind it stands what stood
behind the chain (`exists_flatten_row_eq`).
-/

namespace RowLang.Ty

variable {k : RowKind} {fields others : Row Ty} {tail : Ty} {σ : Subst}

theorem flatten_row (k : RowKind) (fields : Row Ty) (tail : Ty) : (row k fields tail).flatten
    = prependRow k (Row.mapValues flatten fields) tail.flatten := by
  rw [flatten, flattenFields_eq_map]

theorem substitute_row (σ : Subst) (k : RowKind) (fields : Row Ty) (tail : Ty) :
    (row k fields tail).substitute σ
      = row k (Row.mapValues (substitute σ) fields) (tail.substitute σ) := by
  rw [substitute, substituteFields_eq_map]

/-! ## Merging two rows -/

theorem prependRow_row : prependRow k fields (row k others tail) = row k
    (fields.setAll others) tail := by
  rw [prependRow, if_pos rfl, Row.union_eq_setAll]

theorem prependRow_of_ne (h : ∀ inner rest, tail ≠ row k inner rest) :
    prependRow k fields tail = row k fields tail := by
  cases tail with
  | row k' inner rest => rw [prependRow, if_neg fun hk => h inner rest (by rw [hk])]
  | _ => rfl

/-- Two rows in front of a type are in front of it as one. -/
theorem prependRow_prependRow (h : Row.Distinct others) :
    prependRow k fields (prependRow k others tail) = prependRow k (fields.setAll others) tail := by
  by_cases htail : ∃ inner rest, tail = row k inner rest
  · obtain ⟨inner, rest, rfl⟩ := htail
    rw [prependRow_row, prependRow_row, prependRow_row, Row.setAll_setAll h]
  · have hne : ∀ inner rest, tail ≠ row k inner rest := fun inner rest he => htail ⟨inner, rest, he⟩
    rw [prependRow_of_ne hne, prependRow_row, prependRow_of_ne hne]

/-! ## Before and after a substitution -/

/-- A row that was merged with its tail comes, with variables replaced and chains merged, to the row
in front of what the tail comes to. -/
theorem flatten_substitute_prependRow (htail : tail.Distinct) :
    ((prependRow k fields tail).substitute σ).flatten
      = prependRow k (Row.mapValues flatten (Row.mapValues (substitute σ) fields))
        (tail.substitute σ).flatten := by
  by_cases hrow : ∃ inner rest, tail = row k inner rest
  · obtain ⟨inner, rest, rfl⟩ := hrow
    have hinner := (((distinct_row.mp htail).1).mapValues (substitute σ)).mapValues flatten
    rw [prependRow_row, substitute_row, substitute_row, flatten_row, flatten_row,
      prependRow_prependRow hinner, Row.setAll_mapValues, Row.setAll_mapValues]
  · rw [prependRow_of_ne fun inner rest he => hrow ⟨inner, rest, he⟩, substitute_row, flatten_row]

/-- **Chains that substitution lengthens may be merged before it as well.** -/
theorem flatten_substitute_flatten {t : Ty} (h : t.Distinct) : ∀ σ : Subst,
    (t.flatten.substitute σ).flatten = (t.substitute σ).flatten := by
  induction t using inductOn with
  | number | char | unit | empty | var => intro σ; rw [flatten]
  | arrow a b iha ihb => intro σ; simp only [flatten, substitute, iha h.1, ihb h.2]
  | list t ih => intro σ; simp only [flatten, substitute, ih h]
  | bind b n body ih => intro σ; simp only [flatten, substitute, ih h]
  | row k fields tail ihf iht =>
    intro σ
    obtain ⟨-, hf, ht⟩ := distinct_row.mp h
    have hfields : Row.mapValues flatten
      (Row.mapValues (substitute σ) (Row.mapValues flatten fields))
        = Row.mapValues flatten (Row.mapValues (substitute σ) fields) := by
      simp only [Row.mapValues, List.map_map]
      exact List.map_congr_left fun p hp => congrArg (Prod.mk p.1) (ihf p hp (hf p hp) σ)
    rw [flatten_row, flatten_substitute_prependRow ht.flatten, hfields, iht ht, substitute_row,
      flatten_row]

/-- A flat type stays flat when a variable is put in for another one. -/
theorem flat_substitute_var {t : Ty} (h : t.Flat) :
    ∀ {σ : Subst}, (∀ v u, σ.lookup v = some u → ∃ m, u = var m) → (t.substitute σ).Flat := by
  induction t using inductOn with
  | number | char | unit | empty => intro σ _; simp [substitute, Flat, EachRow]
  | var v =>
    intro σ hσ
    rw [substitute]
    cases hv : List.lookup v σ with
    | none => trivial
    | some u =>
      obtain ⟨m, rfl⟩ := hσ v u hv
      trivial
  | arrow a b iha ihb => intro σ hσ; rw [substitute]; exact ⟨iha h.1 hσ, ihb h.2 hσ⟩
  | list t ih => intro σ hσ; rw [substitute]; exact ih h hσ
  | bind b q body ih =>
    intro σ hσ
    rw [substitute]
    refine ih h fun v u hu => ?_
    rw [lookup_filter_ne] at hu
    split at hu
    case isTrue => cases hu
    case isFalse => exact hσ v u hu
  | row k fields tail ihf iht =>
    intro σ hσ
    obtain ⟨htail, hf, ht⟩ := flat_row.mp h
    rw [substitute_row]
    refine flat_row.mpr ⟨fun inner rest he => ?_, fun q hq => ?_, iht ht hσ⟩
    · -- A variable comes to a variable, and what is no row comes to no row.
      cases tail with
      | row k' others tail' =>
        rw [substitute_row] at he
        cases he
        exact htail _ _ rfl
      | var v =>
        rw [substitute] at he
        cases hv : List.lookup v σ with
        | none => rw [hv] at he; cases he
        | some u =>
          obtain ⟨m, rfl⟩ := hσ v u hv
          rw [hv] at he
          cases he
      | _ => rw [substitute] at he; cases he
    · obtain ⟨p, hp, rfl⟩ := Row.mem_mapValues.mp hq
      exact ihf p hp (hf p hp) hσ

/-- A variable put in for another one lengthens no chain. -/
theorem flatten_substitute_var {t : Ty} (h : t.Distinct) {n m : Nat} :
    (t.substitute [(n, var m)]).flatten = t.flatten.substitute [(n, var m)] := by
  rw [← flatten_substitute_flatten h]
  refine (flat_substitute_var (flat_flatten t) fun v u hu => ?_).flatten_eq_self
  rw [Row.lookup_single] at hu
  split at hu <;> cases hu
  exact ⟨m, rfl⟩

/-! ## What a merged chain has -/

/-- The rows of a kind that follow one another, the outermost first. -/
def links (k : RowKind) : Ty → List (Row Ty)
  | row k' fields tail => if k = k' then fields :: links k tail else []
  | _ => []

/-- The first type behind the rows of a kind that is no row of it. -/
def chainEnd (k : RowKind) : Ty → Ty
  | row k' fields tail => if k = k' then chainEnd k tail else row k' fields tail
  | t => t

/-- The type that the deepest of some rows has for a label. -/
def deepest? (rows : List (Row Ty)) (l : Label) : Option Ty := rows.reverse.findSome? (Row.get? · l)

theorem deepest?_cons (rows : List (Row Ty)) (l : Label) :
    deepest? (fields :: rows) l = (deepest? rows l).or (fields.lookup l) := by
  rw [deepest?, deepest?, List.reverse_cons, List.findSome?_append, List.findSome?_singleton]
  rfl

/-- What stands behind a chain does not go on with it. -/
theorem chainEnd_ne_row (k : RowKind) (t : Ty) (inner : Row Ty) (rest : Ty) :
    chainEnd k t ≠ row k inner rest := by
  induction t using inductOn with
  | row k' fields tail _ iht =>
    rw [chainEnd]
    split
    case isTrue => exact iht
    case isFalse hk => exact fun he => hk (by cases he; rfl)
  | _ => exact fun he => by cases he

theorem exists_prependRow_eq (k : RowKind) (fields : Row Ty) (tail : Ty) :
    ∃ merged rest, prependRow k fields tail = row k merged rest := by
  by_cases htail : ∃ inner rest, tail = row k inner rest
  · obtain ⟨inner, rest, rfl⟩ := htail
    exact ⟨_, _, prependRow_row⟩
  · exact ⟨_, _, prependRow_of_ne fun inner rest he => htail ⟨inner, rest, he⟩⟩

/-- A row in front of a chain, with the chain merged: the labels of the chain have its types. -/
theorem exists_prependRow_flatten_eq {t : Ty} (h : t.Distinct) : ∀ {fields : Row Ty},
    Row.Distinct fields → ∃ merged : Row Ty,
      prependRow k fields t.flatten = row k merged (chainEnd k t).flatten ∧ Row.Distinct merged ∧
      ∀ l, merged.lookup l = ((deepest? (links k t) l).map flatten).or (fields.lookup l) := by
  induction t using inductOn with
  | number | char | unit | empty | var | arrow | list | bind =>
    exact fun hf => ⟨_, prependRow_of_ne (fun _ _ he => by cases he), hf, fun l => rfl⟩
  | row k' others tail _ iht =>
    intro fields hfields
    obtain ⟨ho, -, ht⟩ := distinct_row.mp h
    by_cases hk : k = k'
    · subst hk
      obtain ⟨merged, heq, hd, hlookup⟩ := iht ht (ho.mapValues flatten)
      refine ⟨fields.setAll merged, ?_, hfields.setAll merged, fun l => ?_⟩
      · rw [flatten_row, heq, prependRow_row, chainEnd, if_pos rfl]
      · rw [Row.lookup_setAll hd, hlookup, links, if_pos rfl, deepest?_cons, Row.lookup_mapValues,
          Option.map_or]
    · obtain ⟨merged, rest, heq⟩ :=
        exists_prependRow_eq k' (Row.mapValues flatten others) tail.flatten
      refine ⟨fields, ?_, hfields, fun l => ?_⟩
      · rw [flatten_row, chainEnd, if_neg hk, flatten_row, heq]
        exact prependRow_of_ne fun _ _ he => hk (by cases he; rfl)
      · rw [links, if_neg hk]
        rfl

/-- **A chain of rows is merged into the row with the deepest types**, in front of what stood behind
the chain. -/
theorem exists_flatten_row_eq (h : (row k fields tail).Distinct) : ∃ merged : Row Ty,
    (row k fields tail).flatten = row k merged (chainEnd k tail).flatten ∧ Row.Distinct merged ∧
      ∀ l, merged.get? l = (deepest? (links k (row k fields tail)) l).map flatten := by
  obtain ⟨hd, -, ht⟩ := distinct_row.mp h
  obtain ⟨merged, heq, hmerged, hlookup⟩ :=
    exists_prependRow_flatten_eq (k := k) ht (hd.mapValues flatten)
  refine ⟨merged, (flatten_row ..).trans heq, hmerged, fun l => ?_⟩
  rw [links, if_pos rfl, deepest?_cons, Option.map_or, Row.get?, hlookup, Row.lookup_mapValues]

/-- **Flattening commutes with substitution**, a flat type stays as it is, and the row of a chain
has the deepest types. -/
theorem flatten_commutes :
    (∀ (t : Ty) (σ : Subst), t.Distinct → (t.substitute σ).flatten =
      (t.flatten.substitute σ).flatten) ∧
    (∀ t : Ty, t.flatten.flatten = t.flatten) ∧
    ∀ (k : RowKind) (fields : Row Ty) (tail : Ty), (row k fields tail).Distinct →
      (∀ inner rest, chainEnd k tail ≠ row k inner rest) ∧ ∃ merged : Row Ty,
        (row k fields tail).flatten = row k merged (chainEnd k tail).flatten ∧ Row.Distinct merged ∧
        ∀ l, merged.get? l = (deepest? (links k (row k fields tail)) l).map flatten :=
  ⟨fun _ σ h => (flatten_substitute_flatten h σ).symm, flatten_flatten,
    fun k _ tail h => ⟨chainEnd_ne_row k tail, exists_flatten_row_eq h⟩⟩

/-- Two records with one label in both, in front of a variable. -/
def openChain : Ty :=
  .row .record [("x", .number), ("y", .char)] (.row .record [("x", .var 1)] (.var 0))

/-- The record that goes on with the variable of `openChain` has a label of it too. -/
theorem flatten_commutes_openChain :
    openChain.Distinct ∧
    (openChain.substitute [(0, closedRecord [("y", .var 1)])]).flatten
      = (openChain.flatten.substitute [(0, closedRecord [("y", .var 1)])]).flatten ∧
    ∃ merged : Row Ty, openChain.flatten = row .record merged (.var 0) ∧
      merged.get? "x" = some (.var 1) ∧ merged.get? "y" = some .char := by
  have hd : openChain.Distinct := by decide
  obtain ⟨hcomm, -, hchain⟩ := flatten_commutes
  obtain ⟨-, merged, heq, -, hget⟩ := hchain _ _ _ hd
  exact ⟨hd, hcomm openChain _ hd, merged, heq, (hget "x").trans rfl, (hget "y").trans rfl⟩

end RowLang.Ty
