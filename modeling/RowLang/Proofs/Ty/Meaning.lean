import RowLang.Proofs.Tree.Basic
import RowLang.Proofs.Ty.Tidy

/-!
# Proofs/Ty/Meaning — the infinite tree of a type

`Ty.tree ρ t` is the tree that `t` unfolds to when its free variables stand for the trees `ρ`; two
types are the same type when their trees are the same (`SameTree`).  Three laws carry all that is
said of solving: a recursive type has the tree of its unfolding (`tree_unfold`), a substitution that
captures nothing changes what the variables stand for (`tree_substitute`), and flattening changes no
tree (`tree_flatten`).
-/

namespace RowLang

namespace Ty

mutual

/-- The tree of a type whose free variables stand for trees.  A recursive type is a fixed point. -/
@[grind] def tree (ρ : Nat → Tree) : Ty → Tree
  | number => .leaf .number
  | char => .leaf .char
  | unit => .leaf .unit
  | empty => .leaf .empty
  | var n => ρ n
  | arrow a b => .arrow (tree ρ a) (tree ρ b)
  | list t => .list (tree ρ t)
  | row k fields tail => .row k (treeOfField ρ fields) (tree ρ tail)
  | bind .mu n body => .fix fun x => tree (Function.update ρ n x) body
  | bind .forAll n body => .forAll n (tree (Function.update ρ n (.leaf (.var n))) body)

/-- The tree of the field of a label. -/
def treeOfField (ρ : Nat → Tree) : List (Label × Ty) → Label → Option Tree
  | [], _ => none
  | (l, t) :: fields, x => if x = l then some (tree ρ t) else treeOfField ρ fields x

end

/-- The trees of variables that stand for themselves. -/
def selves : Nat → Tree := fun n => .leaf (.var n)

/-- **The same type**: two types that unfold to the same infinite tree. -/
def SameTree (s t : Ty) : Prop := s.tree selves = t.tree selves

theorem treeOfField_eq (ρ : Nat → Tree) (fields : Row Ty) (l : Label) :
    treeOfField ρ fields l = (fields.lookup l).map (tree ρ) := by
  induction fields with
  | nil => rfl
  | cons p fields ih =>
    obtain ⟨k, t⟩ := p
    rw [treeOfField, Row.lookup_cons_eq, ih]
    split <;> rfl

/-- An empty closed row has the tree of no row with fields. -/
theorem fields_eq_nil_of_sameTree {k : RowKind} {fields : Row Ty} {tail : Ty}
    (h : SameTree (row k [] k.end) (row k fields tail)) : fields = [] := by
  cases fields with
  | nil => rfl
  | cons p fields =>
    rw [SameTree, tree, tree] at h
    have hshape : Shape.inFront k (fun l => (treeOfField selves [] l).map (· 0))
      (k.end.tree selves 1)
        = Shape.inFront k (fun l => (treeOfField selves (p :: fields) l).map (· 0))
            (tail.tree selves 1) := congrFun h 1
    have hempty : Shape.inFront k (fun l => (treeOfField selves [] l).map (· 0))
        (k.end.tree selves 1) = .row k (fun _ => none) (k.end.tree selves 1) := by
      cases k <;> rfl
    obtain ⟨inner, rest, hrow, hsome⟩ := Shape.exists_inFront_eq k
      (fun l => (treeOfField selves (p :: fields) l).map (· 0)) (tail.tree selves 1)
    rw [hempty, hrow] at hshape
    have hp := hsome p.1 (by simp [treeOfField_eq])
    rw [← (Shape.row.inj hshape).2.1] at hp
    simp at hp

/-! ## What a tree depends on -/

/-- What `agreeBelow_tree` says of one type. -/
private def ShowsNoMore (t : Ty) : Prop :=
  ∀ n (ρ ρ' : Nat → Tree), (∀ v ∈ t.free, Tree.AgreeBelow n (ρ v) (ρ' v)) →
    (∀ v ∈ t.heads, Tree.AgreeBelow (n + 1) (ρ v) (ρ' v)) →
    Tree.AgreeBelow (n + 1) (t.tree ρ) (t.tree ρ')

private theorem ShowsNoMore.part {t : Ty} (ht : ShowsNoMore t) {n : Nat} {ρ ρ' : Nat → Tree}
    (h : ∀ v ∈ t.free, Tree.AgreeBelow n (ρ v) (ρ' v)) :
    Tree.AgreeBelow n (t.tree ρ) (t.tree ρ') := by
  cases n with
  | zero => exact Tree.agreeBelow_zero _ _
  | succ n =>
    exact ht n ρ ρ' (fun v hv => (h v hv).mono (Nat.le_succ n)) fun v hv =>
      h v (mem_free_of_mem_heads hv)

private theorem showsNoMore (t : Ty) : ShowsNoMore t := by
  induction t using inductOn with
  | number | char | unit | empty => intro n ρ ρ' _ _; simp only [tree]; exact .refl _ _
  | var v => intro n ρ ρ' _ h; exact h v (by simp)
  | arrow a b iha ihb =>
    intro n ρ ρ' h _
    rw [tree, tree]
    exact .arrow (iha.part fun v hv => h v (mem_free_arrow.mpr (Or.inl hv)))
      (ihb.part fun v hv => h v (mem_free_arrow.mpr (Or.inr hv)))
  | list t ih =>
    intro n ρ ρ' h _
    rw [tree, tree]
    exact .list (ih.part fun v hv => h v (by simpa using hv))
  | row k fields tail ihf iht =>
    intro n ρ ρ' h hheads
    rw [tree, tree]
    refine .row (fun l => ?_) (iht n ρ ρ' (fun v hv => h v (mem_free_row.mpr (Or.inl hv))) hheads)
    rw [treeOfField_eq, treeOfField_eq]
    cases hl : List.lookup l fields with
    | none => trivial
    | some t =>
      have hmem := Row.mem_of_lookup hl
      exact (ihf _ hmem).part fun v hv => h v (mem_free_row.mpr (Or.inr ⟨_, hmem, hv⟩))
  | bind b p body ih =>
    intro n ρ ρ' h hheads
    cases b with
    | forAll =>
      rw [tree, tree]
      refine .forAll (ih.part fun v hv => ?_)
      by_cases hp : v = p
      · simp [hp, Tree.AgreeBelow.refl]
      · simpa [hp] using h v (mem_free_bind.mpr ⟨hv, hp⟩)
    | mu =>
      rw [tree, tree]
      refine .fix fun x y hxy => ih n _ _ (fun v hv => ?_) fun v hv => ?_
      · by_cases hp : v = p
        · simpa [hp] using hxy.mono (Nat.le_succ n)
        · simpa [hp] using h v (mem_free_bind.mpr ⟨hv, hp⟩)
      · by_cases hp : v = p
        · simpa [hp] using hxy
        · simpa [hp] using hheads v (mem_heads_mu.mpr ⟨hv, hp⟩)

/-- **A type shows no more of its variables than they show**, and a level less of those that have
structure in front of them. -/
theorem agreeBelow_tree (t : Ty) {n : Nat} {ρ ρ' : Nat → Tree}
    (h : ∀ v ∈ t.free, Tree.AgreeBelow n (ρ v) (ρ' v))
    (h' : ∀ v ∈ t.heads, Tree.AgreeBelow (n + 1) (ρ v) (ρ' v)) :
    Tree.AgreeBelow (n + 1) (t.tree ρ) (t.tree ρ') := showsNoMore t n ρ ρ' h h'

/-- **Only the free variables of a type matter to its tree.** -/
theorem tree_congr {t : Ty} {ρ ρ' : Nat → Tree} (h : ∀ v ∈ t.free, ρ v = ρ' v) :
    t.tree ρ = t.tree ρ' :=
  Tree.eq_of_agreeBelow fun _ =>
    (showsNoMore t).part fun v hv => h v hv ▸ Tree.AgreeBelow.refl _ _

theorem tree_update_of_not_mem {t : Ty} {p : Nat} (h : p ∉ t.free) (ρ : Nat → Tree) (x : Tree) :
    t.tree (Function.update ρ p x) = t.tree ρ :=
  tree_congr fun v hv => Function.update_of_ne (fun he : v = p => h (he ▸ hv)) x ρ

/-! ## Recursive types -/

/-- A variable that stands in front of nothing makes a contractive function of a type. -/
theorem contractive_tree {p : Nat} {body : Ty} (h : p ∉ body.heads) (ρ : Nat → Tree) :
    Tree.Contractive fun x => body.tree (Function.update ρ p x) := by
  intro n x y hxy
  refine agreeBelow_tree body (fun v _ => ?_) fun v hv => ?_
  · by_cases hp : v = p
    · simpa [hp] using hxy
    · simp [hp, Tree.AgreeBelow.refl]
  · have hp : v ≠ p := fun he => h (he ▸ hv)
    simp [hp, Tree.AgreeBelow.refl]

/-- **The tree of a recursive type is the one tree that its equation has.** -/
theorem tree_mu_eq {p : Nat} {body : Ty} (h : p ∉ body.heads) (ρ : Nat → Tree) :
    body.tree (Function.update ρ p ((bind .mu p body).tree ρ)) = (bind .mu p body).tree ρ := by
  have := (contractive_tree h ρ).fix_eq
  simpa only [tree] using this

/-! ## Substitution -/

/-- The trees that the variables stand for when some of them are replaced first. -/
def after (ρ : Nat → Tree) (σ : Subst) : Nat → Tree :=
  fun v => ((σ.lookup v).map (tree ρ)).getD (ρ v)

/-- No binder of a type catches a variable of what is put in. -/
def CatchesNone (t : Ty) (σ : Subst) : Prop :=
  ∀ q ∈ t.binders, ∀ v u, σ.lookup v = some u → q ∉ u.free

theorem catchesNone_single {n : Nat} {s t : Ty} (h : ∀ q ∈ t.binders, q ∉ s.free) :
    t.CatchesNone [(n, s)] := by
  intro q hq v u hu
  rw [Row.lookup_single] at hu
  split at hu
  case isTrue => cases hu; exact h q hq
  case isFalse => cases hu

theorem after_apply (ρ : Nat → Tree) (σ : Subst) (v : Nat) :
    after ρ σ v = ((σ.lookup v).map (tree ρ)).getD (ρ v) := rfl

theorem after_single (ρ : Nat → Tree) (n : Nat) (u : Ty) :
    after ρ [(n, u)] = Function.update ρ n (u.tree ρ) := by
  funext v
  rw [after, Row.lookup_single]
  by_cases hv : v = n
  · simp [hv]
  · simp [hv]

/-- Under a binder the replaced variables stand for what they stood for, its own for what it shall.
-/
theorem after_update {σ : Subst} {q : Nat} (h : ∀ v u, σ.lookup v = some u → q ∉ u.free)
    (ρ : Nat → Tree) (x : Tree) :
    after (Function.update ρ q x) (σ.filter (·.1 ≠ q)) = Function.update (after ρ σ) q x := by
  funext v
  rw [after, lookup_filter_ne]
  by_cases hv : v = q
  · simp [hv]
  · rw [if_neg hv, Function.update_of_ne hv, Function.update_of_ne hv, after_apply]
    cases hu : List.lookup v σ with
    | none => simp
    | some u => exact tree_update_of_not_mem (h v u hu) ρ x

theorem catchesNone_filter {t : Ty} {σ : Subst} {q : Nat} (h : t.CatchesNone σ) :
    t.CatchesNone (σ.filter (·.1 ≠ q)) := by
  intro p hp v u hu
  rw [lookup_filter_ne] at hu
  split at hu
  case isTrue => exact absurd hu (by simp)
  case isFalse => exact h p hp v u hu

/-- **A substitution that captures nothing changes what the variables stand for.** -/
theorem tree_substitute {t : Ty} :
    ∀ {σ : Subst} {ρ : Nat → Tree}, t.CatchesNone σ →
      (t.substitute σ).tree ρ = t.tree (after ρ σ) := by
  induction t using inductOn with
  | number | char | unit | empty => intro σ ρ _; simp only [substitute, tree]
  | var n =>
    intro σ ρ _
    rw [substitute, tree, after]
    cases List.lookup n σ <;> rfl
  | arrow a b iha ihb =>
    intro σ ρ h
    rw [substitute, tree, tree, iha fun q hq => h q (mem_binders_arrow.mpr (Or.inl hq)),
      ihb fun q hq => h q (mem_binders_arrow.mpr (Or.inr hq))]
  | list t ih =>
    intro σ ρ h
    rw [substitute, tree, tree, ih h]
  | row k fields tail ihf iht =>
    intro σ ρ h
    rw [substitute, tree, tree, iht fun q hq => h q (mem_binders_row.mpr (Or.inl hq))]
    congr 1
    funext l
    rw [treeOfField_eq, treeOfField_eq, substituteFields_eq_map, Row.lookup_mapValues]
    cases hl : List.lookup l fields with
    | none => rfl
    | some t =>
      have hmem := Row.mem_of_lookup hl
      exact congrArg some
        (ihf _ hmem fun q hq => h q (mem_binders_row.mpr (Or.inr ⟨_, hmem, hq⟩)))
  | bind b q body ih =>
    intro σ ρ h
    have hbody : body.CatchesNone (σ.filter (·.1 ≠ q)) :=
      catchesNone_filter fun p hp => h p (mem_binders_bind.mpr (Or.inr hp))
    have hq := h q (mem_binders_bind.mpr (Or.inl rfl))
    cases b with
    | mu =>
      rw [substitute, tree, tree]
      congr 1
      funext x
      rw [ih hbody, after_update hq]
    | forAll => rw [substitute, tree, tree, ih hbody, after_update hq]

/-- **A recursive type has the tree of its unfolding.** -/
theorem tree_unfold {p : Nat} {body : Ty} (hp : p ∉ body.heads)
    (h : ∀ q ∈ body.binders, q ∉ (bind .mu p body).free) (ρ : Nat → Tree) :
    (unfold p body).tree ρ = (bind .mu p body).tree ρ := by
  rw [unfold, tree_substitute (catchesNone_single h), after_single, tree_mu_eq hp]

/-! ## Flattening -/

theorem tree_prependRow {k : RowKind} {fields : Row Ty} {tail : Ty} (ht : tail.Tidy)
    (ρ : Nat → Tree) :
    (prependRow k fields tail).tree ρ = (row k fields tail).tree ρ := by
  cases tail with
  | row k' inner rest =>
    rw [prependRow]
    split
    case isFalse => rfl
    case isTrue hk =>
      subst hk
      rw [Row.union_eq_setAll, tree, tree, tree, Tree.row_row]
      congr 1
      funext l
      rw [treeOfField_eq, treeOfField_eq, treeOfField_eq,
        Row.lookup_setAll (tidy_row.mp ht).1.distinct]
      cases List.lookup l inner <;> rfl
  | _ => rfl

/-- **Flattening changes no tree.** -/
theorem tree_flatten {t : Ty} (h : t.Tidy) : ∀ ρ, t.flatten.tree ρ = t.tree ρ := by
  induction t using inductOn with
  | number | char | unit | empty | var => intro ρ; rw [Ty.flatten]
  | arrow a b iha ihb => intro ρ; rw [Ty.flatten, tree, tree, iha h.1, ihb h.2]
  | list t ih => intro ρ; rw [Ty.flatten, tree, tree, ih h]
  | bind b n body ih =>
    intro ρ
    cases b with
    | mu => rw [Ty.flatten, tree, tree, funext fun x => ih h (Function.update ρ n x)]
    | forAll => rw [Ty.flatten, tree, tree, ih h]
  | row k fields tail ihf iht =>
    intro ρ
    obtain ⟨_, hf, ht⟩ := tidy_row.mp h
    rw [Ty.flatten, tree_prependRow ht.flatten, tree, tree, iht ht]
    congr 1
    funext l
    rw [treeOfField_eq, treeOfField_eq, flattenFields_eq_map, Row.lookup_mapValues]
    cases hl : List.lookup l fields with
    | none => rfl
    | some t =>
      have hmem := Row.mem_of_lookup hl
      exact congrArg some (ihf _ hmem (hf _ hmem) ρ)

end Ty

end RowLang
