import RowLang.Proofs.Tree.Basic
import RowLang.Proofs.Ty.Good

/-!
# Proofs/Ty/Placed — the labels of a tree that stands for a rest

When the variables stand for trees that keep to their rooms (`Placed`), so does every type that fits
a place (`Fits.placed`).  So a row of good types has the fields that it shows, whatever its tail
comes to stand for (`hasField_of_good`).
-/

namespace RowLang

/-- A shape in its place: what stands for the rest of a row has labels of its room only. -/
def Shape.Placed (r : Role) (s : Shape) : Prop :=
  match r with
  | .whole => True
  | .tail k room => ∀ k' inner rest, s = .row k' inner rest →
      k' = k ∧ ∀ l, (inner l).isSome → l ∈ room

/-- A tree in its place. -/
def Tree.Placed (r : Role) (x : Tree) : Prop := ∀ n, (x n).Placed r

theorem Tree.Placed.lacksField {k : RowKind} {room : Finset Label} {x : Tree} {l : Label}
    (h : x.Placed (.tail k room)) (hl : l ∉ room) : x.LacksField k l := by
  intro n inner rest he
  by_contra hne
  exact hl (((h (n + 1)) k inner rest he).2 l (Option.isSome_iff_ne_none.mpr hne))

theorem Tree.placed_leaf (r : Role) {s : Shape} (h : ∀ k inner rest, s ≠ .row k inner rest) :
    (Tree.leaf s).Placed r := by
  intro n
  cases r with
  | whole => trivial
  | tail k room =>
    intro k' inner rest he
    cases n with
    | zero => cases he
    | succ n => exact absurd he (h _ _ _)

/-- A row keeps to its place if its fields do and its tail keeps to what is behind them. -/
theorem Tree.placed_row {labels : Finset Label} {r : Role} {k : RowKind} {fields : Row Ty}
    {ρ : Nat → Tree} {x : Tree} (hadm : r.Admits k fields)
    (hroom : Row.domain fields ⊆ r.room labels) (h : x.Placed (r.behind labels k fields)) :
    (Tree.row k (Ty.treeOfField ρ fields) x).Placed r := by
  cases r with
  | whole => exact fun _ => trivial
  | tail k' room =>
    obtain ⟨rfl, -⟩ := hadm
    have hfields : ∀ n l, ((Ty.treeOfField ρ fields l).map (· n)).isSome → l ∈ room := by
      intro n l hl
      rw [Option.isSome_map, Ty.treeOfField_eq, Option.isSome_map, Row.lookup_isSome_iff] at hl
      exact hroom (Row.mem_domain.mpr hl)
    intro n k'' inner rest he
    cases n with
    | zero => cases he
    | succ n =>
      rw [Tree.row] at he
      have hx := h (n + 1)
      cases hs : x (n + 1) with
      | row k₀ deep rest₀ =>
        obtain ⟨rfl, hdeep⟩ := hx k₀ deep rest₀ hs
        rw [hs, Shape.inFront, if_pos rfl] at he
        obtain ⟨rfl, rfl, -⟩ := Shape.row.inj he
        refine ⟨rfl, fun l hl => ?_⟩
        rw [Option.isSome_or, Bool.or_eq_true] at hl
        exact hl.elim (fun hl => (Finset.mem_sdiff.mp (hdeep l hl)).1) (hfields n l)
      | _ =>
        rw [hs] at he
        obtain ⟨rfl, rfl, -⟩ := Shape.row.inj he
        exact ⟨rfl, hfields n⟩

namespace Ty

variable {K : Census}

/-- **What fits a place has a tree that keeps to it**, if what stands in front does. -/
theorem Fits.placed {t : Ty} : ∀ {r : Role} {ρ : Nat → Tree}, Fits K r t →
    (∀ v ∈ t.heads, (ρ v).Placed (K.role v)) → (t.tree ρ).Placed r := by
  induction t using Ty.inductOn with
  | number | char | unit | empty =>
    intro r ρ _ _
    rw [tree]
    exact Tree.placed_leaf r (by simp)
  | var n => intro r ρ h hρ; exact h.1 ▸ hρ n (by simp)
  | arrow a b _ _ =>
    intro r ρ h _
    rw [h.1]
    exact fun _ => trivial
  | list t _ =>
    intro r ρ h _
    rw [h.1]
    exact fun _ => trivial
  | row k fields tail _ iht =>
    intro r ρ h hρ
    obtain ⟨hadm, _, hroom, _, ht⟩ := fits_row.mp h
    rw [tree]
    exact Tree.placed_row hadm hroom (iht ht hρ)
  | bind b p body ih =>
    intro r ρ h hρ
    cases b with
    | forAll => exact h.elim
    | mu =>
      obtain ⟨_, _, hbody, hp, _⟩ := h
      rw [← tree_mu_eq hp]
      refine ih hbody fun v hv => ?_
      have hvp : v ≠ p := fun he => hp (he ▸ hv)
      rw [Function.update_of_ne hvp]
      exact hρ v (mem_heads_mu.mpr ⟨hv, hvp⟩)

/-- The variables that may become any type stand for trees that keep to their places. -/
def PlacedAll (K : Census) (ρ : Nat → Tree) : Prop := ∀ v, K.free v → (ρ v).Placed (K.role v)

theorem Good.placed {t : Ty} {r : Role} {ρ : Nat → Tree} (h : t.Good K r) (hρ : PlacedAll K ρ) :
    (t.tree ρ).Placed r :=
  h.fits.placed fun v hv => hρ v (h.closed v (mem_free_of_mem_heads hv))

/-- **A good row has the fields that it shows.** -/
theorem hasField_of_good {k : RowKind} {fields : Row Ty} {tail t : Ty} {ρ : Nat → Tree} {r : Role}
    {l : Label} (h : (row k fields tail).Good K r) (hρ : PlacedAll K ρ)
    (hl : fields.lookup l = some t) : ((row k fields tail).tree ρ).HasField k l (t.tree ρ) := by
  obtain ⟨-, -, -, -, htail⟩ := good_row.mp h
  rw [tree]
  refine Tree.hasField_row (by rw [treeOfField_eq, hl]; rfl) ((htail.placed hρ).lacksField ?_)
  exact fun hmem => (Finset.mem_sdiff.mp hmem).2
    (Row.mem_domain.mpr (Row.lookup_isSome_iff.mp (by rw [hl]; rfl)))

end Ty

end RowLang
