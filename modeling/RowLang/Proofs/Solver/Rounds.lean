import RowLang.Proofs.Solver.Elimination
import RowLang.Proofs.Ty.Placed

/-!
# Proofs/Solver/Rounds — what all rounds of elimination do

What the variables of the rounds were replaced by, one put into the other, is a substitution that
satisfies all that was pending in the beginning (`Kept.solved`).  Rounds come to an end only when
nothing is pending: the variable of the first equation is gone after a round, so that what is
pending has changed.
-/

namespace RowLang.Solver

open Ty

variable {K : Census}

/-! ## Nothing is untold -/

/-- A round forgets nothing of what was done. -/
theorem trace_solveStep {budget : Nat} {st st' : Solver}
    (h : (solveStep budget).run st = (.ok (), st')) : ∀ line ∈ st.trace, line ∈ st'.trace := by
  cases round_of_run h with
  | idle => exact fun _ h => h
  | done _ hclose hwork =>
    intro l hl
    obtain ⟨c, rfl, -⟩ := numbering_of_closeOver hclose
    exact hwork.grows.trace l (List.mem_cons_of_mem _ hl)

/-! ## Replacements, one put into the other -/

/-- A replacement before others. -/
def before (n : Nat) (t : Ty) (σ : Subst) : Subst := (n, t.substitute σ) :: σ

theorem after_before {n : Nat} {t : Ty} {σ : Subst} {ρ : Nat → Tree} (h : t.CatchesNone σ) :
    after ρ (before n t σ) = Function.update (after ρ σ) n (t.tree (after ρ σ)) := by
  funext v
  rw [after, before, Row.lookup_cons_eq]
  by_cases hv : v = n
  · rw [if_pos hv, hv, Function.update_self, ← tree_substitute h]
    rfl
  · rw [if_neg hv, Function.update_of_ne hv]
    rfl

/-- What is put in holds no variable that stands with a binder. -/
def Uncaught (K : Census) (σ : Subst) : Prop :=
  ∀ v u, σ.lookup v = some u → ∀ w ∈ u.free, ¬ K.bound w

theorem Uncaught.catchesNone {σ : Subst} (h : Uncaught K σ) {t : Ty} {r : Role}
    (ht : t.Good K r) : t.CatchesNone σ :=
  fun q hq v u hu hmem => h v u hu q hmem (ht.fits.bound_of_mem hq)

theorem Uncaught.before {K' : Census} {n : Nat} {t : Ty} {σ : Subst} {r : Role}
    (h : Uncaught K' σ) (ht : t.Good K' r) (hbound : ∀ q, K.bound q → K'.bound q) :
    Uncaught K (before n t σ) := by
  intro v u hu w hw hb
  rw [Solver.before, Row.lookup_cons_eq] at hu
  split at hu
  · obtain rfl := Option.some.inj hu
    rcases mem_free_substitute hw with ⟨hw, -⟩ | ⟨v', u', -, hu', hw⟩
    · exact K'.disjoint w (ht.closed w hw) (hbound w hb)
    · exact h v' u' hu' w hw (hbound w hb)
  · exact h v u hu w hw (hbound w hb)

/-! ## All rounds -/

/-- **A substitution solves a state**: with what it puts in, the variables keep to their places and
satisfy what is pending, and the type under study becomes another one. -/
structure Solves (K : Census) (σ : Subst) (st st' : Solver) : Prop where
  uncaught : Uncaught K σ
  placed : PlacedAll K (after selves σ)
  pending : ∀ e ∈ st.pending, after selves σ e.var = e.type.tree (after selves σ)
  lastType : ∀ t, st.lastType = some t →
    ∃ t', st'.lastType = some t' ∧ t'.tree selves = t.tree (after selves σ)

/-- With one variable gone, what solves the rest solves all. -/
theorem Eliminates.solves {K' : Census} {n : Nat} {t : Ty} {σ : Subst} {st mid st' : Solver}
    (h : Eliminates K K' n t st mid) (hσ : Solves K' σ mid st')
    (hlast : ∀ u, st.lastType = some u → u.Good K .whole) :
    Solves K (before n t σ) st st' := by
  have hafter := after_before (n := n) (ρ := selves) (hσ.uncaught.catchesNone h.value)
  refine ⟨hσ.uncaught.before h.value h.bound, fun v hv => ?_, fun e he => ?_, fun u hu => ?_⟩
  · rw [hafter]
    by_cases hvn : v = n
    · rw [hvn, Function.update_self]
      exact h.value.placed hσ.placed
    · obtain ⟨hfree, hrole⟩ := h.free v hv hvn
      rw [Function.update_of_ne hvn, ← hrole]
      exact hσ.placed v hfree
  · rw [hafter]
    exact h.pending _ hσ.pending e he
  · have hgood := h.good (hlast u hu)
    obtain ⟨u', hu', htree⟩ := hσ.lastType _ (h.lastType.trans (congrArg _ hu))
    refine ⟨u', hu', ?_⟩
    have hcatch : u.CatchesNone [(n, t)] := fun q hq v w hw hmem => by
      rw [Row.lookup_single] at hw
      split at hw
      case isFalse => simp at hw
      case isTrue =>
        obtain rfl := Option.some.inj hw
        exact K'.disjoint q (h.value.closed q hmem)
          (h.bound q ((hlast u hu).fits.bound_of_mem hq))
    rw [htree, tree_flatten hgood.tidy, tree_substitute hcatch, after_single, hafter]

theorem trace_solvePasses {budget : Nat} : ∀ {remaining done : Nat} {st st' : Solver},
    (solvePasses budget remaining done).run st = (.ok (), st') → ∀ line ∈ st.trace, line ∈ st'.trace
  | 0, _, _, _, h => by cases h
  | remaining + 1, done, st, st', h => by
    obtain ⟨mid, hstep, ⟨-, line, rfl⟩ | ⟨-, h⟩⟩ := solvePasses_cases h
    · exact fun l hl => List.mem_cons_of_mem _ (trace_solveStep hstep l hl)
    · exact fun l hl => trace_solvePasses h l (trace_solveStep hstep l hl)

/-- After a round that eliminates the first variable, something else is pending. -/
theorem Eliminates.keys_ne {K' : Census} {e : Equation} {others : List Equation} {t : Ty}
    {st mid : Solver} (h : Eliminates K K' e.var t st mid) (hpending : st.pending = e :: others) :
    mid.keys ≠ st.keys :=
  keys_ne_of_forall_var_ne hpending fun d hd hvar => h.gone (hvar ▸ (h.kept.pending d hd).free)

/-- Variables that stand for themselves keep to their places. -/
theorem placed_selves (K : Census) : PlacedAll K (after selves []) := fun v _ =>
  Tree.placed_leaf (K.role v) (s := .var v) (by simp)

/-- What has nothing pending is solved as it is. -/
theorem solves_nil {st st' : Solver} (hpending : st.pending = []) (h : st'.lastType = st.lastType) :
    Solves K [] st st' where
  uncaught := by simp [Uncaught]
  placed := placed_selves K
  pending := by simp [hpending]
  lastType t ht := ⟨t, h.trans ht, rfl⟩

/-- **Rounds of elimination find a substitution that solves what is pending.** -/
theorem Kept.solvePasses {budget : Nat} : ∀ {remaining done : Nat} {K : Census} {st st' : Solver},
    Kept K st → K.numbered → (∀ u, st.lastType = some u → u.Good K .whole) →
    (solvePasses budget remaining done).run st = (.ok (), st') → ¬ st'.Lost → ∃ σ, Solves K σ st st'
  | 0, _, _, _, _, _, _, _, h, _ => by cases h
  | remaining + 1, done, K, st, st', hK, hnum, hlast, h, hlost => by
    obtain ⟨mid, hstep, hrest⟩ := solvePasses_cases h
    cases hpending : st.pending with
    | nil =>
      cases round_of_run hstep with
      | idle =>
        obtain ⟨-, line, rfl⟩ | ⟨hne, -⟩ := hrest
        · refine ⟨[], by simp [Uncaught], placed_selves K, by simp [hpending], fun t ht => ?_⟩
          refine ⟨(t.substitute []).flatten, by simp [saying, updating, emptied, ht], ?_⟩
          rw [substitute_nil, tree_flatten (hlast t ht).tidy]
          rfl
        · exact absurd rfl hne
      | done hsome =>
        rw [hpending] at hsome
        cases hsome
    | cons e others =>
      have hmid : ∀ line ∈ mid.trace, line ∈ st'.trace := by
        obtain ⟨-, line, rfl⟩ | ⟨-, h⟩ := hrest
        · exact fun _ => List.mem_cons_of_mem _
        · exact trace_solvePasses h
      obtain ⟨K', t, helim⟩ := hK.eliminate hnum hpending hstep fun hl => hlost (hl.mono hmid)
      have hlast' : ∀ u, mid.lastType = some u → u.Good K' .whole := by
        intro u hu
        rw [helim.lastType, Option.map_eq_some_iff] at hu
        obtain ⟨u, hu, rfl⟩ := hu
        exact (helim.good (hlast u hu)).flatten
      have hsolves : ∃ σ, Solves K' σ mid st' := by
        obtain ⟨hdone, line, rfl⟩ | ⟨-, h⟩ := hrest
        · exact ⟨[], solves_nil (hdone.resolve_right (helim.keys_ne hpending)) rfl⟩
        · exact helim.kept.solvePasses helim.numbered hlast' h hlost
      obtain ⟨σ, hσ⟩ := hsolves
      exact ⟨_, helim.solves hσ hlast⟩

end RowLang.Solver
