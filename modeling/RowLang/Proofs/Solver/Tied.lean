import RowLang.Proofs.Solver.Round

/-!
# Proofs/Solver/Tied — a variable that occurs in its own type

An equation of a variable with a type that holds it has a recursive type for its solution: the
variable gives way to a placeholder, and a `mu` binds that.  The placeholder occurs nowhere else in
the type, so that to unfold the recursive type is to put it for the variable (`unfold_tied`),
whatever the type binds itself; and the variable is gone.
-/

namespace RowLang

namespace Ty

/-- The recursive type that a variable is, if it is a type that holds it; the placeholder `p` stands
for the variable. -/
def tied (n p : Nat) (t : Ty) : Ty := bind .mu p (t.substitute [(n, var p)])

/-- **A placeholder that occurs nowhere else can be replaced in place of the variable.** -/
theorem substitute_placeholder {n p : Nat} {t u : Ty} (hp : ¬ t.Mentions p) :
    (t.substitute [(n, var p)]).substitute [(p, u)] = t.substitute [(n, u)] := by
  obtain ⟨hfree, hbound⟩ := not_or.mp hp
  clear hp
  induction t using inductOn with
  | number | char | unit | empty => simp only [substitute]
  | var m =>
    rw [free_var, List.mem_singleton] at hfree
    by_cases hm : m = n
    · simp [substitute, hm]
    · simp [substitute, Row.lookup_single, hm, Ne.symm hfree]
  | arrow a b iha ihb =>
    rw [mem_free_arrow, not_or] at hfree
    rw [mem_binders_arrow, not_or] at hbound
    simp only [substitute, iha hfree.1 hbound.1, ihb hfree.2 hbound.2]
  | list t ih => simp only [substitute, ih (by simpa using hfree) hbound]
  | row k fields tail ihf iht =>
    rw [mem_free_row, not_or, not_exists] at hfree
    rw [mem_binders_row, not_or, not_exists] at hbound
    simp only [substitute, substituteFields_eq_map, iht hfree.1 hbound.1, Row.mapValues,
      List.map_map]
    exact congrArg (row k · _) (List.map_congr_left fun q hq => by
      rw [Function.comp_apply, ihf q hq (fun h => hfree.2 q ⟨hq, h⟩) fun h => hbound.2 q ⟨hq, h⟩])
  | bind b q body ih =>
    rw [mem_binders_bind, not_or] at hbound
    have hbody : p ∉ body.free := fun h => hfree (mem_free_bind.mpr ⟨h, hbound.1⟩)
    -- The binder stays out of the way of the placeholder, and it may hide the variable.
    have hkeep : List.filter (fun r : Nat × Ty => decide (r.1 ≠ q)) [(p, u)] = [(p, u)] := by
      simp [hbound.1]
    rw [substitute, substitute, substitute, hkeep]
    by_cases hq : n = q
    · have hhide : ∀ v : Ty, List.filter (fun r : Nat × Ty => decide (r.1 ≠ q)) [(n, v)] = [] := by
        simp [hq]
      have hunbound : ∀ v ∈ body.free, List.lookup v [(p, u)] = none := fun v hv => by
        rw [Row.lookup_single, if_neg]
        rintro rfl
        exact hbody hv
      rw [hhide, hhide, substitute_nil, substitute_of_unbound hunbound]
    · have hpass : ∀ v : Ty, List.filter (fun r : Nat × Ty => decide (r.1 ≠ q)) [(n, v)] =
        [(n, v)] := by
        simp [hq]
      rw [hpass, hpass, ih hbody hbound.2]

/-- **To unfold the type is to put it for the variable.** -/
theorem unfold_tied {n p : Nat} {t : Ty} (hp : ¬ t.Mentions p) :
    unfold p (t.substitute [(n, var p)]) = t.substitute [(n, tied n p t)] :=
  substitute_placeholder hp

/-- The variable is gone. -/
theorem not_mem_free_tied {n p : Nat} {t : Ty} (hne : n ≠ p) : n ∉ (tied n p t).free := by
  rw [tied, mem_free_bind, not_and_or]
  refine Or.inl fun h => ?_
  rcases mem_free_substitute h with ⟨-, hnone⟩ | ⟨m, s, -, hs, hn⟩
  · simp at hnone
  · rw [Row.lookup_single] at hs
    split at hs
    · cases hs
      exact hne (List.mem_singleton.mp (free_var p ▸ hn))
    · cases hs

end Ty

namespace Solver

open Ty

/-- A solver takes its next fresh variable for the placeholder. -/
theorem run_closeOver_of_mem {n : Nat} {t : Ty} (hn : n ∈ t.free) (st : Solver) :
    (closeOver n t).run st = (.ok (tied n st.counter t), st.numbering (st.counter + 1)) := by
  rw [closeOver_eq, if_pos (List.contains_iff_mem.mpr hn)]
  rfl

/-- **The recursive type for a variable solves its equation**: it is the solver's choice, to unfold
it is to put it for the variable, and it holds the variable no more. -/
theorem tied_solves {n p : Nat} {t : Ty} (hn : n ∈ t.free) (hp : ¬ t.Mentions p) :
    (∀ st : Solver, st.counter = p →
      (closeOver n t).run st = (.ok (tied n p t), st.numbering (p + 1))) ∧
    unfold p (t.substitute [(n, .var p)]) = t.substitute [(n, tied n p t)] ∧
    n ∉ (tied n p t).free := by
  refine ⟨fun st hst => hst ▸ run_closeOver_of_mem hn st, unfold_tied hp, not_mem_free_tied ?_⟩
  rintro rfl
  exact hp (Or.inl hn)

/-- A function from a row that goes on with the variable, and to a recursive type of the same
number. -/
def besideMu : Ty := .arrow (.row .record [("x", .var 0)] (.var 0)) (.bind .mu 0 (.list (.var 0)))

/-- Only the variable in front of the recursive type gives way. -/
theorem tied_solves_besideMu :
    0 ∈ besideMu.free ∧ ¬ besideMu.Mentions 26 ∧
      (closeOver 0 besideMu).run {} = (.ok (tied 0 26 besideMu), Solver.numbering {} 27) ∧
      unfold 26 (besideMu.substitute [(0, .var 26)]) = besideMu.substitute
        [(0, tied 0 26 besideMu)] ∧
      0 ∉ (tied 0 26 besideMu).free := by
  have hn : 0 ∈ besideMu.free := by decide
  have hp : ¬ besideMu.Mentions 26 := by decide
  obtain ⟨hrun, hunfold, hgone⟩ := tied_solves hn hp
  exact ⟨hn, hp, hrun {} rfl, hunfold, hgone⟩

end Solver

end RowLang
