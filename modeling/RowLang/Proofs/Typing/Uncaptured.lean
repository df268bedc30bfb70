import RowLang.Proofs.Typing.Lossless

/-!
# Proofs/Typing/Uncaptured — fresh variables are fresh, and none is captured

A census tells the variables that may become any type from those that stand with a binder, so in a
state about which one knows all, no number is both (`Orderly.disentangled`), and the replacements on
the account of the logged solver catch nothing.  The letters of the surface are known from the start
as variables of either kind, whichever one likes; so no variable of a state is a letter.
-/

namespace RowLang.Solver

open Ty

variable {α : Type}

/-- **What loses and captures nothing does what it does without the checks.** -/
theorem Logged.Keeps.checked_eq {K : Census} {w : Working Logged α} {m : Solving α}
    {post : Census → α → Prop} (h : Logged.Keeps K w post) (he : Logged.Erases w m) {st : Solver}
    (hst : Orderly K st) : Logged.checked w st = some (m.run st) :=
  he.checked_eq fun p hp _ _ =>
    ((h ⟨st, [], []⟩ hst ⟨by simp, by simp⟩).1.replaced p hp).not_captured

/-- What one knows when the letters of the surface are known from the start, as free variables or as
bound ones. -/
def lettered (L : Finset Label) (free : Prop) : Setting :=
  { beginning L with
    free := fun v => v < 26 ∧ free
    bound := fun v => v < 26 ∧ ¬ free
    disjoint := fun _ hf hb => hb.2 hf.2 }

theorem orderly_lettered (L : Finset Label) (free : Prop) :
    Orderly (lettered L free).toCensus {} where
  pending := by simp
  numbers _ _ hv := hv.elim And.left And.left
  seen := by simp
  numbered := trivial
  lastType _ ht := by cases ht

/-- The types in a state: those of the pending equations, their variables and the one under study.
-/
def types (st : Solver) : List Ty :=
  st.pending.flatMap (fun e => [.var e.var, e.type]) ++ st.lastType.toList

theorem Orderly.exists_good {K : Census} {st : Solver} (h : Orderly K st) {t : Ty}
    (ht : t ∈ st.types) : ∃ r, t.Good K r := by
  rcases List.mem_append.mp ht with ht | ht
  · obtain ⟨e, he, ht⟩ := List.mem_flatMap.mp ht
    have heq := h.pending e he
    rcases List.mem_pair.mp ht with rfl | rfl
    · exact ⟨_, good_var heq.free⟩
    · exact ⟨_, heq.good⟩
  · exact ⟨.whole, h.lastType t (Option.mem_toList.mp ht)⟩

/-- All variables are fresh ones, and none is both free and bound. -/
structure Disentangled (st : Solver) : Prop where
  fresh : ∀ t ∈ st.types, ∀ n, n ∈ t.free ∨ n ∈ t.binders → 26 ≤ n ∧ n < st.counter
  apart : ∀ s ∈ st.types, ∀ t ∈ st.types, ∀ n ∈ s.free, n ∉ t.binders

/-- **What is free according to a census is not bound**, and known variables have numbers below the
counter. -/
theorem Orderly.disentangled {L : Finset Label} {K K' : Census} {st : Solver} (h : Orderly K st)
    (hK : (lettered L True).toCensus.Le K) (h' : Orderly K' st)
    (hK' : (lettered L False).toCensus.Le K') : Disentangled st where
  fresh t ht n hn := by
    obtain ⟨r, hgood⟩ := h.exists_good ht
    obtain ⟨r', hgood'⟩ := h'.exists_good ht
    rcases hn with hn | hn
    · have hfree := hgood'.closed n hn
      refine ⟨Nat.le_of_not_lt fun hlt => ?_, h'.numbers h'.numbered n (Or.inl hfree)⟩
      exact K'.disjoint n hfree (hK'.bound n ⟨hlt, not_false⟩)
    · have hbound := hgood.fits.bound_of_mem hn
      refine ⟨Nat.le_of_not_lt fun hlt => ?_, h.numbers h.numbered n (Or.inr hbound)⟩
      exact K.disjoint n (hK.free n ⟨hlt, trivial⟩) hbound
  apart s hs t ht n hn hmem := by
    obtain ⟨_, hs⟩ := h.exists_good hs
    obtain ⟨_, ht⟩ := h.exists_good ht
    exact K.disjoint n (hs.closed n hn) (ht.fits.bound_of_mem hmem)

/-- Queries leave states about which a census knows all. -/
theorem exists_orderly {e : Expr} (htidy : e.Tidy) (hun : e.Unascribed) (free : Prop) (budget : Nat)
    (budgets : List Nat) : ∃ K, (lettered (e.labels ∪ Operator.labels) free).toCensus.Le K ∧
      Orderly K (afterRounds (afterInfer budget e) budgets) := by
  have hsafe := Expr.safe_deduce (S := lettered (e.labels ∪ Operator.labels) free) htidy hun
    Finset.subset_union_left Finset.subset_union_right
  obtain ⟨-, K, hle, hK, -⟩ := Logged.keeps_query budget hsafe budgets ⟨{}, [], []⟩
    (orderly_lettered _ free) ⟨by simp, by simp⟩
  obtain ⟨l, hrun, hsolver⟩ := Logged.run_query budget e budgets
  rw [hrun] at hK
  exact ⟨K, hle, hsolver ▸ hK⟩

/-- **Fresh variables are fresh, and none is captured**: in every state that typing a program
without declared types and any rounds of elimination leave, all variables are fresh and none is both
free and bound; and both the typing and the next round do what they do with all their replacements
checked. -/
theorem nothing_captured {e : Expr} (htidy : e.Tidy) (hun : e.Unascribed) (budget : Nat)
    (budgets : List Nat) :
    Logged.checked (inferBy Logged.manner budget e) {} = some ((infer budget e).run {}) ∧
      Disentangled (afterRounds (afterInfer budget e) budgets) ∧
      ∀ next, Logged.checked (solveStepBy Logged.manner next)
        (afterRounds (afterInfer budget e) budgets)
        = some ((solveStep next).run (afterRounds (afterInfer budget e) budgets)) := by
  obtain ⟨K, hle, hK⟩ := exists_orderly htidy hun True budget budgets
  obtain ⟨K', hle', hK'⟩ := exists_orderly htidy hun False budget budgets
  have hsafe := Expr.safe_deduce (S := lettered (e.labels ∪ Operator.labels) True) htidy hun
    Finset.subset_union_left Finset.subset_union_right
  exact ⟨(Logged.keeps_run budget hsafe).checked_eq (Logged.erases_infer budget e)
      (orderly_lettered _ True), hK.disentangled hle hK' hle',
    fun next => (Logged.keeps_solveStep next).checked_eq (Logged.erases_solveStep next) hK⟩

/-- A function that is given itself, whose parameter has a recursive type. -/
def selfApplication : Expr := .lambda (.name "x") (.apply (.var "x") (.var "x"))

/-- The round that binds the parameter puts a fresh variable in its place, which it does not
capture. -/
theorem nothing_captured_in_selfApplication : selfApplication.Tidy ∧ selfApplication.Unascribed ∧
    Logged.checked (inferBy Logged.manner depthLimit selfApplication) {}
      = some ((infer depthLimit selfApplication).run {}) ∧
    Disentangled (afterRounds (afterInfer depthLimit selfApplication) [depthLimit]) ∧
    ∀ next, Logged.checked (solveStepBy Logged.manner next)
        (afterRounds (afterInfer depthLimit selfApplication) [depthLimit])
      = some ((solveStep next).run
        (afterRounds (afterInfer depthLimit selfApplication) [depthLimit])) :=
  have htidy : selfApplication.Tidy := ⟨trivial, trivial, trivial⟩
  have hun : selfApplication.Unascribed := ⟨trivial, trivial⟩
  ⟨htidy, hun, nothing_captured htidy hun depthLimit [depthLimit]⟩

end RowLang.Solver
