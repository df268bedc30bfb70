import Mathlib.Data.List.TakeWhile
import RowLang.Proofs.Row.Sorted

/-!
# Proofs/Row/Positional — tuples and rows of positions

A tuple is written into a row under its positions, and read out of it in the order of the labels.
The two are inverse to each other (`positional_corresponds`): the labels of a tuple are in order as
they stand, past the tenth as well, and a row whose labels are the positions has the entries of a
tuple in some order.
-/

namespace RowLang

theorem Decimal.lt_tenTo (n : Nat) : n < tenTo n := Nat.lt_pow_self (by decide)

/-- A position that can be written has a rank. -/
theorem Label.unranked?_position {n : Nat} (h : n < Decimal.tenTo Decimal.digitLimit) :
    Label.unranked? (Row.position n) = none := by
  have hdecimal : ∀ c ∈ Decimal.natChars n, Text.isDecimal c = true := fun c hc =>
    Text.isDecimal_of_isAsciiDigit (Decimal.isDigit_natChars c hc)
  have hlength : (Decimal.natChars n).length ≤ Decimal.digitLimit :=
    Decimal.length_natChars_le (by decide) h
  have htake : (Decimal.natChars n).takeWhile Text.isDecimal = Decimal.natChars n :=
    List.takeWhile_eq_self_iff.mpr hdecimal
  simp only [Label.unranked?, Row.position, Decimal.natText, String.toList_ofList, htake,
    if_neg (Nat.not_lt.mpr hlength), if_neg (Nat.lt_irrefl _), ite_self]

namespace Row

variable {α : Type}

/-- **The labels of a tuple are in order as they stand.** -/
theorem ascending_positional (xs : List α) : Ascending (positional xs) := by
  have h := pairwise_positions xs.length
  rw [← labels_positional] at h
  exact List.pairwise_map.mp h

theorem length_positional (xs : List α) : (positional xs).length = xs.length := by
  simpa [labels] using congrArg List.length (labels_positional xs)

theorem isPositional_positional (xs : List α) : isPositional (positional xs) = true :=
  isPositional_iff.mpr (by rw [labels_positional, length_positional])

/-- **A tuple is read out of its row.** -/
theorem sortedValues_positional (xs : List α) : sortedValues (positional xs) = xs := by
  rw [sortedValues, sorted_of_ascending (ascending_positional xs), positional,
    values_positionalFrom]

/-- No position comes twice in a row of positions. -/
theorem distinct_of_isPositional {r : Row α} (h : r.isPositional = true) : r.Distinct :=
  (isPositional_iff.mp h).nodup_iff.mpr (List.nodup_range.map position_injective)

/-- **Each label of a row of positions has a rank**, so that the row can be sorted, unless there are
more positions than can be written. -/
theorem unranked?_of_isPositional {r : Row α} (h : r.isPositional = true)
    (hlength : r.length ≤ Decimal.tenTo Decimal.digitLimit) : r.unranked? = none := by
  rw [unranked?, List.findSome?_eq_none_iff]
  intro l hl
  obtain ⟨n, hn, rfl⟩ := List.mem_map.mp ((isPositional_iff.mp h).mem_iff.mp hl)
  exact Label.unranked?_position ((List.mem_range.mp hn).trans_le hlength)

/-- **Tuples and rows of positions are the same**: a tuple comes back out of its row, and such a row
is the row of its tuple, up to the order in which it has its labels. -/
theorem positional_corresponds :
    (∀ xs : List α, isPositional (positional xs) = true ∧ sortedValues (positional xs) = xs) ∧
      ∀ r : Row α, r.isPositional = true →
        (positional (sortedValues r)).Perm r ∧
        (∀ l, get? (positional (sortedValues r)) l = r.get? l) ∧
          (r.length ≤ Decimal.tenTo Decimal.digitLimit → r.unranked? = none) := by
  refine ⟨fun xs => ⟨isPositional_positional xs, sortedValues_positional xs⟩, fun r h => ?_⟩
  rw [positional_sortedValues h]
  exact ⟨sorted_perm r, lookup_sorted (distinct_of_isPositional h), unranked?_of_isPositional h⟩

/-- Twelve positions, from the last to the first. -/
def countdown : Row Nat := (positional (List.range 12)).reverse

/-- By their texts, the positions `10` and `11` would come before `2`. -/
theorem positional_corresponds_countdown :
    countdown.isPositional = true ∧ countdown.length ≤ Decimal.tenTo Decimal.digitLimit ∧
      sortedValues countdown = List.range 12 ∧
      (positional (sortedValues countdown)).Perm countdown ∧
      (∀ l, get? (positional (sortedValues countdown)) l = countdown.get? l) ∧
      countdown.unranked? = none := by
  have hpositional : countdown.isPositional = true := by decide
  have hlength : countdown.length ≤ Decimal.tenTo Decimal.digitLimit := by
    rw [countdown, List.length_reverse, length_positional]
    exact Nat.le_trans (by decide : 12 ≤ Decimal.digitLimit) (Decimal.lt_tenTo _).le
  obtain ⟨hperm, hget, hranked⟩ := positional_corresponds.2 countdown hpositional
  exact ⟨hpositional, hlength, by decide, hperm, hget, hranked hlength⟩

end Row

end RowLang
