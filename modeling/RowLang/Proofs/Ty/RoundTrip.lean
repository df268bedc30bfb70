import Mathlib.Data.List.Permutation
import RowLang.Proofs.Ty.Printed

/-!
# Proofs/Ty/RoundTrip — types are read back from their texts

A type that was read, written and read again is the same type: its text shows it up to the order of
fields, and equality does not look at that.  A text has the type only if all its labels are short
enough to be put in order (`Ty.spelled`).
-/

namespace RowLang

namespace Ty

open RowLang.Parser

/-! ## Equality up to the order of fields -/

theorem sameFields_of_forall {fields others : Row Ty}
    (h : ∀ p ∈ fields, ∃ t, others.lookup p.1 = some t ∧ p.2.same t = true) :
    sameFields fields others = true := by
  induction fields with
  | nil => rfl
  | cons p fields ih =>
    obtain ⟨t, ht, hsame⟩ := h p List.mem_cons_self
    rw [sameFields, ht, ih fun q hq => h q (List.mem_cons_of_mem _ hq)]
    simpa using hsame

/-- **A written type is what its text shows of it**, up to the order of fields. -/
theorem Written.same_shown {t : Ty} (ht : t.Written) : t.same t.shown = true := by
  induction t using Ty.inductOn with
  | number | char => rfl
  | unit | empty => exact ht.elim
  | var n => exact decide_eq_true rfl
  | list t ih => exact ih ht
  | arrow a b iha ihb => exact Bool.and_eq_true_iff.mpr ⟨iha ht.1, ihb ht.2⟩
  | bind b n body ih =>
    show (decide (b = b) && decide (n = n) && body.same body.shown) = true
    rw [ih ht.2]
    simp
  | row k fields tail ihf iht =>
    obtain ⟨hfields, htail⟩ := written_row.mp ht
    have hsame : sameFields fields (Row.mapValues shown (Row.sorted fields)) = true := by
      refine sameFields_of_forall fun p hp => ⟨p.2.shown, ?_, ihf p hp (hfields.2 p hp).2⟩
      rw [Row.lookup_mapValues, Row.lookup_sorted hfields.1, hfields.1.lookup_of_mem hp]
      rfl
    have htail : tail.same (if isEnd k tail then k.end else tail.shown) = true := by
      split
      case isTrue h =>
        rw [isEnd_iff.mp h]
        cases k <;> rfl
      case isFalse h => exact iht (htail.resolve_left fun he => h (isEnd_iff.mpr he))
    rw [shown_row, same, hsame, htail, Row.length_mapValues, (Row.sorted_perm fields).length_eq]
    simp

/-! ## Reading back -/

/-- The text of a type; there is none if a label of it is too long. -/
def spelled (t : Ty) : Except Label.Unranked (List Char) :=
  match t.unranked? with
  | some why => .error why
  | none => .ok t.chars

/-- What a text denotes is written. -/
theorem written_of_parse {s : List Char} {t : Ty} (h : parse s = .ok t) : t.Written :=
  ((gives_grammar s).of_whole h).choose_spec.1

/-- **A written type is read from its text** as what the text shows of it. -/
theorem Written.parse_chars {t : Ty} (ht : t.Written) : parse t.chars = .ok t.shown := by
  have h := ht.found.2 (t.chars.length + 1) (Nat.lt_succ_self _) [] ends_nil
  rw [List.append_nil] at h
  exact Finds.whole h

/-- **A type that was read is read back from its text as the same type**, just if it has a text. -/
theorem exists_reread_iff {s : List Char} {t : Ty} (h : parse s = .ok t) :
    (∃ cs t', t.spelled = .ok cs ∧ parse cs = .ok t' ∧ t.same t' = true) ↔ t.unranked? = none := by
  have ht := written_of_parse h
  constructor
  · rintro ⟨cs, -, hcs, -⟩
    rw [spelled] at hcs
    split at hcs
    · cases hcs
    · assumption
  · intro hranked
    refine ⟨t.chars, t.shown, ?_, ht.parse_chars, ht.same_shown⟩
    rw [spelled, hranked]

/-- A record of a record and a tuple is read back, with its fields in order. -/
theorem exists_reread_of_record :
    ∃ t, parse "\x7bb: \x7bx: N | r\x7d, a: (N, C)\x7d".toList = .ok t ∧
    ∃ cs t', t.spelled = .ok cs ∧ parse cs = .ok t' ∧ t.same t' = true :=
  have h : parse "\x7bb: \x7bx: N | r\x7d, a: (N, C)\x7d".toList =
      .ok (closedRecord [("b", row .record [("x", number)] (var 17)),
        ("a", closedRecord (Row.positional [number, char]))]) := by cbv
  ⟨_, h, (exists_reread_iff h).mpr (by cbv)⟩

/-- A label of more digits than an integer may have. -/
def longLabel : Label := String.ofList (List.replicate (Decimal.digitLimit + 1) '1')

theorem unranked?_longLabel :
    Label.unranked? longLabel = some (.long (Decimal.digitLimit + 1)) := by
  have hdecimal : Text.isDecimal '1' = true := by decide
  have hlike : Text.isDigitLike '1' = true := by decide
  simp only [Label.unranked?, longLabel, String.toList_ofList, List.all_replicate, hlike,
    List.takeWhile_replicate, hdecimal, if_true, List.length_replicate]
  simp

theorem written_longLabel : Label.Written longLabel := by
  rw [Label.Written, longLabel, String.toList_ofList]
  refine ⟨by simp, Or.inr fun c hc => ?_⟩
  rw [List.eq_of_mem_replicate hc]
  decide

/-- **A label that is too long is read and not written.** -/
theorem not_reread_of_longLabel : ∃ s t, parse s = .ok t ∧
    ¬ ∃ cs t', t.spelled = .ok cs ∧ parse cs = .ok t' ∧ t.same t' = true := by
  have hwritten : (closedRecord [(longLabel, number)]).Written := by
    refine written_closedRecord ⟨List.nodup_singleton _, fun p hp => ?_⟩
    obtain rfl := List.mem_singleton.mp hp
    exact ⟨written_longLabel, trivial⟩
  refine ⟨_, closedRecord [(longLabel, number)], hwritten.parse_chars, ?_⟩
  rintro ⟨cs, -, hcs, -⟩
  have hlong : (closedRecord [(longLabel, number)]).unranked?
      = some (.long (Decimal.digitLimit + 1)) := by
    rw [closedRecord, unranked?, Row.unranked?, Row.labels, List.map_singleton, List.findSome?_cons,
      unranked?_longLabel]
    rfl
  rw [spelled, hlong] at hcs
  cases hcs

end Ty

end RowLang
