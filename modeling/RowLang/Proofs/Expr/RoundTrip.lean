import RowLang.Proofs.Expr.Printed

/-!
# Proofs/Expr/RoundTrip — expressions are read back from their texts

An expression that was read is written as a text that is read again, and what is read then is what
the text shows of it.  That is the same expression, unless a record has a name alone for a field
that is the word of an operator: the text spells the field out, and there the word is the operator.
A text has the expression only if all labels of its types are short enough to be put in order
(`Expr.spelled`).
-/

namespace RowLang.Expr

open RowLang.Parser

/-- The text of an expression; there is none if a type in it has none. -/
def spelled (e : Expr) : Except Label.Unranked (List Char) :=
  match e.unranked? with
  | some why => .error why
  | none => .ok e.chars

/-- **A legible expression is read from its text** as what the text shows of it. -/
theorem Legible.parse_chars {e : Expr} (h : e.Legible) : parse e.chars = .ok e.shown := by
  have hled := (h.recognized e.chars.length 0 (by decide) le_rfl).takes.finds ends_nil
  rw [List.append_nil] at hled
  exact Finds.whole hled

/-- **An expression that was read is read back from its text as the same expression**, just if it
has a text and no variable of it is called like an operator. -/
theorem exists_reading_back_iff {s : List Char} {e : Expr} (h : parse s = .ok e) (hr : e.Reread) :
    (∃ cs e', e.spelled = .ok cs ∧ parse cs = .ok e' ∧ e.same e' = true) ↔
      e.unranked? = none ∧ ∀ x ∈ e.vars, Operator.ofWord? x = none := by
  have hlegible := (written_of_parse h).legible hr
  constructor
  · rintro ⟨cs, e', hcs, hparse, hsame⟩
    rw [spelled] at hcs
    split at hcs
    · cases hcs
    · cases hcs
      rw [hlegible.parse_chars] at hparse
      cases hparse
      exact ⟨‹_›, hlegible.same_shown_iff.mp hsame⟩
  · rintro ⟨hranked, hvars⟩
    refine ⟨e.chars, e.shown, ?_, hlegible.parse_chars, hlegible.same_shown_iff.mpr hvars⟩
    rw [spelled, hranked]

set_option maxRecDepth 4000 in
/-- A function with a name alone for a field, a projection and a real is read back. -/
theorem exists_reading_back_of_lambda : ∃ e, parse "x => \x7bx, y: 0.5 * x.0\x7d".toList = .ok e ∧
    ∃ cs e', e.spelled = .ok cs ∧ parse cs = .ok e' ∧ e.same e' = true := by
  let half := Numeral.real (.finite false 4503599627370496 (-53))
  let e := lambda (.name "x")
    (record [("x", var "x"), ("y", binary .times (number half) (project (var "x") "0"))])
  have h : parse "x => \x7bx, y: 0.5 * x.0\x7d".toList = .ok e := by rfl
  have hreals : ∀ x ∈ e.reals, Numeral.readAlone? x.chars = some x := by decide +kernel
  exact ⟨e, h, (exists_reading_back_iff h hreals).mpr (by decide +kernel)⟩

/-- **A name alone that is the word of an operator** is read as a variable and written as the
operator. -/
theorem not_reading_back_of_word : ∃ e, parse "\x7bmap\x7d".toList = .ok e ∧
    ¬ ∃ cs e', e.spelled = .ok cs ∧ parse cs = .ok e' ∧ e.same e' = true :=
  have h : parse "\x7bmap\x7d".toList = .ok (record [("map", var "map")]) := by rfl
  have hreals : (record [("map", var "map")]).Reread := fun _ hx => absurd hx List.not_mem_nil
  ⟨_, h, fun hback => absurd ((exists_reading_back_iff h hreals).mp hback) (by decide)⟩

end RowLang.Expr
