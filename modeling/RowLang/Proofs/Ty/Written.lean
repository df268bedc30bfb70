import RowLang.Proofs.Parser.Mark
import RowLang.Proofs.Ty.Tidy
import RowLang.Ty.Grammar

/-!
# Proofs/Ty/Written — the types that texts denote

What the grammar reads is `Written`: its variables are letters, no row has a label twice, labels are
letters or digits, and the markers of closed rows stand at the ends of rows of their kind only.
Reading never stops, and it leaves a text behind the type that it reads (`Ty.gives_grammar`).
-/

namespace RowLang.Ty

open RowLang.Parser RowLang.Grammar

mutual

/-- A type that a text denotes. -/
def Written : Ty → Prop
  | number | char => True
  | unit | empty => False
  | var n => n < 26
  | arrow a b => Written a ∧ Written b
  | list t => Written t
  | row k fields tail => (Row.Distinct fields ∧ ∀ l ∈ Row.labels fields, Label.Written l) ∧
      WrittenFields fields ∧ (tail = k.end ∨ Written tail)
  | bind _ n body => n < 26 ∧ Written body

/-- Fields whose types texts denote. -/
def WrittenFields : List (Label × Ty) → Prop
  | [] => True
  | (_, t) :: fields => Written t ∧ WrittenFields fields

end

theorem writtenFields_iff {fields : Row Ty} : WrittenFields fields ↔ ∀ p ∈ fields, p.2.Written := by
  induction fields with
  | nil => simp [WrittenFields]
  | cons p fields ih => simp [WrittenFields, ih]

/-- What a row needs to be denoted by a text. -/
theorem written_row {k : RowKind} {fields : Row Ty} {tail : Ty} :
    (row k fields tail).Written ↔ GoodFields Written fields ∧ (tail = k.end ∨ tail.Written) := by
  rw [Written, writtenFields_iff, goodFields_iff]
  exact and_assoc.symm

/-- A type is written, and a text is left behind it. -/
def Reads (s : List Char) (t : Ty) (rest : List Char) : Prop :=
  t.Written ∧ Past (fun _ => True) s rest

theorem written_closedRecord {fields : Row Ty} (h : GoodFields Written fields) :
    (closedRecord fields).Written := written_row.mpr ⟨h, Or.inl rfl⟩

/-- What stands in parentheses is denoted by a text: one type by itself, or a tuple. -/
theorem written_ofItems {ts : List Ty} (h : ∀ t ∈ ts, t.Written) : (ofItems ts).Written := by
  match ts, h with
  | [t], h => exact h t List.mem_cons_self
  | [], h => exact written_closedRecord (goodFields_positional h)
  | _ :: _ :: _, h => exact written_closedRecord (goodFields_positional h)

/-- The number of a lower-case letter. -/
theorem letter_lt {c : Char} (h : Text.isLower c = true) : c.toNat - 97 < 26 := by
  rw [Text.isLower, Bool.and_eq_true, decide_eq_true_iff, decide_eq_true_iff] at h
  have : c.toNat ≤ 122 := h.2
  omega

variable {s : List Char}

theorem gives_variable {D : Nat → Prop} :
    Gives Never (fun n rest => n < 26 ∧ Past D s rest) (variableToken s) := by
  refine Gives.map (gives_token fun bs t w rest hb hs hl => ?_)
  obtain ⟨c, rfl, rfl, hc⟩ := Lexer.one_eq_some (Lexer.unlessBefore_eq_some hl)
  refine ⟨letter_lt hc, hs ▸ (behind_blank hb).past (past_append (t := [c]) ?_ (by simp))⟩
  intro d hd
  rw [List.mem_singleton.mp hd]
  exact neutral_of_isLetter (by rw [Text.isLetter, show (_ && _) = true from hc, Bool.true_or])

section

variable {self : Parser Ty}
  (hself : ∀ t : List Char, t.length < s.length → Gives Never (Reads t) (self t))
include hself

theorem gives_inside {D : Nat → Prop} {t : List Char} (ht : t.length < s.length) :
    Gives Never (fun u rest => u.Written ∧ Past D t rest) (self t) :=
  (hself t ht).weaken fun _ _ h => ⟨h.1, h.2.mono fun _ _ => trivial⟩

/-- A row is written. -/
theorem gives_row (k : RowKind) {opening closing : String} {o c : Char}
    (ho : opening.toList = [o] ∧ o ∈ ['(', '[', '\x7b', '<'])
    (hc : closing.toList = [c] ∧ c ∈ [')', ']', '\x7d', '>']) :
    Gives Never (Reads s) (rowGrammar self k opening closing s) := by
  refine Gives.map (gives_brackets (G := fun r : Row Ty × Ty => (row k r.1 r.2).Written) ho hc
    fun t ht => ?_)
  refine (gives_fields (D := fun _ => True) (G := Written) fun u hu => gives_field fun v hv =>
    gives_inside hself (hv.trans_le (hu.trans ht.le))).both fun fields mid ⟨hfields, hmid⟩ => ?_
  refine Gives.optional ((gives_neutral_literal (D := inside fun _ => True) (by decide)
    (by decide)).before fun _ u hu => ?_) ⟨written_row.mpr ⟨hfields, Or.inl rfl⟩, hmid⟩
  have hlt := hu.length_lt.trans_le (hmid.length_le.trans ht.le)
  exact (gives_inside hself hlt).weaken fun tail rest h =>
    ⟨written_row.mpr ⟨hfields, Or.inr h.1⟩, (hmid.trans hu.behind).trans h.2.behind⟩

/-- What needs no parentheses is written. -/
theorem gives_atom : Gives Never (Reads s) (atomGrammar self s) := by
  refine gives_firstOf ?_
  simp only [List.forall_mem_cons, List.not_mem_nil, IsEmpty.forall_iff, implies_true, and_true]
  refine ⟨?_, ?_, ?_, ?_, ?_, ?_, ?_⟩
  · exact Gives.map ((gives_neutral_keyword (by decide) (by decide)).weaken fun _ _ h =>
      ⟨trivial, h⟩)
  · exact Gives.map ((gives_neutral_keyword (by decide) (by decide)).weaken fun _ _ h =>
      ⟨trivial, h⟩)
  · exact Gives.map (gives_brackets (G := Written) ⟨rfl, by decide⟩ ⟨rfl, by decide⟩ fun t ht =>
      (gives_inside hself ht).weaken fun _ _ h => ⟨h.1, h.2.behind⟩)
  · refine Gives.map
      ((gives_brackets (G := fun ts : List Ty => ∀ t ∈ ts, t.Written) ⟨rfl, by decide⟩
      ⟨rfl, by decide⟩ fun t ht => gives_commaList fun u hu =>
        gives_inside hself (hu.trans_lt ht)).weaken fun ts _ h => ⟨written_ofItems h.1, h.2⟩)
  · exact gives_row hself .record ⟨rfl, by decide⟩ ⟨rfl, by decide⟩
  · exact gives_row hself .variant ⟨rfl, by decide⟩ ⟨rfl, by decide⟩
  · exact Gives.map gives_variable

theorem gives_binder (b : Binder) : Gives Never (Reads s) (binderGrammar self b s) := by
  have hword : b.word.toList ≠ [] ∧ ∀ c ∈ b.word.toList, Neutral c := by cases b <;> decide
  refine Gives.map (Gives.both (P := fun n rest => n < 26 ∧ Past (fun _ => True) s rest)
    ((gives_neutral_keyword hword.1 hword.2).before fun _ t ht =>
      gives_variable.weaken fun n rest h => ⟨h.1, ht.trans h.2.behind⟩) fun n t ⟨hn, ht⟩ => ?_)
  refine (gives_neutral_literal (D := fun _ => True) (by decide) (by decide)).before
    fun _ u hu => ?_
  exact (gives_inside hself (hu.length_lt.trans ht.length_lt)).weaken fun body rest h =>
    ⟨⟨hn, h.1⟩, (ht.trans hu.behind).trans h.2.behind⟩

/-- **One step of the grammar keeps to what is written**, if it does on shorter texts. -/
theorem gives_step : Gives Never (Reads s) (step self s) := by
  refine gives_firstOf ?_
  simp only [List.forall_mem_cons, List.not_mem_nil, IsEmpty.forall_iff, implies_true, and_true]
  refine ⟨gives_binder hself .forAll, gives_binder hself .mu, ?_⟩
  refine (gives_atom hself).bind fun arg t ⟨harg, ht⟩ => Gives.optional (Gives.map ?_) ⟨harg, ht⟩
  refine (gives_arrow (D := fun _ => True)).before fun _ u hu => ?_
  exact (gives_inside hself (hu.length_lt.trans ht.length_lt)).weaken fun res rest h =>
    ⟨⟨harg, h.1⟩, (ht.trans hu.behind).trans h.2.behind⟩

end

/-- **What the grammar reads is written.** -/
theorem gives_grammar (s : List Char) : Gives Never (Reads s) (grammar s) :=
  gives_knot (P := fun _ => Reads) (fun _ _ _ h => gives_step (h ())) () s

end RowLang.Ty
