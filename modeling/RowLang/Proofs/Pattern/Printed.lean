import RowLang.Pattern.Grammar
import RowLang.Proofs.Expr.Tidy
import RowLang.Proofs.Parser.Mark
import RowLang.Pattern.Printer
import RowLang.Proofs.Parser.Words

/-!
# Proofs/Pattern/Printed — patterns and their texts

What the grammar reads is a pattern that texts denote, and it reads the text of such a pattern as
that pattern. So a pattern that was read is read back from its text as the same pattern
(`Pattern.read_back`).
-/

namespace RowLang.Pattern

open RowLang.Parser RowLang.Grammar

/-!
## The patterns that texts denote

What the grammar reads is `Written`: names are no reserved words, no row has a label twice, and
labels are letters or digits.  Reading never stops, and it leaves a text behind the pattern that it
reads (`Pattern.gives_grammar`).
-/

mutual

/-- A pattern that a text denotes. -/
def Written : Pattern → Prop
  | name x => IsName x
  | wildcard => True
  | row fields => (Row.Distinct fields ∧ ∀ l ∈ Row.labels fields, Label.Written l) ∧
      WrittenFields fields

/-- Fields whose patterns texts denote. -/
def WrittenFields : List (Label × Pattern) → Prop
  | [] => True
  | (_, p) :: fields => Written p ∧ WrittenFields fields

end

theorem writtenFields_iff {fields : Row Pattern} :
    WrittenFields fields ↔ ∀ p ∈ fields, p.2.Written := by
  induction fields with
  | nil => simp [WrittenFields]
  | cons p fields ih => simp [WrittenFields, ih]

theorem written_row {fields : Row Pattern} : (row fields).Written ↔ GoodFields Written fields := by
  rw [Written, writtenFields_iff, goodFields_iff]

theorem written_ofItems {ps : List Pattern} (h : ∀ p ∈ ps, p.Written) : (ofItems ps).Written := by
  match ps, h with
  | [p], h => exact h p List.mem_cons_self
  | [], h => exact written_row.mpr (goodFields_positional h)
  | _ :: _ :: _, h => exact written_row.mpr (goodFields_positional h)

/-- A pattern is written, and a text is left behind it. -/
def Reads (s : List Char) (p : Pattern) (rest : List Char) : Prop :=
  p.Written ∧ Past (fun _ => True) s rest

theorem gives_wildcard {s : List Char} {D : Nat → Prop} : Gives Never (fun _ rest => Past D s rest)
    (token ((Lexer.exactly ['_']).unlessBefore Text.isLetter) s) := by
  refine gives_token fun bs t w rest hb hs hl => ?_
  obtain ⟨rfl, rfl⟩ := Lexer.exactly_eq_some (Lexer.unlessBefore_eq_some hl)
  exact hs ▸ (behind_blank hb).past (past_append (by decide) (by simp))

theorem gives_step {self : Parser Pattern} {s : List Char}
    (hself : ∀ t : List Char, t.length < s.length → Gives Never (Reads t) (self t)) :
    Gives Never (Reads s) (step self s) := by
  have hinside : ∀ {D : Nat → Prop} {t : List Char}, t.length < s.length →
      Gives Never (fun p rest => p.Written ∧ Past D t rest) (self t) := fun ht =>
    (hself _ ht).weaken fun _ _ h => ⟨h.1, h.2.mono fun _ _ => trivial⟩
  refine gives_firstOf ?_
  simp only [List.forall_mem_cons, List.not_mem_nil, IsEmpty.forall_iff, implies_true, and_true]
  refine ⟨?_, ?_, ?_, ?_⟩
  · exact Gives.map (gives_wildcard.weaken fun _ _ h => ⟨trivial, h⟩)
  · exact Gives.map gives_name
  · refine Gives.map ((gives_brackets (G := fun ps : List Pattern => ∀ p ∈ ps, p.Written)
      ⟨rfl, by decide⟩ ⟨rfl, by decide⟩ fun t ht => gives_commaList fun u hu =>
        hinside (hu.trans_lt ht)).weaken fun ps _ h => ⟨written_ofItems h.1, h.2⟩)
  · refine Gives.map ((gives_brackets (G := GoodFields Written) ⟨rfl, by decide⟩ ⟨rfl, by decide⟩
      fun t ht => gives_fields fun u hu => gives_punnedField (fun v hv =>
        hinside (hv.trans_le (hu.trans ht.le))) fun x hx => show (name x).Written from hx).weaken
          fun r _ h => ⟨written_row.mpr h.1, h.2⟩)

/-- **What the grammar reads is written.** -/
theorem gives_grammar (s : List Char) : Gives Never (Reads s) (grammar s) :=
  gives_knot (P := fun _ => Reads) (fun _ _ _ h => gives_step (h ())) () s

/-!
## The text of a pattern is read as that pattern

The grammar takes the text of a written pattern for what the text shows of it
(`Pattern.Written.takes`), in front of anything but a letter or a digit.  A tuple shows its fields
in the order of their positions; that order is all that reading changes
(`Pattern.Written.same_shown`).
-/

mutual

/-- A pattern as its text shows it: the fields of a tuple stand in order. -/
@[grind] def shown : Pattern → Pattern
  | name x => name x
  | wildcard => wildcard
  | row fields =>
    if Row.isPositional fields && fields.length ≠ 1 then row (Row.sorted (shownFields fields))
    else row (shownFields fields)

/-- The fields of a row as its text shows them. -/
@[grind] def shownFields : List (Label × Pattern) → Row Pattern
  | [] => []
  | (l, p) :: fields => (l, shown p) :: shownFields fields

end

theorem shownFields_eq
    (fields : Row Pattern) : shownFields fields = Row.mapValues shown fields := by
  induction fields with
  | nil => rfl
  | cons p fields ih => rw [shownFields, ih]; rfl

theorem fieldChars_eq (fields : Row Pattern) : fieldChars fields = Row.mapValues chars fields := by
  induction fields with
  | nil => rfl
  | cons p fields ih => rw [fieldChars, ih]; rfl

/-! ### Equality up to the order of fields -/

theorem sameFields_of_forall {fields others : Row Pattern}
    (h : ∀ p ∈ fields, ∃ q, others.lookup p.1 = some q ∧ p.2.same q = true) :
    sameFields fields others = true := by
  induction fields with
  | nil => rfl
  | cons p fields ih =>
    obtain ⟨q, hq, hsame⟩ := h p List.mem_cons_self
    rw [sameFields, hq, ih fun r hr => h r (List.mem_cons_of_mem _ hr)]
    simpa using hsame

/-- **A written pattern is what its text shows of it**, up to the order of fields. -/
theorem Written.same_shown {p : Pattern} (hp : p.Written) : p.same p.shown = true := by
  induction p using Pattern.inductOn with
  | name x => exact decide_eq_true rfl
  | wildcard => rfl
  | row fields ih =>
    have hfields := written_row.mp hp
    have hlookup : ∀ p ∈ fields, (Row.mapValues shown fields).lookup p.1 = some p.2.shown :=
      fun p h => by
      rw [Row.lookup_mapValues, hfields.1.lookup_of_mem h]
      rfl
    have hsame : ∀ others : Row Pattern, others.length = fields.length →
        (∀ l, others.lookup l = (Row.mapValues shown fields).lookup l) →
          (row fields).same (row others) = true := by
      intro others hlen hothers
      rw [same, hlen, sameFields_of_forall fun p h => ⟨p.2.shown, by rw [hothers, hlookup p h],
        ih p h (hfields.2 p h).2⟩]
      simp
    rw [shown, shownFields_eq]
    split
    case isTrue =>
      refine hsame _ ?_ fun l => Row.lookup_sorted (hfields.1.mapValues shown) l
      rw [(Row.sorted_perm _).length_eq, Row.length_mapValues]
    case isFalse => exact hsame _ (Row.length_mapValues _ _) fun _ => rfl

/-! ### What a grammar begins with -/

variable {self : Parser Pattern} {rest : List Char}

/-- What begins each kind of pattern. -/
def leads : List (Char → Bool) := [only '_', Text.isLetter, only '(', only '\x7b']

theorem begins_identifier : Begins Text.isLetter identifier :=
  Begins.bind (begins_token fun c s hc => Lexer.run1_eq_none fun d hd => by
    obtain rfl := Option.some.inj (Option.mem_def.mp hd)
    exact hc) _

theorem begins_step (self : Parser Pattern) : List.Forall₂ Begins leads
    [(token ((Lexer.exactly ['_']).unlessBefore Text.isLetter)).map fun _ => wildcard,
      identifier.map name,
      (between "(" (commaList self) ")").map ofItems,
      (between "\x7b" (rowOf (punnedField self name)) "\x7d").map row] :=
  .cons ((begins_token fun _ _ hc => Lexer.unlessBefore_eq_none (Lexer.exactly_eq_none
    (not_prefix_of_head rfl (Ne.symm (of_decide_eq_false hc))))).map _) <|
  .cons (begins_identifier.map _) <| .cons ((begins_between rfl).map _) <|
  .cons ((begins_between rfl).map _) .nil

theorem refuses_step {c : Char} {s : List Char} (hb : Text.isBlank c = false)
    (hc : ∀ P ∈ leads, P c = false) : Refuses (step self) (c :: s) :=
  refuses_firstOf (refuses_of_begins (begins_step self) hb hc)

theorem skips_step (self : Parser Pattern) : Skips (step self) := by
  refine skips_firstOf ?_
  simp only [List.forall_mem_cons, List.not_mem_nil, IsEmpty.forall_iff, implies_true, and_true]
  exact ⟨(skips_token _).map _, skips_identifier.map _, (skips_between _ _ _).map _,
    (skips_between _ _ _).map _⟩

/-- The grammar of patterns, unrolled. -/
def unrolled (n : Nat) : Parser Pattern := unroll (fun self (_ : Unit) => step (self ())) n ()

/-! ### All patterns -/

/-- A pattern is taken from its text, in front of what ends a word. -/
def Recognized (p : Pattern) : Prop := ∀ n, p.chars.length < n → Takes Text.Closes
    (unrolled n) p.chars p.shown

/-- What a pattern is found to be by one step. -/
theorem recognized_of_step {p : Pattern} (h : ∀ n, p.chars.length ≤ n → ∀ rest, Text.Closes rest →
    Finds (step (unrolled n)) (p.chars ++ rest) p.shown rest) : p.Recognized := by
  intro n hn
  obtain ⟨n, rfl⟩ := Nat.exists_eq_succ_of_ne_zero (Nat.ne_of_gt (Nat.zero_lt_of_lt hn))
  exact (skips_step _).takes fun rest hr => h n (Nat.le_of_lt_succ hn) rest hr

theorem recognized_name {x : String} (hx : IsName x) : (name x).Recognized := by
  refine recognized_of_step fun n _ rest hr => ?_
  have hfound := (finds_identifier hx hr).map name
  rw [chars, shown]
  obtain ⟨c, w, hw⟩ := List.exists_cons_of_ne_nil hx.1
  have hletter : Text.isLetter c = true := hx.2.1 c (hw ▸ List.mem_cons_self)
  have hne : only '_' c = false := decide_eq_false fun he => by
    rw [he] at hletter
    cases hletter
  rw [hw, List.cons_append] at hfound ⊢
  exact Finds.firstOf_nth (begins_step _) (Text.isBlank_of_isWordChar (by
    rw [Text.isWordChar, hletter, Bool.true_or])) 1 rfl (by simpa [leads] using hne) hfound

theorem recognized_wildcard : wildcard.Recognized := recognized_of_step fun n _ rest hr => by
  rw [chars, shown, List.singleton_append]
  exact ((finds_token (solid_cons (by decide) rest) (Lexer.unlessBefore_of_some
    (Lexer.exactly_append ['_'] rest) hr.not_isLetter)).map _).firstOf

theorem recognized_tuple {fields : Row Pattern}
    (htuple : Row.isPositional fields && fields.length ≠ 1)
    (h : ∀ p ∈ fields, p.2.Recognized) : (row fields).Recognized := by
  have hitems : Row.sortedValues (fieldChars fields) = (Row.sortedValues fields).map chars := by
    rw [fieldChars_eq, Row.sortedValues, Row.sorted_mapValues]
    simp [Row.sortedValues, Row.mapValues]
  have hchars : (row fields).chars
      = '(' :: (commaSeparated ((Row.sortedValues fields).map chars) ++ [')']) := by
    rw [chars, if_pos htuple, hitems]
    rfl
  have hshown : (row fields).shown = ofItems ((Row.sortedValues fields).map shown) := by
    rw [shown, if_pos htuple, shownFields_eq, Row.sorted_mapValues]
    rw [Bool.and_eq_true, decide_eq_true_iff] at htuple
    have hlength : ((Row.sortedValues fields).map shown).length ≠ 1 := by
      rw [List.length_map, Row.sortedValues, List.length_map, (Row.sorted_perm fields).length_eq]
      exact htuple.2
    have hof : ∀ {ps : List Pattern}, ps.length ≠ 1 → ofItems ps = row (Row.positional ps) := by
      intro ps hps
      cases ps with
      | nil => rfl
      | cons p ps =>
        cases ps with
        | nil => exact absurd rfl hps
        | cons => rfl
    rw [hof hlength, Row.positional_map, Row.positional_sortedValues htuple.1]
  refine recognized_of_step fun n hn rest hr => ?_
  rw [hchars, hshown]
  rw [hchars] at hn
  have hitem : ∀ p ∈ Row.sortedValues fields, Takes Text.Closes (unrolled n) p.chars p.shown := by
    intro p hp
    obtain ⟨q, hq, rfl⟩ := List.mem_map.mp hp
    refine h q (Row.mem_sorted.mp hq) n (lt_of_le_of_lt ?_ hn)
    have := length_le_commaSeparated (List.mem_map_of_mem (f := chars) hp)
    simp only [List.length_append]
    omega
  have hfound := finds_commaList (r := ')' :: rest) (fun r => Text.closes_cons (by decide) r)
    (Text.closes_cons (by decide) rest) hitem
    (begins_literal rfl _ _ (by decide) (by decide)) fun _ => ?_
  · rw [List.cons_append, List.append_assoc]
    exact Finds.firstOf_nth (begins_step _) (by decide) 2 rfl (by decide)
      ((finds_between (o := "(") (c := ")") (solid_cons (by decide) _) hfound
        (solid_cons (by decide) _)).map ofItems)
  · obtain ⟨n, rfl⟩ := Nat.exists_eq_succ_of_ne_zero (Nat.ne_of_gt (Nat.zero_lt_of_lt hn))
    exact refuses_step (by decide) (by decide)

theorem recognized_braces {fields : Row Pattern} (hfields : GoodFields Written fields)
    (hbraces : ¬ (Row.isPositional fields && fields.length ≠ 1))
    (h : ∀ p ∈ fields, p.2.Recognized) :
    (row fields).Recognized := by
  let text (p : Label × Pattern) : List Char := labelled (p.1, p.2.chars)
  have hchars : (row fields).chars = '\x7b' :: (commaSeparated (fields.map text) ++ ['\x7d']) := by
    rw [chars, if_neg hbraces, fieldChars_eq, Row.mapValues, List.map_map]
    rfl
  have hshown : (row fields).shown = row (Row.ofPairs (fields.map fun p => (p.1, p.2.shown))) := by
    rw [shown, if_neg hbraces, shownFields_eq]
    exact congrArg row (Row.ofPairs_eq_self (hfields.1.mapValues shown)).symm
  refine recognized_of_step fun n hn rest hr => ?_
  rw [hchars, hshown]
  rw [hchars] at hn
  have hitem : ∀ p ∈ fields, Takes Text.Closes (punnedField (unrolled n) name) (text p)
      (p.1, p.2.shown) := by
    intro p hp bs r hb hends
    refine (takes_field (hfields.2 p hp).1 (h p hp n (lt_of_le_of_lt ?_ hn)) bs r hb hends).firstOf
    have := length_le_commaSeparated (List.mem_map_of_mem (f := text) hp)
    simp only [text, labelled, List.length_append, List.length_cons] at this ⊢
    omega
  have hfound := finds_commaList (r := '\x7d' :: rest) (fun r => Text.closes_cons (by decide) r)
    (Text.closes_cons (by decide) rest) hitem
    (begins_literal rfl _ _ (by decide) (by decide)) fun _ => ?_
  · rw [List.cons_append, List.append_assoc]
    exact Finds.firstOf_nth (begins_step _) (by decide) 3 rfl (by decide)
      ((finds_between (o := "\x7b") (c := "\x7d") (solid_cons (by decide) _)
        (hfound.map Row.ofPairs) (solid_cons (by decide) _)).map row)
  · refine refuses_firstOf ?_
    simp only [List.forall_mem_cons, List.not_mem_nil, IsEmpty.forall_iff, implies_true, and_true]
    exact ⟨(refuses_label (solid_cons (by decide) _) (Text.closes_cons (by decide) _)).both,
      (begins_identifier _ _ (by decide) (by decide)).map _⟩

theorem Written.recognized {p : Pattern} (hp : p.Written) : p.Recognized := by
  induction p using Pattern.inductOn with
  | name x => exact recognized_name hp
  | wildcard => exact recognized_wildcard
  | row fields ih =>
    have hfields := written_row.mp hp
    have hparts : ∀ p ∈ fields, p.2.Recognized := fun p h => ih p h (hfields.2 p h).2
    by_cases htuple : (Row.isPositional fields && decide (fields.length ≠ 1)) = true
    · exact recognized_tuple htuple hparts
    · exact recognized_braces hfields htuple hparts

/-- **The grammar takes the text of a pattern for what it shows.** -/
theorem Written.takes {p : Pattern}
    (hp : p.Written) : Takes Text.Closes grammar p.chars p.shown := by
  intro bs rest hb hr
  rw [Finds, grammar, knot]
  exact hp.recognized _ (by simp only [List.length_append]; omega) bs rest hb hr

/-!
## Patterns are read back

Every pattern that was read has a text, since only the labels of a tuple are put in order, and these
are positions.  What is read from that text is what the text shows of it: a tuple shows its fields
in the order of their positions, whatever their order was, and a name alone is spelled out.
-/

/-- What a text denotes is written. -/
theorem written_of_parse {s : List Char} {p : Pattern} (h : parse s = .ok p) : p.Written :=
  ((gives_grammar s).of_whole h).choose_spec.1

/-- **A written pattern is read from its text** as what the text shows of it. -/
theorem Written.parse_chars {p : Pattern} (hp : p.Written) : parse p.chars = .ok p.shown := by
  have h := hp.takes.finds Text.closes_nil
  rw [List.append_nil] at h
  exact Finds.whole h

/-- **A pattern that was read is read back from its text as the same pattern.** -/
theorem read_back {s : List Char} {p : Pattern} (h : parse s = .ok p) :
    ∃ q, parse p.chars = .ok q ∧ p.same q = true :=
  ⟨p.shown, (written_of_parse h).parse_chars, (written_of_parse h).same_shown⟩

/-- A tuple in braces, its fields out of order, with a tuple of one, a repeated label and a name
alone. -/
theorem read_back_of_braces : ∃ p,
    parse "\x7b1: (_, (x)), 0: \x7b0: y, z, 00: w, z: \x7b\x7d\x7d\x7d".toList = .ok p ∧
      p.chars = "(\x7b0: y, z: (), 00: w\x7d, (_, x))".toList ∧
      ∃ q, parse p.chars = .ok q ∧ p.same q = true :=
  have h : parse "\x7b1: (_, (x)), 0: \x7b0: y, z, 00: w, z: \x7b\x7d\x7d\x7d".toList =
      .ok (row [("1", row [("0", wildcard), ("1", name "x")]),
        ("0", row [("0", name "y"), ("z", row []), ("00", name "w")])]) := by rfl
  ⟨_, h, by rfl, read_back h⟩

end RowLang.Pattern
