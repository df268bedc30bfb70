import RowLang.Proofs.Parser.Finds
import RowLang.Proofs.Text.Word

/-!
# Proofs/Parser/Words — names, labels and rows that are found

A name or a label is found in front of what closes a word.  Things with commas between them are
found one by one, if each is found in front of a comma, and the last one in front of what comes
behind all of them.
-/

namespace RowLang

/-- A row that has no label twice is the row of its pairs. -/
theorem Row.ofPairs_eq_self {α : Type} {r : Row α} (h : r.Distinct) : Row.ofPairs r = r := by
  have hset : ∀ {r : Row α} {p : Label × α}, p.1 ∉ r.labels → r.set p.1 p.2 = r ++ [p] := by
    intro r p hp
    induction r with
    | nil => rfl
    | cons q r ih =>
      rw [Row.labels_cons, List.mem_cons, not_or] at hp
      rw [Row.set, if_neg (Ne.symm hp.1), ih hp.2]
      rfl
  have hfold : ∀ (ps r : Row α), (Row.labels (r ++ ps)).Nodup →
      ps.foldl (fun r p => r.set p.1 p.2) r = r ++ ps := by
    intro ps
    induction ps with
    | nil => simp
    | cons p ps ih =>
      intro r hnodup
      have hp : p.1 ∉ r.labels := fun hmem => by
        simp only [Row.labels, List.map_append, List.map_cons] at hnodup hmem
        exact List.nodup_append.mp hnodup |>.2.2 _ hmem _ List.mem_cons_self rfl
      rw [List.foldl_cons, hset hp, ih _ (by simpa using hnodup)]
      simp
  exact hfold r [] h

/-- The first of some texts, and the others behind a comma each. -/
theorem commaSeparated_cons (x : List Char) (l : List (List Char)) :
    commaSeparated (x :: l) = x ++ l.flatMap fun y => ',' :: ' ' :: y := by
  induction l generalizing x with
  | nil => simp [commaSeparated_singleton]
  | cons y l ih => rw [commaSeparated_cons_cons, ih, List.flatMap_cons]; rfl

theorem length_le_commaSeparated {x : List Char} {l : List (List Char)} (h : x ∈ l) :
    x.length ≤ (commaSeparated l).length := by
  obtain ⟨y, l, rfl⟩ := List.exists_cons_of_ne_nil (List.ne_nil_of_mem h)
  rw [commaSeparated_cons, List.length_append]
  rcases List.mem_cons.mp h with rfl | h
  · omega
  · have := (List.sublist_flatten_of_mem
      (List.mem_map_of_mem (f := fun y => ',' :: ' ' :: y) h)).length_le
    rw [List.flatMap_def]
    simp only [List.length_cons] at this
    omega

theorem Text.Closes.not_isLetter {r : List Char}
    (h : Closes r) : ∀ c ∈ r.head?, isLetter c = false :=
  fun c hc => (Bool.or_eq_false_iff.mp (h c hc)).1

theorem Text.Closes.not_isAsciiDigit {r : List Char} (h : Closes r) :
    ∀ c ∈ r.head?, isAsciiDigit c = false := fun c hc => (Bool.or_eq_false_iff.mp (h c hc)).2

/-- A word stands out from blanks. -/
theorem Text.isBlank_of_isWordChar {c : Char} (h : isWordChar c = true) : isBlank c = false := by
  have hbounds : 0x30 ≤ c.toNat ∧ c.toNat ≤ 0x7a := by
    simp only [isWordChar, isLetter, isAsciiDigit, Bool.or_eq_true, Bool.and_eq_true,
      decide_eq_true_iff] at h
    have hle : ∀ {a b : Char}, a ≤ b → a.toNat ≤ b.toNat := fun h => h
    rcases h with (⟨h, h'⟩ | ⟨h, h'⟩) | ⟨h, h'⟩ <;>
      exact ⟨le_trans (by decide) (hle h), le_trans (hle h') (by decide)⟩
  simp only [isBlank, blanks, Ranges.covers, List.any_cons, List.any_nil, Bool.or_false,
    Bool.or_eq_false_iff, Bool.and_eq_false_iff, decide_eq_false_iff_not]
  omega

theorem Text.not_isLetter_of_isAsciiDigit {c : Char} (h : isAsciiDigit c = true) :
    isLetter c = false := by
  simp only [isAsciiDigit, Bool.and_eq_true, decide_eq_true_iff] at h
  have hle : c.toNat ≤ 0x39 := h.2
  rw [isLetter, Bool.or_eq_false_iff, Bool.and_eq_false_iff, Bool.and_eq_false_iff]
  refine ⟨Or.inl ?_, Or.inl ?_⟩ <;> rw [decide_eq_false_iff_not] <;> intro hc
  · have : 0x61 ≤ c.toNat := hc
    omega
  · have : 0x41 ≤ c.toNat := hc
    omega

theorem Label.Written.isWord {l : Label} (h : Label.Written l) : Text.IsWord l.toList :=
  fun c hc => by
  rw [Text.isWordChar, Bool.or_eq_true]
  exact h.2.imp (fun h => h c hc) fun h => h c hc

theorem Parser.solid_word {w : List Char} (hne : w ≠ []) (hw : Text.IsWord w) (s : List Char) :
    Solid (w ++ s) := by
  obtain ⟨c, w, rfl⟩ := List.exists_cons_of_ne_nil hne
  exact solid_cons (Text.isBlank_of_isWordChar (hw c List.mem_cons_self)) _

namespace Grammar

open RowLang.Parser

variable {α β : Type} {rest : List Char}

theorem finds_label {l : Label} (hl : Label.Written l) (hr : Text.Closes rest) :
    Finds label (l.toList ++ rest) l rest := by
  have hlexer : ((Lexer.run1 Text.isLetter).orElse (Lexer.run1 Text.isAsciiDigit))
    (l.toList ++ rest)
      = some (l.toList, rest) := by
    rw [Lexer.orElse]
    rcases hl.2 with hw | hw
    · rw [Lexer.run1_append hl.1 hw hr.not_isLetter]
      rfl
    · obtain ⟨c, w, hcw⟩ := List.exists_cons_of_ne_nil hl.1
      rw [Lexer.run1_eq_none fun d hd => ?_, Lexer.run1_append hl.1 hw hr.not_isAsciiDigit]
      · rfl
      · rw [hcw] at hd
        obtain rfl := Option.some.inj hd
        exact Text.not_isLetter_of_isAsciiDigit (hw _ (hcw ▸ List.mem_cons_self))
  have h := (finds_token (solid_word hl.1 hl.isWord rest) hlexer).map String.ofList
  rwa [String.ofList_toList] at h

theorem finds_identifier {x : String} (hx : IsName x) (hr : Text.Closes rest) :
    Finds identifier (x.toList ++ rest) x rest := by
  have hw : Text.IsWord x.toList := hx.written.isWord
  refine (finds_token (solid_word hx.1 hw rest)
    (Lexer.run1_append hx.1 hx.2.1 hr.not_isLetter)).bind ?_
  rw [String.ofList_toList, if_neg fun h => hx.2.2 (List.contains_iff_mem.mp h)]
  exact finds_pure

theorem skips_label : Skips label := (skips_token _).map _

theorem skips_identifier : Skips identifier := (skips_token _).bind _

/-- No label comes first. -/
theorem refuses_label {s : List Char} (hs : Solid s) (h : Text.Closes s) : Refuses label s := by
  refine (refuses_token hs ?_).map _
  rw [Lexer.orElse, Lexer.run1_eq_none h.not_isLetter, Lexer.run1_eq_none h.not_isAsciiDigit]
  rfl

section CommaList

variable {p : Parser β} {xs : List α} {text : α → List Char} {value : α → β} {E : List Char → Prop}
  {r : List Char}

/-- **Things with commas between them are found one by one.** -/
theorem finds_commaList (hcomma : ∀ s, E (',' :: s)) (hrest : E r)
    (hread : ∀ x ∈ xs, Takes E p (text x) (value x))
    (hsep : Refuses (literal ",") r) (hnil : xs = [] → Refuses p r) :
    Finds (commaList p) (commaSeparated (xs.map text) ++ r) (xs.map value) r := by
  cases xs with
  | nil => exact (hnil rfl).sepBy
  | cons x xs =>
    have hmore : ∀ {ys : List α}, (∀ y ∈ ys, Takes E p (text y) (value y)) →
        Repeats ((literal ",").before p) ((ys.map text).flatMap (fun y => ',' :: ' ' :: y) ++ r)
            (ys.map value) r ∧
          E ((ys.map text).flatMap (fun y => ',' :: ' ' :: y) ++ r) := by
      intro ys hys
      induction ys with
      | nil => exact ⟨.stop hsep.before, hrest⟩
      | cons y ys ih =>
        obtain ⟨hrepeats, hend⟩ := ih fun z hz => hys z (List.mem_cons_of_mem _ hz)
        simp only [List.map_cons, List.flatMap_cons, List.append_assoc, List.cons_append]
        refine ⟨.more ((finds_literal (w := ",") (solid_cons (by decide) _)).before
          ((hys y List.mem_cons_self).behind_blank hend)) ?_ hrepeats, hcomma _⟩
        simp only [List.length_cons, List.length_append]
        omega
    obtain ⟨hrepeats, hend⟩ := hmore fun y hy => hread y (List.mem_cons_of_mem _ hy)
    rw [List.map_cons, commaSeparated_cons, List.append_assoc, List.map_cons]
    exact ((hread x List.mem_cons_self).finds hend).sepBy hrepeats

end CommaList

theorem skips_field (p : Parser α) : Skips (field p) := skips_label.both _

/-- A label, a colon and a blank in front of a value. -/
theorem takes_field {E : List Char → Prop} {p : Parser α} {l : Label} (hl : Label.Written l)
    {cs : List Char} {x : α} (h : Takes E p cs x) : Takes E (field p) (labelled (l, cs)) (l, x) :=
  (skips_field p).takes fun rest hr => by
    rw [labelled, List.append_assoc]
    exact (finds_label hl (Text.closes_cons (by decide) _)).both
      ((finds_literal (w := ":") (solid_cons (by decide) _)).before (h.behind_blank hr))

end Grammar

end RowLang
