import RowLang.Proofs.Expr.Atoms
import RowLang.Proofs.Parser.Single

/-!
# Proofs/Expr/Single — no text is ambiguous

The grammars of types, patterns and expressions have at most one reading of every text.  Only the
atoms of expressions ask for a proof: there the readings of all alternatives count, and of every
text one alternative alone has any (`exists_alternative`).
-/

namespace RowLang

open RowLang.Parser RowLang.Grammar

namespace Ty

variable {self : Parser Ty}

theorem single_variableToken : Single variableToken := (single_token _).map _

/-- A record or a variant type is read in one way if types are. -/
theorem single_row (h : Single self) (k : RowKind) (opening closing : String) :
    Single (rowGrammar self k opening closing) :=
  ((((single_rowOf (single_field h)).both (((single_token _).before h).optional _)).between _ _).map
    _)

theorem single_atom (h : Single self) : Single (atomGrammar self) := by
  refine single_firstOf ?_
  simp only [List.forall_mem_cons, List.not_mem_nil, IsEmpty.forall_iff, implies_true, and_true]
  exact ⟨(single_token _).map _, (single_token _).map _, (h.between _ _).map _,
    ((single_commaList h).between _ _).map _, single_row h _ _ _, single_row h _ _ _,
    single_variableToken.map _⟩

/-- **Types are read in one way** if they are so inside. -/
theorem single_step (h : Single self) : Single (step self) := by
  have hbinder : ∀ b, Single (binderGrammar self b) := fun b =>
    (((single_token _).before single_variableToken).both ((single_token _).before h)).map _
  refine single_firstOf ?_
  simp only [List.forall_mem_cons, List.not_mem_nil, IsEmpty.forall_iff, implies_true, and_true]
  exact ⟨hbinder .forAll, hbinder .mu, (single_atom h).bind fun arg =>
    (((single_token _).before h).map _).optional arg⟩

/-- No text is two types. -/
theorem single_grammar : Single grammar := single_knot (fun _ h _ => single_step (h ())) ()

end Ty

namespace Pattern

/-- **Patterns are read in one way** if they are so inside. -/
theorem single_step {self : Parser Pattern} (h : Single self) : Single (step self) := by
  refine single_firstOf ?_
  simp only [List.forall_mem_cons, List.not_mem_nil, IsEmpty.forall_iff, implies_true, and_true]
  exact ⟨(single_token _).map _, single_identifier.map _, ((single_commaList h).between _ _).map _,
    ((single_rowOf (single_punnedField h _)).between _ _).map _⟩

/-- No text is two patterns. -/
theorem single_grammar : Single grammar := single_knot (fun _ h _ => single_step (h ())) ()

end Pattern

namespace Numeral

theorem single_grammar : Single grammar := by
  refine single_blanks.before (single_of_each fun s => ?_)
  cases parts? s with
  | none => exact ⟨fail, single_fail, rfl⟩
  | some r =>
    refine ⟨fun _ => ofParts r.1 r.2, fun _ readings h => ?_, rfl⟩
    have hparts : Single (ofParts r.1) := by
      rw [ofParts]
      split
      · split
        exacts [single_halt _, single_pure _]
      · dsimp only
        split
        exacts [single_pure _, single_fail]
    exact hparts r.2 readings h

end Numeral

namespace Expr

variable {self : Place → Parser Expr} {c : Char} {s : List Char}

/-! ## Atoms -/

/-- Where no letter follows stands the operator for sizes. -/
theorem refuses_tag (h : ∀ c ∈ s.head?, Text.isLetter c = false) :
    Refuses ((token tagLexer).map fun w => tag (String.ofList (w.drop 1))) ('#' :: s) := by
  refine (refuses_token (solid_cons (by decide) _) ?_).map _
  have hmark : Lexer.exactly ['#'] ('#' :: s) = some (['#'], s) := Lexer.exactly_append ['#'] s
  simp [tagLexer, Lexer.andThen, hmark, Lexer.run1_eq_none h]

/-- What is an import is no name. -/
theorem refuses_name_of_import
    (h : ¬ Refuses (((keyword "import").before identifier).map load) (c :: s))
    (hb : Text.isBlank c = false) :
    Refuses (identifier.map ofWord) (c :: s) := by
  by_cases hprefix : "import".toList <+: c :: s
  · obtain ⟨rest, hrest⟩ := hprefix
    have hsolid := solid_cons hb s
    rw [← hrest] at h hsolid ⊢
    refine refuses_import fun d hd => ?_
    by_contra hletter
    exact h ((refuses_keyword_of_letter hsolid
      (by simpa [Option.mem_def.mp hd] using hletter)).before.map _)
  · exact absurd ((refuses_keyword (solid_cons hb s) hprefix).before.map _) h

/-- **Of every text one kind of atom alone has readings.** -/
theorem exists_alternative (self : Place → Parser Expr) (s : List Char) :
    ∃ p ∈ plainAtoms self, choice (plainAtoms self) s = p s := by
  obtain ⟨bs, t, rfl, hb, hsolid⟩ := exists_solid s
  have hskips := skips_plainAtoms self
  suffices h : ∃ p ∈ plainAtoms self, choice (plainAtoms self) t = p t by
    obtain ⟨p, hp, heq⟩ := h
    exact ⟨p, hp, ((skips_choice hskips) bs t hb).trans (heq.trans (hskips p hp bs t hb).symm)⟩
  have hnth : ∀ i p, (plainAtoms self)[i]? = some p →
    (∀ q ∈ (plainAtoms self).eraseIdx i, Refuses q t) →
      ∃ p ∈ plainAtoms self, choice (plainAtoms self) t = p t :=
    fun i p hp hothers => ⟨p, List.mem_of_getElem? hp, choice_nth i hp hothers⟩
  cases t with
  | nil => exact ⟨_, List.mem_cons_self, rfl⟩
  | cons c u =>
    have hblank : Text.isBlank c = false := hsolid c rfl
    by_cases hletter : Text.isLetter c = true
    · by_cases himport : Refuses (((keyword "import").before identifier).map load) (c :: u)
      · exact hnth 6 _ rfl (refuses_others_but_one 6 5 hblank rfl himport (leads_letter hletter))
      · exact hnth 5 _ rfl (refuses_others_but_one 5 5 hblank rfl
          (refuses_name_of_import himport hblank) (leads_letter hletter))
    by_cases hdigit : Text.isAsciiDigit c = true
    · exact hnth 0 _ rfl (refuses_others 0 hblank (leads_digit hdigit))
    by_cases hmark : c ∈ ['-', '\'', '"', '#', '&', '[', '\x7b', '<']
    · simp only [List.mem_cons, List.not_mem_nil, or_false] at hmark
      rcases hmark with rfl | rfl | rfl | rfl | rfl | rfl | rfl | rfl
      · exact hnth 0 _ rfl (refuses_others 0 hblank (by decide))
      · exact hnth 1 _ rfl (refuses_others 1 hblank (by decide))
      · exact hnth 2 _ rfl (refuses_others 2 hblank (by decide))
      · by_cases htag : ∃ d v, u = d :: v ∧ Text.isLetter d = true
        · obtain ⟨d, v, rfl, hd⟩ := htag
          exact hnth 3 _ rfl
            (refuses_others_but_one 3 3 hblank rfl (refuses_leading hd) (by decide))
        · refine hnth 4 _ rfl (refuses_others_but_one 4 3 hblank rfl (refuses_tag fun d hd => ?_)
            (by decide))
          obtain ⟨v, rfl⟩ := List.head?_eq_some_iff.mp hd
          by_contra hd
          exact htag ⟨d, v, rfl, by simpa using hd⟩
      · exact hnth 4 _ rfl (refuses_others 4 hblank (by decide))
      · exact hnth 7 _ rfl (refuses_others 7 hblank (by decide))
      · exact hnth 8 _ rfl (refuses_others 8 hblank (by decide))
      · exact hnth 9 _ rfl (refuses_others 9 hblank (by decide))
    · -- nothing begins with any other char
      have honly : ∀ {d : Char}, d ∈ ['-', '\'', '"', '#', '&', '[', '\x7b', '<'] →
        only d c = false :=
        fun hd => decide_eq_false fun he => hmark (he ▸ hd)
      refine hnth 0 _ rfl (refuses_others 0 hblank ?_)
      simp only [leads, List.eraseIdx_cons_zero, List.forall_mem_cons, List.not_mem_nil,
        IsEmpty.forall_iff, implies_true, and_true, Bool.or_eq_false_iff]
      exact ⟨honly (by decide), honly (by decide), honly (by decide),
        ⟨honly (by decide), honly (by decide)⟩, decide_eq_false fun he => hletter (he ▸ rfl), by
          simpa using hletter,
        honly (by decide), honly (by decide), honly (by decide)⟩

/-! ## Expressions -/

theorem single_valued {α : Type} (l : List Char → Option (α × List Char)) : Single (valued l) :=
  single_blanks.before (single_toList l)

theorem single_symbol (os : List Operator) : Single (symbolGrammar os) :=
  single_firstOf fun p hp => by
  obtain ⟨o, -, rfl⟩ := List.mem_map.mp hp
  exact (single_token _).map _

theorem single_atom (h : Single (self .anything)) : Single (atomGrammar self) := by
  have hplain : ∀ p ∈ plainAtoms self, Single p := by
    simp only [plainAtoms, List.forall_mem_cons, List.not_mem_nil, IsEmpty.forall_iff,
      implies_true, and_true]
    exact ⟨Numeral.single_grammar.map _, (single_valued _).map _, (single_valued _).map _,
      (single_token _).map _, ((single_token _).map _).map _,
      ((single_token _).before single_identifier).map _, single_identifier.map _,
      ((single_commaList h).between _ _).map _,
      ((single_rowOf (single_punnedField h _)).between _ _).map _,
      ((single_rowOf (single_field h)).between _ _).map _⟩
  refine single_firstOf ?_
  simp only [List.forall_mem_cons, List.not_mem_nil, IsEmpty.forall_iff, implies_true, and_true]
  refine ⟨((single_symbol _).between _ _).map _, ((single_commaList h).between _ _).map _,
    single_of_each fun s => ?_⟩
  obtain ⟨p, hp, heq⟩ := exists_alternative self s
  exact ⟨p, hplain p hp, heq⟩

/-- Operations of one strength are read in one way if their operands are. -/
theorem single_operands {operand : Parser Expr} (h : Single operand) (os : List Operator) :
    Single (infixGrammar operand os) := h.bind fun _ => (((single_symbol os).both h).many).map _

theorem single_additive (h : Single (self .anything)) : Single (additiveGrammar self) := by
  have hprojection : Single (projectionGrammar self) := (single_atom h).bind fun _ =>
    (((single_token _).before single_label).many).map _
  exact single_operands (single_operands (hprojection.many1.map _) _) _

/-- What is bound is read in one way. -/
theorem single_let (h : ∀ i, Single (self i)) : Single (letGrammar self) :=
  (((single_token _).before Pattern.single_grammar).both (((single_token _).before (h _)).both
    ((single_token _).before (h _)))).map _

/-- **Expressions are read in one way** if they are so inside, at either place. -/
theorem single_step (h : ∀ i, Single (self i)) (i : Place) : Single (step self i) := by
  have hbody : Single (bodyGrammar self) := by
    refine single_firstOf ?_
    simp only [List.forall_mem_cons, List.not_mem_nil, IsEmpty.forall_iff, implies_true, and_true]
    exact ⟨single_let h, h .simple⟩
  have hsimple : Single (simpleGrammar self) := by
    refine single_firstOf ?_
    simp only [List.forall_mem_cons, List.not_mem_nil, IsEmpty.forall_iff, implies_true, and_true]
    exact ⟨(Ty.single_grammar.both ((single_token _).before hbody)).map _,
      (Pattern.single_grammar.both ((single_token _).before hbody)).map _, single_additive (h _)⟩
  cases i with
  | simple => exact hsimple
  | anything =>
    refine single_firstOf ?_
    simp only [List.forall_mem_cons, List.not_mem_nil, IsEmpty.forall_iff, implies_true, and_true]
    exact ⟨single_let h,
      hsimple.bind fun first => (((single_token _).before (h _)).map _).optional first⟩

/-- **Expressions are read in at most one way**, at either place. -/
theorem single_grammar (i : Place) : Single (knot step i) := single_knot (fun _ => single_step) i

end Expr

/-- **No grammar has two readings of a text**, and so no text is ambiguous. -/
theorem grammars_unambiguous : (Single Expr.grammar ∧ Single Ty.grammar ∧ Single Pattern.grammar) ∧
    ∀ s n, Expr.parse s ≠ .error (.ambiguous n) ∧ Ty.parse s ≠ .error (.ambiguous n) ∧
      Pattern.parse s ≠ .error (.ambiguous n) :=
  ⟨⟨Expr.single_grammar _, Ty.single_grammar, Pattern.single_grammar⟩, fun s n =>
    ⟨(Expr.single_grammar _).whole_ne_ambiguous s n, Ty.single_grammar.whole_ne_ambiguous s n,
      Pattern.single_grammar.whole_ne_ambiguous s n⟩⟩

end RowLang
