import RowLang.Proofs.Expr.Unmarked

/-!
# Proofs/Expr/Layers — the layers of the grammar of expressions

Each level has a layer of the grammar, and what stands behind an expression at a place of that level
does not belong to it (`Ends`).  What a layer takes from a text the looser layers take too
(`Taken`), since the text is no operand of an operator there, no ascription, no lambda and no `let`.
-/

namespace RowLang

open RowLang.Parser RowLang.Grammar

namespace Parser

variable {α β : Type} {p : Parser α} {q : Parser β} {s : List Char}

/-- What is refused behind all readings of `p`. -/
theorem refuses_both_of_gives (h : Gives Never (fun _ rest => Refuses q rest) (p s)) :
    Refuses (both p q) s := by
  have hreadOn : ∀ {rs : Readings α}, (∀ r ∈ rs, Refuses q r.2) →
      readOn (fun x => q.map fun y => (x, y)) rs = .ok [] := by
    intro rs
    induction rs with
    | nil => exact fun _ => rfl
    | cons r rs ih =>
      intro hrs
      have hr : (q.map fun y => (r.1, y)) r.2 = .ok [] := (hrs r List.mem_cons_self).map _
      rw [readOn, hr, ih fun r' hr' => hrs r' (List.mem_cons_of_mem _ hr')]
      rfl
  rw [Refuses, both, Parser.bind]
  cases hp : p s with
  | error e =>
    rw [hp] at h
    exact h.elim
  | ok readings =>
    rw [hp] at h
    exact hreadOn h

theorem exists_solid (s : List Char) : ∃ bs t, s = bs ++ t ∧ Blank bs ∧ Solid t := by
  refine ⟨s.takeWhile Text.isBlank, s.dropWhile Text.isBlank, List.takeWhile_append_dropWhile.symm,
    fun c hc => List.mem_takeWhile_imp hc, fun c hc => ?_⟩
  have := List.head?_dropWhile_not Text.isBlank s
  rw [Option.mem_def.mp hc] at this
  simpa using this

/-- The text of a mark. -/
def Mark.spelling : Mark → String
  | colon => ":"
  | arrow => "=>"

theorem unmarked_spelling (m : Mark) (s : List Char) :
    unmarked m 0 (m.spelling.toList ++ s) = false := by
  cases m with
  | colon => exact (unmarked.eq_def Mark.colon 0 (':' :: s)).trans (by simp [Mark.isAt])
  | arrow => exact (unmarked.eq_def Mark.arrow 0 ('=' :: '>' :: s)).trans (by simp [Mark.isAt])

/-- No mark comes first in an unmarked text. -/
theorem refuses_mark {m : Mark} (h : unmarked m 0 s = true) : Refuses (literal m.spelling) s := by
  obtain ⟨bs, t, rfl, hb, hsolid⟩ := exists_solid s
  rw [unmarked_blank hb] at h
  refine (skips_token _).refuses hb (refuses_literal hsolid ?_)
  rintro ⟨u, rfl⟩
  rw [unmarked_spelling] at h
  cases h

end Parser

namespace Expr

variable {self : Place → Parser Expr} {c : Char} {r s cs : List Char}

/-! ## What begins an atom -/

/-- The atoms that need no parentheses. -/
def plainAtoms (self : Place → Parser Expr) : List (Parser Expr) :=
  [Numeral.grammar.map number,
    (valued charLexeme).map char,
    (valued textLexeme).map ofChars,
    (token tagLexer).map fun w => tag (String.ofList (w.drop 1)),
    leadingGrammar.map op,
    ((keyword "import").before identifier).map load,
    identifier.map ofWord,
    (between "[" (commaList (self .anything)) "]").map list,
    (between "\x7b" (rowOf (punnedField (self .anything) var)) "\x7d").map record,
    (between "<" (rowOf (field (self .anything))) ">").map dispatch]

/-- What begins each of them. -/
def leads : List (Char → Bool) :=
  [fun c => Text.isAsciiDigit c || only '-' c, only '\'', only '"', only '#',
    fun c => only '#' c || only '&' c, only 'i', Text.isLetter, only '[', only '\x7b', only '<']

theorem begins_numeral : Begins (fun c => Text.isAsciiDigit c || only '-' c) Numeral.grammar := by
  intro c s hb hc
  rw [Bool.or_eq_false_iff] at hc
  have hminus : c ≠ '-' := of_decide_eq_false hc.2
  have hwhole : Numeral.wholePart (c :: s) = none := by
    cases hw : Numeral.wholePart (c :: s) with
    | none => rfl
    | some r =>
      obtain ⟨hs, ⟨hne, -⟩, hdigit⟩ := Numeral.wholePart_eq hw
      obtain ⟨d, w, hdw⟩ := List.exists_cons_of_ne_nil hne
      rw [hdw] at hs hdigit
      rw [(List.cons.inj hs).1, hdigit d rfl] at hc
      cases hc.1
  refine (blanks_of_solid (solid_cons hb s) _).trans ?_
  rw [Numeral.parts?_of_ne hminus, Numeral.unsignedParts?, hwhole]
  rfl

theorem begins_valued {α : Type} {P : Char → Bool} {l : List Char → Option (α × List Char)}
    (h : ∀ c s, P c = false → l (c :: s) = none) : Begins P (valued l) := by
  intro c s hb hc
  refine (blanks_of_solid (solid_cons hb s) _).trans ?_
  rw [h c s hc]
  rfl

theorem begins_plainAtoms (self : Place → Parser Expr) :
    List.Forall₂ Begins leads (plainAtoms self) := by
  have hmark : ∀ {c d : Char} {s : List Char}, c ≠ d → Lexer.exactly [d] (c :: s) = none := fun h =>
    Lexer.exactly_eq_none (not_prefix_of_head rfl (Ne.symm h))
  have hchar : Begins (only '\'') (valued charLexeme) := begins_valued fun c s hc => by
    unfold charLexeme
    split
    case h_1 h => exact absurd (List.cons.inj h).1 (of_decide_eq_false hc)
    case h_2 => rfl
  have htext : Begins (only '"') (valued textLexeme) := begins_valued fun c s hc => by
    unfold textLexeme
    split
    case h_1 h => exact absurd (List.cons.inj h).1 (of_decide_eq_false hc)
    case h_2 => rfl
  have htag : Begins (only '#') (token tagLexer) := begins_token fun c s hc => by
    rw [tagLexer, Lexer.andThen, hmark (of_decide_eq_false hc)]
    rfl
  have hleading : Begins (fun c => only '#' c || only '&' c) leadingGrammar :=
    (begins_token fun c s hc => by
      rw [Bool.or_eq_false_iff] at hc
      rw [Lexer.orElse, Lexer.unlessBefore_eq_none (hmark (of_decide_eq_false hc.1)),
        hmark (of_decide_eq_false hc.2)]
      rfl).map _
  exact .cons (begins_numeral.map _) <| .cons (hchar.map _) <| .cons (htext.map _) <|
    .cons (htag.map _) <| .cons (hleading.map _) <|
    .cons (((begins_keyword rfl).before _).map _) <| .cons (Pattern.begins_identifier.map _) <|
    .cons ((begins_between rfl).map _) <| .cons ((begins_between rfl).map _) <|
    .cons ((begins_between rfl).map _) .nil

/-- No atom begins with some other char. -/
theorem refuses_atom (hb : Text.isBlank c = false) (hc : ∀ P ∈ only '(' :: leads, P c = false) :
    Refuses (atomGrammar self) (c :: s) := by
  rw [List.forall_mem_cons] at hc
  refine refuses_firstOf ?_
  simp only [List.forall_mem_cons, List.not_mem_nil, IsEmpty.forall_iff, implies_true, and_true]
  exact ⟨(begins_between rfl c s hb hc.1).map _, (begins_between rfl c s hb hc.1).map _,
    refuses_choice (refuses_of_begins (begins_plainAtoms self) hb hc.2)⟩

/-- A minus sign in front of no digit begins no number. -/
theorem refuses_atom_minus (hs : ∀ c ∈ s.head?, Text.isAsciiDigit c = false) :
    Refuses (atomGrammar self) ('-' :: s) := by
  have hothers : ∀ q ∈ (plainAtoms self).tail, Refuses q ('-' :: s) :=
    refuses_of_begins (List.forall₂_cons.mp (begins_plainAtoms self)).2 (by decide) (by decide)
  have hwhole : Numeral.wholePart s = none := by
    cases hw : Numeral.wholePart s with
    | none => rfl
    | some p =>
      obtain ⟨rfl, ⟨hne, -⟩, hdigit⟩ := Numeral.wholePart_eq hw
      obtain ⟨d, w, hdw⟩ := List.exists_cons_of_ne_nil hne
      rw [hdw, List.cons_append] at hs
      exact absurd (hdigit d (by rw [hdw]; rfl)) (by simp [hs d rfl])
  have hnumeral : Refuses Numeral.grammar ('-' :: s) := by
    refine (blanks_of_solid (solid_cons (by decide) s) _).trans ?_
    rw [Numeral.parts?, hwhole]
    rfl
  refine refuses_firstOf ?_
  simp only [List.forall_mem_cons, List.not_mem_nil, IsEmpty.forall_iff, implies_true, and_true]
  exact ⟨(begins_between rfl _ _ (by decide) (by decide)).map _,
    (begins_between rfl _ _ (by decide) (by decide)).map _,
    refuses_choice (List.forall_mem_cons.mpr ⟨Refuses.map hnumeral _, hothers⟩)⟩

theorem skips_plainAtoms (self : Place → Parser Expr) : ∀ p ∈ plainAtoms self, Skips p := by
  simp only [plainAtoms, List.forall_mem_cons, List.not_mem_nil, IsEmpty.forall_iff,
    implies_true, and_true]
  exact ⟨(skips_blanks _).map _, (skips_blanks _).map _, (skips_blanks _).map _,
    (skips_token _).map _,
    ((skips_token _).map _).map _, ((skips_token _).before _).map _, skips_identifier.map _,
    (skips_between _ _ _).map _, (skips_between _ _ _).map _, (skips_between _ _ _).map _⟩

theorem skips_atom (self : Place → Parser Expr) : Skips (atomGrammar self) := by
  refine skips_firstOf ?_
  simp only [List.forall_mem_cons, List.not_mem_nil, IsEmpty.forall_iff, implies_true, and_true]
  exact ⟨(skips_between _ _ _).map _, (skips_between _ _ _).map _,
    skips_choice (skips_plainAtoms self)⟩

/-! ## Operator symbols -/

theorem refuses_symbol {os : List Operator} (hb : Text.isBlank c = false)
    (hc : os.all (fun o => o.spelling.toList.head?.any (· ≠ c)) = true) :
    Refuses (symbolGrammar os) (c :: s) := by
  refine refuses_firstOf fun p hp => ?_
  obtain ⟨o, ho, rfl⟩ := List.mem_map.mp hp
  have hhead := List.all_eq_true.mp hc o ho
  rw [Option.any_eq_true] at hhead
  obtain ⟨d, hd, hne⟩ := hhead
  exact (refuses_literal (solid_cons hb s) (not_prefix_of_head hd (of_decide_eq_true hne))).map _

theorem skips_symbol (os : List Operator) : Skips (symbolGrammar os) := skips_firstOf fun p hp => by
  obtain ⟨o, -, rfl⟩ := List.mem_map.mp hp
  exact (skips_token _).map _

/-- An additive symbol is found, unless it is the first half of a longer one. -/
theorem finds_additive {o : Operator} (h : o.level? = some Level.additive)
    (hr : ∀ c ∈ r.head?, c ≠ '+') :
    Finds (symbolGrammar Operator.additives) (o.spelling.toList ++ r) o r := by
  have hlonger : Refuses (literal Operator.append.spelling) ('+' :: r) := by
    refine refuses_literal (solid_cons (by decide) r) fun hp => ?_
    obtain ⟨u, rfl⟩ := (List.cons_prefix_cons.mp hp).2
    exact hr '+' rfl rfl
  cases o with
  | append => rfl
  | minus => rfl
  | plus => exact ((hlonger.map _).firstOf).trans rfl
  | _ => cases h

theorem finds_multiplicative {o : Operator} (h : o.level? = some Level.multiplicative) :
    Finds (symbolGrammar Operator.multiplicatives) (o.spelling.toList ++ r) o r := by
  cases o <;> first | rfl | cases h

/-- No atom begins with an infix operator, unless that is the sign of a number. -/
theorem refuses_atom_operator {o : Operator} {k : Level} (ho : o.level? = some k)
    (hr : ∀ c ∈ r.head?, Text.isAsciiDigit c = false) :
    Refuses (atomGrammar self) (o.spelling.toList ++ r) := by
  cases o with
  | minus => exact refuses_atom_minus hr
  | plus | append | times | divide | modulo => exact refuses_atom (by decide) (by decide)
  | _ => cases ho

theorem refuses_point_operator {o : Operator} {k : Level} (ho : o.level? = some k) :
    Refuses (literal ".") (o.spelling.toList ++ r) := by
  cases o with
  | plus | minus | append | times | divide | modulo => rfl
  | _ => cases ho

/-- No multiplicative symbol begins with an additive one. -/
theorem refuses_multiplicative {o : Operator} (h : o.level? = some Level.additive) :
    Refuses (symbolGrammar Operator.multiplicatives) (o.spelling.toList ++ r) := by
  cases o with
  | plus | minus | append => exact refuses_symbol (by decide) (by decide)
  | _ => cases h

/-! ## Levels -/

/-- The layer of the grammar for the places of a level. -/
def layer (self : Place → Parser Expr) : Level → Parser Expr
  | 0 => anythingGrammar self
  | 1 => simpleGrammar self
  | 2 => additiveGrammar self
  | 3 => multiplicativeGrammar self
  | 4 => applicationGrammar self
  | 5 => projectionGrammar self
  | _ => atomGrammar self

/-- No expression at a place of a level goes on with what stands behind it.  Behind an atom only a
number might go on. -/
structure Ends (isNumber : Bool) (l : Level) (r : List Char) : Prop where
  closes : Text.Closes r
  numeral : l ≤ 5 ∨ isNumber = true → Numeral.Ends r
  noPoint : l ≤ 5 → Refuses (literal ".") r
  noAtom : l ≤ 4 → ∀ self, Refuses (atomGrammar self) r
  noMultiplicative : l ≤ 3 → Refuses (symbolGrammar Operator.multiplicatives) r
  noAdditive : l ≤ 2 → Refuses (symbolGrammar Operator.additives) r
  unmarked : l ≤ 1 → ∀ m, unmarked m 0 r = true
  noNext : l = 0 → Refuses (literal ";") r

section

variable {b b' : Bool} {l k : Level}

/-- What ends an expression also ends one that is bound more tightly. -/
theorem Ends.tighter (h : Ends b l r) (hlk : l ≤ k) : Ends b k r where
  closes := h.closes
  numeral hk := h.numeral (hk.imp_left hlk.trans)
  noPoint hk := h.noPoint (hlk.trans hk)
  noAtom hk := h.noAtom (hlk.trans hk)
  noMultiplicative hk := h.noMultiplicative (hlk.trans hk)
  noAdditive hk := h.noAdditive (hlk.trans hk)
  unmarked hk := h.unmarked (hlk.trans hk)
  noNext hk := h.noNext (Nat.eq_zero_of_le_zero (hk ▸ hlk))

/-- Behind anything but an atom a number ends as all else does. -/
theorem Ends.of_le_five (h : Ends b l r) (hl : l ≤ 5) : Ends b' l r :=
  { h with numeral := fun _ => h.numeral (Or.inl hl) }

/-- Behind an atom that is no number. -/
theorem ends_atom (h : Text.Closes r) : Ends false 6 r where
  closes := h
  numeral hl := absurd hl (by decide)
  noPoint hl := absurd hl (by decide)
  noAtom hl := absurd hl (by decide)
  noMultiplicative hl := absurd hl (by decide)
  noAdditive hl := absurd hl (by decide)
  unmarked hl := absurd hl (by decide)
  noNext hl := absurd hl (by decide)

/-- What closes a bracket or separates items ends any expression, and a semicolon any but a
sequence. -/
theorem ends_mark (hc : c ∈ [')', ']', '\x7d', '>', ',', ';']) (hl : l = 0 → c ≠ ';')
    (s : List Char) :
    Ends b l (c :: s) := by
  have hends : ∀ {c : Char}, c ∈ [')', ']', '\x7d', '>', ',', ';'] → Text.isBlank c = false ∧
      Text.isWordChar c = false ∧ (Text.isDecimal c = false ∧ c ∉ ['.', 'e', 'E', '-', '+']) ∧
        only '.' c = false ∧ (∀ P ∈ only '(' :: leads, P c = false) ∧
          Operator.symbols.all (fun o => o.spelling.toList.head?.any (· ≠ c)) = true := by decide
  obtain ⟨hblank, hword, hnumeral, hpoint, hatom, hsymbol⟩ := hends hc
  have hsymbols : ∀ {os : List Operator}, (∀ o ∈ os, o ∈ Operator.symbols) →
      Refuses (symbolGrammar os) (c :: s) := fun hos => refuses_symbol hblank
    (List.all_eq_true.mpr fun o ho => List.all_eq_true.mp hsymbol o (hos o ho))
  exact {
    closes := Text.closes_cons hword s
    numeral := fun _ => Numeral.ends_cons hnumeral s
    noPoint := fun _ => begins_literal rfl c s hblank hpoint
    noAtom := fun _ _ => refuses_atom hblank hatom
    noMultiplicative := fun _ => hsymbols (by decide)
    noAdditive := fun _ => hsymbols (by decide)
    unmarked := fun _ m => by
      simp only [List.mem_cons, List.not_mem_nil, or_false] at hc
      rw [unmarked.eq_def]
      rcases hc with rfl | rfl | rfl | rfl | rfl | rfl <;> cases m <;> simp [Mark.isAt]
    noNext := fun h => begins_literal rfl c s hblank (decide_eq_false (hl h)) }

theorem refuses_atom_nil (self : Place → Parser Expr) : Refuses (atomGrammar self) [] := by rfl

theorem ends_nil : Ends b l [] where
  closes := Text.closes_nil
  numeral _ := fun _ h => absurd h (by simp)
  noPoint _ := rfl
  noAtom _ self := refuses_atom_nil self
  noMultiplicative _ := rfl
  noAdditive _ := rfl
  unmarked _ m := by rw [unmarked.eq_def]
  noNext _ := rfl

/-- In front of an operator of the level below. -/
theorem ends_operator {o : Operator} (ho : o.level? = some k) (s : List Char) :
    Ends b (k + 1) (' ' :: (o.spelling.toList ++ ' ' :: s)) := by
  have hclose : Text.Closes (' ' :: (o.spelling.toList ++ ' ' :: s)) :=
    Text.closes_cons (by decide) _
  have hnumeral : Numeral.Ends (' ' :: (o.spelling.toList ++ ' ' :: s)) :=
    Numeral.ends_cons (by decide) _
  have hk : (2 : Nat) ≤ k := two_le_level ho
  have hloose : ∀ {j : Nat}, j ≤ 2 → ¬ k + 1 ≤ j := fun hj h =>
    Nat.lt_irrefl 2 (Nat.lt_of_le_of_lt hk (h.trans hj))
  have hpoint : Refuses (literal ".") (' ' :: (o.spelling.toList ++ ' ' :: s)) :=
    (skips_token _).refuses_behind_blank (refuses_point_operator ho)
  have hatom : ∀ self, Refuses (atomGrammar self) (' ' :: (o.spelling.toList ++ ' ' :: s)) :=
    fun self => (skips_atom self).refuses_behind_blank (refuses_atom_operator ho (by simp; decide))
  have hmultiplicative : k + 1 ≤ 3 → Refuses (symbolGrammar Operator.multiplicatives)
      (' ' :: (o.spelling.toList ++ ' ' :: s)) := fun h3 => by
    obtain rfl : k = Level.additive := Nat.le_antisymm (Nat.le_of_succ_le_succ h3) hk
    exact (skips_symbol _).refuses_behind_blank (refuses_multiplicative ho)
  exact ⟨hclose, fun _ => hnumeral, fun _ => hpoint, fun _ => hatom, hmultiplicative,
    fun h => absurd h (hloose le_rfl), fun h => absurd h (hloose (by decide)),
    fun h => absurd h (Nat.succ_ne_zero k)⟩

end

/-! ## From level to level -/

/-- What stands behind the part of a level that its own steps may follow. -/
def inner : Level → Level
  | 2 => 3
  | 3 => 4
  | 4 => 5
  | 5 => 6
  | l => l

/-- **A text begins with an expression of a level**, which the steps of that level may follow. -/
def Heads (self : Place → Parser Expr) : Level → List Char → Expr → List Char → Prop
  | 2 => Leads (layer self 3) (both (symbolGrammar Operator.additives) (layer self 3))
      fun lhs step => binary step.1 lhs step.2
  | 3 => Leads (layer self 4) (both (symbolGrammar Operator.multiplicatives) (layer self 4))
      fun lhs step => binary step.1 lhs step.2
  | 4 => Leads (layer self 5) (layer self 5) apply
  | 5 => Leads (layer self 6) ((literal ".").before label) project
  | l => Finds (layer self l)

/-- **A text is an expression of a level** in front of all that may stand behind it there. -/
def Led (self : Place → Parser Expr) (b : Bool) (l : Level) (cs : List Char) (e : Expr) : Prop :=
  ∀ bs rest, Blank bs → Ends b (inner l) rest → Heads self l (bs ++ (cs ++ rest)) e rest

section

variable {b : Bool} {l k : Level} {e : Expr}

theorem refuses_projection (h : Refuses (atomGrammar self) r) :
    Refuses (projectionGrammar self) r := h.bind

/-- Where no step follows the layer takes the text. -/
theorem Led.takes (h : Led self b l cs e) : Takes (Ends b l) (layer self l) cs e := by
  intro bs rest hb hr
  match l, h with
  | 0, h | 1, h => exact h bs rest hb hr
  | 2, h => exact (h bs rest hb (hr.tighter (by decide))).finds (hr.noAdditive (by decide)).both
  | 3, h =>
    exact (h bs rest hb (hr.tighter (by decide))).finds (hr.noMultiplicative (by decide)).both
  | 4, h =>
    obtain ⟨x, mid, es, hx, hes, rfl⟩ := (h bs rest hb (hr.tighter (by decide))).exists_repeats
      (.stop (refuses_projection (hr.noAtom (by decide) self)))
    have hmany : Finds (many1 (projectionGrammar self)) (bs ++ (cs ++ rest)) (x :: es) rest :=
      hx.bind (hes.many.map _)
    show Finds (applicationGrammar self) _ _ _
    exact hmany.map _
  | 5, h => exact (h bs rest hb (hr.tighter (by decide))).finds (hr.noPoint (by decide)).before
  | l + 6, h => exact h bs rest hb hr

/-- What is taken at a level is a first operand at the level below. -/
theorem led_of_takes {l : Nat} (hl : 2 ≤ l) (hl' : l ≤ 5)
    (h : Takes (Ends b (l + 1)) (layer self (l + 1)) cs e) : Led self b l cs e := by
  intro bs rest hb hr
  match l, h with
  | 0, _ | 1, _ => omega
  | 2, h | 3, h | 4, h | 5, h => exact .first (h bs rest hb hr)
  | l + 6, _ => omega

/-- An unmarked text is no ascription. -/
theorem refuses_ascription (h : unmarked .colon 0 s = true) :
    Refuses (ascriptionGrammar self) s := by
  refine Refuses.map (refuses_both_of_gives ((Ty.gives_grammar s).weaken fun t rest ht => ?_)) _
  exact (refuses_mark (ht.2.unmarked .colon 0 trivial h)).before

/-- An unmarked text is no lambda. -/
theorem refuses_lambda (h : unmarked .arrow 0 s = true) : Refuses (lambdaGrammar self) s := by
  refine Refuses.map
    (refuses_both_of_gives ((Pattern.gives_grammar s).weaken fun p rest hp => ?_)) _
  exact (refuses_mark (hp.2.unmarked .arrow 0 trivial h)).before

theorem simple_of_operand (h : Led self b 2 cs e) (hpassed : Passed (fun _ => True) cs) :
    Led self b 1 cs e := by
  intro bs rest hb hr
  have hunmarked : ∀ m, unmarked m 0 (bs ++ (cs ++ rest)) = true := fun m => by
    rw [unmarked_blank hb]
    exact hpassed m 0 rest trivial (hr.unmarked (by decide) m)
  have hadditive := h.takes bs rest hb (hr.tighter (by decide))
  show Finds (simpleGrammar self) _ _ _
  rw [Finds, simpleGrammar, (refuses_ascription (hunmarked .colon)).firstOf,
    (refuses_lambda (hunmarked .arrow)).firstOf]
  exact hadditive.firstOf

/-! ## Words -/

theorem takeWhile_word {w r : List Char} (hw : ∀ c ∈ w, Text.isLetter c = true)
    (hr : Text.Closes r) :
    (w ++ r).takeWhile Text.isLetter = w := by
  rw [List.takeWhile_append_of_pos hw]
  cases r with
  | nil => simp
  | cons c r => simp [hr.not_isLetter c rfl]

/-- Another word is no keyword. -/
theorem refuses_word {k : String} {w r : List Char} (hk : ∀ c ∈ k.toList, Text.isLetter c = true)
    (hne : w ≠ []) (hw : ∀ c ∈ w, Text.isLetter c = true) (hr : Text.Closes r) (h : w ≠ k.toList) :
    Refuses (keyword k) (w ++ r) := by
  have hword : Text.IsWord w := fun c hc => by rw [Text.isWordChar, hw c hc, Bool.true_or]
  refine refuses_token (solid_word hne hword r) ?_
  rw [Lexer.unlessBefore]
  cases hexactly : Lexer.exactly k.toList (w ++ r) with
  | none => rfl
  | some p =>
    obtain ⟨-, hs⟩ := Lexer.exactly_eq_some hexactly
    have hletter : p.2.head?.any Text.isLetter = true := by
      by_contra hany
      refine h ?_
      have htake := takeWhile_word hw hr
      rw [hs, List.takeWhile_append_of_pos hk] at htake
      cases hp : p.2 with
      | nil => rw [← htake, hp]; simp
      | cons c t =>
        have hc : Text.isLetter c = false := by simpa [hp] using hany
        rw [← htake, hp]
        simp [hc]
    simp [hletter]

/-- What does not open with the word is no `let`. -/
theorem refuses_let (h : Opens 1 s) : Refuses (letGrammar self) s := by
  refine Refuses.map (Refuses.before ?_).both _
  have hbegins : ∀ {c : Char} {s : List Char}, Text.isBlank c = false → only 'l' c = false →
      Refuses (keyword "let") (c :: s) := fun hb hc => begins_keyword rfl _ _ hb hc
  cases h with
  | word hne hw hlet hr => exact refuses_word (by decide) hne hw hr (hlet le_rfl)
  | digit r hc =>
    refine hbegins (Text.isBlank_of_isWordChar (by rw [Text.isWordChar, hc, Bool.or_true])) ?_
    exact decide_eq_false fun he => by
      rw [he] at hc
      exact absurd hc (by decide)
  | minus | tag => exact hbegins (by decide) (by decide)
  | mark r hc =>
    have hall : ∀ {c : Char}, c ∈ ['(', '[', '\x7b', '<', '\'', '"', '_'] →
        Text.isBlank c = false ∧ only 'l' c = false := by decide
    exact hbegins (hall hc).1 (hall hc).2

theorem skips_let (self : Place → Parser Expr) : Skips (letGrammar self) :=
  (((skips_token _).before _).both _).map _

theorem anything_of_simple (h : Led self b 1 cs e) (hopens : Opens 1 cs) : Led self b 0 cs e := by
  intro bs rest hb hr
  have hlet : Refuses (letGrammar self) (bs ++ (cs ++ rest)) :=
    (skips_let self).refuses hb (refuses_let (hopens.append hr.closes))
  show Finds (anythingGrammar self) _ _ _
  rw [Finds, anythingGrammar, hlet.firstOf]
  exact Finds.firstOf ((h.takes bs rest hb (hr.tighter (by decide))).bind
    (Refuses.optional ((hr.noNext rfl).before.map _) _))

/-- **What a text is at a level it is at all looser ones**, unless the text is taken for something
else there. -/
theorem Led.looser {l k : Nat} (h : Led self b k cs e) (hlk : l ≤ k) (hk : k ≤ 6)
    (hpassed : 2 ≤ k → Passed (fun _ => True) cs) (hopens : 1 ≤ k → Opens 1 cs) :
    Led self b l cs e := by
  induction hlk using Nat.decreasingInduction with
  | self => exact h
  | of_succ l hl ih =>
    match l, ih with
    | 0, ih => exact anything_of_simple ih (hopens hl)
    | 1, ih => exact simple_of_operand ih (hpassed hl)
    | l + 2, ih => exact led_of_takes (Nat.le_add_left 2 l) (by omega) ih.takes

end

end Expr

end RowLang
