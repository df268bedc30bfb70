import RowLang.Proofs.Expr.Printed

/-!
# Proofs/Expr/Grouping — how operands with operators between them are grouped

A text of names with infix operators between them and any blanks around those (`Spelled`) is cut in
front of each additive operator.  The parts are its terms, in which only multiplicative operators
stand, and no two of them are part of a longer one (`flatten_terms`, `fixity_within`,
`fixity_between`).  The grammar groups each term to the left, and then the terms to the left
(`parse_grouped`): a name in front of an operator is no function that is applied, no type and no
pattern.
-/

namespace RowLang

open RowLang.Parser RowLang.Grammar

/-- An operator that stands between its operands. -/
def Operator.Between (o : Operator) : Prop := o.fixity = .additive ∨ o.fixity = .multiplicative

theorem Operator.Between.exists_level {o : Operator} (ho : o.Between) : ∃ k, o.level? = some k := by
  rcases ho with h | h <;> exact ⟨_, by rw [level?, h]⟩

namespace Expr

/-! ## Operands and terms -/

/-- Operands, with an operator in front of each but the first. -/
structure Operands (α : Type) where
  first : α
  steps : List (Operator × α)

namespace Operands

variable {α : Type}

/-- The operands, without their operators. -/
def items (r : Operands α) : List α := r.first :: r.steps.map (·.2)

/-- Operands grouped to the left: each operator is applied to the pair of what comes before it and
its operand. -/
def grouped (tree : α → Expr) (r : Operands α) : Expr :=
  r.steps.foldl (fun lhs step => apply (op step.1) (tuple [lhs, tree step.2])) (tree r.first)

/-- The operands of all terms, in their order. -/
def flatten (r : Operands (Operands α)) : Operands α :=
  ⟨r.first.first, r.first.steps ++ r.steps.flatMap fun step => (step.1, step.2.first) ::
    step.2.steps⟩

/-- Steps cut in front of each operator that is not multiplicative: those before the first cut, and
the terms behind it. -/
def cut : List (Operator × α) → List (Operator × α) × List (Operator × Operands α)
  | [] => ([], [])
  | (o, x) :: steps =>
    if o.fixity = .multiplicative then ((o, x) :: (cut steps).1, (cut steps).2)
    else ([], (o, ⟨x, (cut steps).1⟩) :: (cut steps).2)

/-- The terms of operands: the longest runs that multiplicative operators join. -/
def terms (r : Operands α) : Operands (Operands α) := ⟨⟨r.first, (cut r.steps).1⟩, (cut r.steps).2⟩

theorem flatten_cut (steps : List (Operator × α)) :
    (cut steps).1 ++ (cut steps).2.flatMap (fun step => (step.1, step.2.first) :: step.2.steps)
      = steps := by
  induction steps with
  | nil => rfl
  | cons step steps ih =>
    rw [cut]
    split
    case isTrue => rw [List.cons_append, ih]
    case isFalse => rw [List.flatMap_cons, List.nil_append, List.cons_append, ih]

/-- Terms are the operands, in their order. -/
theorem flatten_terms (r : Operands α) : r.terms.flatten = r := by
  rw [flatten, terms, flatten_cut]

theorem fixity_cut {steps : List (Operator × α)} :
    (∀ step ∈ (cut steps).1, step.1.fixity = .multiplicative) ∧
      ∀ term ∈ (cut steps).2, ∀ step ∈ term.2.steps, step.1.fixity = .multiplicative := by
  induction steps with
  | nil => exact ⟨fun _ h => absurd h List.not_mem_nil, fun _ h => absurd h List.not_mem_nil⟩
  | cons step steps ih =>
    rw [cut]
    split
    case isTrue h => exact ⟨List.forall_mem_cons.mpr ⟨h, ih.1⟩, ih.2⟩
    case isFalse => exact ⟨fun _ h => absurd h List.not_mem_nil, List.forall_mem_cons.mpr ih⟩

/-- Only multiplicative operators stand in a term. -/
theorem fixity_within (r : Operands α) :
    ∀ term ∈ r.terms.items, ∀ step ∈ term.steps, step.1.fixity = .multiplicative := by
  rw [items, List.forall_mem_cons, List.forall_mem_map]
  exact fixity_cut

/-- Only additive operators stand between terms. -/
theorem fixity_between {r : Operands α} (h : ∀ step ∈ r.steps, step.1.Between) :
    ∀ step ∈ r.terms.steps, step.1.fixity = .additive := by
  rw [terms]
  revert h
  induction r.steps with
  | nil => exact fun _ _ h => absurd h List.not_mem_nil
  | cons step steps ih =>
    intro h
    rw [List.forall_mem_cons] at h
    rw [cut]
    split
    case isTrue => exact ih h.2
    case isFalse hne => exact List.forall_mem_cons.mpr ⟨h.1.resolve_right hne, ih h.2⟩

end Operands

/-! ## Texts of operands -/

/-- A text of steps, each with blanks around its operator, and of blanks behind the last. -/
inductive Continued : List (Operator × String) → List Char → Prop where
  | stop {bs : List Char} : Blank bs → Continued [] bs
  | step {steps : List (Operator × String)} {s : List Char} (bs : List Char) (o : Operator)
    (cs : List Char) (x : String) : Blank bs → o.Between → Blank cs → IsName x → Continued steps s →
      Continued ((o, x) :: steps) (bs ++ (o.spelling.toList ++ (cs ++ (x.toList ++ s))))

/-- A text of names with operators between them. -/
def Spelled (r : Operands String) (s : List Char) : Prop :=
  ∃ bs t, s = bs ++ (r.first.toList ++ t) ∧ Blank bs ∧ IsName r.first ∧ Continued r.steps t

section

variable {self : Place → Parser Expr} {steps : List (Operator × String)} {x : String}
  {bs cs r s : List Char}

theorem closes_blank (hb : Blank bs) (hr : Text.Closes r) : Text.Closes (bs ++ r) := by
  cases bs with
  | nil => exact hr
  | cons c bs =>
    refine Text.closes_cons (Bool.eq_false_iff.mpr fun hc => ?_) _
    have hblank := hb c List.mem_cons_self
    rw [Text.isBlank_of_isWordChar hc] at hblank
    cases hblank

/-- An operand begins with a blank or a letter. -/
theorem head_operand (hb : Blank bs) (hx : IsName x) :
    ∀ c ∈ (bs ++ (x.toList ++ s)).head?, Text.isBlank c = true ∨ Text.isLetter c = true := by
  intro c hc
  cases bs with
  | cons d bs => exact Or.inl (Option.some.inj hc ▸ hb d List.mem_cons_self)
  | nil =>
    obtain ⟨d, w, hw⟩ := List.exists_cons_of_ne_nil hx.1
    rw [hw] at hc
    exact Or.inr (Option.some.inj hc ▸ hx.2.1 d (hw ▸ List.mem_cons_self))

/-- So what stands behind an operator is no part of it or of a number. -/
theorem head_operand_ne (hb : Blank bs) (hx : IsName x) {c : Char}
    (hc : c ∈ (bs ++ (x.toList ++ s)).head?) : Text.isAsciiDigit c = false ∧ c ≠ '+' ∧ c ≠ '>' := by
  have hclass := head_operand hb hx c hc
  refine ⟨Bool.eq_false_iff.mpr fun hdigit => ?_, fun he => ?_, fun he => ?_⟩
  · rw [Text.isBlank_of_isWordChar (by rw [Text.isWordChar, hdigit, Bool.or_true]),
      Text.not_isLetter_of_isAsciiDigit hdigit] at hclass
    exact hclass.elim Bool.false_ne_true.elim Bool.false_ne_true.elim
  · exact absurd (he ▸ hclass) (by decide)
  · exact absurd (he ▸ hclass) (by decide)

namespace Continued

theorem closes (h : Continued steps s) : Text.Closes s := by
  cases h with
  | stop hb => exact List.append_nil s ▸ closes_blank hb Text.closes_nil
  | step _ o _ _ hb ho =>
    obtain ⟨k, hk⟩ := ho.exists_level
    refine closes_blank hb ?_
    cases o <;> first | exact Text.closes_cons (by decide) _ | cases hk

/-- What refuses the end of a text and every infix operator with its operand refuses a text of
steps. -/
theorem refuses {α : Type} {p : Parser α} (h : Continued steps s) (hp : Skips p)
    (hnil : Refuses p []) (hstep : ∀ {o : Operator} {k : Level} {cs s : List Char} {x : String},
      o.level? = some k → Blank cs →
      IsName x → Refuses p (o.spelling.toList ++ (cs ++ (x.toList ++ s)))) : Refuses p s := by
  cases h with
  | stop hb => exact List.append_nil s ▸ hp.refuses hb hnil
  | step _ _ _ _ hb ho hc hx =>
    obtain ⟨k, hk⟩ := ho.exists_level
    exact hp.refuses hb (hstep hk hc hx)

theorem refuses_point (h : Continued steps s) : Refuses (literal ".") s :=
  h.refuses (skips_token _) rfl fun hk _ _ => refuses_point_operator hk

theorem refuses_atom (h : Continued steps s) : Refuses (atomGrammar self) s :=
  h.refuses (skips_atom self) (refuses_atom_nil self) fun hk hc hx =>
    refuses_atom_operator hk fun _ hd => (head_operand_ne hc hx hd).1

theorem mem (h : Continued steps s) : ∀ step ∈ steps, step.1.Between ∧ IsName step.2 := by
  induction h with
  | stop => exact fun _ h => absurd h List.not_mem_nil
  | step _ _ _ _ _ ho _ hx _ ih => exact List.forall_mem_cons.mpr ⟨⟨ho, hx⟩, ih⟩

theorem unmarked (h : Continued steps s) (m : Mark) : unmarked m 0 s = true := by
  induction h with
  | @stop bs hb =>
    rw [← List.append_nil bs, unmarked_blank hb, Parser.unmarked.eq_def]
  | @step _ s bs o cs x hb ho hc hx _ ih =>
    have hname : Parser.unmarked m 0 (cs ++ (x.toList ++ s)) = true := by
      rwa [unmarked_blank hc, unmarked_append fun c hc => neutral_of_isLetter (hx.2.1 c hc)]
    rw [unmarked_blank hb]
    obtain ⟨k, hk⟩ := ho.exists_level
    cases o with
    | minus =>
      cases hs : cs ++ (x.toList ++ s) with
      | nil => rfl
      | cons c t =>
        have hne : c ≠ '>' := (head_operand_ne hc hx (s := s) (by rw [hs]; rfl)).2.2
        exact (unmarked_minus hne).trans (hs ▸ hname)
    | plus | append | times | divide | modulo => rwa [unmarked_append (by decide)]
    | _ => cases hk

end Continued

/-! ## Grouping -/

/-- A name in front of more steps is an operand: nothing stands beside it that it is applied to. -/
theorem finds_operand (hb : Blank bs) (hx : IsName x) (h : Continued steps s) :
    Finds (applicationGrammar self) (bs ++ (x.toList ++ s)) (ofWord x) s := by
  have hatom : Finds (atomGrammar self) (bs ++ (x.toList ++ s)) (ofWord x) s :=
    (skips_atom self).finds hb (finds_name hx h.closes)
  have hpoint : Finds (many ((literal ".").before label)) s [] s :=
    (Repeats.stop h.refuses_point.before).many
  have hprojection : Finds (projectionGrammar self) (bs ++ (x.toList ++ s)) (ofWord x) s :=
    hatom.bind (hpoint.map _)
  have hmore : Finds (many (projectionGrammar self)) s [] s :=
    (Repeats.stop (refuses_projection h.refuses_atom)).many
  have hmany : Finds (many1 (projectionGrammar self)) (bs ++ (x.toList ++ s)) [ofWord x] s :=
    hprojection.bind (hmore.map _)
  exact hmany.map _

/-- Steps that are found are folded to the left. -/
theorem finds_grouped {α : Type} {p : Parser Expr} {os : List Operator} {tree : α → Expr} {a : α}
    {steps : List (Operator × α)} {mid : List Char} (ha : Finds p s (tree a) mid)
    (h : Repeats (both (symbolGrammar os) p) mid (steps.map (Prod.map id tree)) r) :
    Finds (infixGrammar p os) s (Operands.grouped tree ⟨a, steps⟩) r := by
  have hfold :=
    h.many.map fun steps => steps.foldl (fun lhs step => binary step.1 lhs step.2) (tree a)
  rw [List.foldl_map] at hfold
  exact ha.bind hfold

/-- **A text of steps is read in two rounds**: the steps up to the first cut, and then terms. -/
theorem Continued.repeats (h : Continued steps s)
    (self : Place → Parser Expr) : ∃ mid rest, Blank rest ∧
    Repeats (both (symbolGrammar Operator.multiplicatives) (applicationGrammar self)) s
      ((Operands.cut steps).1.map (Prod.map id ofWord)) mid ∧
    Repeats (both (symbolGrammar Operator.additives) (multiplicativeGrammar self)) mid
      ((Operands.cut steps).2.map (Prod.map id (Operands.grouped ofWord))) rest := by
  induction h with
  | @stop bs hb =>
    have hrefuses : ∀ {os : List Operator} {p : Parser Expr}, Refuses (symbolGrammar os) [] →
        Refuses (both (symbolGrammar os) p) bs := fun h =>
      (List.append_nil bs ▸ (skips_symbol _).refuses hb h : Refuses _ bs).both
    exact ⟨bs, bs, hb, .stop (hrefuses rfl), .stop (hrefuses rfl)⟩
  | @step _ s bs o cs x hb ho hc hx hs ih =>
    obtain ⟨mid, rest, hrest, hmultiplicative, hadditive⟩ := ih
    have hlonger : ∀ {t : List Char}, t.length ≤ s.length →
        t.length < (bs ++ (o.spelling.toList ++ (cs ++ (x.toList ++ s)))).length := fun ht => by
      have := List.length_pos_iff.mpr hx.1
      simp only [List.length_append]
      omega
    rw [Operands.cut]
    rcases ho with ho | ho
    · have hlevel : o.level? = some Level.additive := by rw [Operator.level?, ho]
      have hsymbol := (skips_symbol _).finds hb
        (finds_additive hlevel fun _ hd => (head_operand_ne (s := s) hc hx hd).2.1)
      have hoperand : Finds (applicationGrammar self) _ _ s := finds_operand hc hx hs
      have hterm := finds_grouped hoperand hmultiplicative
      rw [if_neg (by rw [ho]; decide)]
      exact ⟨_, rest, hrest,
        .stop ((skips_symbol _).refuses hb (refuses_multiplicative hlevel)).both,
        .more (hsymbol.both hterm) (hlonger hmultiplicative.length_le) hadditive⟩
    · have hlevel : o.level? = some Level.multiplicative := by rw [Operator.level?, ho]
      have hsymbol :=
        (skips_symbol _).finds hb (finds_multiplicative (r := cs ++ (x.toList ++ s)) hlevel)
      rw [if_pos ho]
      exact ⟨mid, rest, hrest,
        .more (hsymbol.both (finds_operand hc hx hs)) (hlonger le_rfl) hmultiplicative, hadditive⟩

/-- A text of operands denotes its terms, grouped to the left. -/
theorem Spelled.parse {r : Operands String} (h : Spelled r s) :
    parse s = .ok (r.terms.grouped (Operands.grouped ofWord)) := by
  obtain ⟨bs, t, rfl, hb, hx, ht⟩ := h
  generalize hs : bs ++ (r.first.toList ++ t) = s
  let self : Place → Parser Expr := unrolled s.length
  obtain ⟨mid, rest, hrest, hmultiplicative, hadditive⟩ := ht.repeats self
  have hfound : Finds (additiveGrammar self) s (r.terms.grouped (Operands.grouped ofWord)) rest :=
    hs ▸ finds_grouped (finds_grouped (finds_operand hb hx ht) hmultiplicative) hadditive
  have hunmarked : ∀ m, unmarked m 0 s = true := fun m => by
    rw [← hs, unmarked_blank hb, unmarked_append fun c hc => neutral_of_isLetter (hx.2.1 c hc)]
    exact ht.unmarked m
  have hsimple : Finds (simpleGrammar self) s (r.terms.grouped (Operands.grouped ofWord)) rest := by
    rw [Finds, simpleGrammar, (refuses_ascription (hunmarked .colon)).firstOf,
      (refuses_lambda (hunmarked .arrow)).firstOf]
    exact hfound.firstOf
  have hlet : Refuses (letGrammar self) s :=
    hs ▸ (skips_let self).refuses hb (refuses_let ((opens_name hx).append ht.closes))
  have hnext : Refuses (literal ";") rest :=
    List.append_nil rest ▸ (skips_token _).refuses hrest (by rfl)
  have hanything : Finds (anythingGrammar self) s
    (r.terms.grouped (Operands.grouped ofWord)) rest := by
    rw [Finds, anythingGrammar, hlet.firstOf]
    exact Finds.firstOf (hsimple.bind ((hnext.before.map _).optional _))
  exact Finds.whole_of_blank hanything hrest

/-- **Names with operators between them are grouped in terms, and the terms to the left.** The terms
are the names in their order, with multiplicative operators within them and additive ones between
them, and each name is what it denotes alone. -/
theorem parse_grouped {r : Operands String} (h : Spelled r s) :
    parse s = .ok (r.terms.grouped fun term => term.grouped ofWord) ∧ r.terms.flatten = r ∧
      (∀ term ∈ r.terms.items, ∀ step ∈ term.steps, step.1.fixity = .multiplicative) ∧
      (∀ step ∈ r.terms.steps, step.1.fixity = .additive) ∧
      ∀ x ∈ r.items, parse x.toList = .ok (ofWord x) := by
  have hname : ∀ {x : String}, IsName x → parse x.toList = .ok (ofWord x) := fun {x} hx => by
    have halone : Spelled ⟨x, []⟩ x.toList :=
      ⟨[], [], (List.append_nil _).symm, nofun, hx, .stop nofun⟩
    exact halone.parse
  refine ⟨h.parse, r.flatten_terms, r.fixity_within, ?_, ?_⟩
  all_goals obtain ⟨bs, t, -, -, hx, ht⟩ := h
  · exact Operands.fixity_between fun step hstep => (ht.mem step hstep).1
  · rw [Operands.items, List.forall_mem_cons, List.forall_mem_map]
    exact ⟨hname hx, fun step hstep => hname (ht.mem step hstep).2⟩

/-- Two terms of several names, blanks of all kinds and none, and an operator among the operands. -/
theorem parse_grouped_of_mixed :
    parse " a+b *map%c\n ++ d /e - f ".toList =
      .ok (binary .minus (binary .append (binary .plus (var "a")
      (binary .modulo (binary .times (var "b") (op .map)) (var "c")))
        (binary .divide (var "d") (var "e"))) (var "f")) := by
  have h : Spelled
    ⟨"a", [(.plus, "b"), (.times, "map"), (.modulo, "c"), (.append, "d"), (.divide, "e"),
      (.minus, "f")]⟩ " a+b *map%c\n ++ d /e - f ".toList := by
    refine ⟨[' '], _, rfl, by decide, by decide, ?_⟩
    refine .step [] .plus [] "b" (by decide) (Or.inl rfl) (by decide) (by decide) ?_
    refine .step [' '] .times [] "map" (by decide) (Or.inr rfl) (by decide) (by decide) ?_
    refine .step [] .modulo [] "c" (by decide) (Or.inr rfl) (by decide) (by decide) ?_
    refine .step ['\n', ' '] .append [' '] "d" (by decide) (Or.inl rfl) (by decide) (by decide) ?_
    refine .step [' '] .divide [] "e" (by decide) (Or.inr rfl) (by decide) (by decide) ?_
    refine .step [' '] .minus [' '] "f" (by decide) (Or.inl rfl) (by decide) (by decide) ?_
    exact .stop (by decide)
  exact (parse_grouped h).1

end

end Expr

end RowLang
