import RowLang.Proofs.Parser.Onward

/-!
# Proofs/Parser/Built — parsers that are built from the kit

A parser is `Built` when it is put together by the combinators from lexemes, which split something
off the front of a text, and from itself, when it is a grammar.  Whatever is built is onward
(`Built.onward`): each combinator keeps to that, also a repetition of what has several readings and
what a result calls for.
-/

namespace RowLang.Parser

variable {ι α β γ : Type}

/-- A lexeme with a value is split off the front of a text. -/
def Splits (l : List Char → Option (α × List Char)) : Prop :=
  ∀ s x rest, l s = some (x, rest) → ∃ w, w ++ rest = s

/-- What is known inside a grammar: what was known before, and the grammar itself. -/
inductive Known (R : ∀ β, Parser β → Prop) (self : ι → Parser α) : ∀ β, Parser β → Prop
  | before {β : Type} {p : Parser β} : R β p → Known R self β p
  | itself (i : ι) : Known R self α (self i)

/-- **A parser is built by the combinators**, from lexemes and from the parsers that `R` holds of.
-/
inductive Built : (∀ β, Parser β → Prop) → ∀ {α : Type}, Parser α → Prop
  | known {R α} {p : Parser α} : R α p → Built R p
  | pure {R α} (x : α) : Built R (Parser.pure x)
  | fail {R α} : Built R (fail : Parser α)
  /-- A result that has no value stops the parse. -/
  | halt {R α} (why : Halt) : Built R (halt why : Parser α)
  | lexeme {R α} {l : List Char → Option (α × List Char)} : Splits l → Built R fun s =>
    .ok (l s).toList
  | bind {R α β} {p : Parser α} {f : α → Parser β} : Built R p → (∀ x, Built R (f x)) →
    Built R (p.bind f)
  | map {R α β} {p : Parser α} (f : α → β) : Built R p → Built R (p.map f)
  | choice {R α} {ps : List (Parser α)} : (∀ p ∈ ps, Built R p) → Built R (choice ps)
  | firstOf {R α} {ps : List (Parser α)} : (∀ p ∈ ps, Built R p) → Built R (firstOf ps)
  | many {R α} {p : Parser α} : Built R p → Built R (many p)
  /-- A grammar that refers to itself, followed as deep as a text asks for. -/
  | unroll {R ι α} {step : (ι → Parser α) → ι → Parser α} :
    (∀ self i, Built (Known R self) (step self i)) →
      ∀ (depth : List Char → ℕ) (i : ι), Built R fun s => unroll step (depth s) i s

/-- A parser that is built from nothing but the kit. -/
def FromKit (p : Parser α) : Prop := Built (fun _ _ => False) p

/-! ## The kit -/

namespace Built

variable {R : ∀ β, Parser β → Prop} {p : Parser α} {q : Parser β}

/-- A part may be dropped in front. -/
theorem before (h : Built R p) (hq : Built R q) : Built R (p.before q) := h.bind fun _ => hq

theorem endedBy (h : Built R p) (hq : Built R q) : Built R (p.endedBy q) := h.bind fun _ => hq.map _

theorem both (h : Built R p) (hq : Built R q) : Built R (Parser.both p q) :=
  h.bind fun _ => hq.map _

/-- Parts may be put one behind the other. -/
theorem sequence {ps : List (Parser α)} (h : ∀ p ∈ ps, Built R p) : Built R (sequence ps) := by
  induction ps with
  | nil => exact .pure []
  | cons p ps ih =>
    rw [List.forall_mem_cons] at h
    exact h.1.bind fun x => (ih h.2).map (x :: ·)

/-- A result may be converted, and the parse may stop at that. -/
theorem convert (h : Built R p) (f : α → Except Fault β) : Built R (p.convert f) :=
  h.bind fun x => by
  cases f x with
  | ok y => exact .pure y
  | error e => exact .halt _

theorem firstOf_cons {ps : List (Parser α)} (h : Built R p) (hps : ∀ p ∈ ps, Built R p) :
    Built R (Parser.firstOf (p :: ps)) := .firstOf (List.forall_mem_cons.mpr ⟨h, hps⟩)

/-- A part may be left out. -/
theorem optional (h : Built R p) (x : α) : Built R (optional p x) :=
  h.firstOf_cons (List.forall_mem_singleton.mpr (.pure x))

theorem many1 (h : Built R p) : Built R (many1 p) := h.bind fun x => h.many.map (x :: ·)

theorem sepBy1 (h : Built R p) (hq : Built R q) : Built R (sepBy1 q p) :=
  h.bind fun x => (hq.before h).many.map (x :: ·)

/-- A part may be repeated with another one in between. -/
theorem sepBy (h : Built R p) (hq : Built R q) : Built R (sepBy q p) :=
  (h.sepBy1 hq).firstOf_cons (List.forall_mem_singleton.mpr (.pure []))

/-- A lexeme is what a lexer splits off. -/
theorem sat {l : Lexer} (h : l.Onward) : Built R (sat l) := .lexeme h

theorem blanks : Built R blanks := sat Lexer.Onward.run

/-- Blanks may stand in front of it. -/
theorem token {l : Lexer} (h : l.Onward) : Built R (token l) := blanks.before (sat h)

theorem literal (w : String) : Built R (literal w) := token (Lexer.Onward.exactly _)

theorem keyword (w : String) : Built R (keyword w) := token (Lexer.Onward.exactly _).unlessBefore

/-- A part may stand between brackets. -/
theorem between (h : Built R p) (opening closing : String) : Built R (between opening p closing) :=
  ((literal opening).before h).endedBy (literal closing)

/-- **A grammar may refer to itself.** -/
theorem knot {step : (ι → Parser α) → ι → Parser α}
    (h : ∀ self i, Built (Known R self) (step self i)) (i : ι) :
    Built R (knot step i) := .unroll h (fun s => s.length + 1) i

end Built

/-! ## What is built is onward -/

/-- **What is built leaves ends of the texts that it reads**, if so does what it is built from. -/
theorem Built.onward {R : ∀ β, Parser β → Prop} {p : Parser α} (h : Built R p)
    (hR : ∀ β (q : Parser β), R β q → q.Onward) : p.Onward := by
  induction h with
  | known hp => exact hR _ _ hp
  | pure x => exact Onward.pure x
  | fail => exact Onward.fail
  | halt why => exact Onward.halt why
  | lexeme hl => exact Onward.toList fun s x rest h => hl s x rest h
  | bind _ _ ih ihf => exact (ih hR).bind fun x => ihf x hR
  | map f _ ih => exact (ih hR).map f
  | choice _ ih => exact fun s => gives_choice fun p hp => ih p hp hR s
  | firstOf _ ih => exact fun s => gives_firstOf fun p hp => ih p hp hR s
  | many _ ih => exact (ih hR).many
  | unroll _ depth i ih =>
    refine fun s => Onward.unroll (fun self hself i => ih self i fun β q hq => ?_) (depth s) i s
    cases hq with
    | before hq => exact hR _ _ hq
    | itself j => exact hself j

/-- **What is built from the kit is onward.** -/
theorem FromKit.onward {p : Parser α} (h : p.FromKit) : p.Onward :=
  Built.onward h fun _ _ => False.elim

/-! ## Where a whole text is stuck -/

/-- The remainder is what some reading leaves behind its blanks. -/
theorem exists_reading_of_stuck {p : Parser α} {s remainder : List Char} {offset : ℕ}
    (h : whole p s = .error (.stuck remainder offset)) :
    ∃ readings, p s = .ok readings ∧ ∃ r ∈ readings, Text.dropBlanks r.2 = remainder := by
  cases hp : p s with
  | error why =>
    have hended : p.endedBy blanks s = .error why := by
      rw [endedBy, Parser.bind, hp]
      rfl
    rw [whole, hended] at h
    cases h
  | ok readings =>
    refine ⟨readings, rfl, ?_⟩
    rw [whole, endedBy_blanks hp] at h
    dsimp only at h
    split at h
    case h_1 => cases h
    case h_3 => cases h
    case h_2 =>
      split at h
      case isTrue => cases h
      case isFalse hne =>
        obtain ⟨rfl, -⟩ := ParseError.stuck.inj (Except.error.inj h)
        have hleft : (readings.map fun r => (r.1, Text.dropBlanks r.2)).map (·.2) ≠ [] := by
          simpa using hne
        have hmem := shortestText_mem hleft
        rw [List.map_map] at hmem ⊢
        obtain ⟨r, hr, hleast⟩ := List.mem_map.mp hmem
        have hleast : Text.dropBlanks r.2 = _ := hleast
        exact ⟨r, hr, by rw [← hleast, dropBlanks_of_head (head_dropBlanks _)]⟩

end RowLang.Parser
