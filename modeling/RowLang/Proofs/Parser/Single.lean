import RowLang.Proofs.Parser.Finds

/-!
# Proofs/Parser/Single — parsers with at most one reading

A parser is `Single` when it has at most one reading of every text.  All combinators keep to that
but `choice`, which is single where one alternative alone has readings of a text (`single_of_each`).
The whole of a text is ambiguous to no single parser (`Single.whole_ne_ambiguous`).
-/

namespace RowLang

namespace Parser

variable {ι α β : Type} {p : Parser α} {q : Parser β}

/-- `p` has at most one reading of every text. -/
def Single (p : Parser α) : Prop := ∀ s readings, p s = .ok readings → readings.length ≤ 1

/-- A single parser stops, refuses a text or finds something in it. -/
theorem Single.cases (h : Single p) (s : List Char) :
    (∃ why, p s = .error why) ∨ Refuses p s ∨ ∃ x rest, Finds p s x rest := by
  cases hp : p s with
  | error why => exact Or.inl ⟨why, rfl⟩
  | ok readings =>
    have hlength := h s readings hp
    rcases readings with _ | ⟨r, _ | ⟨r', readings⟩⟩
    · exact Or.inr (Or.inl hp)
    · exact Or.inr (Or.inr ⟨r.1, r.2, hp⟩)
    · simp at hlength

/-- A value is read in one way. -/
theorem single_pure (x : α) : Single (Parser.pure x) := fun _ _ h => by
  cases h
  rfl

theorem single_fail : Single (fail : Parser α) := fun _ _ h => by
  cases h
  exact Nat.zero_le _

theorem single_halt (why : Halt) : Single (halt why : Parser α) := fun _ _ h => by cases h

/-- What reads each text as a single parser does is single. -/
theorem single_of_each (h : ∀ s, ∃ q : Parser α, Single q ∧ p s = q s) : Single p :=
  fun s readings hp => by
  obtain ⟨q, hq, heq⟩ := h s
  exact hq s readings (heq ▸ hp)

/-- What goes on singly from a single reading is single. -/
theorem Single.bind {f : α → Parser β} (h : Single p) (hf : ∀ x, Single (f x)) :
    Single (p.bind f) := by
  intro s readings hreadings
  rcases h.cases s with ⟨why, hp⟩ | hp | ⟨x, rest, hp⟩
  · rw [Parser.bind, hp] at hreadings
    cases hreadings
  · rw [bind_of_none hp] at hreadings
    cases hreadings
    exact Nat.zero_le _
  · rw [bind_of_singleton hp] at hreadings
    exact hf x rest readings hreadings

theorem Single.map (h : Single p) (f : α → β) : Single (p.map f) := by
  intro s readings hreadings
  rcases h.cases s with ⟨why, hp⟩ | hp | ⟨x, rest, hp⟩
  · rw [Parser.map, hp] at hreadings
    cases hreadings
  · rw [hp.map] at hreadings
    cases hreadings
    exact Nat.zero_le _
  · rw [hp.map] at hreadings
    cases hreadings
    rfl

theorem Single.before (h : Single p) (hq : Single q) : Single (p.before q) := h.bind fun _ => hq

theorem Single.both (h : Single p) (hq : Single q) : Single (Parser.both p q) :=
  h.bind fun _ => hq.map _

theorem Single.endedBy (h : Single p) (hq : Single q) : Single (p.endedBy q) :=
  h.bind fun _ => hq.map _

/-! ## Choices -/

variable {ps : List (Parser α)}

/-- The first alternative alone counts, so it is single if all are. -/
theorem single_firstOf (h : ∀ p ∈ ps, Single p) : Single (firstOf ps) := by
  induction ps with
  | nil => exact single_fail
  | cons p ps ih =>
    rw [List.forall_mem_cons] at h
    refine single_of_each fun s => ?_
    rcases h.1.cases s with ⟨why, hp⟩ | hp | ⟨x, rest, hp⟩
    · refine ⟨p, h.1, ?_⟩
      rw [firstOf, hp]
      rfl
    · exact ⟨firstOf ps, ih h.2, hp.firstOf⟩
    · exact ⟨p, h.1, hp.firstOf.trans hp.symm⟩

theorem Single.optional (h : Single p) (x : α) : Single (optional p x) := by
  refine single_firstOf ?_
  simp only [List.forall_mem_cons, List.not_mem_nil, IsEmpty.forall_iff, implies_true, and_true]
  exact ⟨h, single_pure x⟩

/-! ## Repetitions -/

/-- A repetition goes on from one reading only, however many rounds it is given. -/
theorem Single.manyWithin (h : Single p) (fuel : Nat) : Single (manyWithin p fuel) := by
  induction fuel with
  | zero => exact single_halt _
  | succ fuel ih =>
    intro s readings hreadings
    rcases h.cases s with ⟨why, hp⟩ | hp | ⟨x, rest, hp⟩
    · rw [Parser.manyWithin, hp] at hreadings
      cases hreadings
    · rw [Parser.manyWithin, hp] at hreadings
      cases hreadings
      rfl
    · rw [Parser.manyWithin, hp] at hreadings
      change (if rest = s then _ else _) = _ at hreadings
      split at hreadings
      · cases hreadings
        rfl
      · exact ih.map _ rest readings hreadings

/-- **A repetition of what is single is single.** -/
theorem Single.many (h : Single p) : Single (many p) := single_of_each fun s =>
  ⟨Parser.manyWithin p (s.length + 1), h.manyWithin _, rfl⟩

theorem Single.many1 (h : Single p) : Single (many1 p) := h.bind fun _ => h.many.map _

/-- So is a list of it. -/
theorem Single.sepBy {sep : Parser β} (h : Single p) (hsep : Single sep) : Single (sepBy sep p) :=
  Single.optional (h.bind fun _ => (hsep.before h).many.map _) []

/-! ## Lexemes -/

/-- What a text begins with is there once at most. -/
theorem single_toList (l : List Char → Option (α × List Char)) : Single fun s => .ok (l s).toList :=
  fun s readings h => by
    cases h
    exact Option.length_toList_le

theorem single_blanks : Single blanks := single_toList _

/-- A lexeme is read in one way. -/
theorem single_token (l : Lexer) : Single (token l) := single_blanks.before (single_toList l)

/-- What stands between brackets is read in one way if it is so without them. -/
theorem Single.between (h : Single p) (opening closing : String) :
    Single (between opening p closing) :=
  ((single_token _).before h).endedBy (single_token _)

/-! ## Recursive grammars and whole texts -/

/-- **What is single if its parts are is single when it refers to itself.** -/
theorem single_knot {step : (ι → Parser α) → ι → Parser α}
    (h : ∀ self, (∀ i, Single (self i)) → ∀ i, Single (step self i)) (i : ι) :
    Single (knot step i) := by
  have hunroll : ∀ n i, Single (unroll step n i) := fun n => by
    induction n with
    | zero => exact fun _ => single_halt _
    | succ n ih => exact h _ ih
  exact single_of_each fun s => ⟨unroll step (s.length + 1) i, hunroll _ i, rfl⟩

/-- **No text is ambiguous to a single parser.** -/
theorem Single.whole_ne_ambiguous (h : Single p) (s : List Char) (n : Nat) :
    whole p s ≠ .error (.ambiguous n) := by
  intro hwhole
  unfold whole at hwhole
  split at hwhole
  case h_1 => cases hwhole
  case h_2 readings heq =>
    have hlength := (List.length_filter_le (fun r => r.2.isEmpty) readings).trans
      (h.endedBy single_blanks s readings heq)
    split at hwhole
    case h_1 => cases hwhole
    case h_2 => split at hwhole <;> cases hwhole
    case h_3 hone hnone =>
      -- more than one reading would be left
      rcases hf : readings.filter fun r => r.2.isEmpty with _ | ⟨r, _ | ⟨r', rs⟩⟩
      · exact hnone hf
      · exact hone r hf
      · rw [hf] at hlength
        simp at hlength

end Parser

namespace Grammar

open RowLang.Parser

variable {α : Type} {p : Parser α}

/-- Identifiers are read in one way. -/
theorem single_identifier : Single identifier := (single_token _).bind fun w => by
  split
  exacts [single_fail, single_pure _]

theorem single_label : Single label := (single_token _).map _

theorem single_commaList (h : Single p) : Single (commaList p) := h.sepBy (single_token _)

theorem single_field (h : Single p) : Single (field p) :=
  single_label.both ((single_token _).before h)

/-- A field that may stand for itself is read in one way: the colon tells. -/
theorem single_punnedField (h : Single p) (pun : String → α) : Single (punnedField p pun) := by
  refine single_firstOf ?_
  simp only [List.forall_mem_cons, List.not_mem_nil, IsEmpty.forall_iff, implies_true, and_true]
  exact ⟨single_field h, single_identifier.map _⟩

/-- Rows are read in one way. -/
theorem single_rowOf {item : Parser (Label × α)} (h : Single item) : Single (rowOf item) :=
  (single_commaList h).map _

end Grammar

end RowLang
