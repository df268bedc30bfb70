import Mathlib.Data.List.TakeWhile
import RowLang.Grammar.Word
import RowLang.Parser.Basic
import RowLang.Parser.Whole
import RowLang.Proofs.Row.Sorted

/-!
# Proofs/Parser/Gives — what all readings of a text satisfy

`Gives E P` says of what a parser makes of a text that all its readings satisfy `P`, and that the
parse stops only for reasons of `E`.  Each combinator has one rule; a repetition needs an invariant
of the text that is left, and a recursive grammar may assume of itself what is to be shown on
shorter texts (`gives_knot`).
-/

namespace RowLang

/-- Of the chars in a list a property is decided one by one, not by way of all chars that there are.
-/
instance (priority := high) decidableForallChars {P : Char → Prop} [DecidablePred P]
    (cs : List Char) :
    Decidable (∀ c ∈ cs, P c) := List.decidableBAll P cs

namespace Parser

open Text (isBlank isLetter isAsciiDigit)

variable {ι α β γ : Type} {E : Halt → Prop} {s : List Char}

/-- All readings satisfy `P`, and the parse stops only for reasons of `E`. -/
def Gives (E : Halt → Prop) (P : α → List Char → Prop) : Except Halt (Readings α) → Prop
  | .error h => E h
  | .ok readings => ∀ r ∈ readings, P r.1 r.2

/-- The parse does not stop. -/
def Never (_ : Halt) : Prop := False

variable {P P' : α → List Char → Prop} {P₂ : β → List Char → Prop}

/-- No reading satisfies anything. -/
theorem gives_none : Gives E P (.ok []) := fun _ h => absurd h List.not_mem_nil

/-- One reading satisfies what it satisfies. -/
theorem gives_one {x : α} {rest : List Char} (h : P x rest) : Gives E P (.ok [(x, rest)]) :=
  fun _ hr => (List.mem_singleton.mp hr) ▸ h

/-- Less may be said of the readings. -/
theorem Gives.weaken {r : Except Halt (Readings α)} (h : Gives E P r)
    (hpost : ∀ x rest, P x rest → P' x rest) : Gives E P' r := by
  cases r with
  | error e => exact h
  | ok readings => exact fun r hr => hpost _ _ (h r hr)

/-- More reasons to stop may be allowed. -/
theorem Gives.halting {E' : Halt → Prop} {r : Except Halt (Readings α)} (h : Gives E P r)
    (hE : ∀ e, E e → E' e) : Gives E' P r := by
  cases r with
  | error e => exact hE e h
  | ok readings => exact h

/-- Readings of two kinds that satisfy the same do so together. -/
theorem Gives.append {a b : Readings α} (ha : Gives E P (.ok a)) (hb : Gives E P (.ok b)) :
    Gives E P (.ok (a ++ b)) := fun r hr => (List.mem_append.mp hr).elim (ha r) (hb r)

/-- What comes of two parts, the first of which may stop the parse. -/
theorem gives_both_parts {a b : Except Halt (Readings α)} (ha : Gives E P a) (hb : Gives E P b) :
    Gives E P (do
      let here ← a
      let after ← b
      return here ++ after) := by
  cases a with
  | error e => exact ha
  | ok here =>
    cases b with
    | error e => exact hb
    | ok after => exact ha.append hb

/-- What goes on from each reading satisfies a property if it does from every single one. -/
theorem gives_readOn {f : α → Parser β} : ∀ {rs : Readings α},
    (∀ r ∈ rs, Gives E P₂ (f r.1 r.2)) → Gives E P₂ (readOn f rs)
  | [], _ => gives_none
  | r :: _, h => gives_both_parts (h r List.mem_cons_self)
      (gives_readOn fun r' hr' => h r' (List.mem_cons_of_mem _ hr'))

/-- **The rule for sequences**: the second part may use what the first one satisfies. -/
theorem Gives.bind {p : Parser α} {f : α → Parser β} (hp : Gives E P (p s))
    (hf : ∀ x rest, P x rest → Gives E P₂ (f x rest)) : Gives E P₂ (p.bind f s) := by
  unfold Parser.bind
  cases h : p s with
  | error e =>
    rw [h] at hp
    exact hp
  | ok readings =>
    rw [h] at hp
    exact gives_readOn fun r hr => hf _ _ (hp r hr)

/-- The rule for readings that are changed. -/
theorem Gives.map {p : Parser α} {f : α → β} (hp : Gives E (fun x rest => P₂ (f x) rest) (p s)) :
    Gives E P₂ (p.map f s) := by
  unfold Parser.map
  cases h : p s with
  | error e =>
    rw [h] at hp
    exact hp
  | ok readings =>
    rw [h] at hp
    intro r hr
    obtain ⟨r', hr', rfl⟩ := List.mem_map.mp hr
    exact hp r' hr'

/-- The rule for a part that is dropped in front. -/
theorem Gives.before {p : Parser α} {q : Parser β} (hp : Gives E P (p s))
    (hq : ∀ x rest, P x rest → Gives E P₂ (q rest)) : Gives E P₂ (p.before q s) := hp.bind hq

/-- The rule for pairs. -/
theorem Gives.both {p : Parser α} {q : Parser β} {P₃ : α × β → List Char → Prop}
    (hp : Gives E P (p s))
    (hq : ∀ x rest, P x rest → Gives E (fun y rest => P₃ (x, y) rest) (q rest)) :
    Gives E P₃ (Parser.both p q s) := hp.bind fun x rest hx => (hq x rest hx).map

/-- The rule for a part that is dropped behind. -/
theorem Gives.endedBy {p : Parser α} {q : Parser β} (hp : Gives E P (p s))
    (hq : ∀ x rest, P x rest → Gives E (fun _ rest => P' x rest) (q rest)) :
    Gives E P' (p.endedBy q s) := hp.bind fun x rest hx => (hq x rest hx).map

/-- The rule for alternatives that all count. -/
theorem gives_choice : ∀ {ps : List (Parser α)}, (∀ p ∈ ps, Gives E P (p s)) →
    Gives E P (choice ps s)
  | [], _ => gives_none
  | p :: ps, h => by
    unfold choice
    exact gives_both_parts (h p List.mem_cons_self)
      (gives_choice fun p' hp' => h p' (List.mem_cons_of_mem _ hp'))

/-- The rule for alternatives of which the first one counts. -/
theorem gives_firstOf : ∀ {ps : List (Parser α)}, (∀ p ∈ ps, Gives E P (p s)) →
    Gives E P (firstOf ps s)
  | [], _ => gives_none
  | p :: ps, h => by
    have hp := h p List.mem_cons_self
    unfold firstOf
    cases hr : p s with
    | error e =>
      rw [hr] at hp
      exact hp
    | ok found =>
      rw [hr] at hp
      cases found with
      | nil => exact gives_firstOf fun p' hp' => h p' (List.mem_cons_of_mem _ hp')
      | cons r rs => exact hp

/-- The rule for what may be left out. -/
theorem Gives.optional {p : Parser α} {x : α} (hp : Gives E P (p s)) (hx : P x s) :
    Gives E P (optional p x s) := by
  refine gives_firstOf fun q hq => ?_
  simp only [List.mem_cons, List.not_mem_nil, or_false] at hq
  rcases hq with rfl | rfl
  exacts [hp, gives_one hx]

/-! ## Repetitions -/

/-- What is repeated keeps an invariant of the text that is left, and takes something away from it.
-/
def Keeps (E : Halt → Prop) (I : List Char → Prop) (G : α → Prop) (p : Parser α) : Prop :=
  ∀ s, I s → Gives E (fun x rest => G x ∧ I rest ∧ rest.length < s.length) (p s)

variable {I : List Char → Prop} {G : α → Prop}

/-- A repetition keeps the invariant, however many rounds it is given. -/
theorem gives_manyWithin {p : Parser α} (hp : Keeps E I G p) : ∀ (fuel : Nat) {s : List Char},
    s.length < fuel → I s →
      Gives E (fun xs rest => (∀ x ∈ xs, G x) ∧ I rest ∧ rest.length ≤ s.length)
        (manyWithin p fuel s)
  | 0, _, h, _ => absurd h (Nat.not_lt_zero _)
  | fuel + 1, s, hlt, hI => by
    have hstop : Gives E (fun xs rest => (∀ x ∈ xs, G x) ∧ I rest ∧ rest.length ≤ s.length)
        (.ok [([], s)]) := gives_one ⟨by simp, hI, le_rfl⟩
    have hstep : ∀ {x : α} {rest : List Char}, G x → I rest → rest.length < s.length →
        Gives E (fun xs rest => (∀ x ∈ xs, G x) ∧ I rest ∧ rest.length ≤ s.length)
          ((manyWithin p fuel).map (x :: ·) rest) := fun hx hrest hlen =>
      ((gives_manyWithin hp fuel (by omega) hrest).weaken fun xs rest' ⟨hxs, hI', hle⟩ =>
        ⟨List.forall_mem_cons.mpr ⟨hx, hxs⟩, hI', hle.trans hlen.le⟩).map
    have hs := hp s hI
    unfold manyWithin
    cases hr : p s with
    | error e =>
      rw [hr] at hs
      exact hs
    | ok readings =>
      rw [hr] at hs
      match readings, hs with
      | [], _ => exact hstop
      | [(x, rest)], hs =>
        obtain ⟨hx, hrest, hlen⟩ := hs _ List.mem_cons_self
        show Gives E _ (if rest = s then _ else _)
        split
        · exact hstop
        · exact hstep hx hrest hlen
      | r :: r' :: rs, hs =>
        refine gives_readOn fun q hq => ?_
        obtain ⟨hx, hrest, hlen⟩ := hs q hq
        show Gives E _ (if _ then _ else _)
        rw [if_pos hlen]
        exact hstep hx hrest hlen

/-- **The rule for repetitions**, which need an invariant of the text that is left. -/
theorem gives_many {p : Parser α} (hp : Keeps E I G p) (hI : I s) :
    Gives E (fun xs rest => (∀ x ∈ xs, G x) ∧ I rest ∧ rest.length ≤ s.length) (many p s) :=
  gives_manyWithin hp _ (Nat.lt_succ_self _) hI

/-- The rule for repetitions that are not empty. -/
theorem gives_many1 {p : Parser α} (hp : Keeps E I G p) (hI : I s) :
    Gives E (fun xs rest => (∀ x ∈ xs, G x) ∧ I rest ∧ rest.length < s.length) (many1 p s) :=
  (hp s hI).bind fun _ _ ⟨hx, hrest, hlen⟩ =>
    ((gives_many hp hrest).weaken fun _ _ ⟨hxs, hI', hle⟩ =>
      ⟨List.forall_mem_cons.mpr ⟨hx, hxs⟩, hI', hle.trans_lt hlen⟩).map

/-- The rule for lists. -/
theorem gives_sepBy {sep : Parser β} {p : Parser α} (hp : Keeps E I G p)
    (hsep : Keeps E I (fun _ => True) sep) (hI : I s) :
    Gives E (fun xs rest => (∀ x ∈ xs, G x) ∧ I rest ∧ rest.length ≤ s.length) (sepBy sep p s) := by
  have hnext : Keeps E I G (sep.before p) := fun s hI =>
    (hsep s hI).before fun _ rest ⟨_, hrest, hlen⟩ =>
      (hp rest hrest).weaken fun x rest' ⟨hx, hI', hlen'⟩ => ⟨hx, hI', hlen'.trans hlen⟩
  refine gives_firstOf fun q hq => ?_
  simp only [List.mem_cons, List.not_mem_nil, or_false] at hq
  rcases hq with rfl | rfl
  · exact (hp s hI).bind fun x rest ⟨hx, hrest, hlen⟩ =>
      ((gives_many hnext hrest).weaken fun xs rest' ⟨hxs, hI', hle⟩ =>
        ⟨List.forall_mem_cons.mpr ⟨hx, hxs⟩, hI', hle.trans hlen.le⟩).map
  · exact gives_one ⟨by simp, hI, le_rfl⟩

/-! ## Lexemes -/

/-- Nothing but blanks. -/
def Blank (bs : List Char) : Prop := ∀ c ∈ bs, isBlank c = true

instance (bs : List Char) : Decidable (Blank bs) := inferInstanceAs (Decidable (∀ c ∈ bs, _))

/-- The rule for lexemes that stand at the very front. -/
theorem gives_sat {l : Lexer} {P : List Char → List Char → Prop}
    (h : ∀ w rest, l s = some (w, rest) → P w rest) : Gives E P (sat l s) := by
  unfold sat
  cases hl : l s with
  | none => exact gives_none
  | some r => exact gives_one (h _ _ hl)

/-- The rule for blanks. -/
theorem gives_blanks {P : List Char → List Char → Prop}
    (h : ∀ bs rest, Blank bs → s = bs ++ rest → P bs rest) : Gives E P (blanks s) := by
  refine gives_sat fun w rest hw => ?_
  simp only [Lexer.run, List.span_eq_takeWhile_dropWhile, Option.some.injEq, Prod.mk.injEq] at hw
  obtain ⟨rfl, rfl⟩ := hw
  exact h _ _ (fun c hc => List.mem_takeWhile_imp hc) List.takeWhile_append_dropWhile.symm

/-- The rule for lexemes behind blanks. -/
theorem gives_token {l : Lexer} {P : List Char → List Char → Prop}
    (h : ∀ bs t w rest, Blank bs → s = bs ++ t → l t = some (w, rest) → P w rest) :
    Gives E P (token l s) :=
  (gives_blanks (P := fun bs rest => Blank bs ∧ s = bs ++ rest) fun _ _ hbs hs => ⟨hbs, hs⟩).before
    fun bs t ⟨hbs, hs⟩ => gives_sat fun w rest hw => h bs t w rest hbs hs hw

end Parser

namespace Lexer

open Text (isBlank isLetter isAsciiDigit)

variable {p : Char → Bool} {l m : Lexer} {s w rest : List Char}

/-- A run is a beginning of the text, and of chars of its class. -/
theorem run1_eq_some (h : run1 p s = some (w, rest)) :
    s = w ++ rest ∧ w ≠ [] ∧ ∀ c ∈ w, p c = true := by
  cases s with
  | nil => cases h
  | cons c s =>
    rw [run1] at h
    split at h
    case isFalse => cases h
    case isTrue hc =>
      rw [List.span_eq_takeWhile_dropWhile, Option.some.injEq, Prod.mk.injEq] at h
      obtain ⟨rfl, rfl⟩ := h
      exact ⟨List.takeWhile_append_dropWhile.symm, by
        simp [hc], fun d hd => List.mem_takeWhile_imp hd⟩

/-- A char of a class is the first one. -/
theorem one_eq_some (h : one p s = some (w, rest)) : ∃ c, w = [c] ∧ s = c :: rest ∧ p c = true := by
  cases s with
  | nil => cases h
  | cons c s =>
    rw [one] at h
    split at h <;> cases h
    exact ⟨c, rfl, rfl, ‹_›⟩

/-- A word is a beginning of the text. -/
theorem exactly_eq_some {v : List Char} (h : exactly v s = some (w, rest)) :
    w = v ∧ s = v ++ rest := by
  rw [exactly, Option.map_eq_some_iff] at h
  obtain ⟨t, ht, he⟩ := h
  cases he
  exact ⟨rfl, (List.isPrefixOf?_eq_some_iff_append_eq.mp ht).symm⟩

/-- A lexeme with a condition is a lexeme. -/
theorem unlessBefore_eq_some (h : unlessBefore l p s = some (w, rest)) : l s = some (w, rest) := by
  rw [unlessBefore, Option.bind_eq_bind, Option.bind_eq_some_iff] at h
  obtain ⟨⟨w', rest'⟩, hl, h⟩ := h
  dsimp only at h
  split at h <;> cases h
  exact hl

/-- A lexeme of two kinds is of one of them. -/
theorem orElse_eq_some (h : orElse l m s = some (w, rest)) :
    l s = some (w, rest) ∨ m s = some (w, rest) := by
  rw [orElse] at h
  cases hl : l s with
  | none =>
    rw [hl] at h
    exact Or.inr h
  | some r =>
    rw [hl] at h
    exact Or.inl h

end Lexer

namespace Parser

open Text (isBlank isLetter isAsciiDigit)

variable {α β : Type} {E : Halt → Prop} {s : List Char} {P : List Char → List Char → Prop}

/-- The rule for words and signs. -/
theorem gives_literal {w : String}
    (h : ∀ bs rest, Blank bs → s = bs ++ (w.toList ++ rest) → P w.toList rest) :
    Gives E P (literal w s) :=
  gives_token fun bs t v rest hbs hs hl => by
    obtain ⟨rfl, rfl⟩ := Lexer.exactly_eq_some hl
    exact h bs rest hbs hs

/-- The rule for keywords. -/
theorem gives_keyword {w : String}
    (h : ∀ bs rest, Blank bs → s = bs ++ (w.toList ++ rest) → P w.toList rest) :
    Gives E P (keyword w s) :=
  gives_token fun bs t v rest hbs hs hl => by
    obtain ⟨rfl, rfl⟩ := Lexer.exactly_eq_some (Lexer.unlessBefore_eq_some hl)
    exact h bs rest hbs hs

/-- The rule for what stands between brackets. -/
theorem gives_between {opening closing : String} {p : Parser α} {P : α → List Char → Prop}
    (h : ∀ bs t, Blank bs → s = bs ++ (opening.toList ++ t) →
      Gives E (fun x mid => ∀ bs' rest,
        Blank bs' → mid = bs' ++ (closing.toList ++ rest) → P x rest)
        (p t)) : Gives E P (between opening p closing s) := by
  refine Gives.endedBy (Gives.before (gives_literal (P := fun _ t => ∃ bs, Blank bs ∧
    s = bs ++ (opening.toList ++ t)) fun bs t hbs hs => ⟨bs, hbs, hs⟩) fun _ t ⟨bs, hbs, hs⟩ =>
      h bs t hbs hs) fun x mid hx => ?_
  exact gives_literal fun bs' rest hbs' hmid => hx bs' rest hbs' hmid

/-! ## Recursive grammars -/

/-- The rule for recursive grammars, with as many rounds as the text has chars. -/
theorem gives_unroll {ι : Type} {step : (ι → Parser α) → ι → Parser α}
    {P : ι → List Char → α → List Char → Prop}
    (hstep : ∀ (self : ι → Parser α) i s, (∀ j t, t.length < s.length →
      Gives E (P j t) (self j t)) → Gives E (P i s) (step self i s)) :
    ∀ (n : Nat) (i : ι) (s : List Char), s.length < n → Gives E (P i s) (unroll step n i s)
  | 0, _, _, h => absurd h (Nat.not_lt_zero _)
  | n + 1, i, s, h => hstep _ i s fun j t ht => gives_unroll hstep n j t (by omega)

/-- **What a step keeps to, if the grammar keeps to it on shorter texts, the grammar keeps to.** -/
theorem gives_knot {ι : Type} {step : (ι → Parser α) → ι → Parser α}
    {P : ι → List Char → α → List Char → Prop}
    (hstep : ∀ (self : ι → Parser α) i s, (∀ j t, t.length < s.length →
      Gives E (P j t) (self j t)) → Gives E (P i s) (step self i s)) (i : ι) (s : List Char) :
    Gives E (P i s) (knot step i s) := gives_unroll hstep _ i s (Nat.lt_succ_self _)

/-! ## Whole texts -/

/-- What is read of a whole text is one of its readings. -/
theorem Gives.of_whole {p : Parser α} {P : α → List Char → Prop} {x : α} (h : Gives E P (p s))
    (hx : whole p s = .ok x) : ∃ rest, P x rest := by
  have hended : Gives E (fun x _ => ∃ rest, P x rest) (p.endedBy blanks s) :=
    h.endedBy fun x rest hpost => gives_blanks fun _ _ _ _ => ⟨rest, hpost⟩
  unfold whole at hx
  split at hx
  case h_1 => cases hx
  case h_2 readings heq =>
    rw [heq] at hended
    split at hx
    case h_1 r hr =>
      cases hx
      exact hended r (List.mem_of_mem_filter (hr ▸ List.mem_cons_self))
    case h_2 => split at hx <;> cases hx
    case h_3 => cases hx

/-- A whole text stops the parse only for reasons of its readings. -/
theorem Gives.of_whole_halted {p : Parser α} {P : α → List Char → Prop} {why : Halt}
    (h : Gives E P (p s)) (hwhy : whole p s = .error (.halted why)) : E why := by
  have hended : Gives E (fun _ _ => True) (p.endedBy blanks s) :=
    h.endedBy fun x rest hpost => gives_blanks fun _ _ _ _ => trivial
  unfold whole at hwhy
  split at hwhy
  case h_1 e heq =>
    rw [heq] at hended
    cases hwhy
    exact hended
  case h_2 =>
    split at hwhy
    case h_1 => cases hwhy
    case h_2 => split at hwhy <;> cases hwhy
    case h_3 => cases hwhy

end Parser

/-! ## Words, labels and rows -/

/-- A label as texts have them: letters, or else digits. -/
def Label.Written (l : Label) : Prop :=
  l.toList ≠ [] ∧
    ((∀ c ∈ l.toList, Text.isLetter c = true) ∨ ∀ c ∈ l.toList, Text.isAsciiDigit c = true)

/-- A name: letters that are no reserved word. -/
def IsName (x : String) : Prop :=
  x.toList ≠ [] ∧ (∀ c ∈ x.toList, Text.isLetter c = true) ∧ x ∉ Grammar.reserved

instance (x : String) : Decidable (IsName x) := inferInstanceAs (Decidable (_ ∧ _ ∧ _))

/-- A name may be a label. -/
theorem IsName.written {x : String} (h : IsName x) : Label.Written x := ⟨h.1, Or.inl h.2.1⟩

namespace Grammar

open RowLang.Parser

variable {α : Type} {E : Halt → Prop} {s : List Char}

/-- The rule for names. -/
theorem gives_identifier {P : String → List Char → Prop}
    (h : ∀ bs x rest, Blank bs → s = bs ++ (x.toList ++ rest) → IsName x → P x rest) :
    Gives E P (identifier s) := by
  refine Gives.bind (P := fun w rest => ∃ bs, Blank bs ∧ s = bs ++ (w ++ rest) ∧ w ≠ [] ∧
    ∀ c ∈ w, Text.isLetter c = true) (gives_token fun bs t w rest hbs hs hl => ?_)
    fun w rest ⟨bs, hbs, hs, hne, hw⟩ => ?_
  · obtain ⟨rfl, hne, hw⟩ := Lexer.run1_eq_some hl
    exact ⟨bs, hbs, hs, hne, hw⟩
  · split
    case isTrue => exact gives_none
    case isFalse hr =>
      refine gives_one
        (h bs _ rest hbs ?_ ⟨?_, ?_, fun hmem => hr (List.contains_iff_mem.mpr hmem)⟩) <;>
        rw [String.toList_ofList]
      exacts [hs, hne, hw]

/-- The rule for labels. -/
theorem gives_label {P : Label → List Char → Prop}
    (h : ∀ bs l rest, Blank bs → s = bs ++ (l.toList ++ rest) → Label.Written l → P l rest) :
    Gives E P (label s) := by
  refine Gives.map (gives_token fun bs t w rest hbs hs hl => ?_)
  have hw : t = w ++ rest ∧ w ≠ [] ∧
      ((∀ c ∈ w, Text.isLetter c = true) ∨ ∀ c ∈ w, Text.isAsciiDigit c = true) := by
    rcases Lexer.orElse_eq_some hl with hl | hl
    · obtain ⟨ht, hne, hw⟩ := Lexer.run1_eq_some hl
      exact ⟨ht, hne, Or.inl hw⟩
    · obtain ⟨ht, hne, hw⟩ := Lexer.run1_eq_some hl
      exact ⟨ht, hne, Or.inr hw⟩
  obtain ⟨rfl, hne, hw⟩ := hw
  refine h bs _ rest hbs ?_ ⟨?_, ?_⟩ <;> simp only [String.toList_ofList]
  exacts [hs, hne, hw]

/-- The fields of a row, each with a written label and a good value. -/
def GoodFields (G : α → Prop) (r : Row α) : Prop :=
  Row.Distinct r ∧ ∀ p ∈ r, Label.Written p.1 ∧ G p.2

/-- The fields of a tuple have written labels. -/
theorem goodFields_positional {G : α → Prop} {xs : List α} (h : ∀ x ∈ xs, G x) :
    GoodFields G (Row.positional xs) := by
  have hlabels := Row.labels_positional xs
  refine ⟨?_, fun p hp => ⟨?_, h _ (Row.mem_of_mem_positional hp)⟩⟩
  · rw [Row.Distinct, hlabels]
    exact List.nodup_range.map Row.position_injective
  · have hmem := Row.mem_labels_of_mem hp
    rw [hlabels] at hmem
    obtain ⟨i, -, hi⟩ := List.mem_map.mp hmem
    rw [← hi, Row.position, Decimal.natText, Label.Written, String.toList_ofList]
    exact ⟨Nat.toDigits_ne_nil, Or.inr Decimal.isDigit_natChars⟩

/-- What fields need, of all labels first and then of the values. -/
theorem goodFields_iff {G : α → Prop} {r : Row α} : GoodFields G r ↔
    (Row.Distinct r ∧ ∀ l ∈ Row.labels r, Label.Written l) ∧ ∀ p ∈ r, G p.2 := by
  have hlabels : (∀ l ∈ Row.labels r, Label.Written l) ↔ ∀ p ∈ r, Label.Written p.1 := by
    simp [Row.labels]
  rw [hlabels, GoodFields, forall₂_and, and_assoc]

/-- **The rule for rows**: no label is left twice. -/
theorem gives_rowOf {item : Parser (Label × α)} {I : List Char → Prop} {G : α → Prop}
    (hitem : Keeps E I (fun p => Label.Written p.1 ∧ G p.2) item)
    (hsep : Keeps E I (fun _ => True) (literal ",")) (hI : I s) :
    Gives E (fun r rest => GoodFields G r ∧ I rest ∧ rest.length ≤ s.length) (rowOf item s) :=
  ((gives_sepBy hitem hsep hI).weaken fun _ _ ⟨hps, hrest⟩ =>
    ⟨⟨Row.distinct_ofPairs _, fun p hp => hps p (Row.mem_ofPairs hp)⟩, hrest⟩).map

end Grammar

end RowLang
