import RowLang.Expr.Numeral
import RowLang.Proofs.Parser.Words

/-!
# Proofs/Expr/Numeral — numbers are read back from their texts

The parts of a literal are the same whatever stands behind it, if that does not go on with the
literal (`Numeral.parts?_append`).  An integer is read back from its digits.  A real is read back if
its text, read alone, denotes it (`Numeral.readAlone?`): that text has a point or an exponent, so it
is not taken for an integer.
-/

namespace RowLang

/-- The digits of a number are a lone zero, or else no zero comes first. -/
theorem Decimal.natChars_cases (n : Nat) :
    natChars n = ['0'] ∨ ∃ c w, natChars n = c :: w ∧ '1' ≤ c ∧ c ≤ '9' := by
  have hdigit : ∀ n < 10, Nat.digitChar n = '0' ∨ '1' ≤ Nat.digitChar n ∧
    Nat.digitChar n ≤ '9' := by
    decide
  induction n using Nat.strongRecOn with
  | ind n ih =>
    rcases Nat.lt_or_ge n 10 with hlt | hge
    · rw [natChars, Nat.toDigits_of_lt_base hlt]
      exact (hdigit n hlt).imp (fun h => by rw [h]) fun h => ⟨_, _, rfl, h⟩
    · rw [natChars, Nat.toDigits_of_base_le (by decide) hge]
      rcases ih (n / 10) (Nat.div_lt_self (by omega) (by decide)) with h | ⟨c, w, h, hc⟩
      · have : n / 10 = 0 := natChars_injective h
        omega
      · rw [natChars] at h
        rw [h]
        exact Or.inr ⟨c, _, rfl, hc⟩

/-- A number that a text denotes: an integer of no more digits than a text may have, or a finite
real. -/
def Numeral.Written : Numeral → Prop
  | int i => Decimal.writable i = true
  | real x => x.isFinite = true

namespace Numeral

open RowLang.Parser

/-! ## Parts of a literal -/

/-- A literal does not go on. -/
def Ends (r : List Char) : Prop :=
  ∀ c ∈ r.head?, Text.isDecimal c = false ∧ c ∉ ['.', 'e', 'E', '-', '+']

variable {s t w r : List Char}

theorem ends_cons {c : Char} (h : Text.isDecimal c = false ∧ c ∉ ['.', 'e', 'E', '-', '+'])
    (r : List Char) : Ends (c :: r) := fun d hd => by
  obtain rfl := Option.some.inj (Option.mem_def.mp hd)
  exact h

theorem Ends.noDigit (h : Ends r) : ∀ c ∈ r.head?, Text.isDecimal c = false :=
  fun c hc => (h c hc).1

theorem digits1_append (hr : Ends r) : digits1 (s ++ r) = (digits1 s).map fun p =>
    (p.1, p.2 ++ r) := by
  cases s with
  | nil => exact Lexer.run1_eq_none hr.noDigit
  | cons c s =>
    have hspan := Lexer.span_append (s := c :: s) hr.noDigit
    rw [List.cons_append] at hspan
    rw [digits1, List.cons_append, Lexer.run1, Lexer.run1, hspan]
    split <;> rfl

theorem wholePart_append (h : wholePart s = some (w, t)) (hr : Ends r) :
    wholePart (s ++ r) = some (w, t ++ r) := by
  cases s with
  | nil => cases h
  | cons c s =>
    rw [wholePart] at h
    rw [List.cons_append, wholePart, Lexer.span_append hr.noDigit]
    split at h
    case isTrue hc =>
      cases h
      rw [if_pos hc]
    case isFalse hc =>
      rw [if_neg hc]
      split at h <;> cases h
      rw [if_pos ‹_›]
      rfl

theorem fractionPart_append (hr : Ends r) :
    fractionPart (s ++ r) = ((fractionPart s).1, (fractionPart s).2 ++ r) := by
  have hother : ∀ {s : List Char}, s.head? ≠ some '.' → fractionPart s = (none, s) := by
    intro s hs
    unfold fractionPart
    split
    case h_1 => exact absurd rfl hs
    case h_2 => rfl
  cases s with
  | nil =>
    refine hother fun h => ?_
    have := (hr '.' h).2
    simp at this
  | cons c s =>
    by_cases hc : c = '.'
    · subst hc
      rw [List.cons_append, fractionPart, fractionPart, digits1_append hr]
      cases digits1 s <;> rfl
    · rw [hother (s := c :: s ++ r) (by simpa using hc), hother (by simpa using hc)]

/-- A sign in front of an exponent, if there is one. -/
def signPart : List Char → Bool × List Char
  | '-' :: t => (true, t)
  | '+' :: t => (false, t)
  | t => (false, t)

theorem signPart_append (hr : Ends r) :
    signPart (s ++ r) = ((signPart s).1, (signPart s).2 ++ r) := by
  have hother : ∀ {s : List Char}, s.head? ≠ some '-' → s.head? ≠ some '+' →
    signPart s = (false, s) := by
    intro s hs hs'
    unfold signPart
    split
    exacts [absurd rfl hs, absurd rfl hs', rfl]
  cases s with
  | nil => exact hother (fun h => absurd (hr _ h).2 (by simp)) fun h => absurd (hr _ h).2 (by simp)
  | cons c s =>
    by_cases hc : c = '-'
    · rw [hc]; rfl
    · by_cases hc' : c = '+'
      · rw [hc']; rfl
      · rw [hother (s := c :: s ++ r) (by simpa using hc) (by simpa using hc'),
          hother (by simpa using hc) (by simpa using hc')]

theorem exponentPart_cons (c : Char) (after : List Char) : exponentPart (c :: after) =
    if c = 'e' || c = 'E' then
      match digits1 (signPart after).2 with
      | some (w, rest) => (some ((signPart after).1, w), rest)
      | none => (none, c :: after)
    else (none, c :: after) := rfl

theorem exponentPart_append (hr : Ends r) :
    exponentPart (s ++ r) = ((exponentPart s).1, (exponentPart s).2 ++ r) := by
  cases s with
  | nil =>
    cases r with
    | nil => rfl
    | cons c r =>
      have hc := (hr c rfl).2
      simp only [List.mem_cons, List.not_mem_nil, or_false, not_or] at hc
      rw [List.nil_append, exponentPart_cons, if_neg (by simp [hc.2.1, hc.2.2.1])]
      rfl
  | cons c s =>
    rw [List.cons_append, exponentPart_cons, exponentPart_cons, signPart_append hr,
      digits1_append hr]
    split
    · cases digits1 (signPart s).2 <;> rfl
    · rfl

/-- The parts of a literal behind its sign. -/
def unsignedParts? (negative : Bool) (s : List Char) : Option (Parts × List Char) :=
  (wholePart s).map fun (whole, s) =>
    (⟨negative, whole, (fractionPart s).1, (exponentPart (fractionPart s).2).1⟩,
      (exponentPart (fractionPart s).2).2)

theorem parts?_minus (s : List Char) : parts? ('-' :: s) = unsignedParts? true s := by
  show (wholePart s).bind _ = (wholePart s).map _
  cases wholePart s <;> rfl

theorem parts?_of_ne {c : Char} (h : c ≠ '-') (s : List Char) :
    parts? (c :: s) = unsignedParts? false (c :: s) := by
  unfold unsignedParts? parts?
  split
  case h_1 negative u hu =>
    split at hu
    case h_1 hs => exact absurd (List.cons.inj hs).1 h
    case h_2 =>
      cases hu
      show (wholePart (c :: s)).bind _ = (wholePart (c :: s)).map _
      cases wholePart (c :: s) <;> rfl

theorem unsignedParts?_append {negative : Bool} {p : Parts}
    (h : unsignedParts? negative s = some (p, t)) (hr : Ends r) :
    unsignedParts? negative (s ++ r) = some (p, t ++ r) := by
  rw [unsignedParts?, Option.map_eq_some_iff] at h
  obtain ⟨⟨w, u⟩, hw, h⟩ := h
  obtain ⟨rfl, rfl⟩ := Prod.mk.inj h
  rw [unsignedParts?, wholePart_append hw hr]
  simp only [Option.map_some, fractionPart_append hr, exponentPart_append hr]

/-- **The parts of a literal do not depend on what stands behind it.** -/
theorem parts?_append {p : Parts} (h : parts? s = some (p, t)) (hr : Ends r) :
    parts? (s ++ r) = some (p, t ++ r) := by
  cases s with
  | nil => cases h
  | cons c s =>
    rw [List.cons_append]
    by_cases hc : c = '-'
    · rw [hc, parts?_minus] at h ⊢
      exact unsignedParts?_append h hr
    · rw [parts?_of_ne hc] at h ⊢
      exact unsignedParts?_append h hr

/-! ## Integers -/

theorem wholePart_natChars (n : Nat) : wholePart (Decimal.natChars n) = some
    (Decimal.natChars n, []) := by
  rcases Decimal.natChars_cases n with h | ⟨c, w, h, hc⟩
  · rw [h]
    rfl
  · have hdigits : ∀ d ∈ w, Text.isDecimal d = true := fun d hd =>
      Text.isDecimal_of_isAsciiDigit
        (Decimal.isDigit_natChars (n := n) d (h ▸ List.mem_cons_of_mem _ hd))
    have hzero : c ≠ '0' := fun h0 => absurd hc.1 (h0 ▸ by decide)
    rw [h, wholePart, if_neg hzero, if_pos (by simp [hc]), List.span_eq_takeWhile_dropWhile,
      List.takeWhile_eq_self_iff.mpr hdigits, List.dropWhile_eq_nil_iff.mpr hdigits]

theorem parts?_intChars (i : Int) :
    parts? (Decimal.intChars i) = some (⟨i < 0, Decimal.natChars i.natAbs, none, none⟩, []) := by
  have hunsigned : ∀ (negative : Bool) (n : Nat), unsignedParts? negative (Decimal.natChars n)
      = some (⟨negative, Decimal.natChars n, none, none⟩, []) := fun negative n => by
    rw [unsignedParts?, wholePart_natChars]
    rfl
  cases i with
  | ofNat n =>
    obtain ⟨c, w, hw⟩ := List.exists_cons_of_ne_nil (Nat.toDigits_ne_nil (b := 10) (n := n))
    have hc : c ≠ '-' := fun h => by
      have := Decimal.isDigit_natChars (n := n) c
        (by rw [Decimal.natChars, hw]; exact List.mem_cons_self)
      rw [h] at this
      cases this
    have h := parts?_of_ne hc w
    rw [← hw, ← Decimal.natChars, hunsigned] at h
    exact h
  | negSucc n =>
    have hnegative : decide (Int.negSucc n < 0) = true := decide_eq_true (Int.negSucc_lt_zero n)
    rw [hnegative]
    exact (parts?_minus _).trans (hunsigned true (n + 1))

theorem ofParts_int {i : Int} (h : Decimal.writable i = true) (s : List Char) :
    ofParts ⟨i < 0, Decimal.natChars i.natAbs, none, none⟩ s = .ok [(int i, s)] := by
  have hlength : (Decimal.natChars i.natAbs).length ≤ Decimal.digitLimit :=
    Decimal.length_natChars_le (by decide) (of_decide_eq_true h)
  have hvalue : Decimal.natOfDigits (Decimal.natChars i.natAbs) = i.natAbs := by
    rw [Decimal.natOfDigits_eq_natOfAscii Decimal.isDigit_natChars, Decimal.natOfAscii_natChars]
  have hsign : (if decide (i < 0) then -(i.natAbs : Int) else i.natAbs) = i := by
    by_cases hi : i < 0
    · rw [if_pos (decide_eq_true hi)]
      omega
    · rw [if_neg (by simpa using hi)]
      omega
  rw [ofParts, if_pos (by rfl), if_neg (Nat.not_lt.mpr hlength)]
  simp only [hvalue, hsign]
  rfl

/-! ## Reals -/

/-- The real that a whole text denotes as a literal. -/
def readAlone? (cs : List Char) : Option Binary64 :=
  match parts? cs with
  | some (p, []) => some (realOfParts p)
  | _ => none

/-- A run of digits of any script. -/
def Digits (w : List Char) : Prop := w ≠ [] ∧ ∀ c ∈ w, Text.isDecimal c = true

theorem wholePart_eq (h : wholePart s = some (w, t)) :
    s = w ++ t ∧ Digits w ∧ ∀ c ∈ w.head?, Text.isAsciiDigit c = true := by
  cases s with
  | nil => cases h
  | cons c s =>
    have hdigit : ∀ {v : List Char}, Text.isAsciiDigit c = true →
      (∀ d ∈ v, Text.isDecimal d = true) →
        Digits (c :: v) ∧ ∀ d ∈ (c :: v).head?, Text.isAsciiDigit d = true := fun hc hv =>
      ⟨⟨List.cons_ne_nil _ _, List.forall_mem_cons.mpr ⟨Text.isDecimal_of_isAsciiDigit hc, hv⟩⟩, by
        simpa using hc⟩
    rw [wholePart] at h
    split at h
    case isTrue hc =>
      cases h
      subst hc
      exact ⟨rfl, hdigit (by decide) fun _ h => absurd h List.not_mem_nil⟩
    case isFalse =>
      rw [List.span_eq_takeWhile_dropWhile] at h
      split at h <;> cases h
      case isTrue hc =>
        rw [Bool.and_eq_true, decide_eq_true_iff, decide_eq_true_iff] at hc
        refine ⟨by rw [List.cons_append, List.takeWhile_append_dropWhile], hdigit ?_ fun d hd =>
          List.mem_takeWhile_imp hd⟩
        rw [Text.isAsciiDigit, Bool.and_eq_true, decide_eq_true_iff, decide_eq_true_iff]
        exact ⟨Char.le_trans (by decide) hc.1, hc.2⟩

theorem digits1_eq (h : digits1 s = some (w, t)) : s = w ++ t ∧ Digits w :=
  ⟨(Lexer.run1_eq_some h).1, (Lexer.run1_eq_some h).2⟩

/-- What a fraction is written as. -/
def IsFraction : Option (List Char) → List Char → Prop
  | none, u => u = []
  | some w, u => u = '.' :: w ∧ Digits w

theorem fractionPart_eq (s : List Char) :
    ∃ u, s = u ++ (fractionPart s).2 ∧ IsFraction (fractionPart s).1 u := by
  unfold fractionPart
  split
  · split
    case h_1 w rest hw =>
      obtain ⟨rfl, hdigits⟩ := digits1_eq hw
      exact ⟨'.' :: w, rfl, rfl, hdigits⟩
    case h_2 => exact ⟨[], rfl, rfl⟩
  · exact ⟨[], rfl, rfl⟩

/-- What an exponent is written as. -/
def IsExponent : Option (Bool × List Char) → List Char → Prop
  | none, u => u = []
  | some (_, w), u => ∃ c ∈ ['e', 'E'], ∃ sign ∈ [[], ['-'], ['+']], u = c :: (sign ++ w) ∧ Digits w

theorem signPart_eq (s : List Char) : ∃ sign ∈ [[], ['-'], ['+']], s = sign ++ (signPart s).2 := by
  unfold signPart
  split
  exacts [⟨['-'], by simp, rfl⟩, ⟨['+'], by simp, rfl⟩, ⟨[], by simp, rfl⟩]

theorem exponentPart_eq (s : List Char) :
    ∃ u, s = u ++ (exponentPart s).2 ∧ IsExponent (exponentPart s).1 u := by
  cases s with
  | nil => exact ⟨[], rfl, rfl⟩
  | cons c after =>
    rw [exponentPart_cons]
    split
    case isTrue hc =>
      split
      case h_1 w rest hw =>
        obtain ⟨sign, hsign, hafter⟩ := signPart_eq after
        obtain ⟨hrest, hdigits⟩ := digits1_eq hw
        refine ⟨c :: (sign ++ w), ?_, c, by simpa using hc, sign, hsign, rfl, hdigits⟩
        rw [List.cons_append, List.append_assoc, ← hrest, ← hafter]
      case h_2 => exact ⟨[], rfl, rfl⟩
    case isFalse => exact ⟨[], rfl, rfl⟩

/-- **What a literal is written as.** -/
theorem parts?_eq {p : Parts} (h : parts? s = some (p, t)) :
    ∃ sign w f e, s = sign ++ (w ++ (f ++ (e ++ t))) ∧ sign ∈ [[], ['-']] ∧
      (Digits w ∧ ∀ c ∈ w.head?, Text.isAsciiDigit c = true) ∧ IsFraction p.fraction f ∧
        IsExponent p.exponent e := by
  have hunsigned : ∀ {negative : Bool} {u : List Char}, unsignedParts? negative u = some (p, t) →
      ∃ w f e, u = w ++ (f ++ (e ++ t)) ∧ (Digits w ∧ ∀ c ∈ w.head?, Text.isAsciiDigit c = true) ∧
        IsFraction p.fraction f ∧ IsExponent p.exponent e := by
    intro negative u h
    rw [unsignedParts?, Option.map_eq_some_iff] at h
    obtain ⟨⟨w, v⟩, hw, h⟩ := h
    cases h
    obtain ⟨rfl, hdigits⟩ := wholePart_eq hw
    obtain ⟨f, hf, hfraction⟩ := fractionPart_eq v
    obtain ⟨e, he, hexponent⟩ := exponentPart_eq (fractionPart v).2
    exact ⟨w, f, e, by rw [← he, ← hf], hdigits, hfraction, hexponent⟩
  cases s with
  | nil => cases h
  | cons c s =>
    by_cases hc : c = '-'
    · rw [hc, parts?_minus] at h
      obtain ⟨w, f, e, hs, hrest⟩ := hunsigned h
      exact ⟨['-'], w, f, e, by rw [hc, hs]; rfl, by simp, hrest⟩
    · rw [parts?_of_ne hc] at h
      obtain ⟨w, f, e, hs, hrest⟩ := hunsigned h
      exact ⟨[], w, f, e, by rw [hs]; rfl, by simp, hrest⟩

/-- The digits of a real stand around a point or in front of an exponent. -/
theorem exists_mem_digits (l : Binary64.Layout) (d : Binary64.Digits) :
    '.' ∈ l.digits d ∨ 'e' ∈ l.digits d := by
  rw [Binary64.Layout.digits]
  split
  · split
    · exact Or.inl (by simp)
    · dsimp only
      split <;> exact Or.inl (by simp)
  · exact Or.inr (List.mem_append_right _ List.mem_cons_self)

theorem exists_mem_chars {x : Binary64} (h : x.isFinite = true) :
    '.' ∈ x.chars ∨ 'e' ∈ x.chars := by
  cases x with
  | infinite | undefined => cases h
  | finite negative m e =>
    have htail :
        '.' ∈ (if m = 0 then ['0', '.', '0'] else Binary64.plain.digits (Binary64.shortest m e))
        ∨ 'e' ∈ (if m = 0 then ['0', '.', '0'] else Binary64.plain.digits
          (Binary64.shortest m e)) := by
      split
      case isTrue => exact Or.inl (by simp)
      case isFalse => exact exists_mem_digits _ _
    exact htail.imp (List.mem_append_right _) (List.mem_append_right _)

/-- A literal that is no integer is a real. -/
theorem ofParts_real {x : Binary64} {p : Parts} (hx : x.isFinite = true)
    (hp : parts? x.chars = some (p, [])) (hvalue : realOfParts p = x) (s : List Char) :
    ofParts p s = .ok [(real x, s)] := by
  have hparts : ¬ (p.fraction.isNone && p.exponent.isNone) := by
    intro hnone
    rw [Bool.and_eq_true, Option.isNone_iff_eq_none, Option.isNone_iff_eq_none] at hnone
    obtain ⟨sign, w, f, e, hs, hsign, ⟨⟨-, hdigits⟩, -⟩, hf, he⟩ := parts?_eq hp
    rw [hnone.1] at hf
    rw [hnone.2] at he
    have hchars : x.chars = sign ++ w := by
      rw [hs, hf, he, List.append_nil, List.nil_append, List.append_nil]
    have hmem : ∀ c ∈ x.chars, c = '-' ∨ Text.isDecimal c = true := by
      intro c hc
      rw [hchars, List.mem_append] at hc
      refine hc.imp (fun hc => ?_) (hdigits c)
      simp only [List.mem_cons, List.not_mem_nil, or_false] at hsign
      rcases hsign with rfl | rfl
      exacts [absurd hc List.not_mem_nil, List.mem_singleton.mp hc]
    rcases exists_mem_chars hx with h | h <;> exact absurd (hmem _ h) (by decide)
  rw [ofParts, if_neg hparts, hvalue]
  show (if _ then _ else _ : Parser Numeral) s = _
  rw [if_pos hx]
  rfl

/-- A number that is read back from its text, if it is a real. -/
def Reread : Numeral → Prop
  | int _ => True
  | real x => readAlone? x.chars = some x

/-- The parts of the text of a number, which denote it. -/
theorem Written.exists_parts {n : Numeral} (h : n.Written) (hread : n.Reread) :
    ∃ p, parts? n.chars = some (p, []) ∧ ∀ s, ofParts p s = .ok [(n, s)] := by
  cases n with
  | int i => exact ⟨_, parts?_intChars i, ofParts_int h⟩
  | real x =>
    rw [Reread, readAlone?] at hread
    split at hread
    case h_1 p hp => exact ⟨p, hp, ofParts_real h hp (Option.some.inj hread)⟩
    case h_2 => cases hread

/-- The first char of a literal. -/
theorem exists_chars_eq {p : Parts} (h : parts? s = some (p, t)) :
    ∃ c u, s = c :: u ∧
      (Text.isAsciiDigit c = true ∨ c = '-' ∧ ∃ d v, u = d :: v ∧ Text.isAsciiDigit d = true) := by
  obtain ⟨sign, w, f, e, rfl, hsign, ⟨⟨hne, -⟩, hdigit⟩, -⟩ := parts?_eq h
  obtain ⟨d, v, rfl⟩ := List.exists_cons_of_ne_nil hne
  simp only [List.mem_cons, List.not_mem_nil, or_false] at hsign
  rcases hsign with rfl | rfl
  · exact ⟨d, _, rfl, Or.inl (hdigit d rfl)⟩
  · exact ⟨'-', _, rfl, Or.inr ⟨rfl, d, _, rfl, hdigit d rfl⟩⟩

/-- **A number is read back from its text.** -/
theorem Written.takes {n : Numeral} (h : n.Written) (hread : n.Reread) :
    Takes Ends grammar n.chars n := by
  obtain ⟨p, hp, hvalue⟩ := h.exists_parts hread
  refine (skips_blanks _).takes fun rest hr => ?_
  have hsolid : Solid (n.chars ++ rest) := by
    obtain ⟨c, u, hs, hc⟩ := exists_chars_eq hp
    rw [hs]
    refine solid_cons ?_ _
    rcases hc with hc | ⟨rfl, -⟩
    · exact Text.isBlank_of_isWordChar (by rw [Text.isWordChar, hc, Bool.or_true])
    · decide
  refine (blanks_of_solid hsolid _).trans ?_
  rw [parts?_append hp hr]
  exact hvalue rest

end Numeral

namespace Expr

mutual

/-- The reals in an expression. -/
def reals : Expr → List Binary64
  | number (.real x) => [x]
  | lambda _ body => reals body
  | apply fn arg => reals fn ++ reals arg
  | list elts => realsOfAll elts
  | record fields => realsOfFields fields
  | tuple items => realsOfAll items
  | dispatch handlers => realsOfFields handlers
  | ascribe _ e => reals e
  | bindIn _ bound body => reals bound ++ reals body
  | _ => []

/-- The reals in several expressions. -/
def realsOfAll : List Expr → List Binary64
  | [] => []
  | e :: es => reals e ++ realsOfAll es

/-- The reals in the fields. -/
def realsOfFields : List (Label × Expr) → List Binary64
  | [] => []
  | (_, e) :: fields => reals e ++ realsOfFields fields

end

theorem mem_realsOfAll {es : List Expr} {x : Binary64} :
    x ∈ realsOfAll es ↔ ∃ e ∈ es, x ∈ e.reals := by
  induction es with
  | nil => simp [realsOfAll]
  | cons e es ih => simp [realsOfAll, ih]

theorem mem_realsOfFields {fields : Row Expr} {x : Binary64} :
    x ∈ realsOfFields fields ↔ ∃ p ∈ fields, x ∈ p.2.reals := by
  induction fields with
  | nil => simp [realsOfFields]
  | cons p fields ih => simp [realsOfFields, ih]

/-- All reals in an expression are read back from their texts. -/
def Reread (e : Expr) : Prop := ∀ x ∈ e.reals, Numeral.readAlone? x.chars = some x

end Expr

end RowLang
