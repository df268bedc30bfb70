import RowLang.Decimal.Integer
import RowLang.Ty.Printer
import Mathlib.Data.List.Infix

/-!
# Proofs/Text/Word — words and numerals in a text

A numeral tells its number, and a word that stands in a text can be told from what stands behind it.
-/

/-!
## Digits, and the numerals that are written with them

A numeral is written in ASCII digits, two numbers have two numerals, and a run of ASCII digits
denotes the same number whether digits of other scripts are allowed or not.
-/

namespace RowLang

theorem Text.not_isAsciiDigit_of_isLower {c : Char} (h : Text.isLower c = true) :
    ¬ Text.isAsciiDigit c = true := by
  simp only [Text.isLower, Text.isAsciiDigit, Bool.and_eq_true, decide_eq_true_iff] at h ⊢
  exact fun hd => absurd (Char.le_trans h.1 hd.2) (by decide)

theorem Decimal.isDigit_natChars {n : Nat} (c : Char) (hc : c ∈ Decimal.natChars n) :
    Text.isAsciiDigit c = true := by
  have hd : c.isDigit = true := Nat.isDigit_of_mem_toDigits (by decide) (by decide) hc
  rw [Char.isDigit, Bool.and_eq_true, decide_eq_true_iff, decide_eq_true_iff] at hd
  simp only [Text.isAsciiDigit, Bool.and_eq_true, decide_eq_true_iff]
  exact hd

theorem Decimal.natChars_injective : Function.Injective Decimal.natChars := fun m n h => by
  rw [← Decimal.natOfAscii_natChars m, h, Decimal.natOfAscii_natChars]

theorem Decimal.length_natChars_le {n k : Nat} (hk : 0 < k) (h : n < tenTo k) :
    (natChars n).length ≤ k := (Nat.length_toDigits_le_iff (by decide) hk).mpr h

theorem Text.digitValue?_of_isAsciiDigit {c : Char} (h : Text.isAsciiDigit c = true) :
    Text.digitValue? c = some (c.toNat - '0'.toNat) := by
  simp only [Text.isAsciiDigit, Bool.and_eq_true, decide_eq_true_iff] at h
  have hlow : 0x30 ≤ c.toNat := h.1
  have hhigh : c.toNat ≤ 0x30 + 9 := h.2
  rw [Text.digitValue?, Text.decimalZeros, List.find?_cons_of_pos (by simp [hlow, hhigh])]
  rfl

theorem Text.isDecimal_of_isAsciiDigit {c : Char}
    (h : isAsciiDigit c = true) : isDecimal c = true := by
  rw [isDecimal, digitValue?_of_isAsciiDigit h]
  rfl

theorem Decimal.natOfDigits_eq_natOfAscii {cs : List Char}
    (h : ∀ c ∈ cs, Text.isAsciiDigit c = true) :
    Decimal.natOfDigits cs = Decimal.natOfAscii cs := by
  have hfold : ∀ (cs : List Char) (n : Nat), (∀ c ∈ cs, Text.isAsciiDigit c = true) →
      cs.foldl (fun n c => 10 * n + (Text.digitValue? c).getD 0) n = Nat.ofDigitChars 10 cs n := by
    intro cs
    induction cs with
    | nil => intro n _; rfl
    | cons c cs ih =>
      intro n h
      rw [List.foldl_cons, ih _ fun d hd => h d (List.mem_cons_of_mem _ hd),
        Text.digitValue?_of_isAsciiDigit (h c List.mem_cons_self), Nat.ofDigitChars_cons]
      rfl
  exact hfold cs 0 h

end RowLang

/-!
## Where a word ends in a text

A word is a run of letters and digits.  What stands behind a word in a printed type begins with
something else (`Closes`), so a text can be cut behind its first word in one way only (`word_inj`);
the same goes for texts with commas between them, when each of them can be cut off
(`separated_inj`).
-/

namespace RowLang

namespace Text

/-- A letter or a digit. -/
def isWordChar (c : Char) : Bool := isLetter c || isAsciiDigit c

/-- A word of letters and digits. -/
def IsWord (w : List Char) : Prop := ∀ c ∈ w, isWordChar c = true

/-- No letter or digit comes first. -/
def Closes (r : List Char) : Prop := ∀ c ∈ r.head?, isWordChar c = false

theorem closes_nil : Closes [] := fun _ h => absurd h (by simp)

theorem closes_cons {c : Char} (h : isWordChar c = false) (r : List Char) : Closes (c :: r) :=
  fun d hd => by
    obtain rfl := Option.some.inj (Option.mem_def.mp hd)
    exact h

/-- No word goes on, and no further word comes behind a blank. -/
structure NoWord (r : List Char) : Prop where
  closes : Closes r
  behindBlank : ∀ c w, r = ' ' :: c :: w → isWordChar c = false

theorem noWord_cons {c : Char} (h : isWordChar c = false) (h' : c ≠ ' ')
    (r : List Char) : NoWord (c :: r) :=
  ⟨closes_cons h r, fun _ _ he => absurd (List.cons.inj he).1 h'⟩

theorem noWord_blank {c : Char} (h : isWordChar c = false) (r : List Char) :
    NoWord (' ' :: c :: r) :=
  ⟨closes_cons rfl _, fun d w he => by rwa [← (List.cons.inj (List.cons.inj he).2).1]⟩

/-- **A text is cut behind its first word in one way.** -/
theorem word_inj : ∀ {w w' r r' : List Char}, IsWord w → IsWord w' → Closes r → Closes r' →
    w ++ r = w' ++ r' → w = w' ∧ r = r'
  | [], [], _, _, _, _, _, _, h => ⟨rfl, h⟩
  | [], c :: w', r, r', _, hw', hr, _, h => by
    have hc : isWordChar c = false := hr c (by simp [show r = c :: (w' ++ r') from h])
    rw [hw' c List.mem_cons_self] at hc
    exact absurd hc (by simp)
  | c :: w, [], r, r', hw, _, _, hr', h => by
    have hc : isWordChar c = false := hr' c (by simp [show r' = c :: (w ++ r) from h.symm])
    rw [hw c List.mem_cons_self] at hc
    exact absurd hc (by simp)
  | c :: w, c' :: w', r, r', hw, hw', hr, hr', h => by
    rw [List.cons_append, List.cons_append, List.cons.injEq] at h
    obtain ⟨hww, hrr⟩ := word_inj (fun d hd => hw d (List.mem_cons_of_mem _ hd))
      (fun d hd => hw' d (List.mem_cons_of_mem _ hd)) hr hr' h.2
    exact ⟨by rw [h.1, hww], hrr⟩

end Text

/-! ### Names of numbers -/

theorem Decimal.isWord_natChars (n : Nat) : Text.IsWord (Decimal.natChars n) := fun c hc => by
  rw [Text.isWordChar, Decimal.isDigit_natChars c hc, Bool.or_true]

namespace Ty

private theorem letter_facts : ∀ n < 26, Text.isLower (Char.ofNat (97 + n)) = true ∧
    (Char.ofNat (97 + n)).toNat = 97 + n := by decide

/-- The name of a variable is one lower-case letter or a numeral. -/
theorem ownName_cases (n : Nat) :
    (n < 26 ∧ ∃ c, ownName n = [c] ∧ Text.isLower c = true ∧ c.toNat = 97 + n) ∨
      (26 ≤ n ∧ ownName n = Decimal.natChars n) := by
  rw [ownName]
  split
  case isTrue h => exact Or.inl ⟨h, _, rfl, letter_facts n h⟩
  case isFalse h => exact Or.inr ⟨Nat.le_of_not_lt h, rfl⟩

theorem isWord_ownName (n : Nat) : Text.IsWord (ownName n) := by
  rcases ownName_cases n with ⟨_, c, he, hl, _⟩ | ⟨_, he⟩
  · rw [he]
    intro d hd
    obtain rfl := List.mem_singleton.mp hd
    rw [Text.isLower] at hl
    rw [Text.isWordChar, Text.isLetter, hl]
    rfl
  · exact he ▸ Decimal.isWord_natChars n

theorem ownName_ne_nil (n : Nat) : ownName n ≠ [] := by
  rcases ownName_cases n with ⟨_, c, he, _, _⟩ | ⟨_, he⟩
  · simp [he]
  · rw [he]
    exact Nat.toDigits_ne_nil

/-- **Two variables have two names.** -/
theorem ownName_injective : Function.Injective ownName := fun m n h => by
  rcases ownName_cases m with ⟨_, c, hm, hl, hc⟩ | ⟨_, hm⟩ <;>
    rcases ownName_cases n with ⟨_, d, hn, hl', hd⟩ | ⟨_, hn⟩ <;> rw [hm, hn] at h
  · obtain rfl : c = d := by simpa using h
    omega
  · exact absurd (Decimal.isDigit_natChars c (h ▸ List.mem_singleton_self c))
      (Text.not_isAsciiDigit_of_isLower hl)
  · exact absurd (Decimal.isDigit_natChars d (h ▸ List.mem_singleton_self d))
      (Text.not_isAsciiDigit_of_isLower hl')
  · exact Decimal.natChars_injective h

/-! ### Names in letters -/

/-- More letters than it has are no part of a name. -/
theorem letterNameWithin_eq {n : Nat} :
    ∀ {fuel : Nat}, n ≤ fuel → letterNameWithin fuel n = letterName n := by
  induction n using Nat.strongRecOn with
  | ind n ih =>
    intro fuel hfuel
    match n, fuel with
    | 0, 0 | 0, _ + 1 => rfl
    | n + 1, fuel + 1 =>
      have hle : n / 26 ≤ n := Nat.div_le_self n 26
      rw [letterName, letterNameWithin, letterNameWithin, ih _ (by omega) hle,
        ih _ (by omega) (by omega)]

theorem letterName_succ (n : Nat) :
    letterName (n + 1) = letterName (n / 26) ++ [Char.ofNat (97 + n % 26)] := by
  rw [letterName, letterNameWithin, letterNameWithin_eq (Nat.div_le_self n 26)]

theorem lower_letter (n : Nat) : 'a' ≤ Char.ofNat (97 + n % 26) ∧ Char.ofNat
    (97 + n % 26) ≤ 'z' := by
  have hall : ∀ k < 26, 'a' ≤ Char.ofNat (97 + k) ∧ Char.ofNat (97 + k) ≤ 'z' := by decide
  exact hall _ (Nat.mod_lt n (by decide))

theorem lower_letterNameWithin (fuel n : Nat) : ∀ c ∈ letterNameWithin fuel n, 'a' ≤ c ∧
    c ≤ 'z' := by
  fun_induction letterNameWithin fuel n with
  | case1 | case2 => exact fun _ h => absurd h List.not_mem_nil
  | case3 fuel n ih =>
    intro c hc
    rcases List.mem_append.mp hc with hc | hc
    · exact ih c hc
    · rw [List.mem_singleton.mp hc]
      exact lower_letter n

theorem isLower_letterName {n : Nat} {c : Char} (h : c ∈ letterName n) : Text.isLower c = true := by
  obtain ⟨ha, hz⟩ := lower_letterNameWithin n n c h
  rw [Text.isLower, decide_eq_true ha, decide_eq_true hz]
  rfl

/-- **Two numbers have two names in letters**: the last letter is the remainder by 26, and the
others are the name of the quotient. -/
theorem letterName_injective : Function.Injective letterName := by
  intro m
  induction m using Nat.strongRecOn with
  | ind m ih =>
    intro n h
    match m, n with
    | 0, 0 => rfl
    | 0, n + 1 => rw [letterName_succ] at h; simp [letterName, letterNameWithin] at h
    | m + 1, 0 => rw [letterName_succ] at h; simp [letterName, letterNameWithin] at h
    | m + 1, n + 1 =>
      rw [letterName_succ, letterName_succ] at h
      obtain ⟨hinit, hlast⟩ := List.append_inj' h rfl
      have hquotient : m / 26 = n / 26 := ih (m / 26) (by omega) hinit
      have hcode := congrArg Char.toNat (List.cons.inj hlast).1
      rw [(letter_facts _ (Nat.mod_lt m (by decide))).2,
        (letter_facts _ (Nat.mod_lt n (by decide))).2] at hcode
      omega

/-! ### Names that a text tells -/

/-- Two variables have two names, and each name is a word that no capital letter begins. -/
structure Naming (name : Nat → List Char) : Prop where
  injective : Function.Injective name
  isWord : ∀ n, Text.IsWord (name n)
  exists_cons : ∀ n, ∃ c w, name n = c :: w ∧ (Text.isLower c = true ∨ Text.isAsciiDigit c = true)

theorem naming_ownName : Naming ownName := by
  refine ⟨ownName_injective, isWord_ownName, fun n => ?_⟩
  rcases ownName_cases n with ⟨_, c, he, hl, _⟩ | ⟨_, he⟩
  · exact ⟨c, [], he, Or.inl hl⟩
  · obtain ⟨c, w, hcw⟩ := List.exists_cons_of_ne_nil (ownName_ne_nil n)
    have hc : c ∈ Decimal.natChars n := by
      rw [← he, hcw]
      exact List.mem_cons_self
    exact ⟨c, w, hcw, Or.inr (Decimal.isDigit_natChars c hc)⟩

/-- The names by place, the first place is `a`. -/
theorem naming_letterName : Naming fun n => letterName (n + 1) := by
  refine ⟨fun m n h => Nat.succ_injective (letterName_injective h), fun n c hc => ?_, fun n => ?_⟩
  · rw [Text.isWordChar, Text.isLetter, ← Text.isLower, isLower_letterName hc]
    rfl
  · have hne : letterName (n + 1) ≠ [] := by simp [letterName_succ]
    obtain ⟨c, w, hcw⟩ := List.exists_cons_of_ne_nil hne
    exact ⟨c, w, hcw, Or.inl (isLower_letterName (by rw [hcw]; exact List.mem_cons_self))⟩

end Ty

/-! ### Texts with commas between them -/

/-- Nothing that stands behind a type belongs to it. -/
structure Stops (r : List Char) : Prop extends Text.NoWord r where
  noArrow : ¬ " -> ".toList <+: r

theorem stops_nil : Stops [] := ⟨⟨Text.closes_nil, by simp⟩, by simp⟩

/-- A char that stands behind a type. -/
theorem stops_cons {c : Char} (h : Text.isWordChar c = false) (h' : c ≠ ' ') (r : List Char) :
    Stops (c :: r) := by
  refine ⟨Text.noWord_cons h h' r, fun ⟨t, ht⟩ => h' ?_⟩
  have := congrArg List.head? ht
  simpa using this.symm

theorem commaSeparated_cons_cons (x y : List Char) (l : List (List Char)) :
    commaSeparated (x :: y :: l) = x ++ ',' :: ' ' :: commaSeparated (y :: l) := by
  rw [commaSeparated, commaSeparated, List.intercalate_cons_cons, List.append_assoc]
  rfl

theorem commaSeparated_singleton (x : List Char) : commaSeparated [x] = x := by
  rw [commaSeparated, List.intercalate_singleton]

section Separated

variable {α β : Type} {text : α → List Char} {seen : α → β}

/-- What a text shows of a thing, whatever stands behind it. -/
def Readable (text : α → List Char) (seen : α → β) (good : α → Prop) (x : α) : Prop :=
  ∀ y r r', good y → Stops r → Stops r' → text x ++ r = text y ++ r' → seen x = seen y ∧ r = r'

/-- **Things with commas between them can be told apart.** -/
theorem separated_inj {good : α → Prop} :
    ∀ {xs ys : List α} {r r' : List Char}, (∀ x ∈ xs, Readable text seen good x) →
      (∀ y ∈ ys, good y) → xs ≠ [] → ys ≠ [] → Stops r → Stops r' →
      r.head? ≠ some ',' → r'.head? ≠ some ',' →
      commaSeparated (xs.map text) ++ r = commaSeparated (ys.map text) ++ r' →
      xs.map seen = ys.map seen ∧ r = r'
  | [], _, _, _, _, _, h, _, _, _, _, _, _ => absurd rfl h
  | _, [], _, _, _, _, _, h, _, _, _, _, _ => absurd rfl h
  | [x], [y], r, r', hx, hy, _, _, hr, hr', _, _, h => by
    simp only [List.map_cons, List.map_nil, commaSeparated_singleton] at h
    obtain ⟨hs, hrr⟩ := hx x (by simp) y r r' (hy y (by simp)) hr hr' h
    exact ⟨by simp [hs], hrr⟩
  | [x], y :: y' :: ys, r, r', hx, hy, _, _, hr, hr', hc, _, h => by
    simp only [List.map_cons, List.map_nil, commaSeparated_singleton, commaSeparated_cons_cons,
      List.append_assoc, List.cons_append] at h
    obtain ⟨_, hrr⟩ := hx x (by simp) y r _ (hy y (by simp)) hr (stops_cons rfl (by decide) _) h
    exact absurd (by rw [hrr]; rfl) hc
  | x :: x' :: xs, [y], r, r', hx, hy, _, _, hr, hr', _, hc, h => by
    simp only [List.map_cons, List.map_nil, commaSeparated_singleton, commaSeparated_cons_cons,
      List.append_assoc, List.cons_append] at h
    obtain ⟨_, hrr⟩ := hx x (by simp) y _ r' (hy y (by simp)) (stops_cons rfl (by decide) _) hr' h
    exact absurd (by rw [← hrr]; rfl) hc
  | x :: x' :: xs, y :: y' :: ys, r, r', hx, hy, _, _, hr, hr', hc, hc', h => by
    simp only [List.map_cons, commaSeparated_cons_cons, List.append_assoc, List.cons_append] at h
    obtain ⟨hs, hrr⟩ := hx x (by simp) y _ _ (hy y (by simp)) (stops_cons rfl (by decide) _)
      (stops_cons rfl (by decide) _) h
    obtain ⟨hss, hrr'⟩ := separated_inj (fun z hz => hx z (List.mem_cons_of_mem _ hz))
      (fun z hz => hy z (List.mem_cons_of_mem _ hz)) (by simp) (by simp) hr hr' hc hc'
      (List.cons.inj (List.cons.inj hrr).2).2
    exact ⟨by rw [List.map_cons, hs, hss, List.map_cons (f := seen) (a := y)], hrr'⟩

end Separated

end RowLang
