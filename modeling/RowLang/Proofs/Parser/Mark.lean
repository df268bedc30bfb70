import RowLang.Proofs.Parser.Words

/-!
# Proofs/Parser/Mark — what stands outside of all brackets

An ascription has a colon behind the type that it begins with, a lambda an arrow behind the pattern;
both stand outside of all brackets.  `unmarked` looks whether such a mark comes before the first
thing that no type and no pattern goes past.  Types and patterns are read in steps that keep a text
unmarked (`Behind`), so that no mark comes behind one that an unmarked text begins with.
-/

namespace RowLang.Parser

open Text (isBlank isLetter isAsciiDigit)

/-- What is behind the type of an ascription, and behind the pattern of a lambda. -/
inductive Mark where
  | colon
  | arrow
  deriving DecidableEq

/-- Whether a text begins with a mark. -/
def Mark.isAt : Mark → List Char → Bool
  | colon, ':' :: _ => true
  | arrow, '=' :: '>' :: _ => true
  | _, _ => false

/-- Whether no mark stands outside of all brackets before the first thing that no type and no
pattern goes past; `d` brackets are open. -/
def unmarked (m : Mark) : Nat → List Char → Bool
  | _, [] => true
  | d, c :: s =>
    if ['(', '[', '\x7b', '<'].contains c then unmarked m (d + 1) s
    else if [')', ']', '\x7d', '>'].contains c then
      match d with
      | 0 => true
      | d + 1 => unmarked m d s
    else if ['\'', '"', ';', '='].contains c then d ≠ 0 || !m.isAt (c :: s)
    else if [':', ','].contains c && d = 0 then !m.isAt (c :: s)
    else if c = '-' then
      match s with
      | '>' :: s => unmarked m d s
      | s => unmarked m d s
    else unmarked m d s

variable {m : Mark} {d k : Nat} {c : Char} {s t u : List Char}

/-- A char that opens and closes nothing and belongs to no mark. -/
def Neutral (c : Char) : Prop :=
  c ∉ ['(', '[', '\x7b', '<', ')', ']', '\x7d', '>', '\'', '"', ';', '=', ':', ',', '-']

instance (c : Char) : Decidable (Neutral c) := inferInstanceAs (Decidable (¬ c ∈ _))

/-- Neutral chars may be skipped in the search for a mark. -/
theorem unmarked_neutral (h : Neutral c) : unmarked m d (c :: s) = unmarked m d s := by
  simp only [Neutral, List.mem_cons, List.not_mem_nil, or_false, not_or] at h
  rw [unmarked.eq_def]
  simp [h]

theorem neutral_of_isBlank (h : isBlank c = true) : Neutral c := by
  intro hc
  simp only [List.mem_cons, List.not_mem_nil, or_false] at hc
  rcases hc with rfl | rfl | rfl | rfl | rfl | rfl | rfl | rfl | rfl | rfl | rfl | rfl | rfl | rfl |
    rfl <;> exact absurd h (by decide)

theorem neutral_of_isLetter (h : isLetter c = true) : Neutral c := by
  intro hc
  simp only [List.mem_cons, List.not_mem_nil, or_false] at hc
  rcases hc with rfl | rfl | rfl | rfl | rfl | rfl | rfl | rfl | rfl | rfl | rfl | rfl | rfl | rfl |
    rfl <;> exact absurd h (by decide)

theorem neutral_of_isAsciiDigit (h : isAsciiDigit c = true) : Neutral c := by
  intro hc
  simp only [List.mem_cons, List.not_mem_nil, or_false] at hc
  rcases hc with rfl | rfl | rfl | rfl | rfl | rfl | rfl | rfl | rfl | rfl | rfl | rfl | rfl | rfl |
    rfl <;> exact absurd h (by decide)

/-- So may texts of them. -/
theorem unmarked_append (h : ∀ c ∈ t, Neutral c) : unmarked m d (t ++ s) = unmarked m d s := by
  induction t with
  | nil => rfl
  | cons c t ih =>
    rw [List.cons_append, unmarked_neutral (h c List.mem_cons_self),
      ih fun c hc => h c (List.mem_cons_of_mem _ hc)]

@[simp] theorem unmarked_blank (h : Blank t) : unmarked m d (t ++ s) = unmarked m d s :=
  unmarked_append fun c hc => neutral_of_isBlank (h c hc)

/-- A label is neutral. -/
theorem Label.Written.neutral {l : Label} (h : Label.Written l) : ∀ c ∈ l.toList, Neutral c :=
  fun c hc => h.2.elim (fun h => neutral_of_isLetter (h c hc)) fun h =>
    neutral_of_isAsciiDigit (h c hc)

/-- An opening bracket takes the search one level down. -/
theorem unmarked_open (h : c ∈ ['(', '[', '\x7b', '<']) :
    unmarked m d (c :: s) = unmarked m (d + 1) s := by
  rw [unmarked.eq_def]
  simp only [List.mem_cons, List.not_mem_nil, or_false] at h
  rcases h with rfl | rfl | rfl | rfl <;> rfl

/-- A closing bracket takes it one level up. -/
theorem unmarked_close (h : c ∈ [')', ']', '\x7d', '>']) :
    unmarked m (d + 1) (c :: s) = unmarked m d s := by
  rw [unmarked.eq_def]
  simp only [List.mem_cons, List.not_mem_nil, or_false] at h
  rcases h with rfl | rfl | rfl | rfl <;> rfl

/-- Inside brackets a separator is no mark. -/
theorem unmarked_separator (h : c = ',' ∨ c = ':') (hd : d ≠ 0) :
    unmarked m d (c :: s) = unmarked m d s := by
  rw [unmarked.eq_def]
  rcases h with rfl | rfl <;> simp [hd]

/-- An arrow of a type is no mark. -/
theorem unmarked_arrow : unmarked m d ('-' :: '>' :: s) = unmarked m d s := by
  rw [unmarked.eq_def]
  simp

/-- A minus is a mark only as part of an arrow. -/
theorem unmarked_minus (h : c ≠ '>') : unmarked m d ('-' :: c :: s) = unmarked m d (c :: s) := by
  have hminus : unmarked m d ('-' :: c :: s) = match c :: s with
      | '>' :: s => unmarked m d s
      | s => unmarked m d s := by
    conv => lhs; rw [unmarked.eq_def]
    simp
  rw [hminus]
  split
  · exact absurd (List.cons.inj ‹_›).1 h
  · rfl

/-! ## Steps -/

/-- The numbers of open brackets inside of a pair of brackets. -/
def inside (D : Nat → Prop) : Nat → Prop
  | 0 => False
  | d + 1 => D d

/-- **A text that is left**, which is unmarked if the whole text is, with a number of open brackets
of which `D` holds. -/
structure Behind (D : Nat → Prop) (s t : List Char) : Prop where
  length_le : t.length ≤ s.length
  unmarked : ∀ m d, D d → unmarked m d s = true → unmarked m d t = true

/-- A text that is left when something has been taken away. -/
structure Past (D : Nat → Prop) (s t : List Char) : Prop extends Behind D s t where
  length_lt : t.length < s.length

variable {D D' : Nat → Prop}

theorem Behind.refl (D : Nat → Prop) (s : List Char) : Behind D s s := ⟨le_rfl, fun _ _ _ h => h⟩

/-- Steps may be taken one after the other. -/
theorem Behind.trans (h : Behind D s t) (h' : Behind D t u) : Behind D s u :=
  ⟨h'.length_le.trans h.length_le, fun m d hd hs => h'.unmarked m d hd (h.unmarked m d hd hs)⟩

theorem Behind.mono (h : Behind D s t) (hD : ∀ d, D' d → D d) : Behind D' s t :=
  ⟨h.length_le, fun m d hd => h.unmarked m d (hD d hd)⟩

/-- A step that takes something away is a step. -/
theorem Past.behind (h : Past D s t) : Behind D s t := h.toBehind

theorem Behind.past (h : Behind D s t) (h' : Past D t u) : Past D s u :=
  ⟨h.trans h'.behind, h'.length_lt.trans_le h.length_le⟩

/-- A step takes something away if its first part does. -/
theorem Past.trans (h : Past D s t) (h' : Behind D t u) : Past D s u :=
  ⟨h.behind.trans h', h'.length_le.trans_lt h.length_lt⟩

theorem Past.mono (h : Past D s t) (hD : ∀ d, D' d → D d) : Past D' s t :=
  ⟨h.behind.mono hD, h.length_lt⟩

/-- Neutral chars are stepped over. -/
theorem behind_append (h : ∀ c ∈ t, Neutral c) : Behind D (t ++ s) s :=
  ⟨by simp, fun m d _ hs => by rwa [unmarked_append h] at hs⟩

theorem behind_blank (h : Blank t) : Behind D (t ++ s) s :=
  behind_append fun c hc => neutral_of_isBlank (h c hc)

theorem past_append (h : ∀ c ∈ t, Neutral c) (hne : t ≠ []) : Past D (t ++ s) s :=
  ⟨behind_append h, by simpa using List.length_pos_iff.mpr hne⟩

/-- Behind a comma or a colon inside brackets. -/
theorem past_separator (hc : c = ',' ∨ c = ':') : Past (inside D) (c :: s) s := by
  refine ⟨⟨by simp, fun m d hd hs => ?_⟩, by simp⟩
  cases d with
  | zero => exact hd.elim
  | succ d => rwa [unmarked_separator hc (Nat.succ_ne_zero d)] at hs

/-- The arrow of a function type is stepped over, although a lambda has a mark like it. -/
theorem past_arrow : Past D ('-' :: '>' :: s) s :=
  ⟨⟨by simp only [List.length_cons]; omega, fun m d _ hs => by rwa [unmarked_arrow] at hs⟩,
    by simp only [List.length_cons]; omega⟩

/-- **Behind brackets**, inside of which one bracket more is open. -/
theorem past_brackets {bs : List Char} {o c : Char} (hb : Blank bs)
    (ho : o ∈ ['(', '[', '\x7b', '<'])
    (hc : c ∈ [')', ']', '\x7d', '>']) (h : Behind (inside D) t (bs ++ c :: s)) :
    Past D (o :: t) s := by
  have hlen := h.length_le
  simp only [List.length_append, List.length_cons] at hlen
  refine ⟨⟨by simp only [List.length_cons]; omega, fun m d hd hs => ?_⟩,
    by simp only [List.length_cons]; omega⟩
  rw [unmarked_open ho] at hs
  have := h.unmarked m (d + 1) hd hs
  rwa [unmarked_blank hb, unmarked_close hc] at this

/-! ## Texts that the search goes past -/

/-- The search goes past a text: what is unmarked behind it is unmarked with it, with a number of
open brackets of which `D` holds. -/
def Passed (D : Nat → Prop) (t : List Char) : Prop :=
  ∀ m d s, D d → unmarked m d s = true → unmarked m d (t ++ s) = true

/-- Some bracket is open. -/
def Inside (d : Nat) : Prop := d ≠ 0

theorem passed_nil : Passed D [] := fun _ _ _ _ hs => hs

/-- Texts that the search goes past may be put together. -/
theorem Passed.append (h : Passed D t) (h' : Passed D u) : Passed D (t ++ u) :=
  fun m d s hd hs => by
  rw [List.append_assoc]
  exact h m d _ hd (h' m d s hd hs)

theorem Passed.mono (h : Passed D t) (hD : ∀ d, D' d → D d) : Passed D' t :=
  fun m d s hd hs => h m d s (hD d hd) hs

/-- The search goes past neutral chars. -/
theorem passed_neutral (h : ∀ c ∈ t, Neutral c) : Passed D t := fun m d s _ hs => by
  rwa [unmarked_append h]

theorem Passed.cons (h : Neutral c) (ht : Passed D t) : Passed D (c :: t) := fun m d s hd hs => by
  rw [List.cons_append, unmarked_neutral h]
  exact ht m d s hd hs

theorem Passed.minus (ht : Passed D (c :: t)) (hc : c ≠ '>') : Passed D ('-' :: c :: t) :=
  fun m d s hd hs => by
    rw [List.cons_append, List.cons_append, unmarked_minus hc]
    exact ht m d s hd hs

theorem passed_arrow : Passed D ['-', '>'] := fun m d s _ hs => by
  rwa [List.cons_append, List.singleton_append, unmarked_arrow]

/-- **The search goes past brackets** if it goes past what is inside. -/
theorem passed_brackets {o : Char} (ho : o ∈ ['(', '[', '\x7b', '<'])
    (hc : c ∈ [')', ']', '\x7d', '>'])
    (h : Passed Inside t) : Passed D (o :: (t ++ [c])) := fun m d s _ hs => by
  rw [List.cons_append, List.append_assoc, unmarked_open ho]
  exact h m (d + 1) _ (Nat.succ_ne_zero d) (by rwa [List.singleton_append, unmarked_close hc])

/-- The search goes nowhere past a quote. -/
theorem passed_quote (hc : c = '\'' ∨ c = '"') : Passed D (c :: t) := fun m d s _ _ => by
  rw [List.cons_append, unmarked.eq_def]
  rcases hc with rfl | rfl <;> cases m <;> simp [Mark.isAt]

/-- Inside brackets the search stops at what ends a statement. -/
theorem passed_halt (hc : c = ';' ∨ c = '=') : Passed Inside (c :: t) := fun m d s hd _ => by
  rw [List.cons_append, unmarked.eq_def]
  have : d ≠ 0 := hd
  rcases hc with rfl | rfl <;> simp [this]

/-- Inside, it goes past separators. -/
theorem Passed.separator (ht : Passed Inside t) (hc : c = ',' ∨ c = ':') : Passed Inside (c :: t) :=
  fun m d s hd hs => by
    rw [List.cons_append, unmarked_separator hc hd]
    exact ht m d s hd hs

/-- So it goes past lists. -/
theorem passed_commaSeparated {ts : List (List Char)} (h : ∀ t ∈ ts, Passed Inside t) :
    Passed Inside (commaSeparated ts) := by
  cases ts with
  | nil => exact passed_nil
  | cons t ts =>
    rw [commaSeparated_cons]
    refine (h t List.mem_cons_self).append ?_
    have hts : ∀ u ∈ ts, Passed Inside u := fun u hu => h u (List.mem_cons_of_mem _ hu)
    clear h
    induction ts with
    | nil => exact passed_nil
    | cons u ts ih =>
      rw [List.flatMap_cons]
      exact (((hts u List.mem_cons_self).cons (by decide)).separator (Or.inl rfl)).append
        (ih fun v hv => hts v (List.mem_cons_of_mem _ hv))

theorem passed_labelled {l : Label} (hl : Label.Written l) (h : Passed Inside t) :
    Passed Inside (labelled (l, t)) :=
  (passed_neutral (Label.Written.neutral hl)).append ((h.cons (by decide)).separator (Or.inr rfl))

/-- It goes past a text in parentheses or out of them. -/
theorem passed_parenthesize (h : ∀ D, Passed D t) (needed : Bool) :
    Passed D (parenthesize needed t) := by
  cases needed with
  | false => exact h D
  | true => exact passed_brackets (by decide) (by decide) (h Inside)

/-! ## Rules -/

variable {α : Type} {E : Halt → Prop} {G : α → Prop}

/-- Behind a neutral word a text stays unmarked. -/
theorem gives_neutral_literal {w : String} (hne : w.toList ≠ []) (h : ∀ c ∈ w.toList, Neutral c) :
    Gives E (fun _ rest => Past D s rest) (literal w s) :=
  gives_literal fun _ _ hb hs => hs ▸ (behind_blank hb).past (past_append h hne)

theorem gives_neutral_keyword {w : String} (hne : w.toList ≠ []) (h : ∀ c ∈ w.toList, Neutral c) :
    Gives E (fun _ rest => Past D s rest) (keyword w s) :=
  gives_keyword fun _ _ hb hs => hs ▸ (behind_blank hb).past (past_append h hne)

/-- Behind a comma inside brackets a text stays unmarked. -/
theorem gives_comma : Gives E (fun _ rest => Past (inside D) s rest) (literal "," s) :=
  gives_literal fun _ _ hb hs => hs ▸ (behind_blank hb).past (past_separator (Or.inl rfl))

theorem gives_colon : Gives E (fun _ rest => Past (inside D) s rest) (literal ":" s) :=
  gives_literal fun _ _ hb hs => hs ▸ (behind_blank hb).past (past_separator (Or.inr rfl))

/-- Behind the arrow of a function type a text stays unmarked. -/
theorem gives_arrow : Gives E (fun _ rest => Past D s rest) (literal "->" s) :=
  gives_literal fun _ _ hb hs => hs ▸ (behind_blank hb).past past_arrow

/-- Behind a name a text stays unmarked. -/
theorem gives_name : Gives E (fun x rest => IsName x ∧ Past D s rest) (Grammar.identifier s) :=
  Grammar.gives_identifier fun _ _ _ hb hs hx => ⟨hx, hs ▸ (behind_blank hb).past
    (past_append (fun c hc => neutral_of_isLetter (hx.2.1 c hc)) hx.1)⟩

theorem gives_written_label :
    Gives E (fun l rest => Label.Written l ∧ Past D s rest) (Grammar.label s) :=
  Grammar.gives_label fun _ _ _ hb hs hl => ⟨hl, hs ▸ (behind_blank hb).past
    (past_append (Label.Written.neutral hl) hl.1)⟩

/-- Something between brackets. -/
theorem gives_brackets {opening closing : String} {o c : Char} {p : Parser α}
    (ho : opening.toList = [o] ∧ o ∈ ['(', '[', '\x7b', '<'])
    (hc : closing.toList = [c] ∧ c ∈ [')', ']', '\x7d', '>'])
    (h : ∀ t, t.length < s.length → Gives E (fun x rest => G x ∧ Behind (inside D) t rest) (p t)) :
    Gives E (fun x rest => G x ∧ Past D s rest) (between opening p closing s) := by
  refine gives_between fun bs t hb hs => ?_
  rw [ho.1, List.singleton_append] at hs
  have hlt : t.length < s.length := by
    rw [hs, List.length_append, List.length_cons]
    omega
  refine (h t hlt).weaken fun x mid hx bs' rest hb' hmid => ⟨hx.1, ?_⟩
  rw [hc.1, List.singleton_append] at hmid
  exact hs ▸ (behind_blank hb).past (past_brackets hb' ho.2 hc.2 (hmid ▸ hx.2))

/-- What takes something away from shorter texts keeps an invariant. -/
theorem keeps_behind {p : Parser α} (h : ∀ t, t.length ≤ s.length →
      Gives E (fun x rest => G x ∧ Past D t rest) (p t)) : Keeps E (Behind D s) G p :=
  fun t ht => (h t ht.length_le).weaken fun _ _ ⟨hx, hrest⟩ =>
    ⟨hx, ht.trans hrest.behind, hrest.length_lt⟩

/-- **Behind a list inside brackets a text stays unmarked** if it does so behind its items. -/
theorem gives_commaList {p : Parser α} (h : ∀ t, t.length ≤ s.length →
      Gives E (fun x rest => G x ∧ Past (inside D) t rest) (p t)) :
    Gives E (fun xs rest => (∀ x ∈ xs, G x) ∧ Behind (inside D) s rest) (Grammar.commaList p s) :=
  (gives_sepBy (keeps_behind h)
    (keeps_behind fun _ _ => gives_comma.weaken fun _ _ h => ⟨trivial, h⟩)
    (.refl _ s)).weaken fun _ _ h => ⟨h.1, h.2.1⟩

/-- Behind a field it does so if it does behind its value. -/
theorem gives_field {value : Parser α} (h : ∀ t, t.length < s.length →
      Gives E (fun x rest => G x ∧ Past (inside D) t rest) (value t)) :
    Gives E (fun p rest => (Label.Written p.1 ∧ G p.2) ∧ Past (inside D) s rest)
      (Grammar.field value s) :=
  gives_written_label.both fun _ _ ⟨hl, ht⟩ => gives_colon.before fun _ u hu =>
    (h u (hu.length_lt.trans ht.length_lt)).weaken fun _ _ ⟨hx, hrest⟩ =>
      ⟨⟨hl, hx⟩, (ht.trans hu.behind).trans hrest.behind⟩

/-- A field, or a name alone for the field of that name. -/
theorem gives_punnedField {value : Parser α} {pun : String → α} (h : ∀ t, t.length < s.length →
      Gives E (fun x rest => G x ∧ Past (inside D) t rest) (value t))
    (hpun : ∀ x, IsName x → G (pun x)) :
    Gives E (fun p rest => (Label.Written p.1 ∧ G p.2) ∧ Past (inside D) s rest)
      (Grammar.punnedField value pun s) := by
  refine gives_firstOf fun q hq => ?_
  simp only [List.mem_cons, List.not_mem_nil, or_false] at hq
  rcases hq with rfl | rfl
  · exact gives_field h
  · exact Gives.map (gives_name.weaken fun x _ ⟨hx, hrest⟩ => ⟨⟨hx.written, hpun x hx⟩, hrest⟩)

/-- Behind a row it does so if it does behind its fields. -/
theorem gives_fields {item : Parser (Label × α)} (h : ∀ t, t.length ≤ s.length →
      Gives E (fun p rest => (Label.Written p.1 ∧ G p.2) ∧ Past (inside D) t rest) (item t)) :
    Gives E (fun r rest => Grammar.GoodFields G r ∧ Behind (inside D) s rest)
      (Grammar.rowOf item s) :=
  (Grammar.gives_rowOf (keeps_behind h)
    (keeps_behind fun _ _ => gives_comma.weaken fun _ _ h => ⟨trivial, h⟩) (.refl _ s)).weaken
    fun _ _ h => ⟨h.1, h.2.1⟩

end RowLang.Parser
