import RowLang.Proofs.Parser.Gives

/-!
# Proofs/Parser/Finds — the one reading of a text

A parser `Finds` something at the front of a text when that is its only reading, and `Refuses` a
text of which it has none.  Each combinator has its rules.  What begins with a lexeme does not care
for the blanks in front of it (`Skips`), so that a text is read alike behind a blank.
-/

namespace RowLang

namespace Parser

open Text (isBlank)

variable {ι α β γ : Type} {p : Parser α} {q : Parser β} {s mid rest : List Char} {x : α} {y : β}

/-- `p` has one reading of a text: `x`, with a rest. -/
def Finds (p : Parser α) (s : List Char) (x : α) (rest : List Char) : Prop := p s = .ok [(x, rest)]

/-- `p` has no reading of a text. -/
def Refuses (p : Parser α) (s : List Char) : Prop := p s = .ok []

/-- A value is found without anything being read. -/
theorem finds_pure : Finds (Parser.pure x) s x s := rfl

/-- What goes on from the one reading has one reading too. -/
theorem Finds.bind {f : α → Parser β} (h : Finds p s x mid) (hf : Finds (f x) mid y rest) :
    Finds (p.bind f) s y rest := (bind_of_singleton h).trans hf

/-- If what goes on from it has none, the whole has none. -/
theorem Finds.bind_refuses {f : α → Parser β} (h : Finds p s x mid) (hf : Refuses (f x) mid) :
    Refuses (p.bind f) s := (bind_of_singleton h).trans hf

/-- Nothing goes on from no reading. -/
theorem Refuses.bind {f : α → Parser β} (h : Refuses p s) : Refuses (p.bind f) s := bind_of_none h

/-- The one reading may be changed. -/
theorem Finds.map (h : Finds p s x rest) (f : α → β) : Finds (p.map f) s (f x) rest :=
  map_of_singleton h

/-- No reading stays none. -/
theorem Refuses.map (h : Refuses p s) (f : α → β) : Refuses (p.map f) s := by
  rw [Refuses, Parser.map, h]
  rfl

/-- One thing is found behind another, which is dropped. -/
theorem Finds.before (h : Finds p s x mid) (hq : Finds q mid y rest) :
    Finds (p.before q) s y rest :=
  h.bind hq

/-- Nothing is found if what is behind is refused. -/
theorem Finds.before_refuses (h : Finds p s x mid) (hq : Refuses q mid) : Refuses (p.before q) s :=
  h.bind_refuses hq

/-- Nothing is found if what comes first is refused. -/
theorem Refuses.before (h : Refuses p s) : Refuses (p.before q) s := h.bind

/-- Two things are found one behind the other. -/
theorem Finds.both (h : Finds p s x mid) (hq : Finds q mid y rest) :
    Finds (Parser.both p q) s (x, y) rest := h.bind (hq.map _)

/-- Two things are not found if the first one is refused. -/
theorem Refuses.both (h : Refuses p s) : Refuses (Parser.both p q) s := h.bind

/-- One thing is found in front of another, which is dropped. -/
theorem Finds.endedBy (h : Finds p s x mid) (hq : Finds q mid y rest) :
    Finds (p.endedBy q) s x rest := h.bind (hq.map _)

/-! ## Choices -/

variable {ps : List (Parser α)}

/-- The first alternative that has a reading counts. -/
theorem Finds.firstOf (h : Finds p s x rest) : Finds (firstOf (p :: ps)) s x rest := by
  rw [Finds, Parser.firstOf, h]
  rfl

/-- An alternative that has no reading does not count. -/
theorem Refuses.firstOf (h : Refuses p s) : firstOf (p :: ps) s = firstOf ps s := by
  rw [Parser.firstOf, h]
  rfl

/-- What all alternatives refuse is refused. -/
theorem refuses_firstOf (h : ∀ p ∈ ps, Refuses p s) : Refuses (firstOf ps) s := by
  induction ps with
  | nil => rfl
  | cons p ps ih =>
    rw [Refuses, (h p List.mem_cons_self).firstOf]
    exact ih fun q hq => h q (List.mem_cons_of_mem _ hq)

/-- An alternative that has no reading adds none. -/
theorem Refuses.choice (h : Refuses p s) : choice (p :: ps) s = choice ps s := by
  rw [Parser.choice, h]
  cases Parser.choice ps s <;> rfl

/-- What all alternatives refuse is refused, if they all count as well. -/
theorem refuses_choice (h : ∀ p ∈ ps, Refuses p s) : Refuses (choice ps) s := by
  induction ps with
  | nil => rfl
  | cons p ps ih =>
    rw [Refuses, (h p List.mem_cons_self).choice]
    exact ih fun q hq => h q (List.mem_cons_of_mem _ hq)

/-- **One alternative alone counts**, wherever it stands, if all others refuse a text. -/
theorem choice_nth (i : Nat) (hp : ps[i]? = some p) (hothers : ∀ q ∈ ps.eraseIdx i, Refuses q s) :
    choice ps s = p s := by
  induction ps generalizing i with
  | nil => simp at hp
  | cons q ps ih =>
    cases i with
    | zero =>
      obtain rfl := Option.some.inj hp
      have hps : choice ps s = .ok [] := refuses_choice hothers
      rw [Parser.choice, hps]
      cases hq : q s with
      | error why => rfl
      | ok readings => exact congrArg Except.ok (List.append_nil readings)
    | succ i =>
      rw [List.eraseIdx_cons_succ, List.forall_mem_cons] at hothers
      exact (hothers.1.choice).trans (ih i hp hothers.2)

/-- All alternatives refuse what one of them and all others refuse. -/
theorem refuses_of_eraseIdx {q : Parser α} (i : Nat) (hq : ps[i]? = some q) (h : Refuses q s)
    (hothers : ∀ p ∈ ps.eraseIdx i, Refuses p s) : ∀ p ∈ ps, Refuses p s := by
  obtain ⟨hi, rfl⟩ := List.getElem?_eq_some_iff.mp hq
  intro p hp
  rcases List.mem_cons.mp ((List.getElem_cons_eraseIdx_perm hi).mem_iff.mpr hp) with rfl | hp
  exacts [h, hothers p hp]

/-- Something optional is found where it is found. -/
theorem Finds.optional (h : Finds p s x rest) (z : α) : Finds (optional p z) s x rest := h.firstOf

/-- Where it is refused, its default is found. -/
theorem Refuses.optional (h : Refuses p s) (z : α) : Finds (optional p z) s z s := h.firstOf

/-! ## Repetitions -/

/-- `p` is read again and again, until it refuses what is left. -/
inductive Repeats (p : Parser α) : List Char → List α → List Char → Prop where
  | stop {s : List Char} : Refuses p s → Repeats p s [] s
  | more {s mid rest : List Char} {x : α} {xs : List α} : Finds p s x mid → mid.length < s.length →
    Repeats p mid xs rest → Repeats p s (x :: xs) rest

variable {xs : List α}

/-- **A repetition has one reading**: all that is read again and again. -/
theorem Repeats.many (h : Repeats p s xs rest) : Finds (many p) s xs rest := by
  have hwithin : ∀ fuel, s.length < fuel → Finds (manyWithin p fuel) s xs rest := by
    induction h with
    | stop h =>
      intro fuel hlt
      obtain ⟨fuel, rfl⟩ := Nat.exists_eq_succ_of_ne_zero (Nat.ne_of_gt (Nat.zero_lt_of_lt hlt))
      rw [Finds, manyWithin, h]
      rfl
    | @more s mid rest x xs h hlen _ ih =>
      intro fuel hlt
      obtain ⟨fuel, rfl⟩ := Nat.exists_eq_succ_of_ne_zero (Nat.ne_of_gt (Nat.zero_lt_of_lt hlt))
      rw [Finds, manyWithin, h]
      have hne : mid ≠ s := fun he => absurd (congrArg List.length he) hlen.ne
      show (if mid = s then _ else _) = _
      rw [if_neg hne]
      exact (ih fuel (by omega)).map _
  exact hwithin _ (Nat.lt_succ_self _)

/-- A repetition adds nothing to the text. -/
theorem Repeats.length_le (h : Repeats p s xs rest) : rest.length ≤ s.length := by
  induction h with
  | stop => exact le_rfl
  | more _ hlen _ ih => exact ih.trans hlen.le

/-- A list is found by its first item and those behind separators. -/
theorem Finds.sepBy {sep : Parser β} (h : Finds p s x mid)
    (hmore : Repeats (sep.before p) mid xs rest) :
    Finds (sepBy sep p) s (x :: xs) rest := Finds.firstOf (h.bind (hmore.many.map _))

/-- Where there is no item, the empty list is found. -/
theorem Refuses.sepBy {sep : Parser β} (h : Refuses p s) : Finds (sepBy sep p) s [] s :=
  Refuses.firstOf h.bind

/-- A text is read as something and steps that are folded to the left, and a rest is left. -/
inductive Leads (p : Parser α) (q : Parser β) (f : α → β → α)
    (s : List Char) : α → List Char → Prop where
  | first {x : α} {rest : List Char} : Finds p s x rest → Leads p q f s x rest
  | step {x : α} {y : β} {mid rest : List Char} : Leads p q f s x mid → Finds q mid y rest →
    rest.length < mid.length → Leads p q f s (f x y) rest

/-- Steps that follow may be counted in from the first thing on. -/
theorem Leads.exists_repeats {f : α → β → α} {ys : List β} {last : List Char}
    (h : Leads p q f s x rest) (hys : Repeats q rest ys last) :
    ∃ a mid zs, Finds p s a mid ∧ Repeats q mid zs last ∧ zs.foldl f a = ys.foldl f x := by
  induction h generalizing ys with
  | first h => exact ⟨_, _, ys, h, hys, rfl⟩
  | step _ hstep hlen ih => exact ih (.more hstep hlen hys)

/-- **A fold to the left is found** where no step follows. -/
theorem Leads.finds {f : α → β → α} (h : Leads p q f s x rest) (hq : Refuses q rest) :
    Finds (p.bind fun a => (many q).map fun ys => ys.foldl f a) s x rest := by
  obtain ⟨a, mid, zs, ha, hzs, hfold⟩ := h.exists_repeats (.stop hq)
  have hsteps := hzs.many.map fun ys => ys.foldl f a
  rw [hfold] at hsteps
  exact ha.bind hsteps

/-! ## Blanks -/

/-- Blanks in front of a text do not count. -/
def Skips (p : Parser α) : Prop := ∀ bs s, Blank bs → p (bs ++ s) = p s

/-- Something is found behind blanks where it is found without them. -/
theorem Skips.finds (h : Skips p) {b : List Char} (hb : Blank b) (hs : Finds p s x rest) :
    Finds p (b ++ s) x rest := (h b s hb).trans hs

/-- Something is refused behind blanks where it is refused without them. -/
theorem Skips.refuses (h : Skips p) {b : List Char} (hb : Blank b) (hs : Refuses p s) :
    Refuses p (b ++ s) := (h b s hb).trans hs

/-- One blank. -/
theorem Skips.behind_blank (h : Skips p) (hs : Finds p s x rest) : Finds p (' ' :: s) x rest :=
  h.finds (b := [' ']) (fun c hc => List.mem_singleton.mp hc ▸ by decide) hs

/-- One blank does not help. -/
theorem Skips.refuses_behind_blank (h : Skips p) (hs : Refuses p s) : Refuses p (' ' :: s) :=
  h.refuses (b := [' ']) (fun c hc => List.mem_singleton.mp hc ▸ by decide) hs

/-- **`p` takes a text for `x`**, behind any blanks and in front of all that `E` holds of. -/
def Takes (E : List Char → Prop) (p : Parser α) (cs : List Char) (x : α) : Prop :=
  ∀ bs rest, Blank bs → E rest → Finds p (bs ++ (cs ++ rest)) x rest

section Takes

variable {E E' : List Char → Prop} {cs : List Char}

/-- What skips blanks takes a text if it finds it behind none. -/
theorem Skips.takes (h : Skips p) (hs : ∀ rest, E rest → Finds p (cs ++ rest) x rest) :
    Takes E p cs x := fun _ _ hb hr => h.finds hb (hs _ hr)

/-- What takes a text finds it. -/
theorem Takes.finds (h : Takes E p cs x) (hr : E rest) : Finds p (cs ++ rest) x rest :=
  h [] rest (fun _ hc => absurd hc List.not_mem_nil) hr

/-- It also finds it behind one blank. -/
theorem Takes.behind_blank (h : Takes E p cs x) (hr : E rest) :
    Finds p (' ' :: (cs ++ rest)) x rest :=
  h [' '] rest (fun c hc => List.mem_singleton.mp hc ▸ by decide) hr

/-- Less may follow. -/
theorem Takes.mono (h : Takes E p cs x) (hE : ∀ r, E' r → E r) : Takes E' p cs x :=
  fun bs rest hb hr => h bs rest hb (hE rest hr)

end Takes

/-- **What is read behind blanks is read behind more of them.** -/
theorem skips_blanks (q : Parser β) : Skips (blanks.before q) := by
  intro bs s hb
  have hdrop : ∀ t, blanks t = .ok [(t.takeWhile isBlank, t.dropWhile isBlank)] := fun t => by
    rw [blanks, sat, Lexer.run, List.span_eq_takeWhile_dropWhile]
    rfl
  have hskip : (bs ++ s).dropWhile isBlank = s.dropWhile isBlank := by
    rw [List.dropWhile_append, List.dropWhile_eq_nil_iff.mpr hb]
    rfl
  rw [Parser.before, bind_of_singleton (hdrop _), bind_of_singleton (hdrop _), hskip]

/-- Lexemes skip blanks. -/
theorem skips_token (l : Lexer) : Skips (token l) := skips_blanks _

/-- The first part of a sequence skips the blanks for all of it. -/
theorem Skips.bind (h : Skips p) (f : α → Parser β) : Skips (p.bind f) := fun bs s hb => by
  rw [Parser.bind, Parser.bind, h bs s hb]

theorem Skips.map (h : Skips p) (f : α → β) : Skips (p.map f) := fun bs s hb => by
  rw [Parser.map, Parser.map, h bs s hb]

theorem Skips.before (h : Skips p) (q : Parser β) : Skips (p.before q) := h.bind _

theorem Skips.both (h : Skips p) (q : Parser β) : Skips (Parser.both p q) := h.bind _

theorem Skips.endedBy (h : Skips p) (q : Parser β) : Skips (p.endedBy q) := h.bind _

/-- Alternatives skip blanks together. -/
theorem skips_firstOf (h : ∀ p ∈ ps, Skips p) : Skips (firstOf ps) := by
  intro bs s hb
  induction ps with
  | nil => rfl
  | cons p ps ih =>
    rw [firstOf, firstOf, h p List.mem_cons_self bs s hb,
      ih fun q hq => h q (List.mem_cons_of_mem _ hq)]

/-- So they do if all of them count. -/
theorem skips_choice (h : ∀ p ∈ ps, Skips p) : Skips (choice ps) := by
  intro bs s hb
  induction ps with
  | nil => rfl
  | cons p ps ih =>
    rw [choice, choice, h p List.mem_cons_self bs s hb,
      ih fun q hq => h q (List.mem_cons_of_mem _ hq)]

/-- What stands between brackets is found behind blanks, since its opening bracket is. -/
theorem skips_between (opening : String) (p : Parser α) (closing : String) :
    Skips (between opening p closing) := ((skips_token _).before _).endedBy _

/-- A recursive grammar skips blanks if each step of it does. -/
theorem skips_unroll {step : (ι → Parser α) → ι → Parser α} (h : ∀ self i, Skips (step self i)) :
    ∀ n i, Skips (unroll step n i)
  | 0, _ => fun _ _ _ => rfl
  | _ + 1, i => h _ i

/-! ## Lexemes -/

/-- No blank comes first. -/
def Solid (s : List Char) : Prop := ∀ c ∈ s.head?, isBlank c = false

/-- Where nothing is left there is no blank. -/
theorem solid_nil : Solid [] := fun _ h => absurd h (by simp)

/-- A char that is no blank comes first. -/
theorem solid_cons {c : Char} (h : isBlank c = false) (s : List Char) : Solid (c :: s) :=
  fun d hd => by
  obtain rfl := Option.some.inj (Option.mem_def.mp hd)
  exact h

/-- Where no blank comes first none is skipped. -/
theorem blanks_of_solid (h : Solid s) (q : Parser β) : blanks.before q s = q s := by
  have hblanks : blanks s = .ok [([], s)] := by
    rw [blanks, sat, Lexer.run, List.span_eq_takeWhile_dropWhile]
    cases s with
    | nil => rfl
    | cons c s => simp [h c rfl]
  rw [Parser.before, bind_of_singleton hblanks]

/-- There a lexeme stands at the very front. -/
theorem token_of_solid {l : Lexer} (h : Solid s) : token l s = .ok (l s).toList :=
  blanks_of_solid h _

/-- A lexeme is found there if its lexer finds it. -/
theorem finds_token {l : Lexer} {w : List Char} (hs : Solid s) (h : l s = some (w, rest)) :
    Finds (token l) s w rest := by
  rw [Finds, token_of_solid hs, h]
  rfl

/-- A lexeme is refused there if its lexer finds nothing. -/
theorem refuses_token {l : Lexer} (hs : Solid s) (h : l s = none) : Refuses (token l) s := by
  rw [Refuses, token_of_solid hs, h]
  rfl

end Parser

namespace Lexer

variable {p : Char → Bool} {l : Lexer} {s w rest : List Char}

/-- A run ends where its chars end. -/
theorem run1_append (hne : w ≠ []) (hw : ∀ c ∈ w, p c = true) (hs : ∀ c ∈ s.head?, p c = false) :
    run1 p (w ++ s) = some (w, s) := by
  have hdrop : s.takeWhile p = [] ∧ s.dropWhile p = s := by
    cases s with
    | nil => simp
    | cons c s => simp [hs c rfl]
  obtain ⟨c, w, rfl⟩ := List.exists_cons_of_ne_nil hne
  rw [List.cons_append, run1, if_pos (hw c List.mem_cons_self), ← List.cons_append,
    List.span_eq_takeWhile_dropWhile, List.takeWhile_append_of_pos hw,
      List.dropWhile_append_of_pos hw,
    hdrop.1, hdrop.2, List.append_nil]

/-- What stands behind a text does not change how far a run goes. -/
theorem span_append (hs : ∀ c ∈ rest.head?, p c = false) :
    (s ++ rest).span p = ((s.span p).1, (s.span p).2 ++ rest) := by
  simp only [List.span_eq_takeWhile_dropWhile]
  induction s with
  | nil => cases rest <;> simp_all
  | cons c s ih =>
    cases hc : p c with
    | false => simp [hc]
    | true => simpa [hc] using ih

/-- A run begins with one of its chars. -/
theorem run1_eq_none (hs : ∀ c ∈ s.head?, p c = false) : run1 p s = none := by
  cases s with
  | nil => rfl
  | cons c s => rw [run1, hs c rfl]; rfl

/-- A text begins with itself. -/
theorem exactly_append (w s : List Char) : exactly w (w ++ s) = some (w, s) := by
  have hprefix : w.isPrefixOf? (w ++ s) = some s := by
    induction w with
    | nil => cases s <;> rfl
    | cons c w ih => simp [List.isPrefixOf?, ih]
  rw [exactly, hprefix]
  rfl

/-- A text that does not begin with a word has no such word in front. -/
theorem exactly_eq_none (h : ¬ w <+: s) : exactly w s = none := by
  cases hw : exactly w s with
  | none => rfl
  | some r =>
    obtain ⟨-, hs⟩ := exactly_eq_some hw
    exact absurd ⟨r.2, hs.symm⟩ h

/-- A lexeme stands if nothing that it must not touch follows. -/
theorem unlessBefore_of_some (h : l s = some (w, rest)) (hp : ∀ c ∈ rest.head?, p c = false) :
    l.unlessBefore p s = some (w, rest) := by
  have hany : rest.head?.any p = false := by
    cases hr : rest.head? with
    | none => rfl
    | some c => exact hp c hr
  simp [unlessBefore, h, hany]

/-- Where there is no lexeme there is none with a condition. -/
theorem unlessBefore_eq_none (h : l s = none) : l.unlessBefore p s = none := by
  simp [unlessBefore, h]

end Lexer

namespace Parser

open Text (isBlank)

variable {α : Type} {p : Parser α} {s rest : List Char} {x : α} {w : String}

/-- A word or a sign is found where it stands. -/
theorem finds_literal (hw : Solid (w.toList ++ rest)) :
    Finds (literal w) (w.toList ++ rest) w.toList rest :=
  finds_token hw (Lexer.exactly_append _ _)

/-- It is refused where it does not. -/
theorem refuses_literal (hs : Solid s) (h : ¬ w.toList <+: s) : Refuses (literal w) s :=
  refuses_token hs (Lexer.exactly_eq_none h)

/-- A text that another char begins is not there. -/
theorem not_prefix_of_head {v : List Char} {c d : Char} (hv : v.head? = some d) (h : d ≠ c) :
    ¬ v <+: c :: s := by
  obtain ⟨v, rfl⟩ : ∃ u, v = d :: u := by
    cases v with
    | nil => cases hv
    | cons e u => exact ⟨u, by rw [Option.some.inj hv]⟩
  exact fun hp => h (List.cons_prefix_cons.mp hp).1

/-- Something between an opening and a closing text. -/
theorem finds_between {o c : String} {t : List Char} (ho : Solid (o.toList ++ t))
    (h : Finds p t x (c.toList ++ rest)) (hc : Solid (c.toList ++ rest)) :
    Finds (between o p c) (o.toList ++ t) x rest :=
  ((finds_literal ho).before h).endedBy (finds_literal hc)

/-- A keyword is found where no letter follows. -/
theorem finds_keyword (hw : Solid (w.toList ++ rest))
    (hr : ∀ c ∈ rest.head?, Text.isLetter c = false) :
    Finds (keyword w) (w.toList ++ rest) w.toList rest :=
  finds_token hw (Lexer.unlessBefore_of_some (Lexer.exactly_append _ _) hr)

/-- A keyword is refused where it does not stand. -/
theorem refuses_keyword (hs : Solid s) (h : ¬ w.toList <+: s) : Refuses (keyword w) s :=
  refuses_token hs (Lexer.unlessBefore_eq_none (Lexer.exactly_eq_none h))

/-- A word with a letter behind it is another word. -/
theorem refuses_keyword_of_letter (hs : Solid (w.toList ++ rest))
    (hr : rest.head?.any Text.isLetter = true) : Refuses (keyword w) (w.toList ++ rest) := by
  refine refuses_token hs ?_
  rw [Lexer.unlessBefore, Lexer.exactly_append]
  simp [hr]

/-! ## First chars -/

/-- A text is refused that begins with a char outside of a class, blanks aside. -/
def Begins (P : Char → Bool) (p : Parser α) : Prop :=
  ∀ c s, isBlank c = false → P c = false → Refuses p (c :: s)

/-- The class of one char. -/
def only (d : Char) (c : Char) : Bool := c = d

section Begins

variable {β : Type} {P : Char → Bool} {d : Char}

/-- A lexeme begins with one of a class of chars if its lexer finds nothing else. -/
theorem begins_token {l : Lexer} (h : ∀ c s, P c = false → l (c :: s) = none) :
    Begins P (token l) :=
  fun c s hb hc => refuses_token (solid_cons hb s) (h c s hc)

/-- A word or a sign begins with its first char. -/
theorem begins_literal (hw : w.toList.head? = some d) : Begins (only d) (literal w) :=
  begins_token fun _ _ hc => Lexer.exactly_eq_none
    (not_prefix_of_head hw (Ne.symm (of_decide_eq_false hc)))

/-- A keyword does so too. -/
theorem begins_keyword (hw : w.toList.head? = some d) : Begins (only d) (keyword w) :=
  begins_token fun _ _ hc => Lexer.unlessBefore_eq_none (Lexer.exactly_eq_none
    (not_prefix_of_head hw (Ne.symm (of_decide_eq_false hc))))

/-- What is made of a reading does not change how it begins. -/
theorem Begins.map (h : Begins P p) (f : α → β) : Begins P (p.map f) :=
  fun c s hb hc => (h c s hb hc).map f

/-- A sequence begins like its first part. -/
theorem Begins.bind (h : Begins P p) (f : α → Parser β) : Begins P (p.bind f) :=
  fun c s hb hc => (h c s hb hc).bind

theorem Begins.before (h : Begins P p) (q : Parser β) : Begins P (p.before q) := h.bind _

/-- What stands between brackets begins with the opening one. -/
theorem begins_between {opening closing : String} (hw : opening.toList.head? = some d) :
    Begins (only d) (between opening p closing) := ((begins_literal hw).before p).bind _

variable {Ps : List (Char → Bool)} {ps : List (Parser α)} {c : Char}

/-- A char that begins none of the alternatives is refused by all of them. -/
theorem refuses_of_begins (hps : List.Forall₂ Begins Ps ps) (hb : isBlank c = false)
    (hc : ∀ P ∈ Ps, P c = false) : ∀ q ∈ ps, Refuses q (c :: s) := by
  induction hps with
  | nil => exact fun _ h => absurd h List.not_mem_nil
  | @cons P q Ps ps h _ ih =>
    rintro r (_ | ⟨_, hr⟩)
    · exact h c s hb (hc P List.mem_cons_self)
    · exact ih (fun P hP => hc P (List.mem_cons_of_mem _ hP)) r hr

/-- **The first char tells the alternative**, if it begins none of those before. -/
theorem Finds.firstOf_nth (hps : List.Forall₂ Begins Ps ps) (hb : isBlank c = false) (i : Nat)
    (hp : ps[i]? = some p) (hc : ∀ P ∈ Ps.take i, P c = false) (h : Finds p (c :: s) x rest) :
    Finds (Parser.firstOf ps) (c :: s) x rest := by
  induction hps generalizing i with
  | nil => simp at hp
  | @cons P q Ps ps hq _ ih =>
    cases i with
    | zero =>
      obtain rfl := Option.some.inj hp
      exact h.firstOf
    | succ i =>
      rw [List.take_succ_cons, List.forall_mem_cons] at hc
      exact (Refuses.firstOf (hq c s hb hc.1)).trans (ih i hp hc.2)

/-- How alternatives begin may be told of all but one of them. -/
theorem forall₂_eraseIdx (i : Nat) (hps : List.Forall₂ Begins Ps ps) :
    List.Forall₂ Begins (Ps.eraseIdx i) (ps.eraseIdx i) := by
  induction hps generalizing i with
  | nil => exact .nil
  | cons h hps ih =>
    cases i with
    | zero => exact hps
    | succ i => exact .cons h (ih i)

end Begins

/-! ## Whole texts -/

/-- What is found with nothing but blanks left is what the whole text denotes. -/
theorem Finds.whole_of_blank {b : List Char} (h : Finds p s x b)
    (hb : Blank b) : whole p s = .ok x := by
  have hblanks : blanks b = .ok [(b, [])] := by
    rw [blanks, sat, Lexer.run, List.span_eq_takeWhile_dropWhile, List.takeWhile_eq_self_iff.mpr hb,
      List.dropWhile_eq_nil_iff.mpr hb]
    rfl
  have hended : p.endedBy blanks s = .ok [(x, [])] := h.endedBy hblanks
  rw [Parser.whole, hended]
  rfl

/-- What is found with nothing left is what the whole text denotes. -/
theorem Finds.whole (h : Finds p s x []) : whole p s = .ok x :=
  h.whole_of_blank fun _ hc => absurd hc List.not_mem_nil

end Parser

end RowLang
