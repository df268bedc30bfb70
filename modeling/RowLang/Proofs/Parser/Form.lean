import RowLang.Proofs.Parser.Onward

/-!
# Proofs/Parser/Form — grammars as data, and why reading ends

A `Form` is a parser of the kit written down, with holes where the grammar refers to itself;
`denote` fills the holes.  What a form consumes and where it may enter the grammar without having
consumed anything can be told from the form alone (`Consumes`, `Guarded`), and so can what it
repeats (`EachRepeated`).  A grammar whose forms all consume, are guarded and repeat nothing that
does not consume is `Descending`: then reading ends, and it is the reading in which the grammar is
entered again on shorter texts only (`descend`).
-/

namespace RowLang

/-- What is read is not empty. -/
def Lexer.Consuming (l : Lexer) : Prop := ∀ s w rest, l s = some (w, rest) → rest.length < s.length

namespace Lexer.Consuming

variable {p : Char → Bool} {l m : Lexer}

theorem run1 : Consuming (Lexer.run1 p) := fun _ _ _ h => by
  obtain ⟨rfl, hne, -⟩ := run1_eq_some h
  have := List.length_pos_iff.mpr hne
  rw [List.length_append]
  omega

theorem one : Consuming (Lexer.one p) := fun _ _ _ h => by
  obtain ⟨c, -, rfl, -⟩ := one_eq_some h
  exact Nat.lt_succ_self _

theorem exactly {w : List Char} (hw : w ≠ []) : Consuming (Lexer.exactly w) := fun _ _ _ h => by
  have := List.length_pos_iff.mpr hw
  rw [(exactly_eq_some h).2, List.length_append]
  omega

theorem unlessBefore (h : l.Consuming) : Consuming (l.unlessBefore p) := fun _ _ _ hl =>
  h _ _ _ (unlessBefore_eq_some hl)

theorem orElse (h : l.Consuming) (hm : m.Consuming) : Consuming (l.orElse m) := fun _ _ _ hl =>
  (orElse_eq_some hl).elim (h _ _ _) (hm _ _ _)

theorem andThen (h : l.Consuming) (hm : m.Onward) : Consuming (l.andThen m) := fun _ _ _ hl => by
  obtain ⟨_, _, _, hv, hw⟩ := andThen_eq_some hl
  exact (hm _ _ _ hw).length_le.trans_lt (h _ _ _ hv)

end Lexer.Consuming

namespace Parser

variable {ι α β γ : Type}

/-! ## Alternatives -/

/-- The readings of `p`, and then those of `q`. -/
def also (p q : Parser β) : Parser β := fun s => do
  let here ← p s
  let others ← q s
  return here ++ others

/-- The readings of `p`, or those of `q` if there is none. -/
def orElse (p q : Parser β) : Parser β := fun s => do
  match ← p s with
  | [] => q s
  | readings => return readings

/-- The rule for two alternatives that both count. -/
theorem gives_orElse {E : Halt → Prop} {P : β → List Char → Prop} {p q : Parser β} {s : List Char}
    (hp : Gives E P (p s)) (hq : Gives E P (q s)) : Gives E P (p.orElse q s) := by
  unfold orElse
  cases hr : p s with
  | error e =>
    rw [hr] at hp
    exact hp
  | ok readings =>
    rw [hr] at hp
    cases readings with
    | nil => exact hq
    | cons r rs => exact hp

/-! ## What comes to more -/

/-- `b` is what `a` is, if `a` ends. -/
def Below (a b : Except Halt β) : Prop := a = .error .endless ∨ a = b

theorem Below.refl (a : Except Halt β) : Below a a := Or.inr rfl

/-- What goes on to more from more comes to more. -/
theorem Below.andThen {a b : Except Halt β} {f g : β → Except Halt γ} (h : Below a b)
    (hf : ∀ x, Below (f x) (g x)) : Below (a >>= f) (b >>= g) := by
  rcases h with rfl | rfl
  · exact Or.inl rfl
  · cases a with
    | error why => exact .refl _
    | ok x => exact hf x

theorem below_readOn {f g : β → Parser γ} (h : ∀ x s, Below (f x s) (g x s)) :
    ∀ readings : Readings β, Below (readOn f readings) (readOn g readings)
  | [] => .refl _
  | (x, rest) :: readings => (h x rest).andThen fun _ =>
    (below_readOn h readings).andThen fun _ => .refl _

/-- A repetition comes to more if what is repeated does. -/
theorem below_manyWithin {p q : Parser β} (h : ∀ s, Below (p s) (q s)) :
    ∀ (fuel : Nat) (s : List Char), Below (manyWithin p fuel s) (manyWithin q fuel s)
  | 0, _ => .refl _
  | fuel + 1, s => by
    have hnext (x : β) (rest : List Char) : Below ((manyWithin p fuel).map (x :: ·) rest)
        ((manyWithin q fuel).map (x :: ·) rest) :=
          (below_manyWithin h fuel rest).andThen fun _ => .refl _
    unfold manyWithin
    refine (h s).andThen fun readings => ?_
    rcases readings with _ | ⟨⟨x, rest⟩, _ | ⟨r', rs⟩⟩
    · exact .refl _
    · show Below (if rest = s then _ else _) (if rest = s then _ else _)
      split
      exacts [.refl _, hnext x rest]
    · refine below_readOn (fun x rest => ?_) _
      split
      exacts [hnext x rest, .refl _]

/-! ## Forms -/

/-- The parse does not go on for ever. -/
def Ending (why : Halt) : Prop := why ≠ .endless

/-- Each reading takes some chars from the front of the text. -/
def Consuming (p : Parser β) : Prop :=
  ∀ s readings, p s = .ok readings → ∀ r ∈ readings, ∃ w, w ≠ [] ∧ s = w ++ r.2

/-- A parser of the kit, as data; `call i` refers to the grammar of expressions, types or whatever
is read. -/
inductive Form (ι α : Type) : Type → Type 1
  /-- The grammar itself. -/
  | call (i : ι) : Form ι α α
  /-- What a text begins with. -/
  | lexeme {β : Type} (l : List Char → Option (β × List Char))
      (h : ∀ s x rest, l s = some (x, rest) → rest <:+ s) : Form ι α β
  /-- A parser that does not refer to the grammar. -/
  | apart {β : Type} (p : Parser β) (h : p.Onward) (hends : ∀ s, p s ≠ .error .endless) : Form ι α β
  | give {β : Type} (x : β) : Form ι α β
  | fail {β : Type} : Form ι α β
  | bind {β γ : Type} (f : Form ι α β) (g : β → Form ι α γ) : Form ι α γ
  | map {β γ : Type} (g : β → γ) (f : Form ι α β) : Form ι α γ
  | also {β : Type} (f g : Form ι α β) : Form ι α β
  | orElse {β : Type} (f g : Form ι α β) : Form ι α β
  | many {β : Type} (f : Form ι α β) : Form ι α (List β)

namespace Form

/-- The parser that a form describes. -/
def denote (self : ι → Parser α) : {β : Type} → Form ι α β → Parser β
  | _, call i => self i
  | _, lexeme l _ => fun s => .ok (l s).toList
  | _, apart p _ _ => p
  | _, give x => Parser.pure x
  | _, fail => Parser.fail
  | _, bind f g => (f.denote self).bind fun x => (g x).denote self
  | _, map g f => (f.denote self).map g
  | _, also f g => (f.denote self).also (g.denote self)
  | _, orElse f g => (f.denote self).orElse (g.denote self)
  | _, many f => Parser.many (f.denote self)

/-- Each reading consumes something, if the grammar does so. -/
def Consumes : {β : Type} → Form ι α β → Prop
  | _, call _ => True
  | _, lexeme l _ => ∀ s x rest, l s = some (x, rest) → rest.length < s.length
  | _, apart p _ _ => ∀ s readings, p s = .ok readings → ∀ r ∈ readings, r.2.length < s.length
  | _, give _ => False
  | _, fail => True
  | _, bind f g => f.Consumes ∨ ∀ x, (g x).Consumes
  | _, map _ f => f.Consumes
  | _, also f g => f.Consumes ∧ g.Consumes
  | _, orElse f g => f.Consumes ∧ g.Consumes
  | _, many _ => False

/-- The grammar is not entered before something is consumed. -/
def Guarded : {β : Type} → Form ι α β → Prop
  | _, call _ => False
  | _, bind f g => f.Guarded ∧ (f.Consumes ∨ ∀ x, (g x).Guarded)
  | _, map _ f => f.Guarded
  | _, also f g => f.Guarded ∧ g.Guarded
  | _, orElse f g => f.Guarded ∧ g.Guarded
  | _, many f => f.Guarded
  | _, _ => True

/-- `P` holds of all that is repeated in a form. -/
def EachRepeated (P : ∀ {γ : Type}, Form ι α γ → Prop) : {β : Type} → Form ι α β → Prop
  | _, bind f g => f.EachRepeated P ∧ ∀ x, (g x).EachRepeated P
  | _, map _ f => f.EachRepeated P
  | _, also f g => f.EachRepeated P ∧ g.EachRepeated P
  | _, orElse f g => f.EachRepeated P ∧ g.EachRepeated P
  | _, many f => P f ∧ f.EachRepeated P
  | _, _ => True

/-- Nothing is repeated that does not consume. -/
def Repeats (f : Form ι α β) : Prop := f.EachRepeated Consumes

/-- A form that consumes and is guarded, and so is all that it repeats. -/
structure Descending (f : Form ι α β) : Prop where
  consumes : f.Consumes
  guarded : f.Guarded
  repeats : f.Repeats

/-! ## What forms read -/

variable {self self' : ι → Parser α} {s : List Char} {n : Nat}

/-- **What a form leaves is an end of the text**, if so is what the grammar leaves. -/
theorem onward (h : ∀ i, (self i).Onward) : ∀ {β : Type} (f : Form ι α β), (f.denote self).Onward
  | _, call i => h i
  | _, lexeme _ hl => Onward.toList hl
  | _, apart _ hp _ => hp
  | _, give x => Onward.pure x
  | _, fail => Onward.fail
  | _, bind f g => (f.onward h).bind fun x => (g x).onward h
  | _, map _ f => (f.onward h).map _
  | _, also f g => fun s => gives_both_parts (f.onward h s) (g.onward h s)
  | _, orElse f g => fun s => gives_orElse (f.onward h s) (g.onward h s)
  | _, many f => (f.onward h).many

/-- Reading with a form that repeats only what consumes ends, and takes away what the form consumes,
if the grammar does so on shorter texts: on texts of length `n` the form must be guarded. -/
theorem gives
    (hself : ∀ i t, t.length < n → Gives Ending (fun _ rest => rest.length < t.length) (self i t)) :
    ∀ {β : Type} (f : Form ι α β) {s : List Char}, f.Repeats →
      (s.length < n ∨ s.length ≤ n ∧ f.Guarded) →
        Gives Ending (fun _ rest => rest.length ≤ s.length ∧ (f.Consumes → rest.length < s.length))
          (f.denote self s)
  | _, call i, s, _, hs => (hself i s (hs.elim id fun h => h.2.elim)).weaken fun _ _ h =>
    ⟨h.le, fun _ => h⟩
  | _, lexeme l hl, s, _, _ => by
    show Gives Ending _ (.ok (l s).toList)
    cases h : l s with
    | none => exact gives_none
    | some r => exact gives_one ⟨(hl s r.1 r.2 h).length_le, fun hc => hc s r.1 r.2 h⟩
  | _, apart p hp hends, s, _, _ => by
    have honward := hp s
    show Gives Ending _ (p s)
    cases h : p s with
    | error why => exact fun he => hends s (he ▸ h)
    | ok readings =>
      rw [h] at honward
      exact fun r hr => ⟨(honward r hr).length_le, fun hc => hc s readings h r hr⟩
  | _, give x, _, _, _ => gives_one ⟨le_rfl, False.elim⟩
  | _, fail, _, _, _ => gives_none
  | _, bind f g, _, hrep, hs =>
    (f.gives hself hrep.1 (hs.imp_right fun h => ⟨h.1, h.2.1⟩)).bind fun x rest ⟨hle, hlt⟩ => by
      have hrest : rest.length < n ∨ rest.length ≤ n ∧ (g x).Guarded := by
        rcases hs with hs | ⟨hs, -, hc | hg⟩
        · exact Or.inl (hle.trans_lt hs)
        · exact Or.inl ((hlt hc).trans_le hs)
        · exact Or.inr ⟨hle.trans hs, hg x⟩
      exact ((g x).gives hself (hrep.2 x) hrest).weaken fun _ _ ⟨hle', hlt'⟩ =>
        ⟨hle'.trans hle, fun hc =>
        hc.elim (fun hf => hle'.trans_lt (hlt hf)) fun hg => (hlt' (hg x)).trans_le hle⟩
  | _, map _ f, _, hrep, hs => (f.gives hself hrep hs).map
  | _, also f g, _, hrep, hs => gives_both_parts
      ((f.gives hself hrep.1 (hs.imp_right fun h => ⟨h.1, h.2.1⟩)).weaken fun _ _ h =>
        ⟨h.1, fun hc => h.2 hc.1⟩)
      ((g.gives hself hrep.2 (hs.imp_right fun h => ⟨h.1, h.2.2⟩)).weaken fun _ _ h =>
        ⟨h.1, fun hc => h.2 hc.2⟩)
  | _, orElse f g, _, hrep, hs => gives_orElse
      ((f.gives hself hrep.1 (hs.imp_right fun h => ⟨h.1, h.2.1⟩)).weaken fun _ _ h =>
        ⟨h.1, fun hc => h.2 hc.1⟩)
      ((g.gives hself hrep.2 (hs.imp_right fun h => ⟨h.1, h.2.2⟩)).weaken fun _ _ h =>
        ⟨h.1, fun hc => h.2 hc.2⟩)
  | _, many f, s, hrep, hs => by
    have hkeeps : Keeps Ending (fun t => t.length ≤ s.length) (fun _ => True) (f.denote self) :=
      fun t ht => by
        have hgives := f.gives hself hrep.2 (hs.imp ht.trans_lt fun h => ⟨ht.trans h.1, h.2⟩)
        exact hgives.weaken fun _ _ h => ⟨trivial, h.1.trans ht, h.2 hrep.1⟩
    exact (gives_many hkeeps le_rfl).weaken fun _ _ h => ⟨h.2.2, False.elim⟩

/-- **A form whose grammar comes to more comes to more.** -/
theorem below_denote (h : ∀ i t, Below (self i t) (self' i t)) :
    ∀ {β : Type} (f : Form ι α β) (s : List Char), Below (f.denote self s) (f.denote self' s)
  | _, call i, s => h i s
  | _, lexeme _ _, _ | _, apart _ _ _, _ | _, give _, _ | _, fail, _ => .refl _
  | _, bind f g, s => (f.below_denote h s).andThen (below_readOn fun x => (g x).below_denote h)
  | _, map _ f, s => (f.below_denote h s).andThen fun _ => .refl _
  | _, also f g, s => (f.below_denote h s).andThen fun _ =>
    (g.below_denote h s).andThen fun _ => .refl _
  | _, orElse f g, s => (f.below_denote h s).andThen fun
    | [] => g.below_denote h s
    | _ :: _ => .refl _
  | _, many f, s => below_manyWithin (f.below_denote h) _ s

/-! ## The kit -/

section Kit

variable {f : Form ι α β} {g : Form ι α γ} {fs : List (Form ι α β)} {l : Lexer}

/-- One thing behind another, which is dropped. -/
def before (f : Form ι α β) (g : Form ι α γ) : Form ι α γ := f.bind fun _ => g

/-- Two things, one behind the other. -/
def both (f : Form ι α β) (g : Form ι α γ) : Form ι α (β × γ) :=
  f.bind fun x => g.map fun y => (x, y)

/-- One thing in front of another, which is dropped. -/
def endedBy (f : Form ι α β) (g : Form ι α γ) : Form ι α β := f.bind fun x => g.map fun _ => x

/-- Alternatives of which the first one counts. -/
def firstOf (fs : List (Form ι α β)) : Form ι α β := fs.foldr orElse fail

/-- Alternatives that all count. -/
def choice (fs : List (Form ι α β)) : Form ι α β := fs.foldr also fail

/-- What may be left out. -/
def optional (f : Form ι α β) (x : β) : Form ι α β := firstOf [f, give x]

/-- A repetition that is not empty. -/
def many1 (f : Form ι α β) : Form ι α (List β) := f.bind fun x => f.many.map (x :: ·)

/-- Things with others in between. -/
def sepBy (sep : Form ι α γ) (f : Form ι α β) : Form ι α (List β) :=
  firstOf [f.bind fun x => (sep.before f).many.map (x :: ·), give []]

def blanks : Form ι α (List Char) := lexeme (Lexer.run Text.isBlank) Lexer.Onward.run

/-- A lexeme behind blanks. -/
def token (l : Lexer) (h : l.Onward) : Form ι α (List Char) := blanks.before (lexeme l h)

def literal (w : String) : Form ι α (List Char) :=
  token (Lexer.exactly w.toList) (Lexer.Onward.exactly _)

def keyword (w : String) : Form ι α (List Char) :=
  token ((Lexer.exactly w.toList).unlessBefore Text.isLetter) (Lexer.Onward.exactly _).unlessBefore

/-- What stands between brackets. -/
def between (opening : String) (f : Form ι α β) (closing : String) : Form ι α β :=
  ((literal opening).before f).endedBy (literal closing)

/-- A lexeme that takes something away asks for no grammar. -/
theorem descending_token (h : l.Onward) (hl : l.Consuming) : (token l h : Form ι α _).Descending :=
  ⟨Or.inr fun _ => hl, ⟨trivial, Or.inr fun _ => trivial⟩, trivial, fun _ => trivial⟩

theorem descending_literal {w : String}
    (hw : w.toList ≠ []) : (literal w : Form ι α _).Descending :=
  descending_token _ (Lexer.Consuming.exactly hw)

theorem descending_keyword {w : String}
    (hw : w.toList ≠ []) : (keyword w : Form ι α _).Descending :=
  descending_token _ (Lexer.Consuming.exactly hw).unlessBefore

theorem descending_fail : (fail : Form ι α β).Descending := ⟨trivial, trivial, trivial⟩

/-- **What follows something descending may ask for the grammar at once.** -/
theorem Descending.bind {g : β → Form ι α γ} (h : f.Descending) (hg : ∀ x, (g x).Repeats) :
    (f.bind g).Descending := ⟨Or.inl h.consumes, ⟨h.guarded, Or.inl h.consumes⟩, h.repeats, hg⟩

theorem Descending.map (h : f.Descending) (g : β → γ) : (f.map g).Descending :=
  ⟨h.consumes, h.guarded, h.repeats⟩

theorem Descending.before (h : f.Descending) (hg : g.Repeats) : (f.before g).Descending :=
  h.bind fun _ => hg

theorem Descending.both (h : f.Descending) (hg : g.Repeats) : (f.both g).Descending :=
  h.bind fun _ => hg

theorem Descending.endedBy (h : f.Descending) (hg : g.Repeats) : (f.endedBy g).Descending :=
  h.bind fun _ => hg

/-- Alternatives descend if each one does. -/
theorem descending_firstOf (h : ∀ f ∈ fs, f.Descending) : (firstOf fs).Descending := by
  induction fs with
  | nil => exact descending_fail
  | cons f fs ih =>
    have hfs := ih fun f' hf' => h f' (List.mem_cons_of_mem f hf')
    have hf := h f List.mem_cons_self
    exact ⟨⟨hf.consumes, hfs.consumes⟩, ⟨hf.guarded, hfs.guarded⟩, hf.repeats, hfs.repeats⟩

theorem descending_choice (h : ∀ f ∈ fs, f.Descending) : (choice fs).Descending := by
  induction fs with
  | nil => exact descending_fail
  | cons f fs ih =>
    have hfs := ih fun f' hf' => h f' (List.mem_cons_of_mem f hf')
    have hf := h f List.mem_cons_self
    exact ⟨⟨hf.consumes, hfs.consumes⟩, ⟨hf.guarded, hfs.guarded⟩, hf.repeats, hfs.repeats⟩

theorem Descending.many1 (h : f.Descending) : f.many1.Descending :=
  h.bind fun _ => ⟨h.consumes, h.repeats⟩

/-- What descends may be repeated. -/
theorem Descending.repeats_many (h : f.Descending) : f.many.Repeats := ⟨h.consumes, h.repeats⟩

/-- The grammar may be entered again where something was taken away. -/
theorem repeats_call (i : ι) : (call i : Form ι α α).Repeats := trivial

theorem Repeats.both (h : f.Repeats) (hg : g.Repeats) : (f.both g).Repeats := ⟨h, fun _ => hg⟩

theorem Repeats.optional (h : f.Repeats) (x : β) : (f.optional x).Repeats := ⟨h, trivial, trivial⟩

/-- A list may be tried wherever its items may, if its separators take something away. -/
theorem Repeats.sepBy {sep : Form ι α γ} (h : f.Repeats)
    (hsep : sep.Descending) : (sep.sepBy f).Repeats :=
  ⟨⟨h, fun _ => ⟨Or.inl hsep.consumes, hsep.repeats, fun _ => h⟩⟩, trivial, trivial⟩

/-- What stands between brackets descends, since the opening bracket takes something away. -/
theorem descending_between {opening closing : String} (hopening : opening.toList ≠ [])
    (hclosing : closing.toList ≠ []) (h : f.Repeats) : (between opening f closing).Descending :=
  ((descending_literal hopening).before h).endedBy (descending_literal hclosing).repeats

end Kit

/-! ## What is repeated -/

section Repeated

variable (honward : ∀ i, (self i).Onward)
  (hself : ∀ i s, Gives Ending (fun _ rest => rest.length < s.length) (self i s))

include honward hself

/-- A form that consumes takes chars from the front of each text. -/
theorem Consumes.consuming {f : Form ι α β} (hf : f.Consumes) (hrep : f.Repeats) :
    Consuming (f.denote self) := by
  intro s readings hs r hr
  have hsuffix := f.onward honward s
  have hlength := f.gives (fun i t _ => hself i t) hrep (Or.inl (Nat.lt_succ_self s.length))
  rw [hs] at hsuffix hlength
  obtain ⟨w, hw⟩ := hsuffix r hr
  have hlt := (hlength r hr).2 hf
  refine ⟨w, fun hnil => ?_, hw.symm⟩
  rw [hnil, List.nil_append] at hw
  exact absurd hlt (hw ▸ Nat.lt_irrefl _)

/-- **Nothing is repeated that does not consume.** -/
theorem eachRepeated_consuming : ∀ {β : Type} (f : Form ι α β), f.Repeats →
    f.EachRepeated fun f => Consuming (f.denote self)
  | _, call _, _ | _, lexeme _ _, _ | _, apart _ _ _, _ | _, give _, _ | _, fail, _ => trivial
  | _, bind f g, hrep =>
    ⟨f.eachRepeated_consuming hrep.1, fun x => (g x).eachRepeated_consuming (hrep.2 x)⟩
  | _, map _ f, hrep => f.eachRepeated_consuming hrep
  | _, also f g, hrep | _, orElse f g, hrep =>
    ⟨f.eachRepeated_consuming hrep.1, g.eachRepeated_consuming hrep.2⟩
  | _, many f, hrep =>
    ⟨Consumes.consuming honward hself hrep.1 hrep.2, f.eachRepeated_consuming hrep.2⟩

end Repeated

end Form

/-! ## Grammars -/

/-- The grammar that is entered again on shorter texts only; elsewhere it does not end. -/
def descend (step : (ι → Parser α) → ι → Parser α) (i : ι) (s : List Char) :
    Except Halt (Readings α) :=
  step (fun j t => if _h : t.length < s.length then descend step j t else .error .endless) i s
termination_by s.length

/-- A grammar on the texts shorter than `s`; elsewhere it does not end. -/
def onShorter (s : List Char) (self : ι → Parser α) : ι → Parser α := fun j t =>
  if t.length < s.length then self j t else .error .endless

section Grammars

variable {step : (ι → Parser α) → ι → Parser α} {form : ι → Form ι α α}

/-- A reading that descends takes one step and reads shorter texts. -/
theorem descend_eq (step : (ι → Parser α) → ι → Parser α) (i : ι) (s : List Char) :
    descend step i s = step (onShorter s (descend step)) i s := by
  rw [descend]
  rfl

/-- A grammar whose forms are descending. -/
structure Descends (step : (ι → Parser α) → ι → Parser α) (form : ι → Form ι α α) : Prop where
  denotes : ∀ self i, (form i).denote self = step self i
  descending : ∀ i, (form i).Descending

/-- Reading with a grammar ends.  Whatever is read, the grammar is entered again on shorter texts
only: it is what it would be if it could not be entered again on other texts.  All that it repeats,
as its forms tell it, takes chars from the front of each text. -/
structure Ends (step : (ι → Parser α) → ι → Parser α) (form : ι → Form ι α α) : Prop where
  ends : ∀ i s, knot step i s ≠ .error .endless
  descends : ∀ i, knot step i = descend step i
  denotes : ∀ self i, (form i).denote self = step self i
  consumes : ∀ i, (form i).EachRepeated fun f => Consuming (f.denote (knot step))

namespace Descends

variable (h : Descends step form)

include h

/-- Reading ends, and consumes something. -/
theorem gives_descend (i : ι) (s : List Char) :
    Gives Ending (fun _ rest => rest.length < s.length) (descend step i s) := by
  induction hn : s.length using Nat.strongRecOn generalizing i s with
  | ind n ih =>
    rw [descend_eq, ← h.denotes]
    refine ((form i).gives (n := n) (fun j t ht => ?_) (h.descending i).repeats
      (Or.inr ⟨hn.le, (h.descending i).guarded⟩)).weaken fun _ _ hr =>
        hn ▸ hr.2 (h.descending i).consumes
    have hentered : onShorter s (descend step) j t = descend step j t := if_pos (hn ▸ ht)
    exact hentered ▸ ih t.length ht j t rfl

/-- **With as many rounds as a text has chars** reading is descending. -/
theorem unroll_eq (n : Nat) (i : ι) (s : List Char) (hs : s.length < n) :
    unroll step n i s = descend step i s := by
  induction n generalizing i s with
  | zero => exact absurd hs (Nat.not_lt_zero _)
  | succ n ih =>
    have hends := h.gives_descend i s
    have hbelow : Below (descend step i s) (unroll step (n + 1) i s) := by
      rw [descend_eq, unroll, ← h.denotes, ← h.denotes]
      refine (form i).below_denote (fun j t => ?_) s
      show Below (if t.length < s.length then _ else _) _
      split
      case isTrue ht => exact Or.inr (ih j t (by omega)).symm
      case isFalse => exact Or.inl rfl
    rcases hbelow with hbelow | hbelow
    · rw [hbelow] at hends
      exact absurd rfl hends
    · exact hbelow.symm

/-- **A descending grammar is entered again on shorter texts only.** -/
theorem knot_eq (i : ι) : knot step i = descend step i :=
  funext fun s => h.unroll_eq _ i s (Nat.lt_succ_self _)

/-- **Reading ends**, and consumes something. -/
theorem gives_knot (i : ι) (s : List Char) :
    Gives Ending (fun _ rest => rest.length < s.length) (knot step i s) :=
  h.knot_eq i ▸ h.gives_descend i s

/-- **What is left is an end of the text.** -/
theorem onward_knot (i : ι) : Onward (knot step i) :=
  Onward.knot (fun self hself i => h.denotes self i ▸ (form i).onward hself) i

/-- **Reading with a descending grammar ends.** -/
theorem ends : Ends step form where
  ends i s hs := by
    have hgives := h.gives_knot i s
    rw [hs] at hgives
    exact hgives rfl
  descends := h.knot_eq
  denotes := h.denotes
  consumes i := (form i).eachRepeated_consuming h.onward_knot h.gives_knot (h.descending i).repeats

end Descends

end Grammars

end Parser

end RowLang
