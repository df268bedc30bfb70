import RowLang.Proofs.Parser.Gives

/-!
# Proofs/Parser/Onward — what is left of a text is an end of it

No parser of the kit makes up text or goes back: each reading leaves an end of the text that it is
of (`Onward`).  So when no reading of a text is complete, the place of the error is where the
remainder stands (`Onward.stuck`): blanks apart it is the least that any reading leaves, and it
begins with no blank.
-/

namespace RowLang

/-- What is left behind a lexeme is an end of the text. -/
def Lexer.Onward (l : Lexer) : Prop := ∀ s w rest, l s = some (w, rest) → rest <:+ s

/-- A lexeme of two parts is one part in front of another one. -/
theorem Lexer.andThen_eq_some {l m : Lexer} {s w rest : List Char}
    (h : l.andThen m s = some (w, rest)) :
    ∃ v mid w', l s = some (v, mid) ∧ m mid = some (w', rest) := by
  rw [andThen, Option.bind_eq_bind, Option.bind_eq_some_iff] at h
  obtain ⟨⟨v, mid⟩, hv, h⟩ := h
  dsimp only at h
  rw [Option.bind_eq_some_iff] at h
  obtain ⟨⟨w', rest'⟩, hw, h⟩ := h
  cases h
  exact ⟨v, mid, w', hv, hw⟩

namespace Lexer.Onward

variable {p : Char → Bool} {l m : Lexer}

theorem run : Onward (Lexer.run p) := fun s w rest h => by
  simp only [Lexer.run, List.span_eq_takeWhile_dropWhile, Option.some.injEq, Prod.mk.injEq] at h
  exact h.2 ▸ List.dropWhile_suffix p

theorem run1 : Onward (Lexer.run1 p) := fun _ _ _ h => ⟨_, (run1_eq_some h).1.symm⟩

theorem one : Onward (Lexer.one p) := fun _ _ _ h => by
  obtain ⟨c, -, rfl, -⟩ := one_eq_some h
  exact List.suffix_cons c _

theorem exactly (w : List Char) : Onward (Lexer.exactly w) :=
  fun _ _ _ h => ⟨w, (exactly_eq_some h).2.symm⟩

theorem unlessBefore (h : l.Onward) : Onward (l.unlessBefore p) := fun _ _ _ hl =>
  h _ _ _ (unlessBefore_eq_some hl)

theorem orElse (h : l.Onward) (hm : m.Onward) : Onward (l.orElse m) := fun _ _ _ hl =>
  (orElse_eq_some hl).elim (h _ _ _) (hm _ _ _)

theorem andThen (h : l.Onward) (hm : m.Onward) : Onward (l.andThen m) := fun _ _ _ hl => by
  obtain ⟨_, _, _, hv, hw⟩ := andThen_eq_some hl
  exact (hm _ _ _ hw).trans (h _ _ _ hv)

end Lexer.Onward

namespace Parser

variable {ι α β : Type} {p : Parser α} {q : Parser β}

/-- Whatever stops the parse. -/
def Whatever (_ : Halt) : Prop := True

/-- Each reading leaves an end of the text. -/
def Onward (p : Parser α) : Prop := ∀ s, Gives Whatever (fun _ rest => rest <:+ s) (p s)

namespace Onward

theorem pure (x : α) : Onward (Parser.pure x) := fun s => gives_one (List.suffix_refl s)

theorem fail : Onward (fail : Parser α) := fun _ => gives_none

theorem halt (why : Halt) : Onward (halt why : Parser α) := fun _ => trivial

/-- A sequence leaves an end of an end. -/
theorem bind {f : α → Parser β} (h : Onward p) (hf : ∀ x, Onward (f x)) :
    Onward (p.bind f) := fun s =>
  (h s).bind fun x mid hmid => (hf x mid).weaken fun _ _ hrest => hrest.trans hmid

theorem map (h : Onward p) (f : α → β) : Onward (p.map f) := fun s => (h s).map

/-- A repetition is onward however often it goes on. -/
theorem manyWithin (h : Onward p) (fuel : Nat) : Onward (manyWithin p fuel) := by
  induction fuel with
  | zero => exact halt _
  | succ fuel ih =>
    intro s
    have hs := h s
    have hnext (x : α) {rest : List Char} (hrest : rest <:+ s) :
        Gives Whatever (fun _ rest => rest <:+ s) ((Parser.manyWithin p fuel).map (x :: ·) rest) :=
      (ih.map _ rest).weaken fun _ _ h' => h'.trans hrest
    unfold Parser.manyWithin
    cases hr : p s with
    | error e => exact trivial
    | ok readings =>
      rw [hr] at hs
      rcases readings with _ | ⟨⟨x, rest⟩, _ | ⟨r', rs⟩⟩
      · exact gives_one (List.suffix_refl s)
      · show Gives Whatever _ (if rest = s then _ else _)
        split
        · exact gives_one (List.suffix_refl s)
        · exact hnext x (hs _ List.mem_cons_self)
      · refine gives_readOn fun q hq => ?_
        show Gives Whatever _ (if _ then _ else _)
        split
        · exact hnext q.1 (hs q hq)
        · exact trivial

/-- A repetition leaves an end, since each round does. -/
theorem many (h : Onward p) : Onward (many p) := fun s => h.manyWithin _ s

/-! ## Lexemes -/

/-- What a text begins with leaves what comes after it. -/
theorem toList {l : List Char → Option (α × List Char)}
    (h : ∀ s x rest, l s = some (x, rest) → rest <:+ s) :
    Onward fun s => .ok (l s).toList := fun s => by
  show Gives Whatever _ (.ok (l s).toList)
  cases hl : l s with
  | none => exact gives_none
  | some r => exact gives_one (h s r.1 r.2 hl)

/-! ## Recursive grammars -/

/-- A grammar is onward however deep it is followed, if it is so when its parts are. -/
theorem unroll {step : (ι → Parser α) → ι → Parser α}
    (h : ∀ self, (∀ i, Onward (self i)) → ∀ i, Onward (step self i)) : ∀ n i,
      Onward (unroll step n i)
  | 0, _ => halt _
  | n + 1, i => h _ (unroll h n) i

/-- **What is onward if its parts are is onward when it refers to itself.** -/
theorem knot {step : (ι → Parser α) → ι → Parser α}
    (h : ∀ self, (∀ i, Onward (self i)) → ∀ i, Onward (step self i)) (i : ι) :
    Onward (knot step i) :=
  fun s => unroll h _ i s

end Onward

/-! ## Whole texts -/

theorem shortestText_mem : ∀ {ts : List (List Char)}, ts ≠ [] → shortestText ts ∈ ts
  | [], h => absurd rfl h
  | [t], _ => List.mem_singleton_self t
  | t :: u :: ts, _ => by
    have hmem := shortestText_mem (List.cons_ne_nil u ts)
    unfold shortestText
    dsimp only
    split
    · exact List.mem_cons_self
    · exact List.mem_cons_of_mem t hmem

/-- The shortest text is no longer than any. -/
theorem length_shortestText_le : ∀ {ts : List (List Char)}, ∀ t ∈ ts,
    (shortestText ts).length ≤ t.length
  | [t], u, hu => by rw [List.mem_singleton.mp hu, shortestText]
  | t :: u :: ts, v, hv => by
    have hle : ∀ w ∈ u :: ts, (shortestText (u :: ts)).length ≤ w.length := length_shortestText_le
    unfold shortestText
    dsimp only
    rcases List.mem_cons.mp hv with rfl | hv
    · split <;> omega
    · have := hle v hv
      split <;> omega

/-- No blank is left in front when blanks are dropped. -/
theorem head_dropBlanks (s : List Char) :
    ∀ c ∈ (Text.dropBlanks s).head?, Text.isBlank c = false := by
  intro c hc
  have hhead := List.head?_dropWhile_not Text.isBlank s
  rw [← Text.dropBlanks, Option.mem_def.mp hc] at hhead
  exact hhead

/-- A text that begins with no blank has none in front of it. -/
theorem dropBlanks_of_head {s : List Char} (h : ∀ c ∈ s.head?, Text.isBlank c = false) :
    Text.dropBlanks s = s := by
  cases s with
  | nil => rfl
  | cons c s => rw [Text.dropBlanks, List.dropWhile_cons_of_neg (by simp [h c rfl])]

/-- The readings with the blanks behind them taken away. -/
theorem endedBy_blanks {s : List Char} {readings : Readings α} (h : p s = .ok readings) :
    p.endedBy blanks s = .ok (readings.map fun r => (r.1, Text.dropBlanks r.2)) := by
  have hone (x : α) (rest : List Char) :
      (Parser.blanks.map fun _ => x) rest = .ok [(x, Text.dropBlanks rest)] := by
    refine map_of_singleton (x := rest.takeWhile Text.isBlank) ?_
    rw [Parser.blanks, sat, Lexer.run, List.span_eq_takeWhile_dropWhile]
    rfl
  have hall : readOn (fun x => Parser.blanks.map fun _ => x) readings
      = .ok (readings.map fun r => (r.1, Text.dropBlanks r.2)) := by
    clear h
    induction readings with
    | nil => rfl
    | cons r readings ih =>
      rw [readOn, hone, ih]
      rfl
  rw [endedBy, Parser.bind, h]
  exact hall

/-- **Where the trouble stands**: the remainder is the end of the text from the offset on, it begins
with no blank, and every reading leaves as much behind its blanks. -/
theorem Onward.stuck {s remainder : List Char} {offset : Nat} (h : Onward p)
    (hs : whole p s = .error (.stuck remainder offset)) :
    offset < s.length ∧ s.drop offset = remainder ∧
      (∃ c, remainder.head? = some c ∧ Text.isBlank c = false) ∧
      ∀ readings, p s = .ok readings →
      ∀ r ∈ readings, remainder.length ≤ (Text.dropBlanks r.2).length := by
  cases hp : p s with
  | error why =>
    have hended : p.endedBy Parser.blanks s = .error why := by
      rw [Parser.endedBy, Parser.bind, hp]
      rfl
    rw [whole, hended] at hs
    cases hs
  | ok readings =>
    have hends := h s
    rw [hp] at hends
    rw [whole, endedBy_blanks hp] at hs
    dsimp only at hs
    split at hs
    case h_1 => cases hs
    case h_3 => cases hs
    case h_2 hincomplete =>
      split at hs
      case isTrue => cases hs
      case isFalse hne =>
        obtain ⟨rfl, rfl⟩ := ParseError.stuck.inj (Except.error.inj hs)
        rw [List.map_map]
        set rests := readings.map ((fun r => r.2) ∘ fun r => (r.1, Text.dropBlanks r.2)) with hrests
        have hnonempty : rests ≠ [] := by simpa [hrests] using hne
        obtain ⟨r, hr, hleast⟩ := List.mem_map.mp (shortestText_mem hnonempty)
        have hleast : Text.dropBlanks r.2 = shortestText rests := hleast
        have hhead := head_dropBlanks r.2
        rw [dropBlanks_of_head (hleast ▸ hhead)]
        have hsuffix : shortestText rests <:+ s :=
          hleast ▸ (Text.dropBlanks_suffix r.2).trans (hends r hr)
        have hrest : shortestText rests ≠ [] := by
          intro hnil
          have hmem : (r.1, Text.dropBlanks r.2) ∈
              (readings.map fun r => (r.1, Text.dropBlanks r.2)).filter fun r => r.2.isEmpty :=
            List.mem_filter.mpr ⟨List.mem_map.mpr ⟨r, hr, rfl⟩, by rw [hleast, hnil]; rfl⟩
          rw [hincomplete] at hmem
          cases hmem
        obtain ⟨c, t, hct⟩ := List.exists_cons_of_ne_nil hrest
        obtain ⟨front, hfront⟩ := hsuffix
        have hlength := congrArg List.length hfront
        have hpos := List.length_pos_iff.mpr hrest
        rw [List.length_append] at hlength
        refine ⟨by omega, ?_, ⟨c, by rw [hct]; rfl, ?_⟩, fun readings' hreadings' r' hr' => ?_⟩
        · rw [show s.length - (shortestText rests).length = front.length by omega, ← hfront,
            List.drop_left]
        · exact hhead c (by rw [hleast, hct]; rfl)
        · cases hreadings'
          exact length_shortestText_le _ (List.mem_map.mpr ⟨r', hr', rfl⟩)

end Parser

end RowLang
