import Mathlib.Data.List.DropRight
import RowLang.Proofs.Text.Word
import RowLang.Report.Picture

/-!
# Proofs/Report/Picture — the carets stand under the trouble

What is documented of an illustrator is how it cuts a text into lines and how it shows one of them
(`Illustrator.Documented`); the illustrator at hand is of that kind
(`Illustrator.documented_byLines`). Whoever draws a picture in that way, its carets mark the word
that begins at its offset, whatever stands in front of the word in its line and whatever breaks the
lines (`Picture.underlines_ofOffset`).
-/

namespace RowLang

namespace Text

variable {s acc body : List Char}

/-! ## Lines -/

/-- The breaks of lines. -/
def breaks : List (List Char) := [['\n'], ['\r'], ['\r', '\n']]

/-- No line breaks in it. -/
def Unbroken (s : List Char) : Prop := ∀ c ∈ s, c ≠ '\r' ∧ c ≠ '\n'

/-- The lines of a text: each ends at the first break in it, which is as long as can be, and only
the last may have none. -/
inductive Lines : List (List Char) → Prop
  | none : Lines []
  | last {body : List Char} (hbody : Unbroken body) (hne : body ≠ []) : Lines [body]
  | next {body brk : List Char} {ls : List (List Char)} (hbody : Unbroken body)
    (hbrk : brk ∈ breaks)
      (hlong : brk = ['\r'] → ls.flatten.head? ≠ some '\n') (hls : Lines ls) :
        Lines ((body ++ brk) :: ls)

theorem unbroken_nil : Unbroken [] := fun _ h => absurd h List.not_mem_nil

theorem Unbroken.reverse (h : Unbroken s) : Unbroken s.reverse :=
  fun c hc => h c (List.mem_reverse.mp hc)

theorem flatten_linesFrom (acc s : List Char) : (linesFrom acc s).flatten = acc.reverse ++ s := by
  fun_induction linesFrom acc s <;> simp_all

/-- Where a line goes on, what follows it does not begin with the rest of its break. -/
theorem head_flatten_linesFrom
    (h : s.head? ≠ some '\n') : (linesFrom [] s).flatten.head? ≠ some '\n' := by
  rwa [flatten_linesFrom, List.reverse_nil, List.nil_append]

theorem lines_linesFrom (hacc : Unbroken acc) : Lines (linesFrom acc s) := by
  fun_induction linesFrom acc s with
  | case1 => exact .none
  | case2 acc hne =>
    exact .last hacc.reverse (by simpa using hne)
  | case3 acc s ih =>
    rw [List.reverse_cons, List.reverse_cons, List.append_assoc]
    exact .next hacc.reverse (by simp [breaks]) (by simp) (ih unbroken_nil)
  | case4 acc s hs ih =>
    rw [List.reverse_cons]
    refine .next hacc.reverse (by simp [breaks]) (fun _ => head_flatten_linesFrom fun h => ?_)
      (ih unbroken_nil)
    obtain ⟨t, rfl⟩ := List.head?_eq_some_iff.mp h
    exact hs t rfl
  | case5 acc s ih =>
    rw [List.reverse_cons]
    exact .next hacc.reverse (by simp [breaks]) (by simp) (ih unbroken_nil)
  | case6 acc c s _ hr hn ih => exact ih (List.forall_mem_cons.mpr ⟨⟨hr, hn⟩, hacc⟩)

/-- **A text is cut into lines**, of which nothing is lost. -/
theorem lines_lines (s : List Char) : Lines (lines s) ∧ (lines s).flatten = s :=
  ⟨lines_linesFrom unbroken_nil, flatten_linesFrom [] s⟩

theorem linesFrom_append (hbody : Unbroken body) (acc s : List Char) :
    linesFrom acc (body ++ s) = linesFrom (body.reverse ++ acc) s := by
  induction body generalizing acc with
  | nil => rfl
  | cons c body ih =>
    obtain ⟨hr, hn⟩ := hbody c List.mem_cons_self
    rw [List.cons_append, linesFrom, ih fun d hd => hbody d (List.mem_cons_of_mem _ hd),
      List.reverse_cons,
      List.append_assoc, List.singleton_append]
    exacts [fun _ h _ => hr h, hr, hn]

/-- **There is one way to cut a text into lines.** -/
theorem Lines.eq_lines {ls : List (List Char)} (h : Lines ls) : lines ls.flatten = ls := by
  rw [lines]
  induction h with
  | none => rfl
  | @last body hbody hne =>
    have hbare : linesFrom body.reverse [] = [body] := by simp [linesFrom, hne]
    rw [List.flatten_singleton, ← List.append_nil body, linesFrom_append hbody,
      List.append_nil, hbare,
      List.append_nil]
  | @next body brk ls hbody hbrk hlong _ ih =>
    rw [List.flatten_cons, List.append_assoc, linesFrom_append hbody, List.append_nil]
    simp only [breaks, List.mem_cons, List.not_mem_nil, or_false] at hbrk
    rcases hbrk with rfl | rfl | rfl
    · simp [linesFrom, ih]
    · rw [List.singleton_append, linesFrom, ih, List.reverse_cons, List.reverse_reverse]
      exact fun t ht => hlong rfl (by rw [ht]; rfl)
    · simp [linesFrom, ih]

theorem isBlank_of_mem_break {brk : List Char}
    (h : brk ∈ breaks) : ∀ c ∈ brk, isBlank c = true := by
  have hall : ∀ brk ∈ breaks, brk.all isBlank = true := by decide
  exact List.all_eq_true.mp (hall brk h)

/-- A line among lines: a break ends it, unless it is the last. -/
theorem Lines.of_append {before after : List (List Char)} {line : List Char}
    (h : Lines (before ++ line :: after)) :
    ∃ body brk, line = body ++ brk ∧ Unbroken body ∧ (brk ∈ breaks ∨ brk = [] ∧ after = []) := by
  induction before with
  | nil =>
    cases h with
    | last hbody _ => exact ⟨line, [], (List.append_nil _).symm, hbody, Or.inr ⟨rfl, rfl⟩⟩
    | next hbody hbrk _ _ => exact ⟨_, _, rfl, hbody, Or.inl hbrk⟩
  | cons first before ih =>
    refine ih ?_
    rw [List.cons_append] at h
    generalize hrest : before ++ line :: after = rest at h
    cases h with
    | last => simp at hrest
    | next _ _ _ hls => exact hls

/-! ## Blanks at the end -/

theorem dropBlanksRight_eq (s : List Char) : dropBlanksRight s = s.rdropWhile isBlank := rfl

theorem dropBlanksRight_append_blanks {bs : List Char} (h : ∀ c ∈ bs, isBlank c = true)
    (s : List Char) :
    dropBlanksRight (s ++ bs) = dropBlanksRight s := by
  rw [dropBlanksRight, List.reverse_append, List.dropWhile_append_of_pos
    fun c hc => h c (List.mem_reverse.mp hc)]
  rfl

/-- A word keeps the blanks in front of it. -/
theorem dropBlanksRight_append_word {w : List Char} (hne : w ≠ []) (h : ∀ c ∈ w, isBlank c = false)
    (s t : List Char) : dropBlanksRight (s ++ w ++ t) = s ++ w ++ dropBlanksRight t := by
  induction t using List.reverseRecOn with
  | nil =>
    rw [List.append_nil, dropBlanksRight_eq, List.rdropWhile_eq_self_iff.mpr]
    · exact (List.append_nil _).symm
    · intro hw
      rw [List.getLast_append_of_ne_nil _ hne, h _ (List.getLast_mem hne)]
      exact Bool.false_ne_true
  | append_singleton t c ih =>
    rw [← List.append_assoc, dropBlanksRight_eq, dropBlanksRight_eq, List.rdropWhile_concat,
      List.rdropWhile_concat]
    split
    · exact ih
    · exact List.append_assoc ..

theorem dropBlanksRight_initial (s : List Char) : dropBlanksRight s <+: s :=
  List.rdropWhile_prefix isBlank s

end Text

namespace Illustrator

open Text

/-- **What is documented of an illustrator.** -/
structure Documented (draw : Illustrator) : Prop where
  /-- Rows count from one, and columns from the beginning of a line. -/
  findRowCol : ∀ {before after : List (List Char)} {line : List Char} {column : Nat},
    Lines (before ++ line :: after) → column < line.length →
      draw.findRowCol (before ++ line :: after).flatten (before.flatten.length + column)
        = (before.length + 1, column)
  /-- The line of a row has its break. -/
  lineOfText : ∀ {before after : List (List Char)} {line : List Char},
    Lines (before ++ line :: after) →
    draw.lineOfText (before ++ line :: after).flatten (before.length + 1) = line
  /-- Blanks at the end are not shown, tabs in front stay, and carets do not go past the line. -/
  illustration : ∀ {line : List Char} {column : Nat} (width : Nat) (front caption : List Char),
    column < line.length →
      draw.illustration line column width front caption
        = front ++ dropBlanksRight line ++ '\n' ::
          ((front ++ line.take column).map fun c => if c = '\t' then '\t' else ' ') ++
            List.replicate (max 1 (min width (line.length - column))) '^' ++ ' ' :: caption

/-- Past the lines in front, the line of an offset is the one that it lies in. -/
theorem locate_append {before after : List (List Char)} {line : List Char} {column : Nat}
    (h : column < line.length) (row : Nat) :
    locate row (before ++ line :: after) (before.flatten.length + column) =
      (before.length + row, column) := by
  induction before generalizing row with
  | nil =>
    simp only [List.nil_append, locate, List.flatten_nil, List.length_nil, Nat.zero_add, if_pos h]
  | cons first before ih =>
    have hlength : (first :: before).flatten.length + column - first.length
        = before.flatten.length + column := by
      rw [List.flatten_cons, List.length_append]
      omega
    rw [List.cons_append, locate, if_neg (by rw [List.flatten_cons, List.length_append]; omega),
      hlength, ih, List.length_cons]
    congr 1
    omega

/-- **The illustrator at hand is as documented.** -/
theorem documented_byLines : byLines.Documented where
  findRowCol hlines hcolumn := by
    change locate 1 (lines _) _ = _
    rw [hlines.eq_lines, locate_append hcolumn]
  lineOfText {before after line} hlines := by
    change (lines _)[before.length + 1 - 1]?.getD [] = line
    rw [hlines.eq_lines, Nat.add_sub_cancel, List.getElem?_append_right le_rfl, Nat.sub_self]
    rfl
  illustration _ _ _ _ := rfl

end Illustrator

namespace Picture

open Text

/-- Two lines of which the second has one run of carets, and `run` stands above the carets. -/
def Underlines (run cs : List Char) : Prop :=
  ∃ first before after, cs = first ++ '\n' :: (before ++ List.replicate run.length '^' ++ after) ∧
    (Unbroken first ∧ Unbroken before ∧ Unbroken after) ∧ ('^' ∉ before ∧ '^' ∉ after) ∧
      run ≠ [] ∧ (first.drop before.length).take run.length = run

/-- **The line of an offset**, with what is before and after it. -/
theorem exists_line {ls : List (List Char)} {offset : Nat} (h : offset < ls.flatten.length) :
    ∃ before line after column, ls = before ++ line :: after ∧
      offset = before.flatten.length + column ∧ column < line.length := by
  induction ls generalizing offset with
  | nil => exact absurd h (Nat.not_lt_zero _)
  | cons first ls ih =>
    rw [List.flatten_cons, List.length_append] at h
    by_cases hlt : offset < first.length
    · exact ⟨[], first, ls, offset, rfl, (Nat.zero_add _).symm, hlt⟩
    · obtain ⟨before, line, after, column, rfl, hoffset, hcolumn⟩ :=
        ih (show offset - first.length < ls.flatten.length by omega)
      refine ⟨first :: before, line, after, column, rfl, ?_, hcolumn⟩
      rw [List.flatten_cons, List.length_append]
      omega

/-- Only tabs and spaces stand in front of the carets. -/
theorem mem_map_under {c : Char} {s : List Char}
    (h : c ∈ s.map fun c => if c = '\t' then '\t' else ' ') : c = '\t' ∨ c = ' ' := by
  obtain ⟨d, -, rfl⟩ := List.mem_map.mp h
  split
  exacts [Or.inl rfl, Or.inr rfl]

/-- A word ends where what follows it begins with a blank, or there is nothing. -/
theorem takeWhile_append_blank {s t : List Char} (h : ∀ c ∈ t.head?, isBlank c = true) :
    ((s ++ t).takeWhile fun c => !isBlank c) = s.takeWhile fun c => !isBlank c := by
  have ht : (t.takeWhile fun c => !isBlank c) = [] := by
    cases t with
    | nil => rfl
    | cons c t => rw [List.takeWhile_cons_of_neg (by simp [h c rfl])]
  rw [List.takeWhile_append, ht, List.append_nil]
  split
  case isTrue hlength => exact ((List.takeWhile_prefix _).eq_of_length hlength).symm
  case isFalse => rfl

theorem unbroken_margin (row : Nat) : Unbroken (margin row) := by
  intro c hc
  simp only [margin, List.cons_append, List.mem_cons, List.mem_append, List.mem_replicate,
    List.not_mem_nil, or_false] at hc
  rcases hc with rfl | (⟨-, rfl⟩ | hc) | rfl | rfl
  case inr.inl.inr =>
    have hdigit := Decimal.isDigit_natChars c hc
    constructor <;> rintro rfl <;> exact absurd hdigit (by decide)
  all_goals decide

/-- The word at an offset, if no blank is there. -/
theorem takeWhile_ne_nil {s : List Char} {c : Char} (hc : s.head? = some c)
    (hblank : isBlank c = false) :
    (s.takeWhile fun c => !isBlank c) ≠ [] := by
  obtain ⟨t, rfl⟩ := List.head?_eq_some_iff.mp hc
  rw [List.takeWhile_cons_of_pos (by simp [hblank])]
  exact List.cons_ne_nil _ _

/-- **The word at an offset lies in one line**, in front of the break of it. -/
theorem exists_line_of_word {s : List Char} {offset : Nat} {c : Char}
    (hc : (s.drop offset).head? = some c) (hblank : isBlank c = false) :
    ∃ before after front tail brk,
      lines s = before ++ (front ++ ((s.drop offset).takeWhile fun c => !isBlank c) ++ tail ++
        brk) :: after ∧
      offset = before.flatten.length + front.length ∧
      Unbroken (front ++ ((s.drop offset).takeWhile fun c => !isBlank c) ++ tail) ∧
      ∀ c ∈ brk, isBlank c = true := by
  have hlt : offset < s.length := by
    by_contra hge
    rw [List.drop_eq_nil_of_le (by omega)] at hc
    cases hc
  obtain ⟨hlines, hflatten⟩ := lines_lines s
  obtain ⟨before, line, after, column, hls, hoffset, hcolumn⟩ :=
    exists_line (show offset < (lines s).flatten.length by rwa [hflatten])
  rw [hls] at hlines
  obtain ⟨body, brk, rfl, hbody, hbrk⟩ := hlines.of_append
  have hblanks : ∀ c ∈ brk, isBlank c = true :=
    hbrk.elim isBlank_of_mem_break fun h c hc => absurd (h.1 ▸ hc) List.not_mem_nil
  have hdrop : s.drop offset = (body ++ brk).drop column ++ after.flatten := by
    rw [← hflatten, hls, List.flatten_append, List.flatten_cons, hoffset,
      List.drop_length_add_append,
      List.drop_append_of_le_length hcolumn.le]
  -- the offset lies in the line, not in its break
  have hplace : column < body.length := by
    by_contra hge
    have hne : brk.drop (column - body.length) ≠ [] := by
      rw [List.length_append] at hcolumn
      exact List.ne_nil_of_length_pos (by rw [List.length_drop]; omega)
    rw [hdrop, List.drop_append, List.drop_eq_nil_of_le (not_lt.mp hge), List.nil_append,
      List.head?_append_of_ne_nil _ hne] at hc
    rw [hblanks c (List.mem_of_mem_drop (List.mem_of_mem_head? hc))] at hblank
    cases hblank
  have hstops : ∀ d ∈ (brk ++ after.flatten).head?, isBlank d = true := by
    rcases hbrk with hbrk | ⟨rfl, rfl⟩
    · obtain ⟨b, bs, rfl⟩ := List.exists_cons_of_ne_nil fun h : brk = [] => by
        simp [h, breaks] at hbrk
      exact fun d hd => hblanks d (Option.some.inj hd ▸ List.mem_cons_self)
    · exact fun d hd => absurd hd (Option.not_mem_none d)
  have hword : ((s.drop offset).takeWhile fun c => !isBlank c)
      = (body.drop column).takeWhile fun c => !isBlank c := by
    rw [hdrop, List.drop_append_of_le_length hplace.le, List.append_assoc,
      takeWhile_append_blank hstops]
  have hsplit : body.take column ++ ((s.drop offset).takeWhile fun c => !isBlank c) ++
      ((body.drop column).dropWhile fun c => !isBlank c) = body := by
    rw [hword, List.append_assoc, List.takeWhile_append_dropWhile, List.take_append_drop]
  refine ⟨before, after, body.take column, (body.drop column).dropWhile fun c => !isBlank c,
    brk, ?_, ?_,
    hsplit.symm ▸ hbody, hblanks⟩
  · rw [hsplit, hls]
  · rw [hoffset, List.length_take_of_le hplace.le]

variable {draw : Illustrator}

/-- A line with a word of it underlined. -/
theorem underlines_word (hdraw : draw.Documented) (row : Nat)
    {front word tail brk caption : List Char}
    (hne : word ≠ []) (hword : ∀ c ∈ word, isBlank c = false)
    (hunbroken : Unbroken (front ++ word ++ tail)) (hbrk : ∀ c ∈ brk, isBlank c = true)
    (hcaption : ∀ c ∈ caption, c ≠ '\r' ∧ c ≠ '\n' ∧ c ≠ '^') :
    Underlines word (draw.illustration (front ++ word ++ tail ++ brk) front.length word.length
      (margin row) caption) := by
  have hpos := List.length_pos_iff.mpr hne
  have hcarets : max 1 (min word.length ((front ++ word ++ tail ++ brk).length - front.length))
      = word.length := by
    simp only [List.length_append]
    omega
  have hfront : (front ++ word ++ tail ++ brk).take front.length = front := by
    simp only [List.append_assoc, List.take_left]
  have hline : dropBlanksRight (front ++ word ++ tail ++ brk) = front ++
    (word ++ dropBlanksRight tail) := by
    rw [dropBlanksRight_append_blanks hbrk, dropBlanksRight_append_word hne hword,
      List.append_assoc]
  have hshown : Unbroken (dropBlanksRight (front ++ word ++ tail ++ brk)) := by
    rw [dropBlanksRight_append_blanks hbrk]
    exact fun c hc => hunbroken c ((dropBlanksRight_initial _).subset hc)
  rw [hdraw.illustration word.length (margin row) caption
    (by simp only [List.length_append]; omega),
    hcarets, hfront]
  refine ⟨margin row ++ dropBlanksRight (front ++ word ++ tail ++ brk),
    (margin row ++ front).map fun c => if c = '\t' then '\t' else ' ', ' ' :: caption,
    by simp only [List.append_assoc, List.cons_append], ⟨?_, ?_, ?_⟩, ⟨?_, ?_⟩, hne, ?_⟩
  · exact fun c hc => (List.mem_append.mp hc).elim (unbroken_margin row c) (hshown c)
  · intro c hc
    rcases mem_map_under hc with rfl | rfl <;> decide
  · exact List.forall_mem_cons.mpr ⟨by decide, fun c hc => ⟨(hcaption c hc).1, (hcaption c hc).2.1⟩⟩
  · intro hc
    rcases mem_map_under hc with h | h <;> cases h
  · exact fun hc => (List.mem_cons.mp hc).elim (fun h => by cases h) fun h => (hcaption _ h).2.2 rfl
  · rw [List.length_map, hline, ← List.append_assoc, List.drop_left, List.take_left]

/-- **The carets mark the word at the offset**, whoever draws the picture. -/
theorem underlines_ofOffset (hdraw : draw.Documented) {s : List Char} {offset : Nat} {c : Char}
    (hc : (s.drop offset).head? = some c) (hblank : isBlank c = false) :
    Underlines ((s.drop offset).takeWhile fun c => !isBlank c)
      ((ofOffset s offset).chars draw) := by
  have hcaption : ∀ c ∈ "Stuck here".toList, c ≠ '\r' ∧ c ≠ '\n' ∧ c ≠ '^' := by
    have hchars : "Stuck here".toList = ['S', 't', 'u', 'c', 'k', ' ', 'h', 'e', 'r', 'e'] := rfl
    simp only [hchars, List.forall_mem_cons, List.not_mem_nil, false_imp_iff, implies_true]
    decide
  obtain ⟨before, after, front, tail, brk, hls, hoffset, hunbroken, hbrk⟩ :=
    exists_line_of_word hc hblank
  have hne := takeWhile_ne_nil hc hblank
  have hwidth : underline s offset = ((s.drop offset).takeWhile fun c => !isBlank c).length :=
    Nat.max_eq_right (List.length_pos_iff.mpr hne)
  obtain ⟨hlines, hflatten⟩ := lines_lines s
  rw [hls] at hlines hflatten
  have hcolumn : front.length
      < (front ++ ((s.drop offset).takeWhile fun c => !isBlank c) ++ tail ++ brk).length := by
    have hpos := List.length_pos_iff.mpr hne
    simp only [List.length_append]
    omega
  have hplace : draw.findRowCol s offset = (before.length + 1, front.length) := by
    have h := hdraw.findRowCol hlines hcolumn
    rwa [hflatten, ← hoffset] at h
  have hline := hdraw.lineOfText hlines
  rw [hflatten] at hline
  change Underlines _ (draw.illustration (draw.lineOfText s (draw.findRowCol s offset).1)
    (draw.findRowCol s offset).2 (underline s offset) (margin (draw.findRowCol s offset).1) _)
  rw [hplace, hline, hwidth]
  exact underlines_word hdraw _ hne (fun d hd => by
    simpa using List.mem_takeWhile_imp hd) hunbroken hbrk
    hcaption

end Picture

end RowLang
