import RowLang.Proofs.Session.Answers
import RowLang.Proofs.Solver.Round
import RowLang.Proofs.Text.Word

/-!
# Proofs/Session/Agreement — the report and the answer tell the same

There is no issue exactly when an answer is what was asked for: the text of a type, or of a value.
Otherwise there are one or two issues, and what the last one says is the answer (`report_agrees`).
That the texts tell the two cases apart is seen at their first chars: no message begins as a type
does, and none as a value does that has blanks in it.
-/

namespace RowLang

/-! ## How texts begin -/

/-- A text begins with one of some chars, and has a blank in it. -/
def Heralds (cs : List Char) (w : String) : Prop :=
  (∃ c ∈ cs, w.toList.head? = some c) ∧ ' ' ∈ w.toList

theorem Heralds.append {cs : List Char} {w : String} (h : Heralds cs w) (x : String) :
    Heralds cs (w ++ x) := by
  obtain ⟨⟨c, hc, hw⟩, hblank⟩ := h
  rw [Heralds, String.toList_append]
  exact ⟨⟨c, hc, by rw [List.head?_append, hw]; rfl⟩, List.mem_append_left _ hblank⟩

theorem Heralds.mono {cs cs' : List Char} {w : String} (h : Heralds cs w)
    (hcs : cs ⊆ cs') : Heralds cs' w :=
  ⟨h.1.imp fun _ hc => ⟨hcs hc.1, hc.2⟩, h.2⟩

/-! ## Texts of types -/

namespace Ty

/-- What the text of a type begins with. -/
def Leads (c : Char) : Prop := c ∈ ['N', 'C', '\x7b', '<', '[', '('] ∨ 'a' ≤ c ∧ c ≤ 'z'

/-- A name is not empty, and begins with a letter. -/
theorem head_nameAmong (vs : List Nat) (n : Nat) : ∃ c, (nameAmong vs n).head? = some c ∧
    Leads c := by
  have hne : nameAmong vs n ≠ [] := by simp [nameAmong, letterName, letterNameWithin]
  obtain ⟨c, hc⟩ := Option.isSome_iff_exists.mp (List.isSome_head?.mpr hne)
  exact ⟨c, hc, Or.inr (lower_letterNameWithin _ _ c (List.mem_of_mem_head? hc))⟩

theorem head_parenthesize {needed : Bool} {cs : List Char} (h : ∃ c, cs.head? = some c ∧ Leads c) :
    ∃ c, (parenthesize needed cs).head? = some c ∧ Leads c := by
  cases needed with
  | true => exact ⟨'(', rfl, Or.inl (by decide)⟩
  | false => exact h

theorem head_append {cs ds : List Char} (h : ∃ c, cs.head? = some c ∧ Leads c) :
    ∃ c, (cs ++ ds).head? = some c ∧ Leads c := by
  obtain ⟨c, hc, hl⟩ := h
  exact ⟨c, by rw [List.head?_append, hc]; rfl, hl⟩

theorem head_render {name : Nat → List Char}
    (hname : ∀ n, ∃ c, (name n).head? = some c ∧ Leads c) (t : Ty) :
    ∀ nested, ∃ c, (t.render name nested).head? = some c ∧ Leads c := by
  have hone (c : Char) (cs : List Char) (h : c ∈ ['N', 'C', '\x7b', '<', '[', '(']) :
      ∃ d, (c :: cs).head? = some d ∧ Leads d := ⟨c, rfl, Or.inl h⟩
  induction t using Ty.inductOn with
  | number | char | unit | empty => exact fun _ => hone _ _ (by decide)
  | var n => exact fun _ => hname n
  | arrow a b iha =>
    intro nested
    rw [render]
    exact head_parenthesize (head_append (head_append (iha true)))
  | list => exact fun _ => hone _ _ (by decide)
  | bind b n body =>
    intro nested
    rw [render]
    cases b <;> exact head_parenthesize ⟨_, rfl, Or.inr (by decide)⟩
  | row k fields tail =>
    intro nested
    rw [render]
    split
    · exact hone _ _ (by decide)
    · cases k <;> exact hone _ _ (by decide)

/-- **No type has a text that begins with another capital.** -/
theorem not_heralds_pretty (t : Ty) : ¬ Heralds ['P', 'A', 'U', 'T', 'R', 'M'] t.pretty := by
  rintro ⟨⟨c, hc, hhead⟩, -⟩
  obtain ⟨d, hd, hleads⟩ := head_render (head_nameAmong _) t false
  rw [pretty, prettyChars, String.toList_ofList, hd] at hhead
  cases hhead
  have hall : ∀ c ∈ ['P', 'A', 'U', 'T', 'R', 'M'],
      ¬ (c ∈ ['N', 'C', '\x7b', '<', '[', '('] ∨ 'a' ≤ c ∧ c ≤ 'z') := by decide
  exact hall c hc hleads

end Ty

/-! ## Texts of values -/

theorem Decimal.blank_not_mem_natChars (n : Nat) : ' ' ∉ natChars n := fun h =>
  absurd (isDigit_natChars _ h) (by decide)

theorem Decimal.blank_not_mem_intChars (i : Int) : ' ' ∉ intChars i := by
  cases i with
  | ofNat n => exact blank_not_mem_natChars n
  | negSucc n => exact List.not_mem_cons_of_ne_of_not_mem (by decide) (blank_not_mem_natChars _)

namespace Binary64

theorem blank_not_mem_digits (l : Layout) (d : Digits) : ' ' ∉ l.digits d := by
  have hdigits := Decimal.blank_not_mem_natChars d.digits
  have hzeros (n : Nat) : ' ' ∉ List.replicate n '0' := fun h => by cases List.eq_of_mem_replicate h
  rw [Layout.digits]
  split
  · split
    · simp [hzeros, hdigits]
    · dsimp only
      split
      · simp [hzeros, hdigits]
      · intro h
        rcases List.mem_append.mp h with h | h
        · exact hdigits (List.mem_of_mem_take h)
        · rcases List.mem_cons.mp h with h | h
          · cases h
          · exact hdigits (List.mem_of_mem_drop h)
  · have hexponent : ' ' ∉ padZeros l.exponentDigits (Decimal.natChars (d.point - 1).natAbs) := by
      rw [padZeros]
      simp [hzeros, Decimal.blank_not_mem_natChars]
    dsimp only
    intro h
    rcases List.mem_append.mp h with h | h
    · split at h
      case h_1 c e cs heq =>
        rw [heq] at hdigits
        simp_all
      case h_2 => exact hdigits h
    · simp only [List.mem_cons] at h
      rcases h with h | h | h
      · cases h
      · split at h <;> cases h
      · exact hexponent h

theorem blank_not_mem_json (x : Binary64) : ' ' ∉ json.chars x := by
  cases x with
  | undefined => decide
  | infinite negative => cases negative <;> decide
  | finite negative m e =>
    rw [Layout.chars]
    have htail : ' ' ∉ if m = 0 then ['0', '.', '0'] else json.digits (shortest m e) := by
      split
      exacts [by decide, blank_not_mem_digits _ _]
    cases negative
    · exact htail
    · exact List.not_mem_cons_of_ne_of_not_mem (by decide) htail

end Binary64

namespace Document

/-- **The text of a value has a bracket or a quote in front, or no blank in it.** -/
theorem render_cases {d : Document} {level : Nat} {cs : List Char} (h : d.render level = .ok cs) :
    (∃ c ∈ ['"', '[', '\x7b'], cs.head? = some c) ∨ ' ' ∉ cs := by
  have hblock (opening closing : Char) (items : List (List Char)) :
      (block level opening closing items).head? = some opening := by
    rw [block]
    split <;> rfl
  cases d with
  | int i =>
    rw [render] at h
    split at h <;> cases h
    exact Or.inr (Decimal.blank_not_mem_intChars i)
  | real x =>
    cases h
    exact Or.inr (Binary64.blank_not_mem_json x)
  | text codes =>
    cases h
    exact Or.inl ⟨'"', by decide, rfl⟩
  | array items =>
    rw [render] at h
    cases hall : renderAll (level + 1) items with
    | error f => rw [hall] at h; cases h
    | ok texts =>
      rw [hall] at h
      cases h
      exact Or.inl ⟨'[', by decide, hblock _ _ _⟩
  | object fields =>
    rw [render] at h
    cases hall : renderFields (level + 1) fields with
    | error f => rw [hall] at h; cases h
    | ok texts =>
      rw [hall] at h
      cases h
      exact Or.inl ⟨'\x7b', by decide, hblock _ _ _⟩
  | alien kind => cases h

/-- What a message about a value begins with. -/
def messageHeads : List Char :=
  ['P', 'A', 'U', 'T', 'C', 'N', 'F', '+', '-', '*', '/', '%', '#', '&', 'm', 'f', 'e',
    'l', 'o', 'c']

/-- **No value has a text that begins as a message and has a blank in it.** -/
theorem not_heralds_of_toText {d : Document} {text : String} (h : d.toText = .ok text) :
    ¬ Heralds messageHeads text := by
  rintro ⟨⟨c, hc, hhead⟩, hblank⟩
  rw [toText] at h
  cases hr : d.render 0 with
  | error f => rw [hr] at h; cases h
  | ok cs =>
    rw [hr] at h
    cases h
    rw [String.toList_ofList] at hhead hblank
    rcases render_cases hr with ⟨e, he, hcs⟩ | hnone
    · rw [hhead] at hcs
      cases hcs
      have hall : ∀ c ∈ messageHeads, c ∉ ['"', '[', '\x7b'] := by decide
      exact hall c hc he
    · exact hnone hblank

end Document

/-! ## Messages -/

theorem ParseError.heralds_message {e : ParseError} (h : ∀ why, e ≠ .halted why) :
    Heralds ['P', 'A'] e.message := by
  cases e with
  | noReading => exact ⟨⟨'P', by decide, by decide⟩, by decide⟩
  | stuck remainder offset =>
    exact (Heralds.append (w := "Parse error at: \"") ⟨⟨'P', by decide, by decide⟩, by
      decide⟩ _).append _
  | ambiguous n =>
    exact (Heralds.append (w := "Ambiguous parse! (") ⟨⟨'A', by decide, by decide⟩, by
      decide⟩ _).append _
  | halted why => exact absurd rfl (h why)

theorem Failure.heralds_message {e : Failure} (hbare : ∀ f, e ≠ .bare f)
    (hmany : e ≠ .tooManyIssues) :
    Heralds Document.messageHeads e.message := by
  cases e with
  | unboundName name =>
    exact Heralds.append (w := "Unbound variable: ") ⟨⟨'U', by decide, by decide⟩, by decide⟩ _
  | notAProcedure shown =>
    exact Heralds.append (w := "Cannot apply a non-function: ") ⟨⟨'C', by decide, by decide⟩, by
      decide⟩ _
  | missingField l shown =>
    exact ((Heralds.append (w := "No field ") ⟨⟨'N', by decide, by decide⟩, by
      decide⟩ _).append _).append _
  | unhandledTag shown =>
    exact Heralds.append (w := "No case for ") ⟨⟨'N', by decide, by decide⟩, by decide⟩ _
  | selfReferentialField l =>
    exact (Heralds.append (w := "Field ") ⟨⟨'F', by decide, by decide⟩, by decide⟩ _).append _
  | importFailed name =>
    exact Heralds.append (w := "Cannot import ") ⟨⟨'C', by decide, by decide⟩, by decide⟩ _
  | refused o fault =>
    refine Heralds.append (w := o.spelling ++ " failed: ") ?_ _
    cases o <;> exact ⟨⟨_, by decide, rfl⟩, by decide⟩
  | bare f => exact absurd rfl (hbare f)
  | tooDeep => exact ⟨⟨'T', by decide, by decide⟩, by decide⟩
  | tooManyIssues => exact absurd rfl hmany

theorem TypeFailure.heralds_message {e : TypeFailure} (hwritable : ∀ why, e ≠ .unwritable why) :
    Heralds ['P', 'A', 'U', 'T', 'R', 'M'] e.message := by
  cases e with
  | unbound name =>
    exact Heralds.append (w := "Unbound variable: ") ⟨⟨'U', by decide, by decide⟩, by decide⟩ _
  | mismatch this that =>
    exact ((Heralds.append (w := "Type error: cannot match ") ⟨⟨'T', by decide, by decide⟩, by
      decide⟩ _).append
      _).append _
  | unwritable why => exact absurd rfl (hwritable why)
  | endlessUnfolding key =>
    exact Heralds.append (w := "Recursive type unfolds without end: ")
      ⟨⟨'R', by decide, by decide⟩, by decide⟩ _
  | tooManyPasses => exact ⟨⟨'M', by decide, by decide⟩, by decide⟩
  | tooDeep => exact ⟨⟨'T', by decide, by decide⟩, by decide⟩

theorem Trouble.heralds_nestedTooDeeply : Heralds ['T'] nestedTooDeeply.message :=
  ⟨⟨'T', by decide, by decide⟩, by decide⟩

/-! ## The type under study -/

namespace Solver

/-- A round that succeeds has a type under study if there was one. -/
theorem Round.isSome_lastType {st st' : Solver} (h : Round st (.ok ()) st') :
    st'.lastType.isSome = st.lastType.isSome := by
  cases h with
  | idle => exact Option.isSome_map
  | done _ hclose hwork =>
    obtain ⟨c, rfl, -⟩ := numbering_of_closeOver hclose
    exact Option.isSome_map.trans (congrArg Option.isSome hwork.grows.lastType)

/-- And so have all rounds that succeed. -/
theorem isSome_lastType_of_solvePasses {budget : Nat} : ∀ {remaining done : Nat} {st st' : Solver},
    (solvePasses budget remaining done).run st = (.ok (), st') →
      st'.lastType.isSome = st.lastType.isSome
  | 0, _, _, _, h => by cases h
  | remaining + 1, done, st, st', h => by
    obtain ⟨mid, hstep, ⟨-, line, rfl⟩ | ⟨-, hmore⟩⟩ := solvePasses_cases h
    · exact (round_of_run hstep).isSome_lastType
    · exact (isSome_lastType_of_solvePasses hmore).trans (round_of_run hstep).isSome_lastType

end Solver

/-! ## Answers and issues -/

/-- **An answer and the issues agree**: there are none exactly if the text is of the sort that was
asked for, which is to say if nothing went wrong; else there are one or two, and the last one begins
with the text. -/
structure Answer.Agrees (P : String → Prop) (a : Answer) (issues : List Issue) : Prop where
  healthy : issues = [] ↔ P a.text
  succeeded : issues = [] ↔ a.trouble = none
  told : issues ≠ [] → (issues.length = 1 ∨ issues.length = 2) ∧
    issues.getLast?.map Issue.intro = some a.text

namespace Session

/-- What a question comes to, if it is answered, agrees with the issues. -/
def Agreed (P : String → Prop) : Except Escape Answer × Session → Prop
  | (.ok a, s) => a.Agrees P s.issues
  | (.error _, _) => True

variable {P : String → Prop} {s : Session} {source : String}

theorem agrees_of_healthy {text : String} (hs : s.issues = []) (htext : P text) :
    Answer.Agrees P ⟨text, none⟩ s.issues :=
  ⟨iff_of_true hs htext, iff_of_true hs rfl, fun h => absurd hs h⟩

/-- A failure that is told is the last issue. -/
theorem agreed_complain {t : Trouble} (hs : s.issues.length ≤ 1) (ht : ¬ P t.message) :
    Agreed P ((complain source t).run s) := by
  rw [run_complain]
  split
  case isTrue => trivial
  case isFalse =>
    have hissues : s.issues ++ [.failure source t.message t.offset? t.hint?] ≠ [] := by simp
    refine ⟨iff_of_false hissues ht, iff_of_false hissues (Option.some_ne_none _),
      fun _ => ⟨?_, ?_⟩⟩
    · show (s.issues ++ [_]).length = 1 ∨ (s.issues ++ [_]).length = 2
      rw [List.length_append, List.length_singleton]
      omega
    · show (s.issues ++ [_]).getLast?.map Issue.intro = _
      rw [List.getLast?_concat]
      rfl

/-- A program is read, or it is told why not. -/
theorem agreed_reading {next : Expr → Acting Answer} (hs : s.issues = [])
    (hP : ∀ text, Heralds ['P', 'A', 'T'] text → ¬ P text)
    (hnext : ∀ e, Agreed P ((next e).run s)) : Agreed P ((reading source next).run s) := by
  unfold reading
  split
  case h_1 e _ => exact hnext e
  case h_2 => trivial
  case h_3 =>
    exact agreed_complain (by simp [hs]) (hP _ (Trouble.heralds_nestedTooDeeply.mono (by simp)))
  case h_4 e hfault hendless hparse =>
    refine agreed_complain (by simp [hs])
      (hP _ ((ParseError.heralds_message fun why hwhy => ?_).mono (by simp)))
    cases why with
    | endless => exact hendless hwhy
    | fault f => exact hfault f hwhy

/-- The solver with which a question about a type is answered has a type under study. -/
theorem isSome_lastType_of_infer {e : Expr} {solve : Bool} {st st' : Solver}
    (h : (do
      let t ← Solver.infer Solver.depthLimit e
      modify fun st => st.studying t
      if solve then Solver.solve Solver.depthLimit : Solving Unit).run st = (.ok (), st')) :
    st'.lastType.isSome = true := by
  obtain ⟨t, mid, -, h⟩ := Run.run_bind_eq_ok.mp h
  obtain ⟨_, mid', hmodify, h⟩ := Run.run_bind_eq_ok.mp h
  cases hmodify
  cases solve with
  | false =>
    cases h
    rfl
  | true => exact Solver.isSome_lastType_of_solvePasses h

/-- The type under study is a type, if it has a text. -/
theorem agreed_lastType (hs : s.issues = []) (hlast : s.solver.lastType.isSome = true) :
    Agreed (fun text => ∃ t : Ty, text = t.pretty)
      ((do return ⟨← lastType, none⟩ : Acting Answer).run s) := by
  refine lastType_ends ?_ fun _ => trivial
  obtain ⟨t, ht⟩ := Option.isSome_iff_exists.mp hlast
  exact agrees_of_healthy hs ⟨t, by rw [ht]; rfl⟩

/-- **Types and the report agree.** -/
theorem agreed_typeOf (s : Session) (source : String) (solve : Bool) :
    Agreed (fun text => ∃ t : Ty, text = t.pretty) ((typeOf source solve).run s) := by
  have hP : ∀ text, Heralds ['P', 'A', 'U', 'T', 'R', 'M'] text → ¬ ∃ t : Ty, text = t.pretty := by
    rintro _ h ⟨t, rfl⟩
    exact t.not_heralds_pretty h
  have hclear : (onReport Report.clear).run { s with solver := {} }
      = (.ok ⟨⟩, { s with world := s.cleared, solver := {} }) := rfl
  rw [typeOf, Run.run_bind, show reset.run s = (.ok ⟨⟩, { s with solver := {} }) from rfl]
  dsimp only
  rw [Run.run_bind, hclear]
  refine agreed_reading rfl (fun text h => hP text (h.mono (by simp))) fun e => ?_
  rw [Run.run_bind, run_onSolver]
  dsimp only
  split
  case h_1 hresult => exact agreed_lastType rfl (isSome_lastType_of_infer (Prod.ext hresult rfl))
  case h_2 failure _ =>
    unfold complainOfType
    split
    case h_1 => trivial
    case h_2 =>
      exact agreed_complain (Nat.zero_le _) (hP _ (Trouble.heralds_nestedTooDeeply.mono (by simp)))
    case h_3 hwritable _ =>
      exact agreed_complain (Nat.zero_le _) (hP _ (TypeFailure.heralds_message hwritable))

/-- How the text of a program's value is computed, if it is: nothing is reported. -/
theorem report_of_valueText {root : ImportRoot} {e : Expr} {w w' : World} {text : String}
    (hi : w.report.issues = []) (h : (valueText root e).run w = (.ok text, w')) :
    w'.report = w.report ∧ ∃ d : Document, d.toText = .ok text := by
  rw [valueText_eq] at h
  obtain ⟨v, w₁, hvalue, htext⟩ := Run.run_bind_eq_ok.mp h
  have hends : Eval.Ends Fault.Loose w (fun _ _ => True) ((valueOf root e).run w) :=
    (Eval.tame_birth.bind fun _ => (Eval.levels _).eval _ _) w w (.refl w) hi
  rw [hvalue] at hends
  have hwrites := Eval.writes_toText v (hends.1.report ▸ hi)
  rw [htext] at hwrites
  refine ⟨hwrites.report.trans hends.1.report, ?_⟩
  rw [Eval.toText] at htext
  obtain ⟨d, w₂, -, hd⟩ := Run.run_bind_eq_ok.mp htext
  refine ⟨d, ?_⟩
  cases hr : d.toText with
  | error f =>
    rw [hr] at hd
    cases hd
  | ok text' =>
    rw [hr] at hd
    cases hd
    rfl

/-- **Values and the report agree.** -/
theorem agreed_evaluate (s : Session) (source : String) :
    Agreed (fun text => ∃ d : Document, d.toText = .ok text) ((evaluate source).run s) := by
  have hP : ∀ text, Heralds Document.messageHeads text → ¬ ∃ d : Document, d.toText = .ok text :=
    fun _ h ⟨_, hd⟩ => Document.not_heralds_of_toText hd h
  have hdeep := hP _ (Trouble.heralds_nestedTooDeeply.mono (by decide))
  rw [evaluate, Run.run_bind, show (onReport Report.clear).run s =
    (.ok ⟨⟩, { s with world := s.cleared }) from rfl]
  refine agreed_reading rfl (fun text h => hP text (h.mono (by decide))) fun e => ?_
  simp only [Run.run_bind, Run.run_get, run_onWorld]
  cases hrun : (valueText s.resolver e).run s.cleared with
  | mk r w =>
    cases r with
    | ok text =>
      obtain ⟨hreport, hd⟩ := report_of_valueText rfl hrun
      exact agrees_of_healthy (congrArg Report.issues hreport) hd
    | error failure =>
      obtain ⟨-, hissues, -⟩ := of_valueText_eq_error rfl hrun
      cases failure with
      | bare | tooManyIssues => trivial
      | tooDeep => exact agreed_complain hissues hdeep
      | _ =>
        exact agreed_complain hissues
          (hP _ (Failure.heralds_message (fun _ h => by cases h) fun h => by cases h))

/-- **The report and the answer tell the same**, whatever a session has been asked before and
whatever is asked. -/
theorem report_agrees (s : Session) (source : String) :
    Agreed (fun text => ∃ d : Document, d.toText = .ok text) ((evaluate source).run s) ∧
      ∀ solve, Agreed (fun text => ∃ t : Ty, text = t.pretty) ((typeOf source solve).run s) :=
  ⟨agreed_evaluate s source, agreed_typeOf s source⟩

end Session

end RowLang
