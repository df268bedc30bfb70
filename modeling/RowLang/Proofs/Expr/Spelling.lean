import RowLang.Proofs.Expr.Tidy
import RowLang.Proofs.Expr.Written
import RowLang.Proofs.Ty.Reading

/-!
# Proofs/Expr/Spelling — what the text of an expression looks like
-/

namespace RowLang

open RowLang.Parser

/-- The words for operators are names. -/
theorem Operator.isName_spelling {o : Operator} (h : o.fixity = .word) : IsName o.spelling := by
  cases o with
  | map | filter | fold | eq | lt | ord | chr => exact ⟨by decide, by decide, by decide⟩
  | _ => cases h

namespace Expr

/-! ## Forms -/

/-- An application that is written with an operator between is that of the operator to a pair. -/
theorem infixLevel?_eq_some {fn arg : Expr} {o : Operator} {k : Level}
    (h : infixLevel? fn arg = some (o, k)) :
    fn = op o ∧ o.level? = some k ∧ ∃ a b, arg = tuple [a, b] := by
  unfold infixLevel? at h
  split at h
  case h_1 o' a b =>
    rw [Option.map_eq_some_iff] at h
    obtain ⟨k', hk, h⟩ := h
    cases h
    exact ⟨rfl, hk, a, b, rfl⟩
  case h_2 => cases h

/-! ## The text of each form -/

section

variable {l : Level}

/-- An operator that is a word is written bare. -/
theorem render_word {o : Operator} (h : o.fixity = .word) : (op o).render l = o.spelling.toList :=
  if_pos h

/-- Any other operator alone is written in parentheses. -/
theorem render_symbol {o : Operator} (h : o.fixity ≠ .word) :
    (op o).render l = '(' :: (o.spelling.toList ++ [')']) := if_neg h

theorem render_lambda (p : Pattern) (body : Expr) : (lambda p body).render l = parenthesize
    (Level.lambda < l) (p.chars ++ (" => ".toList ++ body.render Level.lambda)) := by
  rw [← List.append_assoc]
  rfl

theorem render_ascribe (t : Ty) (e : Expr) : (ascribe t e).render l = parenthesize
    (Level.lambda < l) (t.chars ++ (" : ".toList ++ e.render Level.lambda)) := by
  rw [← List.append_assoc]
  rfl

theorem render_andThen (bound body : Expr) : (bindIn .wildcard bound body).render l = parenthesize
    (Level.anything < l)
    (bound.render Level.lambda ++ ("; ".toList ++ body.render Level.anything)) := by
  rw [← List.append_assoc]
  rfl

theorem render_bindIn {p : Pattern} (hp : p ≠ .wildcard) (bound body : Expr) :
    (bindIn p bound body).render l = parenthesize (Level.anything < l)
      ("let ".toList ++ (p.chars ++ (" = ".toList ++ (bound.render Level.lambda ++
        ("; ".toList ++ body.render Level.anything))))) := by
  simp only [← List.append_assoc]
  cases p with
  | wildcard => exact absurd rfl hp
  | name | row => rfl

/-- A projection has parentheses only around a number, whose point would be read on. -/
theorem render_project (e : Expr) (k : Label) :
    (e.project k).render l = parenthesize e.isNumber (e.render Level.atom) ++ '.' :: k.toList := by
  conv => lhs; whnf
  rw [projectedLabel?_projection]

/-- **An operation** is grouped to the left: the right operand is written one level up. -/
theorem render_binary {o : Operator} {k : Level} (h : o.level? = some k) (a b : Expr) :
    (binary o a b).render l = parenthesize (k < l)
      (a.render k ++ (' ' :: (o.spelling.toList ++ ' ' :: b.render (k + 1)))) := by
  have hlevel : infixLevel? (op o) (tuple [a, b]) = some (o, k) := by
    rw [infixLevel?, h]
    rfl
  have hoperands : renderOperands k o (tuple [a, b])
      = a.render k ++ ' ' :: o.spelling.toList ++ ' ' :: b.render (k + 1) := rfl
  conv => lhs; whnf
  rw [hlevel]
  dsimp only
  rw [hoperands, List.append_assoc]
  rfl

/-- An application is written with its argument behind it, one level up. -/
theorem render_apply {fn arg : Expr} (hp : projectedLabel? fn = none)
    (hi : infixLevel? fn arg = none) :
    (apply fn arg).render l = parenthesize (Level.application < l)
      (fn.render Level.application ++ ' ' :: arg.render Level.atom) := by
  conv => lhs; whnf
  rw [hp, hi]

theorem renderAll_eq (es : List Expr) : renderAll es = es.map (render Level.anything) := by
  induction es with
  | nil => rfl
  | cons e es ih => exact congrArg (e.render Level.anything :: ·) ih

theorem renderFields_eq (fields : Row Expr) :
    renderFields fields = Row.mapValues (render Level.anything) fields := by
  induction fields with
  | nil => rfl
  | cons p fields ih => exact congrArg ((p.1, p.2.render Level.anything) :: ·) ih

/-- The text of a field. -/
def fieldText (p : Label × Expr) : List Char := labelled (p.1, p.2.render Level.anything)

/-- The fields of a record or of a row of handlers are written one by one. -/
theorem map_labelled
    (fields : Row Expr) : (renderFields fields).map labelled = fields.map fieldText := by
  rw [renderFields_eq, Row.mapValues, List.map_map]
  rfl

theorem render_record (fields : Row Expr) : (record fields).render l
    = '\x7b' :: (commaSeparated (fields.map fieldText) ++ ['\x7d']) := by
  rw [← map_labelled]
  rfl

theorem render_dispatch (handlers : Row Expr) : (dispatch handlers).render l
    = '<' :: (commaSeparated (handlers.map fieldText) ++ ['>']) := by
  rw [← map_labelled]
  rfl

/-- A tuple is written with commas, and never with one item. -/
theorem render_tuple {items : List Expr} (h : items.length ≠ 1) : (tuple items).render l
    = '(' :: (commaSeparated (items.map (render Level.anything)) ++ [')']) := by
  rw [← renderAll_eq]
  exact if_pos h

end

/-- Chars without a quote among them are a text. -/
theorem quotedText?_map_char {cs : List Char} (h : '"' ∉ cs) :
    quotedText? (cs.map char) = some cs := by
  induction cs with
  | nil => rfl
  | cons c cs ih =>
    rw [List.mem_cons, not_or] at h
    rw [List.map_cons, quotedText?, if_neg (Ne.symm h.1), ih h.2]
    rfl

/-- A text is a list of chars without a quote among them. -/
theorem quotedText?_eq_some {es : List Expr} {cs : List Char} (h : quotedText? es = some cs) :
    es = cs.map char ∧ '"' ∉ cs := by
  induction es generalizing cs with
  | nil =>
    cases h
    exact ⟨rfl, List.not_mem_nil⟩
  | cons e es ih =>
    cases e with
    | char c =>
      rw [quotedText?] at h
      split at h
      case isTrue => cases h
      case isFalse hc =>
        rw [Option.map_eq_some_iff] at h
        obtain ⟨ds, hds, rfl⟩ := h
        obtain ⟨rfl, hmem⟩ := ih hds
        exact ⟨rfl, by simpa using ⟨Ne.symm hc, hmem⟩⟩
    | _ => cases h

theorem listText_cons (e : Expr) (es : List Expr) (texts : List (List Char)) :
    listText (e :: es) texts = match quotedText? (e :: es) with
      | some cs => '"' :: cs ++ ['"']
      | none => '[' :: commaSeparated texts ++ [']'] := by
  unfold listText
  cases quotedText? (e :: es) <;> rfl

/-- A list of chars is written as a text, unless it is empty. -/
theorem render_text {l : Level} {cs : List Char} (hne : cs ≠ []) (h : '"' ∉ cs) :
    (list (cs.map char)).render l = '"' :: (cs ++ ['"']) := by
  obtain ⟨c, cs, rfl⟩ := List.exists_cons_of_ne_nil hne
  have hquoted := quotedText?_map_char h
  show listText _ _ = _
  rw [List.map_cons] at hquoted ⊢
  rw [listText_cons, hquoted]
  rfl

/-- Any other list is written with commas. -/
theorem render_list {l : Level} {elts : List Expr} (h : elts = [] ∨ quotedText? elts = none) :
    (list elts).render l = '[' :: (commaSeparated (elts.map (render Level.anything)) ++ [']']) := by
  rw [← renderAll_eq]
  show listText _ _ = _
  cases elts with
  | nil => rfl
  | cons e es =>
    rw [listText_cons, h.resolve_left (List.cons_ne_nil _ _)]
    rfl

/-! ## Expressions that can be read back -/

/-- **The forms in which expressions are written** that texts denote, if the reals in them are read
back from their texts. -/
inductive Legible : Expr → Prop where
  | number {n : Numeral} : n.Written → n.Reread → Legible (number n)
  | char {c : Char} : c ≠ '\n' → Legible (char c)
  | var {x : String} : IsName x → Legible (var x)
  | op (o : Operator) : Legible (op o)
  | lambda {p : Pattern} {body : Expr} : p.Written → Legible body → Legible (lambda p body)
  | project {e : Expr} {k : Label} : Label.Written k → Legible e → Legible (e.project k)
  | binary {o : Operator} {k : Level} {a b : Expr} : o.level? = some k → Legible a → Legible b →
    Legible (binary o a b)
  | apply {fn arg : Expr} : projectedLabel? fn = none → infixLevel? fn arg = none → Legible fn →
    Legible arg → Legible (apply fn arg)
  | text {cs : List Char} : cs ≠ [] → '"' ∉ cs → Legible (list (cs.map Expr.char))
  | list {elts : List Expr} : elts = [] ∨ quotedText? elts = none → (∀ e ∈ elts, Legible e) →
    Legible (list elts)
  | record {fields : Row Expr} : Row.Distinct fields → (∀ p ∈ fields, Label.Written p.1) →
    (∀ p ∈ fields, Legible p.2) → Legible (record fields)
  | tuple {items : List Expr} : items.length ≠ 1 → (∀ e ∈ items, Legible e) → Legible (tuple items)
  | dispatch {handlers : Row Expr} : Row.Distinct handlers → (∀ p ∈ handlers, Label.Written p.1) →
    (∀ p ∈ handlers, Legible p.2) → Legible (dispatch handlers)
  | tag {k : Label} : k.toList ≠ [] → (∀ c ∈ k.toList, Text.isLetter c = true) → Legible (tag k)
  | load {name : String} : IsName name → Legible (load name)
  | ascribe {t : Ty} {e : Expr} : t.Written → Legible e → Legible (ascribe t e)
  | andThen {bound body : Expr} : Legible bound → Legible body →
    Legible (bindIn .wildcard bound body)
  | bindIn {p : Pattern} {bound body : Expr} : p.Written → p ≠ .wildcard → Legible bound →
    Legible body →
    Legible (bindIn p bound body)

/-- **What a text denotes is legible**, if its reals are read back. -/
theorem Written.legible {e : Expr} (hw : e.Written) (hr : e.Reread) : e.Legible := by
  -- the operands of an infix operator are the items of its argument
  suffices h : e.Legible ∧ ∀ items, e = .tuple items → ∀ i ∈ items, i.Legible from h.1
  induction e using Expr.inductOn with
  | number n =>
    refine ⟨.number hw ?_, fun _ h => by cases h⟩
    cases n with
    | int i => trivial
    | real x => exact hr x List.mem_cons_self
  | char c => exact ⟨.char hw, fun _ h => by cases h⟩
  | var x => exact ⟨.var hw, fun _ h => by cases h⟩
  | op o => exact ⟨.op o, fun _ h => by cases h⟩
  | lambda p body ih => exact ⟨.lambda hw.1 (ih hw.2 hr).1, fun _ h => by cases h⟩
  | apply fn arg ihf iha =>
    refine ⟨?_, fun _ h => by cases h⟩
    obtain ⟨hfn, harg⟩ := hw
    have iha := iha harg fun x hx => hr x (List.mem_append_right _ hx)
    cases hl : projectedLabel? fn with
    | some l =>
      rw [hl] at hfn
      rw [projectedLabel?_eq_some hl]
      exact .project hfn iha.1
    | none =>
      rw [hl] at hfn
      cases hk : infixLevel? fn arg with
      | none => exact .apply hl hk (ihf hfn fun x hx => hr x (List.mem_append_left _ hx)).1 iha.1
      | some p =>
        obtain ⟨rfl, hlevel, a, b, rfl⟩ := infixLevel?_eq_some hk
        exact .binary hlevel (iha.2 _ rfl a (by simp)) (iha.2 _ rfl b (by simp))
  | list elts ih =>
    refine ⟨?_, fun _ h => by cases h⟩
    by_cases hbrackets : elts = [] ∨ quotedText? elts = none
    · have helts : ∀ e ∈ elts, e.Written := by
        rcases hw with ⟨cs, rfl, hcs⟩ | h
        · rcases hbrackets with h | h
          · exact fun e he => absurd (h ▸ he) List.not_mem_nil
          · rw [quotedText?_map_char hcs] at h
            cases h
        · exact writtenAll_iff.mp h
      exact .list hbrackets fun e h =>
        (ih e h (helts e h) fun x hx => hr x (mem_realsOfAll.mpr ⟨e, h, hx⟩)).1
    · rw [not_or] at hbrackets
      obtain ⟨cs, hcs⟩ := Option.ne_none_iff_exists'.mp hbrackets.2
      obtain ⟨rfl, hquote⟩ := quotedText?_eq_some hcs
      exact .text (fun h => hbrackets.1 (by rw [h]; rfl)) hquote
  | record fields ih =>
    have hfields := written_record.mp hw
    exact ⟨.record hfields.1 (fun f h => (hfields.2 f h).1) fun f h => (ih f h (hfields.2 f h).2
      fun x hx => hr x (mem_realsOfFields.mpr ⟨f, h, hx⟩)).1, fun _ h => by cases h⟩
  | tuple items ih =>
    have hitems : ∀ e ∈ items, e.Legible :=
      fun e h => (ih e h (writtenAll_iff.mp hw.2 e h) fun x hx =>
      hr x (mem_realsOfAll.mpr ⟨e, h, hx⟩)).1
    exact ⟨.tuple hw.1 hitems, fun _ h => by cases h; exact hitems⟩
  | dispatch handlers ih =>
    have hfields := written_dispatch.mp hw
    exact ⟨.dispatch hfields.1 (fun f h => (hfields.2 f h).1) fun f h => (ih f h (hfields.2 f h).2
      fun x hx => hr x (mem_realsOfFields.mpr ⟨f, h, hx⟩)).1, fun _ h => by cases h⟩
  | tag l => exact ⟨.tag hw.1 hw.2, fun _ h => by cases h⟩
  | load name => exact ⟨.load hw, fun _ h => by cases h⟩
  | ascribe declared e ih => exact ⟨.ascribe hw.1 (ih hw.2 hr).1, fun _ h => by cases h⟩
  | bindIn p bound body ihb ihe =>
    refine ⟨?_, fun _ h => by cases h⟩
    have hbound := (ihb hw.2.1 fun x hx => hr x (List.mem_append_left _ hx)).1
    have hbody := (ihe hw.2.2 fun x hx => hr x (List.mem_append_right _ hx)).1
    by_cases hp : p = .wildcard
    · exact hp ▸ .andThen hbound hbody
    · exact .bindIn hw.1 hp hbound hbody

end Expr

end RowLang
