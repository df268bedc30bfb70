import RowLang.Proofs.Expr.Atoms

/-!
# Proofs/Expr/Printed — the text of an expression is read as what it shows

The grammar takes the text of a legible expression for what the text shows of it, at every place for
which it was written (`Expr.Legible.recognized`).  Each form is read at a level of its own; at
tighter levels it stands in parentheses and is read as an atom, and at looser ones it is read as it
is there.
-/

namespace RowLang

open RowLang.Parser RowLang.Grammar

namespace Ty

/-- **The grammar takes the text of a type for what it shows.** -/
theorem Written.takes {t : Ty} (ht : t.Written) : Takes Ends grammar t.chars t.shown := by
  intro bs rest hb hr
  rw [Finds, grammar, knot]
  refine (skips_unrolled _).finds hb (ht.found.2 _ ?_ rest hr)
  simp only [List.length_append, Ty.chars]
  omega

end Ty

namespace Expr

variable {s cs rest : List Char} {e : Expr}

/-- The grammar of expressions, unrolled. -/
def unrolled (n : Nat) : Place → Parser Expr := unroll step n

/-! ## Forms -/

/-- An expression is read from its text at each level, as what the text shows of it. -/
def Recognized (e : Expr) : Prop := ∀ n l : Nat, l ≤ 5 → (e.render l).length ≤ n →
  Led (unrolled n) e.isNumber l (e.render l) e.shown

/-- At the place for anything. -/
theorem Recognized.anything (h : e.Recognized) {n : Nat}
    (hn : (e.render Level.anything).length < n) :
    Takes (Ends false 0) (unrolled n .anything) (e.render Level.anything) e.shown := by
  obtain ⟨n, rfl⟩ := Nat.exists_eq_succ_of_ne_zero (Nat.ne_of_gt (Nat.zero_lt_of_lt hn))
  exact (h n 0 (by decide) (Nat.le_of_lt_succ hn)).takes.mono fun r hr => hr.of_le_five (by decide)

/-- At the place for all but a `let` and a sequence. -/
theorem Recognized.simple (h : e.Recognized) {n : Nat} (hn : (e.render Level.lambda).length < n) :
    Takes (Ends false 1) (unrolled n .simple) (e.render Level.lambda) e.shown := by
  obtain ⟨n, rfl⟩ := Nat.exists_eq_succ_of_ne_zero (Nat.ne_of_gt (Nat.zero_lt_of_lt hn))
  exact (h n 1 (by decide) (Nat.le_of_lt_succ hn)).takes.mono fun r hr => hr.of_le_five (by decide)

theorem refuses_unrolled {n : Nat} (hn : 0 < n) {c : Char} (hc : c ∈ [')', ']']) :
    Refuses (unrolled n .anything) (c :: s) := by
  obtain ⟨n, rfl⟩ := Nat.exists_eq_succ_of_ne_zero (Nat.ne_of_gt hn)
  exact refuses_closing hc

/-- **A form of a level is read at all levels**: at tighter ones as an atom in parentheses. -/
theorem recognized_of_form {k : Nat} (h : e.Legible) (hk : k ≤ 6)
    (hrender : ∀ l ≤ 5, e.render l = parenthesize (k < l) (e.render k))
    (hled : ∀ n, (e.render k).length ≤ n → Led (unrolled n) e.isNumber k (e.render k) e.shown) :
    e.Recognized := by
  have hloose : ∀ n l : Nat, l ≤ 5 → l ≤ k → (e.render l).length ≤ n →
      Led (unrolled n) e.isNumber l (e.render l) e.shown := by
    intro n l hl hlk hn
    have ht : e.render l = e.render k := by
      rw [hrender l hl, decide_eq_false (Nat.not_lt.mpr hlk)]
      rfl
    rw [ht] at hn ⊢
    exact (hled n hn).looser hlk hk (fun h2 => h.passed k (Or.inl h2)) fun h1 =>
      (h.opens k).at_any h1
  intro n l hl hn
  by_cases hlk : l ≤ k
  · exact hloose n l hl hlk hn
  have hkl : k < l := Nat.lt_of_not_le hlk
  have hbare : e.render Level.anything = e.render k := by
    have hk : ¬ k < Level.anything := Nat.not_lt_zero k
    rw [hrender Level.anything (by decide), decide_eq_false hk]
    rfl
  have hparenthesized : ∀ j ≤ 5, k < j →
    e.render j = '(' :: (e.render Level.anything ++ [')']) := by
    intro j hj hkj
    rw [hrender j hj, decide_eq_true hkj, hbare]
    rfl
  have hfive : e.render 5 = e.render l := by
    rw [hparenthesized l hl hkl, hparenthesized 5 le_rfl (hkl.trans_le hl)]
  have hlength : (e.render Level.anything).length < n := by
    rw [hparenthesized l hl hkl] at hn
    simp only [List.length_cons, List.length_append] at hn
    omega
  have hinside : Bracketed (unrolled n) e := by
    obtain ⟨n, rfl⟩ := Nat.exists_eq_succ_of_ne_zero (Nat.ne_of_gt (Nat.zero_lt_of_lt hlength))
    exact (hloose n 0 (by decide) (Nat.zero_le k) (Nat.le_of_lt_succ hlength)).takes.mono
      fun r hr => hr.of_le_five (by decide)
  have hatom : Led (unrolled n) e.isNumber 6 (e.render l) e.shown := fun bs rest hb _ => by
    rw [hparenthesized l hl hkl, List.cons_append, List.append_assoc]
    exact (skips_atom _).finds hb (finds_parenthesized hinside (h.opens _)
      (refuses_unrolled (Nat.zero_lt_of_lt hlength) (by decide)))
  exact hatom.looser (hl.trans (by decide)) le_rfl
    (fun _ => hfive ▸ h.passed 5 (Or.inl (by decide)))
    fun _ => hfive ▸ (h.opens 5).at_any (by decide)

/-- What needs no parentheses anywhere. -/
theorem recognized_of_atom (h : e.Legible) (hrender : ∀ l, e.render l = cs)
    (hatom : ∀ n, cs.length ≤ n → ∀ rest, Ends e.isNumber 6 rest →
      Finds (atomGrammar (unrolled n)) (cs ++ rest) e.shown rest) : e.Recognized := by
  refine recognized_of_form (k := 6) h le_rfl (fun l hl => ?_) fun n hn bs rest hb hr => ?_
  · have hl : ¬ 6 < l := Nat.not_lt.mpr (hl.trans (by decide))
    rw [hrender, hrender, decide_eq_false hl]
    rfl
  · rw [hrender] at hn ⊢
    exact (skips_atom _).finds hb (hatom n hn rest hr)

/-! ## Literals and names -/

theorem recognized_number {n : Numeral} (hn : n.Written) (hr : n.Reread) : (number n).Recognized :=
  recognized_of_atom (.number hn hr) (fun _ => rfl) fun _ _ _ hrest =>
    finds_number hn hr (hrest.numeral (Or.inr rfl))

theorem recognized_char {c : Char} (hc : c ≠ '\n') : (char c).Recognized :=
  recognized_of_atom (.char hc) (fun _ => rfl) fun _ _ _ _ => finds_char hc

theorem recognized_var {x : String} (hx : IsName x) : (var x).Recognized :=
  recognized_of_atom (.var hx) (fun _ => rfl) fun _ _ _ hrest => finds_name hx hrest.closes

theorem ofWord_spelling {o : Operator} (h : o.fixity = .word) : ofWord o.spelling = op o := by
  cases o with
  | map | filter | fold | eq | lt | ord | chr => rfl
  | _ => cases h

theorem recognized_op (o : Operator) : (op o).Recognized := by
  by_cases h : o.fixity = .word
  · refine recognized_of_atom (.op o) (fun _ => render_word h) fun n _ rest hrest => ?_
    have hfound : Finds (atomGrammar (unrolled n)) (o.spelling.toList ++ rest)
      (ofWord o.spelling) rest :=
      finds_name (Operator.isName_spelling h) hrest.closes
    rwa [ofWord_spelling h] at hfound
  · refine recognized_of_atom (.op o) (fun _ => render_symbol h) fun n _ rest _ => ?_
    cases o with
    | plus | minus | append | times | divide | modulo | size | countUp => rfl
    | _ => exact absurd rfl h

theorem recognized_tag {k : Label} (hne : k.toList ≠ [])
    (hk : ∀ c ∈ k.toList, Text.isLetter c = true) :
    (tag k).Recognized :=
  recognized_of_atom (.tag hne hk) (fun _ => rfl) fun _ _ _ hrest => finds_tag hne hk hrest.closes

theorem recognized_load {x : String} (hx : IsName x) : (load x).Recognized := by
  have hrender : ∀ l, (load x).render l = "import ".toList ++ x.toList := fun _ => rfl
  refine recognized_of_atom (.load hx) hrender fun n _ rest hrest => ?_
  rw [List.append_assoc]
  exact finds_load hx hrest.closes

theorem recognized_text {cs : List Char} (hne : cs ≠ []) (hcs : '"' ∉ cs) :
    (list (cs.map char)).Recognized :=
  recognized_of_atom (.text hne hcs) (fun _ => render_text hne hcs) fun _ _ rest _ => by
    rw [shown_text, List.cons_append, List.append_assoc]
    exact finds_text hcs

/-! ## Bracketed forms -/

/-- Items are read between brackets that hold their texts. -/
theorem bracketed_items {items : List Expr} {n : Nat} {o c : Char} (h : ∀ e ∈ items, e.Recognized)
    (hn : (o :: (commaSeparated (items.map (render Level.anything)) ++ [c])).length ≤ n) :
    ∀ e ∈ items, Bracketed (unrolled n) e := fun e he => (h e he).anything (by
  have hle := length_le_commaSeparated (List.mem_map_of_mem (f := render Level.anything) he)
  simp only [List.length_cons, List.length_append] at hn
  omega)

theorem bracketed_fields {fields : Row Expr} {n : Nat} {o c : Char}
    (h : ∀ p ∈ fields, p.2.Recognized)
    (hn : (o :: (commaSeparated (fields.map fieldText) ++ [c])).length ≤ n) :
    ∀ p ∈ fields, Bracketed (unrolled n) p.2 := fun p hp => (h p hp).anything (by
  have hle := length_le_commaSeparated (List.mem_map_of_mem (f := fieldText) hp)
  simp only [fieldText, labelled, List.length_cons, List.length_append] at hn hle
  omega)

theorem recognized_list {elts : List Expr} (hquote : elts = [] ∨ quotedText? elts = none)
    (hlegible : ∀ e ∈ elts, e.Legible) (h : ∀ e ∈ elts, e.Recognized) : (list elts).Recognized :=
  recognized_of_atom (.list hquote hlegible) (fun _ => render_list hquote) fun n hn rest _ => by
    rw [shown, shownAll_eq, List.cons_append, List.append_assoc]
    exact finds_list (bracketed_items h hn)
      (refuses_unrolled (Nat.lt_of_lt_of_le (Nat.succ_pos _) hn) (by decide))

theorem ofItems_of_length_ne {es : List Expr} (h : es.length ≠ 1) : ofItems es = tuple es := by
  cases es with
  | nil => rfl
  | cons e es =>
    cases es with
    | nil => exact absurd rfl h
    | cons => rfl

theorem recognized_tuple {items : List Expr} (hlength : items.length ≠ 1)
    (hlegible : ∀ e ∈ items, e.Legible) (h : ∀ e ∈ items, e.Recognized) :
    (tuple items).Recognized :=
  recognized_of_atom (.tuple hlength hlegible) (fun _ => render_tuple hlength) fun n hn rest _ => by
    rw [shown, shownAll_eq, List.cons_append, List.append_assoc,
      ← ofItems_of_length_ne (by rwa [List.length_map])]
    exact finds_parentheses (bracketed_items h hn) (fun e he => (hlegible e he).opens _)
      (refuses_unrolled (Nat.lt_of_lt_of_le (Nat.succ_pos _) hn) (by decide))

theorem recognized_record {fields : Row Expr} (hdistinct : Row.Distinct fields)
    (hlabels : ∀ p ∈ fields, Label.Written p.1) (hlegible : ∀ p ∈ fields, p.2.Legible)
    (h : ∀ p ∈ fields, p.2.Recognized) : (record fields).Recognized :=
  recognized_of_atom (.record hdistinct hlabels hlegible) (fun _ => render_record fields)
    fun n hn rest _ => by
      rw [shown, shownFields_eq, List.cons_append, List.append_assoc]
      exact finds_record hdistinct hlabels (bracketed_fields h hn)

theorem recognized_dispatch {handlers : Row Expr} (hdistinct : Row.Distinct handlers)
    (hlabels : ∀ p ∈ handlers, Label.Written p.1) (hlegible : ∀ p ∈ handlers, p.2.Legible)
    (h : ∀ p ∈ handlers, p.2.Recognized) : (dispatch handlers).Recognized :=
  recognized_of_atom (.dispatch hdistinct hlabels hlegible) (fun _ => render_dispatch handlers)
    fun n hn rest _ => by
      rw [shown, shownFields_eq, List.cons_append, List.append_assoc]
      exact finds_dispatch hdistinct hlabels (bracketed_fields h hn)

/-! ## Applications -/

/-- What a point may follow: a number stands in parentheses there. -/
theorem leads_subject {n : Nat} {bs : List Char} (hlegible : e.Legible) (h : e.Recognized)
    (hn : (parenthesize e.isNumber (e.render Level.atom)).length ≤ n) (hb : Blank bs)
    (hr : Text.Closes rest) :
    Leads (layer (unrolled n) 6) ((literal ".").before label) project
      (bs ++ (parenthesize e.isNumber (e.render Level.atom) ++ rest)) e.shown rest := by
  cases hnumber : e.isNumber with
  | false =>
    have hled := h n 5 le_rfl (by rwa [hnumber] at hn)
    rw [hnumber] at hled
    exact hled bs rest hb (ends_atom hr)
  | true =>
    obtain ⟨m, rfl⟩ : ∃ m, e = number m := by
      cases e with
      | number m => exact ⟨m, rfl⟩
      | _ => cases hnumber
    have hlt : ((number m).render Level.anything).length < n := Nat.lt_of_lt_of_le
      (Nat.lt_succ_of_le (List.length_append ▸ Nat.le_add_right _ _)) hn
    have htext : parenthesize true ((number m).render Level.atom) ++ rest
        = '(' :: ((number m).render Level.anything ++ ')' :: rest) := List.append_assoc _ [')'] _
    rw [htext]
    exact .first ((skips_atom _).finds hb (finds_parenthesized (h.anything hlt) (hlegible.opens _)
      (refuses_unrolled (Nat.zero_lt_of_lt hlt) (by decide))))

theorem recognized_project {k : Label} (hk : Label.Written k) (hlegible : e.Legible)
    (h : e.Recognized) : (e.project k).Recognized := by
  refine recognized_of_form (k := 5) (.project hk hlegible) (by decide) (fun l hl => ?_)
    fun n hn bs rest hb hr => ?_
  · have hl : ¬ 5 < l := Nat.not_lt.mpr hl
    rw [render_project, render_project, decide_eq_false hl]
    rfl
  rw [render_project] at hn ⊢
  rw [List.length_append] at hn
  rw [shown_project, List.append_assoc]
  have hpoint : Finds ((literal ".").before label) ('.' :: (k.toList ++ rest)) k rest :=
    (finds_literal (solid_cons (by decide) _)).before (finds_label hk hr.closes)
  refine .step (leads_subject hlegible h ((Nat.le_add_right _ _).trans hn) hb
    (Text.closes_cons (by decide) _)) hpoint ?_
  rw [List.length_append, List.length_cons]
  omega

/-- No expression begins with a point. -/
theorem refuses_point {l : Level} (h : Opens l s) : Refuses (literal ".") s := by
  have hbegins : ∀ {c : Char} {r : List Char}, Text.isBlank c = false → only '.' c = false →
      Refuses (literal ".") (c :: r) := fun hb hc => begins_literal rfl _ _ hb hc
  have hword : ∀ {c : Char} {r : List Char}, Text.isWordChar c = true →
    Refuses (literal ".") (c :: r) :=
    fun hc => hbegins (Text.isBlank_of_isWordChar hc) (only_eq_false hc (by decide))
  cases h with
  | @word w r hne hw hlet hr =>
    obtain ⟨c, w, rfl⟩ := List.exists_cons_of_ne_nil hne
    exact hword (by rw [Text.isWordChar, hw c List.mem_cons_self, Bool.true_or])
  | digit r hc => exact hword (by rw [Text.isWordChar, hc, Bool.or_true])
  | minus | tag => exact hbegins (by decide) (by decide)
  | mark r hc =>
    have hall : ∀ {c : Char}, c ∈ ['(', '[', '\x7b', '<', '\'', '"', '_'] →
        Text.isBlank c = false ∧ only '.' c = false := by decide
    exact hbegins (hall hc).1 (hall hc).2

/-- In front of an argument. -/
theorem ends_argument {b : Bool} {l : Level} (h : Opens l s) : Ends b 5 (' ' :: s) where
  closes := Text.closes_cons (by decide) _
  numeral _ := Numeral.ends_cons (by decide) _
  noPoint _ := (skips_token _).refuses_behind_blank (refuses_point h)
  noAtom hl := absurd hl (by decide)
  noMultiplicative hl := absurd hl (by decide)
  noAdditive hl := absurd hl (by decide)
  unmarked hl := absurd hl (by decide)
  noNext hl := absurd hl (by decide)

theorem recognized_apply {fn arg : Expr} (hp : projectedLabel? fn = none)
    (hi : infixLevel? fn arg = none)
    (hlegiblef : fn.Legible) (hlegiblea : arg.Legible) (hf : fn.Recognized) (ha : arg.Recognized) :
    (apply fn arg).Recognized := by
  refine recognized_of_form (k := 4) (.apply hp hi hlegiblef hlegiblea) (by decide) (fun l _ => ?_)
    fun n hn bs rest hb hr => ?_
  · rw [render_apply hp hi, render_apply hp hi]
    rfl
  have htext : (apply fn arg).render 4 = fn.render 4 ++ ' ' :: arg.render 5 := render_apply hp hi
  rw [htext] at hn ⊢
  rw [List.length_append, List.length_cons] at hn
  rw [shown_apply hp, List.append_assoc]
  have hopens := (hlegiblea.opens 5).append hr.closes
  have hfn : Leads (layer (unrolled n) 5) (layer (unrolled n) 5) apply
      (bs ++ (fn.render 4 ++ ' ' :: (arg.render 5 ++ rest))) fn.shown
        (' ' :: (arg.render 5 ++ rest)) :=
    hf n 4 (by decide) (by omega) bs _ hb (ends_argument hopens)
  have harg : Finds (layer (unrolled n) 5) (' ' :: (arg.render 5 ++ rest)) arg.shown rest :=
    (ha n 5 le_rfl (by omega)).takes.behind_blank (hr.of_le_five le_rfl)
  refine .step hfn harg ?_
  rw [List.length_cons, List.length_append]
  omega

theorem level_cases {o : Operator} {k : Level} (h : o.level? = some k) : k = 2 ∨ k = 3 := by
  cases o <;> cases h <;> decide

theorem recognized_binary {o : Operator} {k : Level} {a b : Expr} (ho : o.level? = some k)
    (hlegiblea : a.Legible) (hlegibleb : b.Legible) (ha : a.Recognized) (hb : b.Recognized) :
    (binary o a b).Recognized := by
  have hk := level_cases ho
  refine recognized_of_form (k := k) (.binary ho hlegiblea hlegibleb)
    (by rcases hk with rfl | rfl <;> decide) (fun l _ => ?_) fun n hn bs rest hblank hr => ?_
  · rw [render_binary ho, render_binary ho, decide_eq_false (Nat.lt_irrefl k)]
    rfl
  rw [render_binary ho, decide_eq_false (Nat.lt_irrefl k)] at hn ⊢
  have hlength : (a.render k).length ≤ n ∧ (b.render (k + 1)).length ≤ n := by
    rw [parenthesize, if_neg Bool.false_ne_true] at hn
    simp only [List.length_append, List.length_cons] at hn
    omega
  have htext : parenthesize false
    (a.render k ++ (' ' :: (o.spelling.toList ++ ' ' :: b.render (k + 1)))) ++
      rest = a.render k ++ (' ' :: (o.spelling.toList ++ ' ' :: (b.render (k + 1) ++ rest))) := by
    simp [parenthesize]
  rw [htext, shown_binary]
  have hrest : rest.length <
    (' ' :: (o.spelling.toList ++ ' ' :: (b.render (k + 1) ++ rest))).length := by
    simp only [List.length_append, List.length_cons]
    omega
  have hends := ends_operator (b := a.isNumber) ho (b.render (k + 1) ++ rest)
  rcases hk with rfl | rfl
  · have hstep := ((skips_symbol _).behind_blank (finds_additive ho (by simp))).both
      ((hb n 3 (by decide) hlength.2).takes.behind_blank (hr.of_le_five (by decide)))
    exact .step (ha n 2 (by decide) hlength.1 bs _ hblank hends) hstep hrest
  · have hstep := ((skips_symbol _).behind_blank (finds_multiplicative ho)).both
      ((hb n 4 (by decide) hlength.2).takes.behind_blank (hr.of_le_five (by decide)))
    exact .step (ha n 3 (by decide) hlength.1 bs _ hblank hends) hstep hrest

/-! ## Bindings -/

/-- The body of a lambda or an ascription. -/
theorem finds_body {n : Nat} (hlegible : e.Legible) (h : e.Recognized)
    (hn : (e.render Level.lambda).length < n) (hr : Ends false 1 rest) :
    Finds (bodyGrammar (unrolled n)) (' ' :: (e.render Level.lambda ++ rest)) e.shown rest := by
  have hopens : Opens 1 (e.render Level.lambda ++ rest) := (hlegible.opens 1).append hr.closes
  have hlet : Refuses (letGrammar (unrolled n)) (' ' :: (e.render Level.lambda ++ rest)) :=
    (skips_let _).refuses_behind_blank (refuses_let hopens)
  rw [Finds, bodyGrammar, hlet.firstOf]
  exact ((h.simple hn).behind_blank hr).firstOf

theorem recognized_lambda {p : Pattern} {body : Expr} (hp : p.Written) (hlegible : body.Legible)
    (h : body.Recognized) : (lambda p body).Recognized := by
  refine recognized_of_form (k := 1) (.lambda hp hlegible) (by decide) (fun l _ => ?_)
    fun n hn bs rest hb hr => ?_
  · rw [render_lambda, render_lambda]
    rfl
  have htext : (lambda p body).render 1 = p.chars ++ (" => ".toList ++ body.render Level.lambda) :=
    render_lambda p body
  rw [htext] at hn ⊢
  rw [List.append_assoc, List.append_assoc]
  simp only [List.length_append] at hn
  have hclose : Text.Closes (" => ".toList ++ (body.render Level.lambda ++ rest)) :=
    Text.closes_cons (c := ' ') (by decide) _
  have hcolon : unmarked .colon 0
    (bs ++ (p.chars ++ (" => ".toList ++ (body.render Level.lambda ++ rest))))
      = true := by
    rw [unmarked_blank hb]
    exact hp.passed (D := fun _ => True) .colon 0 _ trivial (by rfl)
  have harrow : Finds (literal "=>")
    (" => ".toList ++ (body.render Level.lambda ++ rest)) "=>".toList
      (' ' :: (body.render Level.lambda ++ rest)) :=
    (skips_token _).behind_blank (finds_literal (w := "=>") (solid_cons (by decide) _))
  have hbody :=
    finds_body (n := n) hlegible h (Nat.lt_of_lt_of_le (Nat.lt_add_of_pos_left (by decide))
    ((Nat.le_add_left _ _).trans hn)) hr
  show Finds (simpleGrammar _) _ _ _
  rw [Finds, simpleGrammar, (refuses_ascription hcolon).firstOf]
  exact Finds.firstOf ((hp.takes bs _ hb hclose).both (harrow.before hbody) |>.map _)

theorem recognized_ascribe {t : Ty} {e : Expr} (ht : t.Written) (hlegible : e.Legible)
    (h : e.Recognized) : (ascribe t e).Recognized := by
  refine recognized_of_form (k := 1) (.ascribe ht hlegible) (by decide) (fun l _ => ?_)
    fun n hn bs rest hb hr => ?_
  · rw [render_ascribe, render_ascribe]
    rfl
  have htext : (ascribe t e).render 1 = t.chars ++ (" : ".toList ++ e.render Level.lambda) :=
    render_ascribe t e
  rw [htext] at hn ⊢
  rw [List.append_assoc, List.append_assoc]
  simp only [List.length_append] at hn
  have hends : Ty.Ends (" : ".toList ++ (e.render Level.lambda ++ rest)) :=
    ⟨Text.closes_cons (c := ' ') (by decide) _,
      (skips_token _).refuses_behind_blank (begins_literal rfl _ _ (by decide) (by decide))⟩
  have hcolon : Finds (literal ":") (" : ".toList ++ (e.render Level.lambda ++ rest)) ":".toList
      (' ' :: (e.render Level.lambda ++ rest)) :=
    (skips_token _).behind_blank (finds_literal (w := ":") (solid_cons (by decide) _))
  have hbody :=
    finds_body (n := n) hlegible h (Nat.lt_of_lt_of_le (Nat.lt_add_of_pos_left (by decide))
    ((Nat.le_add_left _ _).trans hn)) hr
  show Finds (simpleGrammar _) _ _ _
  exact Finds.firstOf ((ht.takes bs _ hb hends).both (hcolon.before hbody) |>.map _)

/-- What comes behind a semicolon. -/
theorem finds_next {n : Nat} (h : e.Recognized) (hn : (e.render Level.anything).length < n)
    (hr : Ends false 0 rest) : Finds ((literal ";").before (unrolled n .anything))
      ("; ".toList ++ (e.render Level.anything ++ rest)) e.shown rest :=
  (finds_literal (w := ";") (solid_cons (by decide) _)).before ((h.anything hn).behind_blank hr)

theorem recognized_andThen {bound body : Expr} (hlegibleb : bound.Legible)
    (hlegiblee : body.Legible)
    (hb : bound.Recognized) (he : body.Recognized) : (bindIn .wildcard bound body).Recognized := by
  refine recognized_of_form (k := 0) (.andThen hlegibleb hlegiblee) (by decide) (fun l _ => ?_)
    fun n hn bs rest hblank hr => ?_
  · rw [render_andThen, render_andThen]
    rfl
  have htext : (bindIn .wildcard bound body).render 0
      = bound.render Level.lambda ++ ("; ".toList ++ body.render Level.anything) :=
        render_andThen bound body
  rw [htext] at hn ⊢
  rw [List.append_assoc, List.append_assoc]
  simp only [List.length_append] at hn
  have hends : ∀ b, Ends b 1 ("; ".toList ++ (body.render Level.anything ++ rest)) := fun _ =>
    ends_mark (c := ';') (by decide) (by decide) _
  have hlet : Refuses (letGrammar (unrolled n)) (bs ++ (bound.render Level.lambda ++
      ("; ".toList ++ (body.render Level.anything ++ rest)))) :=
    (skips_let _).refuses hblank (refuses_let ((hlegibleb.opens 1).append (hends true).closes))
  have hbound : Finds (simpleGrammar (unrolled n)) (bs ++ (bound.render Level.lambda ++
      ("; ".toList ++ (body.render Level.anything ++ rest)))) bound.shown _ :=
    (hb n 1 (by decide) ((Nat.le_add_right _ _).trans hn)).takes bs _ hblank (hends _)
  have hnext := finds_next (n := n) he (Nat.lt_of_lt_of_le (Nat.lt_add_of_pos_left (by decide))
    ((Nat.le_add_left _ _).trans hn)) hr
  show Finds (anythingGrammar _) _ _ _
  rw [Finds, anythingGrammar, hlet.firstOf]
  exact Finds.firstOf (hbound.bind ((hnext.map _).optional _))

theorem recognized_bindIn {p : Pattern} {bound body : Expr} (hp : p.Written) (hne : p ≠ .wildcard)
    (hlegibleb : bound.Legible) (hlegiblee : body.Legible) (hb : bound.Recognized)
    (he : body.Recognized) : (bindIn p bound body).Recognized := by
  refine recognized_of_form (k := 0) (.bindIn hp hne hlegibleb hlegiblee) (by decide)
    (fun l _ => ?_)
    fun n hn bs rest hblank hr => ?_
  · rw [render_bindIn hne, render_bindIn hne]
    rfl
  have htext : (bindIn p bound body).render 0 = "let ".toList ++ (p.chars ++ (" = ".toList ++
      (bound.render Level.lambda ++ ("; ".toList ++ body.render Level.anything)))) :=
    render_bindIn hne bound body
  rw [htext] at hn ⊢
  simp only [List.append_assoc]
  simp only [List.length_append] at hn
  have hmark : 0 < "let ".toList.length := by decide
  have hbound : Takes (Ends false 1) (unrolled n .simple) (bound.render Level.lambda) bound.shown :=
    hb.simple (by omega)
  have hnext := finds_next (n := n) he (by omega) hr
  -- from here on it does not matter what stands behind the semicolon
  have hends : Ends false 1 ("; ".toList ++ (body.render Level.anything ++ rest)) :=
    ends_mark (c := ';') (by decide) (by decide) _
  generalize "; ".toList ++ (body.render Level.anything ++ rest) = next at hnext hends ⊢
  have hequals : Finds (token ((Lexer.exactly ['=']).unlessBefore (· = '>')))
      (" = ".toList ++ (bound.render Level.lambda ++ next)) ['=']
        (' ' :: (bound.render Level.lambda ++ next)) :=
    (skips_token _).behind_blank (finds_token (solid_cons (by decide) _) rfl)
  have hlet : Finds (keyword "let") ("let ".toList ++ (p.chars ++ (" = ".toList ++
      (bound.render Level.lambda ++ next)))) "let".toList
        (' ' :: (p.chars ++ (" = ".toList ++ (bound.render Level.lambda ++ next)))) :=
    finds_keyword (w := "let") (solid_cons (by decide) _)
      (Text.closes_cons (c := ' ') (by decide) _).not_isLetter
  have hpattern := hlet.before (hp.takes.behind_blank (Text.closes_cons (c := ' ') (by decide) _))
  show Finds (anythingGrammar _) _ _ _
  exact ((skips_let _).finds hblank ((hpattern.both
    ((hequals.before (hbound.behind_blank hends)).both hnext)).map _)).firstOf

/-! ## All forms -/

/-- **The grammar takes the text of a legible expression for what it shows**, at every place. -/
theorem Legible.recognized {e : Expr} (h : e.Legible) : e.Recognized := by
  induction h with
  | number hn hr => exact recognized_number hn hr
  | char hc => exact recognized_char hc
  | var hx => exact recognized_var hx
  | op o => exact recognized_op o
  | lambda hp h ih => exact recognized_lambda hp h ih
  | project hk h ih => exact recognized_project hk h ih
  | binary ho ha hb iha ihb => exact recognized_binary ho ha hb iha ihb
  | apply hp hi hf ha ihf iha => exact recognized_apply hp hi hf ha ihf iha
  | text hne hcs => exact recognized_text hne hcs
  | list hquote h ih => exact recognized_list hquote h ih
  | record hdistinct hlabels h ih => exact recognized_record hdistinct hlabels h ih
  | tuple hlength h ih => exact recognized_tuple hlength h ih
  | dispatch hdistinct hlabels h ih => exact recognized_dispatch hdistinct hlabels h ih
  | tag hne hk => exact recognized_tag hne hk
  | load hx => exact recognized_load hx
  | ascribe ht h ih => exact recognized_ascribe ht h ih
  | andThen hb he ihb ihe => exact recognized_andThen hb he ihb ihe
  | bindIn hp hne hb he ihb ihe => exact recognized_bindIn hp hne hb he ihb ihe

end Expr

end RowLang
