import RowLang.Proofs.Expr.Tidy
import RowLang.Proofs.Solver.Equivariant
import RowLang.Typing.Infer

/-!
# Proofs/Typing/Within — the variables that a walk meets

A walk over a tidy expression builds its types from those that the expression declares and from
fresh variables.  So all that it demands and finds belongs to any class of types that is closed
under what the walk does (`Deduction.Closed`, `Expr.within_deduce`).  Types about some of the
variables only are such a class (`properFamily`), and the state that the walk leaves goes alongside
itself.
-/

namespace RowLang

open Ty Solver

namespace Deduction

variable {α β : Type} {K : Nat → Ty → Prop} {post : Nat → α → Prop} {post' : Nat → β → Prop}

/-- All demands are about types of a class, where `K c t` says that `t` is one about variables below
`c`, and what is found satisfies `post` with respect to the bound that is reached, if each fresh
variable is in the class. -/
def Within (K : Nat → Ty → Prop) (post : Nat → α → Prop) : Deduction α → Nat → Prop
  | done x, c => ∀ c', c ≤ c' → post c' x
  | unbound _, _ => True
  | fresh next, c => ∀ n c', c ≤ c' → K c' (.var n) → Within K post (next n) c'
  | replace σ t next, c => Within K post (next (t.substitute σ)) c
  | agree s t next, c => K c s ∧ K c t ∧ Within K post next c

/-- One deduction after another. -/
theorem Within.bind {d : Deduction α} {f : α → Deduction β} : ∀ {c}, d.Within K post c →
    (∀ c' x, c ≤ c' → post c' x → (f x).Within K post' c') → (d >>= f).Within K post' c := by
  show ∀ {c}, d.Within K post c → _ → (d.bind f).Within K post' c
  induction d with
  | done x => exact fun {c} h hf => hf c x le_rfl (h c le_rfl)
  | unbound name => exact fun _ _ => trivial
  | fresh next ih =>
    exact fun h hf n c₁ hc hn => ih n (h n c₁ hc hn) fun c' x hc' => hf c' x (hc.trans hc')
  | replace σ t next ih => exact fun h hf => ih _ h hf
  | agree s t next ih => exact fun h hf => ⟨h.1, h.2.1, ih h.2.2 hf⟩

/-- What is found need not be of interest. -/
theorem Within.weaken {d : Deduction α} : ∀ {c}, d.Within K post c → d.Within K
    (fun _ _ => True) c := by
  induction d with
  | done x => exact fun _ _ _ => True.intro
  | unbound name => exact fun _ => True.intro
  | fresh next ih => exact fun h n c' hc hn => ih n (h n c' hc hn)
  | replace σ t next ih => exact fun h => ih _ h
  | agree s t next ih => exact fun h => ⟨h.1, h.2.1, ih h.2.2⟩

theorem within_fresh {c : Nat} {f : Ty → Deduction β}
    (h : ∀ c' n, c ≤ c' → K c' (.var n) → (f (.var n)).Within K post' c') :
    (freshVar >>= f).Within K post' c :=
  fun n c' hc hn => h c' n hc hn

theorem within_demand {c : Nat} {s t : Ty} {f : Unit → Deduction β} (hs : K c s) (ht : K c t)
    (h : (f ()).Within K post' c) : (demand s t >>= f).Within K post' c := ⟨hs, ht, h⟩

end Deduction

/-- **A class of types that a walk does not leave**; `Has c t` says that `t` is one of them, about
variables below `c`. -/
structure Family where
  Has : Nat → Ty → Prop
  mono : ∀ {c c' t}, Has c t → c ≤ c' → Has c' t
  number : ∀ {c}, Has c .number
  char : ∀ {c}, Has c .char
  ends : ∀ {c} (k : RowKind), Has c k.end
  arrow : ∀ {c a b}, Has c a → Has c b → Has c (.arrow a b)
  list : ∀ {c t}, Has c t → Has c (.list t)
  row : ∀ {c k} {fields : Row Ty} {tail}, Row.Tidy fields → (∀ p ∈ fields, Has c p.2) → Has c tail →
    Has c (.row k fields tail)
  instantiate : ∀ {c t}, Has c t → (Deduction.instantiate t).Within Has Has c

variable {K : Family}

theorem Family.Has.mono {c c' : Nat} {t : Ty} (h : K.Has c t) (hc : c ≤ c') : K.Has c' t :=
  K.mono h hc

theorem Deduction.Within.mono {α : Type} {post : Nat → α → Prop} {d : Deduction α} :
    ∀ {c c'}, d.Within K.Has post c → c ≤ c' → d.Within K.Has post c' := by
  induction d with
  | done x => exact fun h hc c'' hc' => h c'' (hc.trans hc')
  | unbound name => exact fun _ _ => trivial
  | fresh next ih => exact fun h hc n c'' hc' => h n c'' (hc.trans hc')
  | replace σ t next ih => exact fun h hc => ih _ h hc
  | agree s t next ih => exact fun h hc => ⟨h.1.mono hc, h.2.1.mono hc, ih h.2.2 hc⟩

/-! ## Patterns -/

/-- The types of the names in scope are in the class. -/
def Family.HasContext (K : Family) (c : Nat) (ctx : Context) : Prop := ∀ p ∈ ctx, K.Has c p.2

theorem Family.HasContext.mono {c c' : Nat} {ctx : Context} (h : K.HasContext c ctx) (hc : c ≤ c') :
    K.HasContext c' ctx := fun p hp => (h p hp).mono hc

/-- A name may be added that has a type of the class. -/
theorem Family.HasContext.cons {c : Nat} {ctx : Context} {x : String} {t : Ty}
    (h : K.HasContext c ctx) (ht : K.Has c t) : K.HasContext c ((x, t) :: ctx) := fun p hp =>
  (List.mem_cons.mp hp).elim (fun he => he ▸ ht) (h p)

/-- Types of the class under the labels of a row. -/
def Family.HasTypes {α : Type} (K : Family) (fields : Row α) (c : Nat) (types : Row Ty) : Prop :=
  Row.labels types = Row.labels fields ∧ ∀ p ∈ types, K.Has c p.2

section

variable {α : Type} {fields : Row α} {c : Nat} {types : Row Ty}

theorem Family.HasTypes.mono {c' : Nat} (h : K.HasTypes fields c types) (hc : c ≤ c') :
    K.HasTypes fields c' types := ⟨h.1, fun p hp => (h.2 p hp).mono hc⟩

theorem Family.HasTypes.cons {l : Label} {x : α} {t : Ty} (ht : K.Has c t)
    (h : K.HasTypes fields c types) : K.HasTypes ((l, x) :: fields) c ((l, t) :: types) :=
  ⟨by rw [Row.labels_cons, Row.labels_cons, h.1], fun q hq =>
    (List.mem_cons.mp hq).elim (fun he => he ▸ ht) (h.2 q)⟩

theorem Family.HasTypes.row {k : RowKind} {tail : Ty} (h : K.HasTypes fields c types)
    (hfields : Row.Tidy fields) (ht : K.Has c tail) : K.Has c (.row k types tail) :=
  K.row (hfields.of_labels_eq h.1) h.2 ht

end

namespace Pattern

/-- What a pattern finds is in the class. -/
def Meets (K : Family) (c : Nat) (r : Context × Ty) : Prop := K.HasContext c r.1 ∧ K.Has c r.2

theorem within_deduceFields {fields : Row Pattern} (htidy : TidyFields fields)
    (ih : ∀ p ∈ fields, p.2.Tidy → ∀ {ctx c}, K.HasContext c ctx →
      (p.2.deduce ctx).Within K.Has (Meets K) c) : ∀ {ctx c}, K.HasContext c ctx →
    (deduceFields ctx fields).Within K.Has
      (fun c r => K.HasContext c r.1 ∧ K.HasTypes fields c r.2) c := by
  induction fields with
  | nil => exact fun hctx c' hc => ⟨hctx.mono hc, rfl, by simp⟩
  | cons p fields ihf =>
    intro ctx c hctx
    rw [deduceFields]
    refine (ih p List.mem_cons_self htidy.1 hctx).bind fun c₁ r₁ hc₁ h₁ => ?_
    refine (ihf htidy.2 (fun q hq => ih q (List.mem_cons_of_mem _ hq)) h₁.1).bind
      fun c₂ r₂ hc₂ h₂ => ?_
    exact fun c' hc => ⟨h₂.1.mono hc, (h₂.2.mono hc).cons (h₁.2.mono (hc₂.trans hc))⟩

/-- **The walk over a pattern keeps to a class** that has all that it asks for. -/
theorem within_deduce {p : Pattern} (hp : p.Tidy) : ∀ {ctx c}, K.HasContext c ctx →
    (p.deduce ctx).Within K.Has (Meets K) c := by
  induction p using inductOn with
  | name x =>
    intro ctx c hctx
    rw [deduce]
    exact Deduction.within_fresh fun c₁ n hc₁ hn c' hc =>
      ⟨((hctx.mono hc₁).cons hn).mono hc, hn.mono hc⟩
  | wildcard =>
    intro ctx c hctx
    rw [deduce]
    exact Deduction.within_fresh fun c₁ n hc₁ hn c' hc => ⟨(hctx.mono hc₁).mono hc, hn.mono hc⟩
  | row fields ih =>
    intro ctx c hctx
    rw [deduce]
    refine (within_deduceFields hp.2 ih hctx).bind fun c₁ r hc₁ h₁ => ?_
    exact Deduction.within_fresh fun c₂ n hc₂ hn c' hc =>
      ⟨(h₁.1.mono hc₂).mono hc, ((h₁.2.mono hc₂).row hp.1 hn).mono hc⟩

theorem within_deduceBinding {p : Pattern} (hp : p.Tidy) {ctx : Context} {c : Nat} {t : Ty}
    (hctx : K.HasContext c ctx) (ht : K.Has c t) :
    (p.deduceBinding ctx t).Within K.Has K.HasContext c := by
  cases p with
  | name x => exact fun c' hc => (hctx.cons ht).mono hc
  | wildcard => exact fun c' hc => hctx.mono hc
  | row fields =>
    rw [deduceBinding]
    refine (within_deduce hp hctx).bind fun c₁ r hc₁ h₁ => ?_
    exact Deduction.within_demand h₁.2 (ht.mono hc₁) fun c' hc => h₁.1.mono hc

end Pattern

/-! ## Operators -/

namespace Operator

variable {c : Nat}

theorem has_pairType {a b : Ty} (ha : K.Has c a) (hb : K.Has c b) : K.Has c (pairType a b) := by
  refine K.row (Row.tidy_positional [a, b]) (fun p hp => ?_) (K.ends .record)
  simp only [Row.positional, Row.positionalFrom, List.mem_cons, List.not_mem_nil, or_false] at hp
  rcases hp with rfl | rfl
  exacts [ha, hb]

/-- A verdict is of any class that has rows. -/
theorem has_verdict : K.Has c verdict := by
  have hempty : K.Has c (Ty.closedRecord []) := K.row Row.tidy_nil (by simp) (K.ends .record)
  refine K.row ⟨by simp [Row.Distinct], ?_⟩ (fun p hp => ?_) (K.ends .variant)
  · simp only [Row.labels_cons, Row.labels_nil, List.mem_cons, List.not_mem_nil, or_false]
    rintro l (rfl | rfl) <;> decide
  · simp only [List.mem_cons, List.not_mem_nil, or_false] at hp
    rcases hp with rfl | rfl <;> exact hempty

theorem within_scheme (o : Operator) : (Deduction.instantiate o.scheme).Within K.Has K.Has c := by
  cases o with
  | plus | minus | times | divide | modulo =>
    exact fun c' _ => K.arrow (has_pairType K.number K.number) K.number
  | eq | lt => exact fun c' _ => K.arrow (has_pairType K.number K.number) has_verdict
  | ord => exact fun c' _ => K.arrow K.char K.number
  | chr => exact fun c' _ => K.arrow K.number K.char
  | countUp => exact fun c' _ => K.arrow K.number (K.list K.number)
  | append =>
    intro n c₁ _ hn c' hc
    have ha : K.Has c' (.list (.var n)) := K.list (hn.mono hc)
    exact K.arrow (has_pairType ha ha) ha
  | size =>
    intro n c₁ _ hn c' hc
    exact K.arrow (K.list (hn.mono hc)) K.number
  | map =>
    intro n c₁ _ hn m c₂ hc₂ hm c' hc
    have ha : K.Has c' (.var n) := hn.mono (hc₂.trans hc)
    have hb : K.Has c' (.var m) := hm.mono hc
    exact K.arrow (K.arrow ha hb) (K.arrow (K.list ha) (K.list hb))
  | filter =>
    intro n c₁ _ hn c' hc
    have ha : K.Has c' (.var n) := hn.mono hc
    exact K.arrow (K.arrow ha has_verdict) (K.arrow (K.list ha) (K.list ha))
  | fold =>
    intro n c₁ _ hn m c₂ hc₂ hm c' hc
    have ha : K.Has c' (.var n) := hn.mono (hc₂.trans hc)
    have hb : K.Has c' (.var m) := hm.mono hc
    exact K.arrow (K.arrow hb (K.arrow ha hb)) (K.arrow hb (K.arrow (K.list ha) hb))

end Operator

/-! ## Expressions -/

namespace Expr

mutual

/-- Every type that an expression declares has a property. -/
def Declares (Q : Ty → Prop) : Expr → Prop
  | lambda _ body => Declares Q body
  | apply fn arg => Declares Q fn ∧ Declares Q arg
  | list elts => DeclaresAll Q elts
  | record fields => DeclaresFields Q fields
  | tuple items => DeclaresAll Q items
  | dispatch handlers => DeclaresFields Q handlers
  | ascribe declared e => Q declared ∧ Declares Q e
  | bindIn _ bound body => Declares Q bound ∧ Declares Q body
  | _ => True

/-- Every type that some expressions declare has it. -/
def DeclaresAll (Q : Ty → Prop) : List Expr → Prop
  | [] => True
  | e :: es => Declares Q e ∧ DeclaresAll Q es

/-- Every type that some fields declare has it. -/
def DeclaresFields (Q : Ty → Prop) : List (Label × Expr) → Prop
  | [] => True
  | (_, e) :: fields => Declares Q e ∧ DeclaresFields Q fields

end

theorem declaresAll_iff {Q : Ty → Prop} {es : List Expr} :
    DeclaresAll Q es ↔ ∀ e ∈ es, e.Declares Q := by
  induction es with
  | nil => simp [DeclaresAll]
  | cons e es ih => simp [DeclaresAll, ih]

theorem declaresFields_iff {Q : Ty → Prop} {fields : Row Expr} :
    DeclaresFields Q fields ↔ ∀ p ∈ fields, p.2.Declares Q := by
  induction fields with
  | nil => simp [DeclaresFields]
  | cons p fields ih => simp [DeclaresFields, ih]

/-- What all declared types are may be said with less. -/
theorem Declares.mono {Q R : Ty → Prop} {e : Expr} (h : e.Declares Q) (hQR : ∀ t, Q t → R t) :
    e.Declares R := by
  induction e using inductOn with
  | number | char | var | op | tag | load => trivial
  | lambda p body ih => exact ih h
  | apply fn arg ihfn iharg => exact ⟨ihfn h.1, iharg h.2⟩
  | list elts ih => exact declaresAll_iff.mpr fun e he => ih e he (declaresAll_iff.mp h e he)
  | tuple items ih => exact declaresAll_iff.mpr fun e he => ih e he (declaresAll_iff.mp h e he)
  | record fields ih =>
    exact declaresFields_iff.mpr fun p hp => ih p hp (declaresFields_iff.mp h p hp)
  | dispatch handlers ih =>
    exact declaresFields_iff.mpr fun p hp => ih p hp (declaresFields_iff.mp h p hp)
  | ascribe declared e ih => exact ⟨hQR _ h.1, ih h.2⟩
  | bindIn p bound body ihbound ihbody => exact ⟨ihbound h.1, ihbody h.2⟩

variable {b : Nat}

/-- The walk over an expression keeps to a class that has the types that it declares, about
variables below `b`. -/
private def StaysWithin (K : Family) (b : Nat) (e : Expr) : Prop :=
  e.Tidy → e.Declares (K.Has b) → ∀ {ctx : Context} {c : Nat}, b ≤ c → K.HasContext c ctx →
    (e.deduce ctx).Within K.Has K.Has c

private theorem within_deduceElements {elts : List Expr} (ih : ∀ e ∈ elts, StaysWithin K b e)
    (htidy : TidyAll elts) (hd : DeclaresAll (K.Has b) elts) : ∀ {ctx c elt}, b ≤ c →
    K.HasContext c ctx → K.Has c elt →
      (deduceElements ctx elt elts).Within K.Has (fun _ _ => True) c := by
  induction elts with
  | nil => exact fun _ _ _ _ _ => trivial
  | cons e es ihs =>
    intro ctx c elt hb hctx helt
    rw [deduceElements]
    refine (ih e List.mem_cons_self htidy.1 hd.1 hb hctx).bind fun c₁ t hc₁ h₁ => ?_
    exact Deduction.within_demand (helt.mono hc₁) h₁ (ihs (fun e he =>
      ih e (List.mem_cons_of_mem _ he)) htidy.2 hd.2 (hb.trans hc₁) (hctx.mono hc₁) (helt.mono hc₁))

private theorem within_deduceItems {items : List Expr} (ih : ∀ e ∈ items, StaysWithin K b e)
    (htidy : TidyAll items) (hd : DeclaresAll (K.Has b) items) : ∀ {ctx c}, b ≤ c →
    K.HasContext c ctx →
      (deduceItems ctx items).Within K.Has (fun c ts => ∀ t ∈ ts, K.Has c t) c := by
  induction items with
  | nil => exact fun _ _ _ _ => by simp
  | cons e es ihs =>
    intro ctx c hb hctx
    rw [deduceItems]
    refine (ih e List.mem_cons_self htidy.1 hd.1 hb hctx).bind fun c₁ t hc₁ h₁ => ?_
    refine (ihs (fun e he => ih e (List.mem_cons_of_mem _ he)) htidy.2 hd.2 (hb.trans hc₁)
      (hctx.mono hc₁)).bind fun c₂ ts hc₂ h₂ c' hc u hu => ?_
    rcases List.mem_cons.mp hu with rfl | hu
    · exact h₁.mono (hc₂.trans hc)
    · exact (h₂ u hu).mono hc

private theorem within_deduceRow {fields : Row Expr} (ih : ∀ f ∈ fields, StaysWithin K b f.2)
    (htidy : TidyFields fields) (hd : DeclaresFields (K.Has b) fields) : ∀ {ctx c}, b ≤ c →
    K.HasContext c ctx → (deduceFields ctx fields).Within K.Has (K.HasTypes fields) c := by
  induction fields with
  | nil => exact fun _ _ _ _ => ⟨rfl, by simp⟩
  | cons f fields ihs =>
    intro ctx c hb hctx
    rw [deduceFields]
    refine (ih f List.mem_cons_self htidy.1 hd.1 hb hctx).bind fun c₁ t hc₁ h₁ => ?_
    refine (ihs (fun f hf => ih f (List.mem_cons_of_mem _ hf)) htidy.2 hd.2 (hb.trans hc₁)
      (hctx.mono hc₁)).bind fun c₂ types hc₂ h₂ c' hc => ?_
    exact (h₂.mono hc).cons (h₁.mono (hc₂.trans hc))

private theorem within_deduceHandlers {handlers : Row Expr}
    (ih : ∀ f ∈ handlers, StaysWithin K b f.2)
    (htidy : TidyFields handlers) (hd : DeclaresFields (K.Has b) handlers) : ∀ {ctx c res}, b ≤ c →
    K.HasContext c ctx → K.Has c res →
      (deduceHandlers ctx res handlers).Within K.Has (K.HasTypes handlers) c := by
  induction handlers with
  | nil => exact fun _ _ _ _ _ => ⟨rfl, by simp⟩
  | cons f handlers ihs =>
    intro ctx c res hb hctx hres
    rw [deduceHandlers]
    refine Deduction.within_fresh fun c₁ n hc₁ harg => ?_
    refine (ih f List.mem_cons_self htidy.1 hd.1 (hb.trans hc₁) (hctx.mono hc₁)).bind
      fun c₂ t hc₂ h₂ => ?_
    have hc := hc₁.trans hc₂
    refine Deduction.within_demand h₂ (K.arrow (harg.mono hc₂) (hres.mono hc)) ?_
    refine (ihs (fun f hf => ih f (List.mem_cons_of_mem _ hf)) htidy.2 hd.2 (hb.trans hc)
      (hctx.mono hc) (hres.mono hc)).bind fun c₃ types hc₃ h₃ c' hc' => ?_
    exact (h₃.mono hc').cons (harg.mono ((hc₂.trans hc₃).trans hc'))

private theorem staysWithin (e : Expr) : StaysWithin K b e := by
  induction e using inductOn with
  | number n => exact fun _ _ _ _ _ _ _ _ => K.number
  | char c => exact fun _ _ _ _ _ _ _ _ => K.char
  | var x =>
    intro _ _ ctx c _ hctx
    rw [deduce]
    cases hx : List.lookup x ctx with
    | none => trivial
    | some t => exact K.instantiate (hctx _ (Row.mem_of_lookup hx))
  | op o => exact fun _ _ _ _ _ _ => Operator.within_scheme o
  | lambda p body ih =>
    intro htidy hd ctx c hb hctx
    rw [deduce]
    refine (p.within_deduce htidy.1 hctx).bind fun c₁ r hc₁ h₁ => ?_
    refine (ih htidy.2 hd (hb.trans hc₁) h₁.1).bind fun c₂ res hc₂ h₂ c' hc => ?_
    exact (K.arrow (h₁.2.mono hc₂) h₂).mono hc
  | apply fn arg ihfn iharg =>
    intro htidy hd ctx c hb hctx
    rw [deduce]
    refine (ihfn htidy.1 hd.1 hb hctx).bind fun c₁ f hc₁ h₁ => ?_
    refine (iharg htidy.2 hd.2 (hb.trans hc₁) (hctx.mono hc₁)).bind fun c₂ a hc₂ h₂ => ?_
    refine Deduction.within_fresh fun c₃ n hc₃ hres => ?_
    exact Deduction.within_demand (h₁.mono (hc₂.trans hc₃)) (K.arrow (h₂.mono hc₃) hres)
      fun c' hc => hres.mono hc
  | list elts ih =>
    intro htidy hd ctx c hb hctx
    rw [deduce]
    refine Deduction.within_fresh fun c₁ n hc₁ helt => ?_
    refine (within_deduceElements ih htidy hd (hb.trans hc₁) (hctx.mono hc₁) helt).bind
      fun c₂ _ hc₂ _ c' hc => ?_
    exact K.list (helt.mono (hc₂.trans hc))
  | record fields ih =>
    intro htidy hd ctx c hb hctx
    rw [deduce]
    refine Deduction.within_fresh fun c₁ n hc₁ hthis => ?_
    refine (within_deduceRow ih htidy.2 hd (hb.trans hc₁) ((hctx.mono hc₁).cons hthis)).bind
      fun c₂ types hc₂ h₂ => ?_
    have hrecord : K.Has c₂ (Ty.closedRecord types) := h₂.row htidy.1 (K.ends .record)
    exact Deduction.within_demand (hthis.mono hc₂) hrecord fun c' hc => hrecord.mono hc
  | tuple items ih =>
    intro htidy hd ctx c hb hctx
    rw [deduce]
    refine (within_deduceItems ih htidy hd hb hctx).bind fun c₁ ts hc₁ h₁ c' hc => ?_
    exact (K.row (Row.tidy_positional ts) (fun p hp => h₁ _ (Row.mem_of_mem_positional hp))
      (K.ends .record)).mono hc
  | dispatch handlers ih =>
    intro htidy hd ctx c hb hctx
    rw [deduce]
    refine Deduction.within_fresh fun c₁ n hc₁ hres => ?_
    refine (within_deduceHandlers ih htidy.2 hd (hb.trans hc₁) (hctx.mono hc₁) hres).bind
      fun c₂ types hc₂ h₂ c' hc => ?_
    exact (K.arrow (h₂.row htidy.1 (K.ends .variant)) (hres.mono hc₂)).mono hc
  | tag l =>
    intro htidy _ ctx c _ _
    rw [deduce]
    refine Deduction.within_fresh fun c₁ n hc₁ hpayload => ?_
    refine Deduction.within_fresh fun c₂ m hc₂ htail c' hc => ?_
    refine (K.arrow (hpayload.mono hc₂) (K.row (Row.tidy_single htidy _) ?_ htail)).mono hc
    exact fun p hp => (List.mem_singleton.mp hp) ▸ hpayload.mono hc₂
  | load name => exact fun _ _ _ _ _ _ => Deduction.within_fresh fun _ _ _ hn _ hc => hn.mono hc
  | ascribe declared e ih =>
    intro htidy hd ctx c hb hctx
    rw [deduce]
    refine (ih htidy hd.2 hb hctx).bind fun c₁ t hc₁ h₁ => ?_
    have hdeclared := hd.1.mono (hb.trans hc₁)
    refine (K.instantiate hdeclared).bind fun c₂ u hc₂ h₂ => ?_
    exact Deduction.within_demand h₂ (h₁.mono hc₂) fun c' hc => hdeclared.mono (hc₂.trans hc)
  | bindIn p bound body ihbound ihbody =>
    intro htidy hd ctx c hb hctx
    rw [deduce]
    refine (ihbound htidy.2.1 hd.1 hb hctx).bind fun c₁ t hc₁ h₁ => ?_
    refine (p.within_deduceBinding htidy.1 (hctx.mono hc₁) h₁).bind fun c₂ inner hc₂ h₂ => ?_
    exact ihbody htidy.2.2 hd.2 (hb.trans (hc₁.trans hc₂)) h₂

/-- **The walk over a tidy expression keeps to a class of types that has all that it declares.** -/
theorem within_deduce {e : Expr} (htidy : e.Tidy) (hd : e.Declares (K.Has b)) :
    (e.deduce []).Within K.Has K.Has b :=
  staysWithin e htidy hd le_rfl fun _ h => absurd h List.not_mem_nil

end Expr

/-! ## Types about some variables only -/

/-- Quantifiers stripped, with proper types for those that are stripped already. -/
theorem within_instantiateUnder {P : Nat → Prop} {t : Ty} : ∀ {σ : Subst} {c : Nat}, Proper P c t →
    (∀ v u, σ.lookup v = some u → Proper P c u) →
    (Deduction.instantiateUnder σ t).Within (Proper P) (Proper P) c := by
  induction t using Ty.inductOn with
  | bind b n body ih =>
    intro σ c ht hσ
    cases b with
    | forAll =>
      intro m c' hc hm
      refine ih ⟨ht.tidy, (ht.mono hc).numbers.2⟩ fun v u hu => ?_
      rw [Row.lookup_cons_eq] at hu
      split at hu
      · cases hu
        exact hm
      · exact (hσ v u hu).mono hc
    | mu => exact fun c' hc => (ht.substitute hσ).mono hc
  | _ => exact fun ht hσ c' hc => (ht.substitute hσ).mono hc

theorem proper_end (P : Nat → Prop) (c : Nat) (k : RowKind) : Proper P c k.end := by
  cases k <;> exact ⟨trivial, trivial⟩

/-- **The proper types are a class that a walk does not leave.** -/
def properFamily (P : Nat → Prop) : Family where
  Has := Proper P
  mono h hc := Proper.mono h hc
  number := ⟨trivial, trivial⟩
  char := ⟨trivial, trivial⟩
  ends k := proper_end P _ k
  arrow ha hb := ⟨⟨ha.tidy, hb.tidy⟩, ha.numbers, hb.numbers⟩
  list h := ⟨h.tidy, h.numbers⟩
  row hfields hf ht := proper_row.mpr ⟨hfields, hf, ht⟩
  instantiate h := within_instantiateUnder h fun _ _ hu => by cases hu

/-! ## Runs -/

namespace Solver

variable {P : Nat → Prop} {ρ : Nat → Nat} {c budget : Nat}

theorem parallel_demand (budget : Nat) (hρ : KeepsApart P ρ) {s t : Ty} (hs : Proper P c s)
    (ht : Proper P c t) :
    Parallel P ρ c Whatever (demand budget s t) (demand budget (s.rename ρ) (t.rename ρ)) := by
  rw [demand_eq, demand_eq, unranked?_rename, unranked?_rename]
  split
  · exact parallel_throw (.unwritable _)
  · exact parallel_equate hρ budget hs ht

/-- **A deduction that keeps to some variables goes alongside itself.** -/
theorem parallel_run (budget : Nat) {α : Type} {post : Nat → α → Prop}
    {d : Deduction α} : ∀ {c}, d.Within (Proper P) post c →
    Parallel P id c (fun c' x y => y = x ∧ post c' x) (run budget d) (run budget d) := by
  have hid : KeepsApart P id := fun _ _ _ _ h => h
  induction d with
  | done x => exact fun h => parallel_pure fun c' hc => ⟨rfl, h c' hc⟩
  | unbound name => exact fun _ => parallel_throw (.unbound name)
  | fresh next ih =>
    intro c h
    refine parallel_fresh.bind fun c' n n' hc hn => ?_
    obtain ⟨hn', hP, hlt⟩ := hn
    rw [show n' = n from hn']
    exact ih n (h n c' hc (proper_var hP hlt))
  | replace σ t next ih => exact fun h => ih _ h
  | agree s t next ih =>
    intro c h
    have hdemand := parallel_demand budget hid h.1 h.2.1
    rw [rename_id, rename_id] at hdemand
    exact hdemand.bind fun c' _ _ hc _ => ih (Deduction.Within.mono (K := properFamily P) h.2.2 hc)

end Solver

end RowLang
