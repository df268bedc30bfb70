import RowLang.Value.Arith
import RowLang.Value.Compare
import Mathlib.Data.List.Forall2
import Mathlib.Order.Basic

/-!
# Proofs/Value/Matched — values that are alike but for the numbers of things

What a world makes it numbers: its records, its births, its resolvers.  Two values match when they
are alike but for those numbers, which a `Matching` takes to one another (`Value.Matches`).  If the
matching is one-to-one (`Matching.Unique`), no operator tells values that match apart: it makes of
them results that match, or refuses them for the same fault.
-/

namespace RowLang

/-- What a world numbers. -/
inductive Thing where
  | record (address : Nat)
  | birth (number : Nat)
  | resolver (number : Nat)

/-- Which things of one world are which things of another. -/
abbrev Matching := Thing → Thing → Prop

/-- **A matching is one-to-one.** -/
structure Matching.Unique (β : Matching) : Prop where
  right : ∀ {x y y'}, β x y → β x y' → y = y'
  left : ∀ {x x' y}, β x y → β x' y → x = x'

variable {β β' : Matching}

/-! ## Origins and code -/

/-- Origins match in their births. -/
structure Origin.Matches (β : Matching) (o o' : Origin) : Prop where
  birth : β (.birth o.birth) (.birth o'.birth)
  place : o.place = o'.place
  counted : o.counted = o'.counted

/-- The same code, of births that match. -/
structure Code.Matches (β : Matching) (c c' : Code) : Prop where
  origin : c.origin.Matches β c'.origin
  expr : c.expr = c'.expr

/-- The same label, of births that match. -/
structure Tag.Matches (β : Matching) (t t' : Tag) : Prop where
  label : t.label = t'.label
  origin : t.origin.Matches β t'.origin

/-- Rows of the same labels, with values that match. -/
def Row.Matches {α : Type} (R : α → α → Prop) : Row α → Row α → Prop :=
  List.Forall₂ fun p q => p.1 = q.1 ∧ R p.2 q.2

/-- Imports are resolved by resolvers that match, or nowhere. -/
def ImportRoot.Matches (β : Matching) : ImportRoot → ImportRoot → Prop :=
  Option.Rel fun k k' => β (.resolver k) (.resolver k')

theorem Origin.Matches.mono {o o' : Origin} (h : o.Matches β o') (hβ : β ≤ β') : o.Matches β' o' :=
  ⟨hβ _ _ h.birth, h.place, h.counted⟩

theorem Origin.Matches.part {o o' : Origin} (h : o.Matches β o') (i : Nat) :
    (o.part i).Matches β (o'.part i) :=
  ⟨h.birth, congrArg (i :: ·) h.place, h.counted⟩

theorem Origin.Matches.numeral {o o' : Origin} (h : o.Matches β o') :
    o.numeral.Matches β o'.numeral := ⟨h.birth, h.place, rfl⟩

/-- **Origins that match are told apart alike.** -/
theorem Origin.Matches.eq_iff {o o' p p' : Origin} (hβ : β.Unique) (h : o.Matches β o')
    (hp : p.Matches β p') : o = p ↔ o' = p' := by
  rcases o with ⟨b, pl, c⟩
  rcases o' with ⟨b', pl', c'⟩
  rcases p with ⟨d, ql, e⟩
  rcases p' with ⟨d', ql', e'⟩
  obtain ⟨hb, rfl, rfl⟩ := h
  obtain ⟨hd, rfl, rfl⟩ := hp
  have hbirth : b = d ↔ b' = d' := by
    constructor
    · rintro rfl
      exact Thing.birth.inj (hβ.right hb hd)
    · rintro rfl
      exact Thing.birth.inj (hβ.left hb hd)
  simp only [Origin.mk.injEq, hbirth]

theorem Code.Matches.mono {c c' : Code} (h : c.Matches β c') (hβ : β ≤ β') : c.Matches β' c' :=
  ⟨h.origin.mono hβ, h.expr⟩

theorem Tag.Matches.mono {t t' : Tag} (h : t.Matches β t') (hβ : β ≤ β') : t.Matches β' t' :=
  ⟨h.label, h.origin.mono hβ⟩

theorem Row.Matches.mono {α : Type} {R R' : α → α → Prop} {r r' : Row α} (h : Row.Matches R r r')
    (hR : ∀ x y, R x y → R' x y) : Row.Matches R' r r' := h.imp fun _ _ hp => ⟨hp.1, hR _ _ hp.2⟩

theorem Row.Matches.labels {α : Type} {R : α → α → Prop} {r r' : Row α} (h : Row.Matches R r r') :
    Row.labels r = Row.labels r' := by
  induction h with
  | nil => rfl
  | cons hp _ ih => simp only [Row.labels, List.map_cons, hp.1] at ih ⊢; rw [ih]

/-- What a label has in rows that match. -/
theorem Row.Matches.lookup {α : Type} {R : α → α → Prop} {r r' : Row α} (h : Row.Matches R r r')
    (l : Label) : Option.Rel R (r.lookup l) (r'.lookup l) := by
  induction h with
  | nil => exact .none
  | @cons p q _ _ hp _ ih =>
    obtain ⟨k, x⟩ := p
    obtain ⟨k', x'⟩ := q
    obtain ⟨rfl, hx⟩ := hp
    simp only [List.lookup_cons]
    cases l == k with
    | true => exact .some hx
    | false => exact ih

theorem ImportRoot.Matches.mono {k k' : ImportRoot} (h : ImportRoot.Matches β k k') (hβ : β ≤ β') :
    ImportRoot.Matches β' k k' := by
  cases h with
  | some h => exact .some (hβ _ _ h)
  | none => exact .none

/-- The parts of an expression match. -/
theorem Code.matches_parts {o o' : Origin} (h : o.Matches β o') (es : List Expr) :
    List.Forall₂ (Code.Matches β) (Code.parts o es) (Code.parts o' es) := by
  refine List.forall₂_iff_get.mpr ⟨by simp [Code.parts], fun i hi hi' => ?_⟩
  simp only [Code.parts, List.get_eq_getElem, List.getElem_mapIdx]
  exact ⟨h.part i, rfl⟩

/-- The fields of an expression match. -/
theorem Code.matches_fields {o o' : Origin} (h : o.Matches β o') (r : Row Expr) :
    Row.Matches (Code.Matches β) (Code.fields o r) (Code.fields o' r) := by
  refine List.forall₂_iff_get.mpr ⟨by simp [Code.fields], fun i hi hi' => ?_⟩
  simp only [Code.fields, List.get_eq_getElem, List.getElem_mapIdx]
  exact ⟨trivial, h.part i, rfl⟩

/-! ## Values -/

/-- **Values match**: they are alike but for the numbers of things. -/
inductive Value.Matches (β : Matching) : Value → Value → Prop
  | int {o o' i} : o.Matches β o' → Matches β (.int o i) (.int o' i)
  | real {o o' x} : o.Matches β o' → Matches β (.real o x) (.real o' x)
  | text {o o' codes} : o.Matches β o' → Matches β (.text o codes) (.text o' codes)
  | list {o o' xs ys} : o.Matches β o' → xs.length = ys.length →
      (∀ p ∈ xs.zip ys, Matches β p.1 p.2) → Matches β (.list o xs) (.list o' ys)
  | tuple {o o' xs ys} : o.Matches β o' → xs.length = ys.length →
      (∀ p ∈ xs.zip ys, Matches β p.1 p.2) → Matches β (.tuple o xs) (.tuple o' ys)
  | tagged {o o' t t' x y} : o.Matches β o' → t.Matches β t' → Matches β x y →
      Matches β (.tagged o t x) (.tagged o' t' y)
  | record {a a'} : β (.record a) (.record a') → Matches β (.record a) (.record a')
  | operator {o} : Matches β (.operator o) (.operator o)
  | waiting {o o' op xs ys} : o.Matches β o' → xs.length = ys.length →
      (∀ p ∈ xs.zip ys, Matches β p.1 p.2) → Matches β (.waiting o op xs) (.waiting o' op ys)
  | tagger {o o' t t'} : o.Matches β o' → t.Matches β t' → Matches β (.tagger o t) (.tagger o' t')
  | closure {o o' env env' p code code'} : o.Matches β o' →
    ImportRoot.Matches β env.root env'.root →
      (∀ x, (env.fetch? x).isSome = (env'.fetch? x).isSome) →
      (∀ x v v', env.fetch? x = some v → env'.fetch? x = some v' → Matches β v v') →
      code.Matches β code' → Matches β (.closure o env p code) (.closure o' env' p code')
  | dispatcher {o o' env env' hs hs'} : o.Matches β o' → ImportRoot.Matches β env.root env'.root →
      (∀ x, (env.fetch? x).isSome = (env'.fetch? x).isSome) →
      (∀ x v v', env.fetch? x = some v → env'.fetch? x = some v' → Matches β v v') →
      Row.Matches (Code.Matches β) hs hs' →
        Matches β (.dispatcher o env hs) (.dispatcher o' env' hs')

/-- **Scopes match**: they bind the same names, to values that match. -/
structure Env.Matches (β : Matching) (env env' : Env) : Prop where
  root : ImportRoot.Matches β env.root env'.root
  names : ∀ x, (env.fetch? x).isSome = (env'.fetch? x).isSome
  values : ∀ x v v', env.fetch? x = some v → env'.fetch? x = some v' → v.Matches β v'

/-- Values match one by one. -/
abbrev Value.AllMatch (β : Matching) : List Value → List Value → Prop :=
  List.Forall₂ (Value.Matches β)

/-- Bindings of the same names, to values that match. -/
abbrev Bindings.Match (β : Matching) : List (String × Value) → List (String × Value) → Prop :=
  Row.Matches (Value.Matches β)

namespace Value

variable {v v' : Value}

theorem allMatch_of_zip {R : Value → Value → Prop} {xs ys : List Value} (h : xs.length = ys.length)
    (hzip : ∀ p ∈ xs.zip ys, R p.1 p.2) : List.Forall₂ R xs ys :=
  List.forall₂_iff_zip.mpr ⟨h, fun hp => hzip _ hp⟩

theorem zip_of_allMatch {R : Value → Value → Prop} {xs ys : List Value} (h : List.Forall₂ R xs ys) :
    xs.length = ys.length ∧ ∀ p ∈ xs.zip ys, R p.1 p.2 :=
  ⟨h.length_eq, fun _ hp => (List.forall₂_iff_zip.mp h).2 hp⟩

theorem matches_list {o o' : Origin} {xs ys : List Value} (ho : o.Matches β o')
    (h : AllMatch β xs ys) :
    (list o xs).Matches β (list o' ys) := .list ho (zip_of_allMatch h).1 (zip_of_allMatch h).2

theorem matches_waiting {o o' : Origin} {op : Operator} {xs ys : List Value} (ho : o.Matches β o')
    (h : AllMatch β xs ys) : (waiting o op xs).Matches β (waiting o' op ys) :=
  .waiting ho (zip_of_allMatch h).1 (zip_of_allMatch h).2

theorem matches_closure {o o' : Origin} {env env' : Env} {p : Pattern} {code code' : Code}
    (ho : o.Matches β o') (henv : env.Matches β env') (hcode : code.Matches β code') :
    (closure o env p code).Matches β (closure o' env' p code') :=
  .closure ho henv.root henv.names henv.values hcode

theorem matches_dispatcher {o o' : Origin} {env env' : Env} {hs hs' : Row Code}
    (ho : o.Matches β o') (henv : env.Matches β env') (hhs : Row.Matches (Code.Matches β) hs hs') :
    (dispatcher o env hs).Matches β (dispatcher o' env' hs') :=
  .dispatcher ho henv.root henv.names henv.values hhs

theorem matches_ofString {o o' : Origin} (ho : o.Matches β o') (s : String) :
    (ofString o s).Matches β (ofString o' s) := .text ho

/-- **Values that match still do when more is matched.** -/
theorem Matches.mono (h : v.Matches β v') (hβ : β ≤ β') : v.Matches β' v' := by
  induction h with
  | int ho => exact .int (ho.mono hβ)
  | real ho => exact .real (ho.mono hβ)
  | text ho => exact .text (ho.mono hβ)
  | list ho hlen _ ih => exact .list (ho.mono hβ) hlen ih
  | tuple ho hlen _ ih => exact .tuple (ho.mono hβ) hlen ih
  | tagged ho ht _ ih => exact .tagged (ho.mono hβ) (ht.mono hβ) ih
  | record ha => exact .record (hβ _ _ ha)
  | operator => exact .operator
  | waiting ho hlen _ ih => exact .waiting (ho.mono hβ) hlen ih
  | tagger ho ht => exact .tagger (ho.mono hβ) (ht.mono hβ)
  | closure ho hroot hnames _ hcode ih =>
    exact .closure (ho.mono hβ) (hroot.mono hβ) hnames ih (hcode.mono hβ)
  | dispatcher ho hroot hnames _ hhs ih =>
    exact .dispatcher (ho.mono hβ) (hroot.mono hβ) hnames ih (hhs.mono fun _ _ hc => hc.mono hβ)

theorem AllMatch.mono {xs ys : List Value} (h : AllMatch β xs ys)
    (hβ : β ≤ β') : AllMatch β' xs ys :=
  h.imp fun _ _ hv => hv.mono hβ

theorem Matches.kind_eq (h : v.Matches β v') : v.kind = v'.kind := by cases h <;> rfl

theorem Matches.isProcedure_eq (h : v.Matches β v') : v.isProcedure = v'.isProcedure := by
  cases h <;> rfl

theorem Matches.number?_eq (h : v.Matches β v') : v.number? = v'.number? := by cases h <;> rfl

/-- What counts as a tuple has entries that match. -/
theorem Matches.tupleItems? (h : v.Matches β v') :
    Option.Rel (AllMatch β) v.tupleItems? v'.tupleItems? := by
  cases h with
  | tuple _ hlen hitems => exact .some (allMatch_of_zip hlen hitems)
  | @tagged _ _ t t' _ _ _ ht hx =>
    rcases t with ⟨l, o⟩
    rcases t' with ⟨l', o'⟩
    obtain ⟨rfl, ho⟩ := ht
    exact .some (.cons (matches_ofString ho l) (.cons hx .nil))
  | _ => exact .none

theorem matches_verdict {o o' : Origin} (ho : o.Matches β o') (b : Bool)
    (hbefore : β (.birth 0) (.birth 0)) (hshared : β (.record sharedEmpty) (.record sharedEmpty)) :
    (verdict o b).Matches β (verdict o' b) :=
  .tagged ho ⟨rfl, hbefore, rfl, rfl⟩ (.record hshared)

end Value

namespace Env.Matches

variable {env env' : Env}

theorem mono (h : env.Matches β env') (hβ : β ≤ β') : env.Matches β' env' :=
  ⟨h.root.mono hβ, h.names, fun x v v' hv hv' => (h.values x v v' hv hv').mono hβ⟩

theorem fetch? (h : env.Matches β env') (x : String) :
    Option.Rel (Value.Matches β) (env.fetch? x) (env'.fetch? x) := by
  have hnames := h.names x
  have hvalues := h.values x
  cases hv : env.fetch? x with
  | none =>
    cases hv' : env'.fetch? x with
    | none => exact .none
    | some v' => simp [hv, hv'] at hnames
  | some v =>
    cases hv' : env'.fetch? x with
    | none => simp [hv, hv'] at hnames
    | some v' => exact .some (hvalues v v' hv hv')

theorem of_fetch? (hroot : ImportRoot.Matches β env.root env'.root)
    (h : ∀ x, Option.Rel (Value.Matches β) (env.fetch? x) (env'.fetch? x)) :
    env.Matches β env' where
  root := hroot
  names x := by
    have := h x
    generalize env.fetch? x = r at this
    generalize env'.fetch? x = r' at this
    cases this <;> rfl
  values x v v' hv hv' := by
    have := h x
    rw [hv, hv'] at this
    exact Option.rel_some_some.mp this

/-- A new frame of bindings that match. -/
theorem extend (h : env.Matches β env') {bs bs' : List (String × Value)}
    (hbs : Bindings.Match β bs bs') :
    Env.Matches β (env.extend bs) (env'.extend bs') := by
  refine .of_fetch? ?_ fun x => ?_
  · rw [Scope.root_extend, Scope.root_extend]
    exact h.root
  · rw [Scope.fetch?_extend, Scope.fetch?_extend]
    have hlookup := Row.Matches.lookup hbs x
    generalize bs.lookup x = r at hlookup
    generalize bs'.lookup x = r' at hlookup
    cases hlookup with
    | some hv => exact .some hv
    | none => exact h.fetch? x

/-- One more name. -/
theorem extend_single (h : env.Matches β env') {v v' : Value} (hv : v.Matches β v')
    (name : String) :
    Env.Matches β (env.extend [(name, v)]) (env'.extend [(name, v')]) :=
  h.extend (.cons ⟨rfl, hv⟩ .nil)

theorem ofRoot {k k' : ImportRoot} (h : ImportRoot.Matches β k k') :
    Env.Matches β (.ofRoot k) (.ofRoot k') := .of_fetch? h fun _ => .none

end Env.Matches

end RowLang
