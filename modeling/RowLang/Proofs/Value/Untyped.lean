import RowLang.Expr.Printer
import RowLang.Proofs.Expr.Erased
import RowLang.Proofs.Row.Sorted
import RowLang.Proofs.Value.Like

/-!
# Proofs/Value/Untyped — values whose code is the same up to types

Code is the same up to types if it is once the ascriptions have been taken out of it, on either side
(`Code.UpToTypes`).  Values that differ in nothing else are alike (`Likeness.upToTypes`).  The
operator `%` shows the code of a function, so no such code may hold it; and types that have no text
may not be on one side only, since whoever describes a function meets them.
-/

namespace RowLang

/-! ## Code -/

/-- **Code is the same up to types.** Undefined reals are known by the places that they stand at,
which `own` takes to one another. -/
inductive Code.UpToTypes (own : Origin → Origin → Prop) : Code → Code → Prop
  | number {o o' n} : (n = .real .undefined → own o o') →
    UpToTypes own ⟨o, .number n⟩ ⟨o', .number n⟩
  | char {o o' c} : UpToTypes own ⟨o, .char c⟩ ⟨o', .char c⟩
  | var {o o' x} : UpToTypes own ⟨o, .var x⟩ ⟨o', .var x⟩
  | op {o o' p} : p ≠ .modulo → UpToTypes own ⟨o, .op p⟩ ⟨o', .op p⟩
  | lambda {o o' p e e'} : UpToTypes own ⟨o.part 0, e⟩ ⟨o'.part 0, e'⟩ →
      UpToTypes own ⟨o, .lambda p e⟩ ⟨o', .lambda p e'⟩
  | apply {o o' f f' e e'} : UpToTypes own ⟨o.part 0, f⟩ ⟨o'.part 0, f'⟩ →
      UpToTypes own ⟨o.part 1, e⟩ ⟨o'.part 1, e'⟩ → UpToTypes own ⟨o, .apply f e⟩ ⟨o', .apply f' e'⟩
  | list {o o' es es'} : es.length = es'.length →
      (∀ i e e', es[i]? = some e → es'[i]? = some e' → UpToTypes own ⟨o.part i, e⟩
        ⟨o'.part i, e'⟩) →
      UpToTypes own ⟨o, .list es⟩ ⟨o', .list es'⟩
  | record {o o' fields fields'} : Row.labels fields = Row.labels fields' →
      (∀ i p p', fields[i]? = some p → fields'[i]? = some p' →
        UpToTypes own ⟨o.part i, p.2⟩ ⟨o'.part i, p'.2⟩) →
      UpToTypes own ⟨o, .record fields⟩ ⟨o', .record fields'⟩
  | tuple {o o' es es'} : es.length = es'.length →
      (∀ i e e', es[i]? = some e → es'[i]? = some e' → UpToTypes own ⟨o.part i, e⟩
        ⟨o'.part i, e'⟩) →
      UpToTypes own ⟨o, .tuple es⟩ ⟨o', .tuple es'⟩
  | dispatch {o o' fields fields'} : Row.labels fields = Row.labels fields' →
      (∀ i p p', fields[i]? = some p → fields'[i]? = some p' →
        UpToTypes own ⟨o.part i, p.2⟩ ⟨o'.part i, p'.2⟩) →
      UpToTypes own ⟨o, .dispatch fields⟩ ⟨o', .dispatch fields'⟩
  | tag {o o' l} : UpToTypes own ⟨o, .tag l⟩ ⟨o', .tag l⟩
  | load {o o' name} : UpToTypes own ⟨o, .load name⟩ ⟨o', .load name⟩
  | ascribe {o o' t e e'} : UpToTypes own ⟨o.part 0, e⟩ ⟨o'.part 0, e'⟩ →
      UpToTypes own ⟨o, .ascribe t e⟩ ⟨o', .ascribe t e'⟩
  | ascribeLeft {o t e c'} : t.unranked? = none → UpToTypes own ⟨o.part 0, e⟩ c' →
      UpToTypes own ⟨o, .ascribe t e⟩ c'
  | ascribeRight {c o' t e'} : t.unranked? = none → UpToTypes own c ⟨o'.part 0, e'⟩ →
      UpToTypes own c ⟨o', .ascribe t e'⟩
  | bindIn {o o' p b b' e e'} : UpToTypes own ⟨o.part 0, b⟩ ⟨o'.part 0, b'⟩ →
      UpToTypes own ⟨o.part 1, e⟩ ⟨o'.part 1, e'⟩ →
      UpToTypes own ⟨o, .bindIn p b e⟩ ⟨o', .bindIn p b' e'⟩

variable {own : Origin → Origin → Prop} {o o' : Origin} {e e' : Expr} {c c' : Code}

namespace Code

theorem UpToTypes.symm (h : c.UpToTypes own c') : c'.UpToTypes (flip own) c := by
  induction h with
  | number h => exact .number h
  | char => exact .char
  | var => exact .var
  | op h => exact .op h
  | lambda _ ih => exact .lambda ih
  | apply _ _ ihf ihe => exact .apply ihf ihe
  | list hlen _ ih => exact .list hlen.symm fun i e e' he he' => ih i e' e he' he
  | record hlabels _ ih => exact .record hlabels.symm fun i p p' hp hp' => ih i p' p hp' hp
  | tuple hlen _ ih => exact .tuple hlen.symm fun i e e' he he' => ih i e' e he' he
  | dispatch hlabels _ ih => exact .dispatch hlabels.symm fun i p p' hp hp' => ih i p' p hp' hp
  | tag => exact .tag
  | load => exact .load
  | ascribe _ ih => exact .ascribe ih
  | ascribeLeft ht _ ih => exact .ascribeRight ht ih
  | ascribeRight ht _ ih => exact .ascribeLeft ht ih
  | bindIn _ _ ihb ihe => exact .bindIn ihb ihe

/-- Whatever relates each entry of a list to its image relates the entries of both lists that stand
at one place. -/
theorem at_map {α : Type} {f : α → α} {R : Nat → α → α → Prop} {xs : List α}
    (h : ∀ i x, xs[i]? = some x → R i x (f x)) (i : Nat) (x y : α) (hx : xs[i]? = some x)
    (hy : (xs.map f)[i]? = some y) : R i x y := by
  rw [List.getElem?_map, hx] at hy
  cases hy
  exact h i x hx

theorem at_same {α : Type} {R : Nat → α → α → Prop} {xs : List α}
    (h : ∀ i x, xs[i]? = some x → R i x x) (i : Nat)
    (x y : α) (hx : xs[i]? = some x) (hy : xs[i]? = some y) : R i x y :=
  at_map (f := id) h i x y hx (by rwa [List.map_id])

/-- **Code without `%` is the same as itself.** -/
theorem upToTypes_self (he : e.Without .modulo) (hown : ∀ p : Origin, p.birth = o.birth → own p p) :
    UpToTypes own ⟨o, e⟩ ⟨o, e⟩ := by
  induction e using Expr.inductOn generalizing o with
  | number n => exact .number fun _ => hown o rfl
  | char c => exact .char
  | var x => exact .var
  | op p => exact .op he
  | lambda p body ih => exact .lambda (ih he hown)
  | apply fn arg ihf iha => exact .apply (ihf he.1 hown) (iha he.2 hown)
  | list es ih =>
    exact .list rfl (at_same fun _ f hf =>
      ih f (List.mem_of_getElem? hf) (Expr.withoutAll_iff.mp he f (List.mem_of_getElem? hf)) hown)
  | tuple es ih =>
    exact .tuple rfl (at_same fun _ f hf =>
      ih f (List.mem_of_getElem? hf) (Expr.withoutAll_iff.mp he f (List.mem_of_getElem? hf)) hown)
  | record r ih =>
    exact .record rfl (at_same fun _ p hp =>
      ih p (List.mem_of_getElem? hp)
        (Expr.withoutFields_iff.mp he p (List.mem_of_getElem? hp)) hown)
  | dispatch r ih =>
    exact .dispatch rfl (at_same fun _ p hp =>
      ih p (List.mem_of_getElem? hp)
        (Expr.withoutFields_iff.mp he p (List.mem_of_getElem? hp)) hown)
  | tag l => exact .tag
  | load name => exact .load
  | ascribe t e ih => exact .ascribe (ih he hown)
  | bindIn p b e ihb ihe => exact .bindIn (ihb he.1 hown) (ihe he.2 hown)

/-- A part of an expression is where the expression is, and one step on. -/
theorem place_part (i : Nat) (s : List Nat) (o : Origin) :
    { o.part i with place := s.reverse ++ (o.part i).place }
      = ({ o with place := (i :: s).reverse ++ o.place } : Origin) := by
  simp [Origin.part]

theorem unranked?_of_mem {es : List Expr} (h : Expr.unrankedAmong es = none) :
    ∀ e ∈ es, e.unranked? = none := by
  induction es with
  | nil => exact fun _ h => absurd h List.not_mem_nil
  | cons e es ih =>
    rw [Expr.unrankedAmong, Option.or_eq_none_iff] at h
    exact List.forall_mem_cons.mpr ⟨h.1, ih h.2⟩

theorem unranked?_of_mem_fields {r : Row Expr} (h : Expr.unrankedInFields r = none) :
    ∀ p ∈ r, p.2.unranked? = none := by
  induction r with
  | nil => exact fun _ h => absurd h List.not_mem_nil
  | cons p r ih =>
    rw [Expr.unrankedInFields, Option.or_eq_none_iff] at h
    exact List.forall_mem_cons.mpr ⟨h.1, ih h.2⟩

/-- **An expression is the same up to types as its erasure**, if the types have texts. -/
theorem upToTypes_erased (he : e.Without .modulo) (ht : e.unranked? = none)
    (hown : ∀ s r, e.Stands s r →
      own { o with place := s.reverse ++ o.place } { o' with place := r.reverse ++ o'.place }) :
    UpToTypes own ⟨o, e⟩ ⟨o', e.erased⟩ := by
  -- What holds of the places in an expression holds of those in its children.
  have hchild {e f : Expr} {i : Nat} {o o' : Origin} (hf : e.children[i]? = some f)
      (hown : ∀ s r, e.Stands s r →
        own { o with place := s.reverse ++ o.place } { o' with place := r.reverse ++ o'.place })
          (s r : List Nat)
      (h : f.Stands s r) : own { o.part i with place := s.reverse ++ (o.part i).place }
        { o'.part i with place := r.reverse ++ (o'.part i).place } := by
    rw [place_part, place_part]
    exact hown _ _ (.child hf h)
  have hvalue {r : Row Expr} {i : Nat} {p : Label × Expr} (hp : r[i]? = some p) :
      (r.map (·.2))[i]? = some p.2 := by
    rw [List.getElem?_map, hp]
    rfl
  induction e using Expr.inductOn generalizing o o' with
  | number n => exact .number fun _ => hown _ _ (.number n)
  | char c => exact .char
  | var x => exact .var
  | op p => exact .op he
  | lambda p body ih => exact .lambda (ih he ht (hchild rfl hown))
  | apply fn arg ihf iha =>
    rw [Expr.unranked?, Option.or_eq_none_iff] at ht
    exact .apply (ihf he.1 ht.1 (hchild rfl hown)) (iha he.2 ht.2 (hchild rfl hown))
  | bindIn p b e ihb ihe =>
    rw [Expr.unranked?, Option.or_eq_none_iff] at ht
    exact .bindIn (ihb he.1 ht.1 (hchild rfl hown)) (ihe he.2 ht.2 (hchild rfl hown))
  | list es ih =>
    rw [Expr.erased, Expr.erasedAll_eq]
    refine .list (List.length_map _).symm (at_map fun i f hf => ?_)
    have hmem := List.mem_of_getElem? hf
    exact ih f hmem (Expr.withoutAll_iff.mp he f hmem) (unranked?_of_mem ht f hmem)
      (hchild (e := .list es) hf hown)
  | tuple es ih =>
    rw [Expr.erased, Expr.erasedAll_eq]
    refine .tuple (List.length_map _).symm (at_map fun i f hf => ?_)
    have hmem := List.mem_of_getElem? hf
    exact ih f hmem (Expr.withoutAll_iff.mp he f hmem) (unranked?_of_mem ht f hmem)
      (hchild (e := .tuple es) hf hown)
  | record r ih =>
    rw [Expr.erased, Expr.erasedFields_eq]
    refine .record (Row.labels_mapValues _ _).symm (at_map fun i p hp => ?_)
    have hmem := List.mem_of_getElem? hp
    exact ih p hmem (Expr.withoutFields_iff.mp he p hmem) (unranked?_of_mem_fields ht p hmem)
      (hchild (e := .record r) (hvalue hp) hown)
  | dispatch r ih =>
    rw [Expr.erased, Expr.erasedFields_eq]
    refine .dispatch (Row.labels_mapValues _ _).symm (at_map fun i p hp => ?_)
    have hmem := List.mem_of_getElem? hp
    exact ih p hmem (Expr.withoutFields_iff.mp he p hmem) (unranked?_of_mem_fields ht p hmem)
      (hchild (e := .dispatch r) (hvalue hp) hown)
  | tag l => exact .tag
  | load name => exact .load
  | ascribe t e ih =>
    rw [Expr.unranked?, Option.or_eq_none_iff] at ht
    refine .ascribeLeft ht.1 (ih he ht.2 fun s r h => ?_)
    rw [place_part]
    exact hown _ _ (.ascribed h)

/-! ### Parts -/

/-- The parts of lists are the same up to types. -/
theorem upToTypes_parts {es es' : List Expr} (hlen : es.length = es'.length)
    (h : ∀ i e e', es[i]? = some e → es'[i]? = some e' → UpToTypes own ⟨o.part i, e⟩
      ⟨o'.part i, e'⟩) :
    List.Forall₂ (UpToTypes own) (parts o es) (parts o' es') := by
  refine List.forall₂_iff_get.mpr ⟨by simpa [parts] using hlen, fun i hi hi' => ?_⟩
  simp only [parts, List.get_eq_getElem, List.getElem_mapIdx]
  exact h i _ _ (List.getElem?_eq_getElem _) (List.getElem?_eq_getElem _)

/-- The fields of rows are the same up to types. -/
theorem upToTypes_fields {r r' : Row Expr} (hlabels : Row.labels r = Row.labels r')
    (h : ∀ i p p', r[i]? = some p → r'[i]? = some p' → UpToTypes own ⟨o.part i, p.2⟩
      ⟨o'.part i, p'.2⟩) :
    Row.Matches (UpToTypes own) (fields o r) (fields o' r') := by
  have hlen : r.length = r'.length := by simpa [Row.labels] using congrArg List.length hlabels
  refine List.forall₂_iff_get.mpr ⟨by simpa [fields] using hlen, fun i hi hi' => ?_⟩
  have hi : i < r.length := by simpa [fields] using hi
  have hi' : i < r'.length := hlen ▸ hi
  have hlabel := congrArg (fun ls => ls[i]?) hlabels
  simp only [Row.labels, List.getElem?_map, List.getElem?_eq_getElem hi,
    List.getElem?_eq_getElem hi', Option.map_some,
    Option.some.injEq] at hlabel
  simp only [fields, List.get_eq_getElem, List.getElem_mapIdx]
  exact ⟨hlabel, h i _ _ (List.getElem?_eq_getElem hi) (List.getElem?_eq_getElem hi')⟩

/-- The fields of tuples are the same up to types. -/
theorem upToTypes_positional {es es' : List Expr} (hlen : es.length = es'.length)
    (h : ∀ i e e', es[i]? = some e → es'[i]? = some e' → UpToTypes own ⟨o.part i, e⟩
      ⟨o'.part i, e'⟩) :
    Row.Matches (UpToTypes own) (fields o (Row.positional es))
      (fields o' (Row.positional es')) := by
  have hitem {es : List Expr} {i : Nat} {p : Label × Expr} (hp : (Row.positional es)[i]? = some p) :
      es[i]? = some p.2 := by
    have hvalue := congrArg (fun vs => vs[i]?) (Row.values_positionalFrom es 0)
    simp only [List.getElem?_map] at hvalue
    rw [← hvalue, ← Row.positional, hp]
    rfl
  refine upToTypes_fields ?_ fun i p p' hp hp' => h i _ _ (hitem hp) (hitem hp')
  rw [Row.labels_positional, Row.labels_positional, hlen]

/-! ### Types that have no text -/

theorem unrankedAmong_eq {es es' : List Expr} (hlen : es.length = es'.length)
    (h : ∀ (i : Nat) (e e' : Expr), es[i]? = some e → es'[i]? = some e' → e.unranked? =
      e'.unranked?) :
    Expr.unrankedAmong es = Expr.unrankedAmong es' := by
  induction es generalizing es' with
  | nil =>
    cases es' with
    | nil => rfl
    | cons => cases hlen
  | cons e es ih =>
    cases es' with
    | nil => cases hlen
    | cons e' es' =>
      rw [Expr.unrankedAmong, Expr.unrankedAmong, h 0 e e' rfl rfl,
        ih (Nat.succ.inj hlen) fun i f f' hf hf' => h (i + 1) f f' hf hf']

theorem unrankedInFields_eq (r : Row Expr) : Expr.unrankedInFields r = Expr.unrankedAmong
    (r.map (·.2)) := by
  induction r with
  | nil => rfl
  | cons p r ih => rw [Expr.unrankedInFields, ih, List.map_cons, Expr.unrankedAmong]

theorem unrankedInFields_eq_of_labels {r r' : Row Expr} (hlabels : Row.labels r = Row.labels r')
    (h : ∀ (i : Nat) (p p' : Label × Expr), r[i]? = some p → r'[i]? = some p' → p.2.unranked? =
      p'.2.unranked?) :
    Expr.unrankedInFields r = Expr.unrankedInFields r' := by
  rw [unrankedInFields_eq, unrankedInFields_eq]
  refine unrankedAmong_eq (by simpa [Row.labels] using congrArg List.length hlabels)
    fun i e e' he he' => ?_
  simp only [List.getElem?_map, Option.map_eq_some_iff] at he he'
  obtain ⟨p, hp, rfl⟩ := he
  obtain ⟨p', hp', rfl⟩ := he'
  exact h i p p' hp hp'

/-- **The same trouble with a type is met on both sides.** -/
theorem UpToTypes.unranked?_eq (h : c.UpToTypes own c') : c.expr.unranked? = c'.expr.unranked? := by
  induction h with
  | number | char | var | op | tag | load => rfl
  | lambda _ ih => exact ih
  | apply _ _ ihf ihe => exact congrArg₂ Option.or ihf ihe
  | bindIn _ _ ihb ihe => exact congrArg₂ Option.or ihb ihe
  | list hlen _ ih | tuple hlen _ ih => exact unrankedAmong_eq hlen ih
  | record hlabels _ ih | dispatch hlabels _ ih => exact unrankedInFields_eq_of_labels hlabels ih
  | @ascribe _ _ t _ _ _ ih => exact congrArg (t.unranked?.or ·) ih
  | ascribeLeft ht _ ih =>
    rw [Expr.unranked?, ht]
    exact ih
  | ascribeRight ht _ ih =>
    rw [Expr.unranked?, ht]
    exact ih

end Code

/-! ## Values -/

/-- Alike but for types: functions hold code that is the same up to types. -/
def Likeness.upToTypes (own : Origin → Origin → Prop) : Likeness where
  plain _ _ := True
  own := own
  code := Code.UpToTypes own
  address := Eq
  resolver := Eq
  operator p := p ≠ .modulo

/-- Values are alike up to types. -/
abbrev Agree (own : Origin → Origin → Prop) : Value → Value → Prop := Value.Like (.upToTypes own)

/-- Origins are told apart alike. -/
def ToldApart (own : Origin → Origin → Prop) : Prop :=
  ∀ o o' p p', own o o' → own p p' → (o = p ↔ o' = p')

theorem ToldApart.flip (h : ToldApart own) : ToldApart (flip own) :=
  fun o o' p p' ho hp => (h o' o p' p ho hp).symm

theorem ToldApart.lawful (h : ToldApart own) : (Likeness.upToTypes own).Lawful where
  own := h _ _ _ _
  address {a a' b b'} ha hb := by
    cases (show a = a' from ha)
    cases (show b = b' from hb)
    exact Iff.rfl

theorem toldApart_eq : ToldApart Eq := by
  rintro o _ p _ rfl rfl
  exact Iff.rfl

/-- Origins of a program, read at a birth of its own, and of its erasure: numbers at their places
there, and whatever was born at another time. -/
def Expr.SameNumber (b : Nat) (e : Expr) (o o' : Origin) : Prop :=
  (o = o' ∧ o.birth ≠ b) ∨
    ∃ s r, e.Stands s r ∧ o = { birth := b, place := s.reverse } ∧
      o' = { birth := b, place := r.reverse }

/-- **No two numbers of a program are one in its erasure.** -/
theorem Expr.toldApart_sameNumber (b : Nat) (e : Expr) : ToldApart (e.SameNumber b) := by
  rintro o o' p p' (⟨rfl, ho⟩ | ⟨s, r, h, rfl, rfl⟩) (⟨rfl, hp⟩ | ⟨s', r', h', rfl, rfl⟩)
  · exact Iff.rfl
  · exact ⟨fun heq => absurd (heq ▸ rfl) ho, fun heq => absurd (heq ▸ rfl) ho⟩
  · exact ⟨fun heq => absurd (heq ▸ rfl) hp, fun heq => absurd (heq ▸ rfl) hp⟩
  · simp only [Origin.mk.injEq, List.reverse_inj, true_and, and_true]
    constructor
    · rintro rfl
      exact h.right_unique h'
    · rintro rfl
      exact h.left_unique h'

theorem Code.upToTypes_sameNumber {b : Nat} (he : e.Without .modulo) (ht : e.unranked? = none) :
    UpToTypes (e.SameNumber b) ⟨{ birth := b }, e⟩ ⟨{ birth := b }, e.erased⟩ :=
  upToTypes_erased he ht fun s r h => Or.inr ⟨s, r, h, by simp, by simp⟩

/-- A value in which an operator does not stand. -/
inductive Value.Without (p : Operator) : Value → Prop
  | int {o i} : Without p (.int o i)
  | real {o x} : Without p (.real o x)
  | text {o codes} : Without p (.text o codes)
  | list {o xs} : (∀ x ∈ xs, Without p x) → Without p (.list o xs)
  | tuple {o xs} : (∀ x ∈ xs, Without p x) → Without p (.tuple o xs)
  | tagged {o t x} : Without p x → Without p (.tagged o t x)
  | record {a} : Without p (.record a)
  | operator {q} : q ≠ p → Without p (.operator q)
  | waiting {o q xs} : q ≠ p → (∀ x ∈ xs, Without p x) → Without p (.waiting o q xs)
  | tagger {o t} : Without p (.tagger o t)
  | closure {o env pattern code} : (∀ x v, env.fetch? x = some v → Without p v) →
    code.expr.Without p →
      Without p (.closure o env pattern code)
  | dispatcher {o env handlers} : (∀ x v, env.fetch? x = some v → Without p v) →
      (∀ h ∈ handlers, h.2.expr.Without p) → Without p (.dispatcher o env handlers)

/-- A scope that binds no value in which an operator stands. -/
def Env.Without (p : Operator) (env : Env) : Prop := ∀ x v, env.fetch? x = some v → v.Without p

variable {β : Matching} {v : Value} {env : Env}

/-- Code of births that match themselves is the same as itself. -/
theorem Code.Matches.upToTypes (h : c.Matches β c) (hc : c.expr.Without .modulo)
    (hown : ∀ p : Origin, β (.birth p.birth) (.birth p.birth) → own p p) : c.UpToTypes own c :=
  Code.upToTypes_self hc fun p hp => hown p (hp ▸ h.origin.birth)

/-- Imports are resolved where they are. -/
theorem resolver_self (k : ImportRoot) : Option.Rel (Likeness.upToTypes own).resolver k k := by
  cases k with
  | none => exact .none
  | some k => exact .some rfl

/-- **A value without `%` is like itself.** -/
theorem Value.Without.like (hv : v.Without .modulo) (h : v.Matches β v)
    (hown : ∀ p : Origin, β (.birth p.birth) (.birth p.birth) → own p p) :
    v.Like (.upToTypes own) v := by
  have hscope {env : Env}
    (ih : ∀ x v, env.fetch? x = some v → v.Matches β v → v.Like (.upToTypes own) v)
      (hvalues : ∀ x v v', env.fetch? x = some v → env.fetch? x = some v' → v.Matches β v')
        (x : String)
      (v v' : Value) (hv : env.fetch? x = some v) (hv' : env.fetch? x = some v') :
        v.Like (.upToTypes own) v' := by
    obtain rfl : v = v' := Option.some.inj (hv.symm.trans hv')
    exact ih x v hv (hvalues x v v hv hv)
  have hitems {xs : List Value} (ih : ∀ x ∈ xs, x.Matches β x → x.Like (.upToTypes own) x)
      (hlen : xs.length = xs.length) (h : ∀ p ∈ xs.zip xs, p.1.Matches β p.2) :
        AllLike (.upToTypes own) xs xs :=
    List.forall₂_same.mpr fun x hx => ih x hx (List.forall₂_same.mp (allMatch_of_zip hlen h) x hx)
  induction hv with
  | int => exact .int trivial
  | real =>
    cases h with
    | real ho => exact .real trivial fun _ => hown _ ho.birth
  | text => exact .text trivial
  | list _ ih =>
    cases h with
    | list _ hlen h => exact like_list trivial (hitems ih hlen h)
  | tuple _ ih =>
    cases h with
    | tuple _ hlen h => exact like_tuple trivial (hitems ih hlen h)
  | tagged _ ih =>
    cases h with
    | tagged _ _ h => exact .tagged trivial trivial (ih h)
  | record => exact .record rfl
  | operator hq => exact .operator hq
  | waiting hq _ ih =>
    cases h with
    | waiting ho hlen h => exact like_waiting (hown _ ho.birth) hq (hitems ih hlen h)
  | tagger =>
    cases h with
    | tagger ho _ => exact .tagger (hown _ ho.birth) trivial
  | closure _ hcode ih =>
    cases h with
    | closure ho _ _ hvalues h =>
      exact .closure (hown _ ho.birth) (resolver_self _) (fun _ => rfl) (hscope ih hvalues)
        (h.upToTypes hcode hown)
  | dispatcher _ hhandlers ih =>
    cases h with
    | dispatcher ho _ _ hvalues h =>
      exact .dispatcher (hown _ ho.birth) (resolver_self _) (fun _ => rfl) (hscope ih hvalues)
        (List.forall₂_same.mpr fun p hp =>
          ⟨rfl, (List.forall₂_same.mp h p hp).2.upToTypes (hhandlers p hp) hown⟩)

/-- **A scope without `%` is like itself.** -/
theorem Env.Without.like (henv : env.Without .modulo) (h : env.Matches β env)
    (hown : ∀ p : Origin, β (.birth p.birth) (.birth p.birth) → own p p) :
    Env.Like (.upToTypes own) env env where
  root := resolver_self _
  names _ := rfl
  values x v v' hv hv' := by
    obtain rfl : v = v' := Option.some.inj (hv.symm.trans hv')
    exact (henv x v hv).like (h.values x v v hv hv) hown

end RowLang
