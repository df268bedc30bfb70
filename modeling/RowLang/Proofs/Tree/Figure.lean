import RowLang.Ty.Basic
import Mathlib.Data.PFunctor.Univariate.M

/-!
# Proofs/Tree/Figure — what types can stand for

A figure is a finite or infinite tree in which a row is a mapping from labels and what is behind it.
To the comparison of types, an empty row in front of something is that thing: `r` becomes the end of
a record where `{x: N | r}` shall be `{x: N}`, though `{}` would do as well.  A figure is
`Canonical` when all the chains of rows at its root are merged and no row in them is without fields.
A canonical figure is known, for either kind of row, by the fields of that kind that it has
(`fieldsOf`) and by what is behind them (`restOf`), and fields that it lacks can be put in front
(`front`) and told from the result again (`front_inj`).
-/

namespace RowLang

/-- What a figure has at its root. -/
inductive Root where
  | number
  | char
  | unit
  | empty
  | var (n : Nat)
  | arrow
  | list
  /-- A row that has the labels for which `has` is true. -/
  | row (kind : RowKind) (has : Label → Bool)

/-- The places below a root.  In a row these are its labels, and the place behind them. -/
def Root.Place : Root → Type
  | arrow => Bool
  | list => Unit
  | row _ has => Option { l : Label // has l }
  | _ => Empty

/-- A finite or infinite tree. -/
def Figure : Type := PFunctor.M ⟨Root, Root.Place⟩

namespace Figure

/-- The figure that has a root and figures at the places below it. -/
def node (r : Root) (below : r.Place → Figure) : Figure := PFunctor.M.mk ⟨r, below⟩

/-- The root of a figure. -/
def root (x : Figure) : Root := (PFunctor.M.dest x).1

def number : Figure := node .number Empty.elim

def char : Figure := node .char Empty.elim

def unit : Figure := node .unit Empty.elim

def empty : Figure := node .empty Empty.elim

def var (n : Nat) : Figure := node (.var n) Empty.elim

def arrow (arg res : Figure) : Figure :=
  node .arrow fun (second : Bool) => if second then res else arg

def list (elt : Figure) : Figure := node .list fun _ => elt

/-- Fields in front of what is behind them. -/
def row (k : RowKind) (fields : Label → Option Figure) (rest : Figure) : Figure :=
  node (.row k fun l => (fields l).isSome) fun
    | none => rest
    | some l => (fields l.1).get l.2

@[simp] theorem root_number : number.root = .number := rfl

@[simp] theorem root_char : char.root = .char := rfl

@[simp] theorem root_unit : unit.root = .unit := rfl

@[simp] theorem root_empty : empty.root = .empty := rfl

@[simp] theorem root_var (n : Nat) : (var n).root = .var n := rfl

variable {k k' : RowKind} {f g fields fields' : Label → Option Figure}
  {a b c d s t x y rest rest' : Figure}

@[simp] theorem root_arrow : (arrow a b).root = .arrow := rfl

@[simp] theorem root_list : (list t).root = .list := rfl

@[simp] theorem root_row : (row k f rest).root = .row k fun l => (f l).isSome := rfl

theorem node_inj {r : Root} {below below' : r.Place → Figure} (h : node r below = node r below') :
    below = below' := eq_of_heq (Sigma.mk.inj (PFunctor.M.mk_inj h)).2

theorem arrow_inj (h : arrow a b = arrow c d) : a = c ∧ b = d :=
  ⟨congrFun (node_inj h) false, congrFun (node_inj h) true⟩

theorem list_inj (h : list s = list t) : s = t := congrFun (node_inj h) ()

/-- Below a leaf there is nothing to tell figures apart. -/
private theorem node_leaf {r : Root} (hleaf : r.Place → Empty) (below below' : r.Place → Figure) :
    node r below = node r below' := congrArg (node r) (funext fun place => (hleaf place).elim)

/-- A row node is the row of the fields that are looked up in it. -/
private theorem node_row {has : Label → Bool} (below : Option { l : Label // has l } → Figure) :
    node (.row k has) below
      = row k (fun l => if h : has l then some (below (some ⟨l, h⟩)) else none) (below none) := by
  have hlabels : (fun l => (if h : has l then some (below (some ⟨l, h⟩)) else none).isSome) =
    has := by
    funext l
    by_cases h : has l <;> simp [h]
  -- The labels of the right side are those of the left side, but not by definition.
  have hcongr :
      ∀ {has' : Label → Bool} (he : has' = has) (below' : Option { l : Label // has' l } → Figure),
      below' none = below none →
        (∀ l (h : has l) (h' : has' l), below' (some ⟨l, h'⟩) = below (some ⟨l, h⟩)) →
        node (.row k has) below = node (.row k has') below' := by
    rintro _ rfl below' hnone hsome
    congr 1
    funext place
    cases place with
    | none => exact hnone.symm
    | some l => exact (hsome l.1 l.2 l.2).symm
  exact hcongr hlabels _ rfl fun l h h' => by simp [h]

/-- A figure is one of the eight kinds. -/
@[elab_as_elim, cases_eliminator]
theorem cases {motive : Figure → Prop} (number : motive number) (char : motive char)
    (unit : motive unit) (empty : motive empty) (var : ∀ n, motive (var n))
    (arrow : ∀ a b, motive (arrow a b)) (list : ∀ t, motive (list t))
    (row : ∀ k fields rest, motive (row k fields rest)) (x : Figure) : motive x := by
  suffices h : ∀ (r : Root) (below : r.Place → Figure), motive (node r below) from
    PFunctor.M.mk_dest x ▸ h x.root (PFunctor.M.dest x).2
  intro r below
  cases r with
  | number => exact node_leaf id _ below ▸ number
  | char => exact node_leaf id _ below ▸ char
  | unit => exact node_leaf id _ below ▸ unit
  | empty => exact node_leaf id _ below ▸ empty
  | var n => exact node_leaf id _ below ▸ var n
  | arrow =>
    have h : below = fun (second : Bool) => if second then below true else below false := by
      funext second; cases second <;> rfl
    rw [h]
    exact arrow (below false) (below true)
  | list => exact list (below ())
  | row k has =>
    rw [node_row below]
    exact row k _ (below none)

/-- The fields that a figure has as a row of a kind. -/
def fieldsOf (k : RowKind) (x : Figure) (l : Label) : Option Figure :=
  match PFunctor.M.dest x with
  | ⟨.row k' has, below⟩ =>
    if k' = k then (if h : has l then some (below (some ⟨l, h⟩)) else none) else none
  | _ => none

/-- What is behind the fields that a figure has as a row of a kind. -/
def restOf (k : RowKind) (x : Figure) : Figure :=
  match PFunctor.M.dest x with
  | ⟨.row k' _, below⟩ => if k' = k then below none else x
  | _ => x

@[simp] theorem fieldsOf_row (k' k : RowKind) (f : Label → Option Figure) (rest : Figure)
    (l : Label) :
    fieldsOf k (row k' f rest) l = if k' = k then f l else none := by
  show (if k' = k then (if h : (f l).isSome then some ((f l).get h) else none) else none) = _
  congr 1
  cases f l <;> rfl

@[simp] theorem restOf_row (k' k : RowKind) (f : Label → Option Figure) (rest : Figure) :
    restOf k (row k' f rest) = if k' = k then rest else row k' f rest := rfl

theorem row_inj (h : row k f rest = row k' g rest') : k = k' ∧ f = g ∧ rest = rest' := by
  have hk : k = k' := (Root.row.inj (congrArg root h)).1
  subst hk
  have hfields := fun l => congrArg (fieldsOf k · l) h
  have hrest := congrArg (restOf k) h
  simp only [fieldsOf_row, restOf_row, if_true] at hfields hrest
  exact ⟨rfl, funext hfields, hrest⟩

/-! ## Canonical figures -/

/-- The chain of rows at the root is merged, and each row in it has a field. -/
def Canonical (x : Figure) : Prop :=
  ∃ P : Figure → Prop, P x ∧ ∀ k f rest, P (row k f rest) →
    (∃ l, (f l).isSome) ∧ (∀ g r, rest ≠ row k g r) ∧ P rest

theorem canonical_row : (row k f rest).Canonical ↔
    (∃ l, (f l).isSome) ∧ (∀ g r, rest ≠ row k g r) ∧ rest.Canonical := by
  constructor
  · rintro ⟨P, hP, hstep⟩
    obtain ⟨hsome, hne, hrest⟩ := hstep _ _ _ hP
    exact ⟨hsome, hne, P, hrest, hstep⟩
  · rintro ⟨hsome, hne, P, hP, hstep⟩
    refine ⟨fun y => P y ∨ y = row k f rest, Or.inr rfl, fun k' g r h => ?_⟩
    rcases h with h | h
    · exact (hstep k' g r h).imp_right fun h => h.imp_right Or.inl
    · obtain ⟨rfl, rfl, rfl⟩ := row_inj h
      exact ⟨hsome, hne, Or.inl hP⟩

/-- What is no row is canonical. -/
theorem canonical_of_root (h : ∀ k has, x.root ≠ .row k has) : x.Canonical :=
  ⟨(· = x), rfl, fun k _ _ he => absurd (congrArg root he).symm (h k _)⟩

/-- What is no row of a kind has no fields of that kind. -/
theorem fieldsOf_of_ne_row (h : ∀ f rest, x ≠ row k f rest)
    (l : Label) : fieldsOf k x l = none := by
  cases x with
  | row k' f rest => rw [fieldsOf_row, if_neg fun hk => h f rest (by rw [hk])]
  | _ => rfl

/-- What is no row of a kind is behind no fields of that kind. -/
theorem restOf_of_ne_row (h : ∀ f rest, x ≠ row k f rest) : restOf k x = x := by
  cases x with
  | row k' f rest => rw [restOf_row, if_neg fun hk => h f rest (by rw [hk])]
  | _ => rfl

theorem restOf_ne_row (h : s.Canonical) (g : Label → Option Figure) (r : Figure) :
    restOf k s ≠ row k g r := by
  cases s with
  | row k' f rest =>
    rw [restOf_row]
    split
    case isTrue hk => exact hk ▸ (canonical_row.mp h).2.1 g r
    case isFalse hk => exact fun he => hk (row_inj he).1
  | _ => exact fun he => Root.noConfusion (congrArg root he)

/-- Fields in front of what a tail shows.  Of two fields with one label, the one in the tail wins.
-/
def inFront (k : RowKind) (f : Label → Option Figure) (x : Figure) : Figure :=
  row k (fun l => (fieldsOf k x l).or (f l)) (restOf k x)

open scoped Classical in
/-- Fields in front of a figure, if there are any. -/
noncomputable def front (k : RowKind) (f : Label → Option Figure) (x : Figure) : Figure :=
  if ∀ l, f l = none then x else inFront k f x

theorem front_of_none (h : ∀ l, f l = none) : front k f s = s := if_pos h

theorem front_of_some {l : Label} (h : (f l).isSome) : front k f s = inFront k f s :=
  if_neg fun hnone => by simp [hnone l] at h

/-- Fields in front make a row of their kind. -/
theorem exists_front_eq_row {l : Label} (h : (f l).isSome) :
    ∃ fields rest, front k f s = row k fields rest := ⟨_, _, front_of_some h⟩

@[simp] theorem fieldsOf_inFront (k : RowKind) (f : Label → Option Figure) (s : Figure)
    (l : Label) :
    fieldsOf k (inFront k f s) l = (fieldsOf k s l).or (f l) := by
  rw [inFront, fieldsOf_row, if_pos rfl]

@[simp] theorem restOf_inFront (k : RowKind) (f : Label → Option Figure) (s : Figure) :
    restOf k (inFront k f s) = restOf k s := by
  rw [inFront, restOf_row, if_pos rfl]

/-- Of two fields with one label, the one behind wins. -/
@[simp] theorem fieldsOf_front (k : RowKind) (f : Label → Option Figure) (s : Figure) (l : Label) :
    fieldsOf k (front k f s) l = (fieldsOf k s l).or (f l) := by
  rw [front]
  split
  case isTrue h => simp [h l]
  case isFalse => simp

@[simp] theorem restOf_front (k : RowKind) (f : Label → Option Figure) (s : Figure) :
    restOf k (front k f s) = restOf k s := by
  rw [front]
  split
  · rfl
  · simp

theorem fieldsOf_restOf (h : s.Canonical) (l : Label) : fieldsOf k (restOf k s) l = none :=
  fieldsOf_of_ne_row (restOf_ne_row h) l

/-- What is behind all fields of a kind has nothing of that kind before it. -/
theorem restOf_restOf (h : s.Canonical) : restOf k (restOf k s) = restOf k s :=
  restOf_of_ne_row (restOf_ne_row h)

theorem canonical_restOf (h : s.Canonical) : (restOf k s).Canonical := by
  cases s with
  | row k' f rest =>
    rw [restOf_row]
    split
    · exact (canonical_row.mp h).2.2
    · exact h
  | _ => exact h

theorem canonical_front (h : s.Canonical) : (front k f s).Canonical := by
  rw [front]
  split
  case isTrue => exact h
  case isFalse hsome =>
    obtain ⟨l, hl⟩ := not_forall.mp hsome
    exact canonical_row.mpr ⟨⟨l, by simp [Option.isSome_iff_ne_none.mpr hl]⟩, restOf_ne_row h,
      canonical_restOf h⟩

/-- **A canonical figure is its fields in front of what is behind them.** -/
theorem front_fieldsOf_restOf (h : s.Canonical) : front k (fieldsOf k s) (restOf k s) = s := by
  cases s with
  | row k' f rest =>
    by_cases hk : k' = k
    · subst hk
      obtain ⟨⟨l, hl⟩, hne, -⟩ := canonical_row.mp h
      have hf : fieldsOf k' (row k' f rest) = f := funext fun l => by simp
      rw [hf, restOf_row, if_pos rfl, front_of_some hl, inFront, restOf_of_ne_row hne]
      congr 1
      funext l
      rw [fieldsOf_of_ne_row hne, Option.none_or]
    · rw [front_of_none fun l => by simp [hk], restOf_row, if_neg hk]
  | _ => exact front_of_none fun _ => rfl

/-- **A canonical figure is known by its fields and what is behind them.** -/
theorem canonical_ext (k : RowKind) (hx : x.Canonical) (hy : y.Canonical)
    (hfields : ∀ l, fieldsOf k x l = fieldsOf k y l) (hrest : restOf k x = restOf k y) : x = y := by
  rw [← front_fieldsOf_restOf (k := k) hx, ← front_fieldsOf_restOf (k := k) hy, hrest,
    funext hfields]

/-- Two chunks of one row are one chunk. -/
theorem front_front (k : RowKind) (f g : Label → Option Figure) (hs : s.Canonical) :
    front k f (front k g s) = front k (fun l => (g l).or (f l)) s := by
  refine canonical_ext k (canonical_front (canonical_front hs)) (canonical_front hs)
    (fun l => ?_) ?_
  · simp [Option.or_assoc]
  · simp

/-! ## Two rows that are the same -/

/-- A figure has none of the labels of some fields. -/
def Lacks (k : RowKind) (s : Figure) (f : Label → Option Figure) : Prop :=
  ∀ l, (f l).isSome → fieldsOf k s l = none

/-- The fields of labels that others lack. -/
def beside (f g : Label → Option Figure) (l : Label) : Option Figure :=
  if (g l).isSome then none else f l

theorem beside_eq_none (h : ∀ l, (f l).isSome → (g l).isSome)
    (l : Label) : beside f g l = none := by
  rw [beside]
  split
  case isTrue => rfl
  case isFalse hl => exact Option.not_isSome_iff_eq_none.mp fun hf => hl (h l hf)

theorem Lacks.beside (h : Lacks k s f) (g : Label → Option Figure) : Lacks k s (beside f g) := by
  intro l hl
  rw [Figure.beside] at hl
  split at hl
  case isTrue => cases hl
  case isFalse => exact h l hl

theorem fieldsOf_front_of_lacks (h : Lacks k s f) {l : Label} (hl : (f l).isSome) :
    fieldsOf k (front k f s) l = f l := by
  rw [fieldsOf_front, h l hl, Option.none_or]

section

variable (hs : s.Canonical) (ht : t.Canonical) (hf : Lacks k s f) (hg : Lacks k t g)
  (he : front k f s = front k g t)

include he in
theorem restOf_eq_of_front_eq : restOf k s = restOf k t := by
  simpa using congrArg (restOf k) he

include hf hg he in
/-- Fields that two ways of writing a row have in common are the same. -/
theorem eq_of_front_eq {l : Label} (hl : (f l).isSome) (hl' : (g l).isSome) : f l = g l := by
  rw [← fieldsOf_front_of_lacks hf hl, ← fieldsOf_front_of_lacks hg hl', he]

include hs ht hf hg he in
/-- **With no field of its own on either side, what is behind is the same.** -/
theorem front_inj (hdom : ∀ l, (f l).isSome ↔ (g l).isSome) : s = t := by
  refine canonical_ext k hs ht (fun l => ?_) (restOf_eq_of_front_eq he)
  by_cases hl : (f l).isSome
  · rw [hf l hl, hg l ((hdom l).mp hl)]
  · have hfl : f l = none := by simpa using hl
    have hgl : g l = none := by simpa using fun h => hl ((hdom l).mpr h)
    have hfields := congrArg (fun x => fieldsOf k x l) he
    simpa [hfl, hgl] using hfields

/-- What is behind all fields of a figure and those of another one. -/
noncomputable def behind (k : RowKind) (g : Label → Option Figure) (s : Figure) : Figure :=
  front k (beside (fieldsOf k s) g) (restOf k s)

include hs in
theorem canonical_behind : (behind k g s).Canonical := canonical_front (canonical_restOf hs)

include hs in
theorem fieldsOf_behind (l : Label) :
    fieldsOf k (behind k g s) l = beside (fieldsOf k s) g l := by
  rw [behind, fieldsOf_front, fieldsOf_restOf hs, Option.none_or]

include hs in
theorem restOf_behind : restOf k (behind k g s) = restOf k s := by
  rw [behind, restOf_front, restOf_restOf hs]

include he in
theorem fields_eq_of_front_eq (l : Label) :
    (fieldsOf k s l).or (f l) = (fieldsOf k t l).or (g l) := by
  simpa using congrArg (fun x => fieldsOf k x l) he

include hs hf hg he in
/-- What is behind one side are fields that only the other side has, in front of the rest. -/
theorem eq_front_behind : s = front k (beside g f) (behind k g s) := by
  refine canonical_ext k hs (canonical_front (canonical_behind hs)) (fun l => ?_)
    (by rw [restOf_front, restOf_behind hs])
  rw [fieldsOf_front, fieldsOf_behind hs, beside, beside]
  by_cases hfl : (f l).isSome
  · simp [hfl, hf l hfl]
  · have hl := fields_eq_of_front_eq he l
    rw [Option.not_isSome_iff_eq_none.mp hfl, Option.or_none] at hl
    by_cases hgl : (g l).isSome
    · rw [if_pos hgl, if_neg hfl, Option.none_or, hl, hg l hgl, Option.none_or]
    · rw [if_neg hgl, if_neg hfl, Option.not_isSome_iff_eq_none.mp hgl, Option.or_none]

include hs ht hf hg he in
/-- **What one side has behind is what the other has more**, in front of the rest of all. -/
theorem exists_shared : ∃ r, r.Canonical ∧ s = front k (beside g f) r ∧ t = front k (beside f g) r ∧
    Lacks k r f ∧ Lacks k r g := by
  have hsame : behind k g s = behind k f t := by
    refine canonical_ext k (canonical_behind hs) (canonical_behind ht) (fun l => ?_) ?_
    · rw [fieldsOf_behind hs, fieldsOf_behind ht, beside, beside]
      have hl := fields_eq_of_front_eq he l
      by_cases hfl : (f l).isSome
      · simp [hfl, hf l hfl]
      · by_cases hgl : (g l).isSome
        · simp [hgl, hfl, hg l hgl]
        · simp_all
    · rw [restOf_behind hs, restOf_behind ht, restOf_eq_of_front_eq he]
  refine ⟨behind k g s, canonical_behind hs, eq_front_behind hs hf hg he,
    hsame ▸ eq_front_behind ht hg hf he.symm, fun l hl => ?_, fun l hl => ?_⟩
  · simp [fieldsOf_behind hs, beside, hf l hl]
  · simp [fieldsOf_behind hs, beside, hl]

include hs ht hf hg he in
/-- With no field of its own on one side, what is behind it is what the other side has more in front
of what is behind that. -/
theorem eq_front_beside (hsub : ∀ l, (g l).isSome → (f l).isSome) : t = front k (beside f g) s := by
  obtain ⟨r, -, hr, hr', -⟩ := exists_shared hs ht hf hg he
  rw [front_of_none (beside_eq_none hsub)] at hr
  rw [hr', hr]

end

end Figure

end RowLang
