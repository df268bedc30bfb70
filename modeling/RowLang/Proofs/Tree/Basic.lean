import RowLang.Ty.Basic
import Mathlib.Logic.Function.Iterate

/-!
# Proofs/Tree/Basic — infinite trees, known by their truncations

A tree may be infinite; it is given by what is seen of it down to each depth (`Shape`), so that two
trees are the same as soon as they look the same down to every depth.  A row in a tree has no chunks
any more: it is a mapping from labels, and what stands behind its last label.

The tree of a recursive type is a fixed point.  `Tree.fix` builds it from nothing, one round for
each depth, and a function that sees less of its argument than it shows of its result
(`Contractive`) has no other (`Contractive.fix_unique`).
-/

namespace RowLang

/-- A tree cut off at some depth. -/
inductive Shape where
  /-- Below this nothing is seen. -/
  | cut
  | number
  | char
  | unit
  | empty
  | var (n : Nat)
  | arrow (arg res : Shape)
  | list (elt : Shape)
  | row (kind : RowKind) (fields : Label → Option Shape) (rest : Shape)
  | forAll (n : Nat) (body : Shape)

/-- Fields in front of what a tail shows.  Of two fields with one label, the one in the tail wins.
-/
def Shape.inFront (k : RowKind) (fields : Label → Option Shape) : Shape → Shape
  | row k' inner rest =>
    if k' = k then row k (fun l => (inner l).or (fields l)) rest
    else row k fields (row k' inner rest)
  | rest => row k fields rest

/-- Fields in front of anything make a row that has them. -/
theorem Shape.exists_inFront_eq (k : RowKind) (fields : Label → Option Shape) (s : Shape) :
    ∃ inner rest, Shape.inFront k fields s = .row k inner rest ∧
      ∀ l, (fields l).isSome → (inner l).isSome := by
  cases s with
  | row k' inner rest =>
    rw [inFront]
    split
    · exact ⟨_, _, rfl, fun l hl => by rw [Option.isSome_or, hl, Bool.or_true]⟩
    · exact ⟨_, _, rfl, fun _ hl => hl⟩
  | _ => exact ⟨_, _, rfl, fun _ hl => hl⟩

/-- An infinite tree, as what is seen of it down to each depth. -/
abbrev Tree := Nat → Shape

namespace Tree

/-- The tree of which nothing is seen. -/
def hidden : Tree := fun _ => .cut

/-- A tree of one node. -/
def leaf (s : Shape) : Tree
  | 0 => .cut
  | _ + 1 => s

/-- A function from one tree to another. -/
def arrow (a b : Tree) : Tree
  | 0 => .cut
  | n + 1 => .arrow (a n) (b n)

/-- A list of a tree. -/
def list (t : Tree) : Tree
  | 0 => .cut
  | n + 1 => .list (t n)

/-- Fields in front of a tail.  The fields are one level down; the tail goes on with the same row.
-/
def row (k : RowKind) (fields : Label → Option Tree) (tail : Tree) : Tree
  | 0 => .cut
  | n + 1 => Shape.inFront k (fun l => (fields l).map (· n)) (tail (n + 1))

/-- A tree under a quantifier. -/
def forAll (v : Nat) (t : Tree) : Tree
  | 0 => .cut
  | n + 1 => .forAll v (t n)

/-- What becomes of the hidden tree in the end: `n + 1` rounds settle the depth `n`. -/
def fix (f : Tree → Tree) : Tree := fun n => f^[n + 1] hidden n

/-! ## Agreement down to a depth -/

/-- Two trees look the same above a depth. -/
def AgreeBelow (n : Nat) (x y : Tree) : Prop := ∀ m < n, x m = y m

theorem AgreeBelow.refl (n : Nat) (x : Tree) : AgreeBelow n x x := fun _ _ => rfl

theorem AgreeBelow.symm {n : Nat} {x y : Tree} (h : AgreeBelow n x y) : AgreeBelow n y x :=
  fun m hm => (h m hm).symm

theorem AgreeBelow.trans {n : Nat} {x y z : Tree} (h : AgreeBelow n x y) (h' : AgreeBelow n y z) :
    AgreeBelow n x z := fun m hm => (h m hm).trans (h' m hm)

theorem AgreeBelow.mono {m n : Nat} {x y : Tree} (h : AgreeBelow n x y) (hmn : m ≤ n) :
    AgreeBelow m x y := fun i hi => h i (Nat.lt_of_lt_of_le hi hmn)

theorem agreeBelow_zero (x y : Tree) : AgreeBelow 0 x y := fun _ hm => absurd hm (Nat.not_lt_zero _)

/-- **Trees that look the same down to every depth are the same.** -/
theorem eq_of_agreeBelow {x y : Tree} (h : ∀ n, AgreeBelow n x y) : x = y :=
  funext fun n => h (n + 1) n (Nat.lt_succ_self n)

theorem AgreeBelow.arrow {n : Nat} {a b c d : Tree} (h : AgreeBelow n a c) (h' : AgreeBelow n b d) :
    AgreeBelow (n + 1) (arrow a b) (arrow c d)
  | 0, _ => rfl
  | m + 1, hm => by simp [Tree.arrow, h m (by omega), h' m (by omega)]

theorem AgreeBelow.list {n : Nat} {a b : Tree} (h : AgreeBelow n a b) :
    AgreeBelow (n + 1) (list a) (list b)
  | 0, _ => rfl
  | m + 1, hm => by simp [Tree.list, h m (by omega)]

theorem AgreeBelow.forAll {n v : Nat} {a b : Tree} (h : AgreeBelow n a b) :
    AgreeBelow (n + 1) (forAll v a) (forAll v b)
  | 0, _ => rfl
  | m + 1, hm => by simp [Tree.forAll, h m (by omega)]

/-- Two optional trees look the same above a depth. -/
def AgreeBelow? (n : Nat) : Option Tree → Option Tree → Prop
  | some x, some y => AgreeBelow n x y
  | none, none => True
  | _, _ => False

theorem AgreeBelow?.map_eq {n m : Nat} {x y : Option Tree} (h : AgreeBelow? n x y) (hm : m < n) :
    x.map (· m) = y.map (· m) := by
  match x, y, h with
  | some x, some y, h => exact congrArg some (h m hm)
  | none, none, _ => rfl

/-- Rows agree further down than their fields do, and as far as their tails do. -/
theorem AgreeBelow.row {n : Nat} {k : RowKind} {fields fields' : Label → Option Tree}
    {tail tail' : Tree} (h : ∀ l, AgreeBelow? n (fields l) (fields' l))
    (h' : AgreeBelow (n + 1) tail tail') :
    AgreeBelow (n + 1) (row k fields tail) (row k fields' tail')
  | 0, _ => rfl
  | m + 1, hm => by
    have hfields : (fun l => (fields l).map (· m)) = fun l => (fields' l).map (· m) :=
      funext fun l => (h l).map_eq (by omega)
    simp only [Tree.row, hfields, h' (m + 1) hm]

/-- Two chunks of one row are one chunk. -/
theorem row_row (k : RowKind) (fields inner : Label → Option Tree) (rest : Tree) :
    row k fields (row k inner rest) = row k (fun l => (inner l).or (fields l)) rest := by
  funext n
  cases n with
  | zero => rfl
  | succ n =>
    simp only [row]
    generalize rest (n + 1) = s
    have hor : ∀ l, ((inner l).or (fields l)).map (· n)
        = ((inner l).map (· n)).or ((fields l).map (· n)) := fun l => by
      cases inner l <;> rfl
    cases s with
    | row k' deep s =>
      by_cases hk : k' = k
      · simp [Shape.inFront, hk, hor, Option.or_assoc]
      · simp [Shape.inFront, hk, hor]
    | _ => simp [Shape.inFront, hor]

/-! ## Trees tell their parts -/

theorem arrow_inj {a b c d : Tree} (h : arrow a b = arrow c d) : a = c ∧ b = d := by
  have hshape : ∀ n, Shape.arrow (a n) (b n) = .arrow (c n) (d n) := fun n => congrFun h (n + 1)
  exact ⟨funext fun n => (Shape.arrow.inj (hshape n)).1,
    funext fun n => (Shape.arrow.inj (hshape n)).2⟩

theorem list_inj {a b : Tree} (h : list a = list b) : a = b :=
  funext fun n => Shape.list.inj (congrFun h (n + 1))

/-- Two rows with nothing behind them have the same fields. -/
theorem row_leaf_inj {k : RowKind} {fields fields' : Label → Option Tree} {s : Shape}
    (hs : ∀ k' inner rest, s ≠ .row k' inner rest)
    (h : row k fields (leaf s) = row k fields' (leaf s)) : fields = fields' := by
  have hfront : ∀ f, Shape.inFront k f s = .row k f s := fun f => by
    cases s with
    | row => exact absurd rfl (hs _ _ _)
    | _ => rfl
  have hshape : ∀ n l, (fields l).map (· n) = (fields' l).map (· n) := fun n l => by
    have hn : Shape.inFront k _ s = Shape.inFront k _ s := congrFun h (n + 1)
    rw [hfront, hfront] at hn
    exact congrFun (Shape.row.inj hn).2.1 l
  funext l
  have hl := fun n => hshape n l
  cases hx : fields l with
  | none =>
    cases hy : fields' l with
    | none => rfl
    | some y => simpa [hx, hy] using hl 0
  | some x =>
    cases hy : fields' l with
    | none => simpa [hx, hy] using hl 0
    | some y => exact congrArg some (funext fun n => by simpa [hx, hy] using hl n)

/-! ## Fixed points -/

/-- A function that shows one level more of its result than it sees of its argument. -/
def Contractive (f : Tree → Tree) : Prop :=
  ∀ n x y, AgreeBelow n x y → AgreeBelow (n + 1) (f x) (f y)

namespace Contractive

variable {f : Tree → Tree}

/-- After `n` rounds the first `n` levels do not depend on the start. -/
theorem agreeBelow_iterate (h : Contractive f) (x y : Tree) :
    ∀ n, AgreeBelow n (f^[n] x) (f^[n] y)
  | 0 => agreeBelow_zero _ _
  | n + 1 => by
    rw [Function.iterate_succ_apply', Function.iterate_succ_apply']
    exact h n _ _ (agreeBelow_iterate h x y n)

theorem agreeBelow_fix (h : Contractive f) (n : Nat) : AgreeBelow n (fix f) (f^[n] hidden) := by
  intro m hm
  obtain ⟨d, rfl⟩ := Nat.exists_eq_add_of_lt hm
  rw [show m + d + 1 = (m + 1) + d by omega, Function.iterate_add_apply]
  exact h.agreeBelow_iterate _ _ (m + 1) m (Nat.lt_succ_self m)

/-- **The fixed point is one.** -/
theorem fix_eq (h : Contractive f) : f (fix f) = fix f := by
  funext n
  rw [h n _ _ (h.agreeBelow_fix n) n (Nat.lt_succ_self n), ← Function.iterate_succ_apply' f]
  rfl

/-- **There is no other fixed point.** -/
theorem fix_unique (h : Contractive f) {x : Tree} (hx : f x = x) : x = fix f := by
  funext n
  have hiter : f^[n + 1] x = x := Function.iterate_fixed hx (n + 1)
  rw [← hiter]
  exact h.agreeBelow_iterate x hidden (n + 1) n (Nat.lt_succ_self n)

end Contractive

/-- Fixed points of functions that agree down to a depth agree down to it. -/
theorem AgreeBelow.fix {n : Nat} {f g : Tree → Tree}
    (h : ∀ x y, AgreeBelow n x y → AgreeBelow n (f x) (g y)) :
    AgreeBelow n (fix f) (fix g) := by
  have hiter : ∀ k, AgreeBelow n (f^[k] hidden) (g^[k] hidden) := by
    intro k
    induction k with
    | zero => exact .refl n hidden
    | succ k ih =>
      rw [Function.iterate_succ_apply', Function.iterate_succ_apply']
      exact h _ _ ih
  exact fun m hm => hiter (m + 1) m hm

end Tree

end RowLang

/-!
## The fields of an infinite tree

A tree has a field when it is a row, down to every depth, in which the label stands for the tree of
the field (`HasField`).  Fields in front of a tail that lacks their labels are fields of the row,
and a tree has one field of a label.  Trees of different kinds are told apart by what they show
first.
-/

namespace RowLang.Tree

/-- A row in which a label stands for a tree. -/
def HasField (k : RowKind) (x : Tree) (l : Label) (t : Tree) : Prop :=
  ∀ n, ∃ inner rest, x (n + 1) = .row k inner rest ∧ inner l = some (t n)

/-- What is no row that has a label. -/
def LacksField (k : RowKind) (x : Tree) (l : Label) : Prop :=
  ∀ n inner rest, x (n + 1) = .row k inner rest → inner l = none

/-- **A field in front of a tail that lacks its label is a field of the row.** -/
theorem hasField_row {k : RowKind} {fields : Label → Option Tree} {rest t : Tree} {l : Label}
    (h : fields l = some t) (hlacks : rest.LacksField k l) :
    (row k fields rest).HasField k l t := by
  intro n
  have hfront : row k fields rest (n + 1)
      = Shape.inFront k (fun l => (fields l).map (· n)) (rest (n + 1)) := rfl
  have hown : (fields l).map (· n) = some (t n) := by rw [h]; rfl
  rw [hfront]
  cases hr : rest (n + 1) with
  | row k' inner deep =>
    rw [Shape.inFront]
    split
    case isTrue hk =>
      subst hk
      refine ⟨_, _, rfl, ?_⟩
      show (inner l).or ((fields l).map (· n)) = _
      rw [hlacks n inner deep hr, Option.none_or, hown]
    case isFalse => exact ⟨_, _, rfl, hown⟩
  | _ => exact ⟨_, _, rfl, hown⟩

/-! ## Closed rows -/

/-- The row of some fields and nothing behind them. -/
def closed (k : RowKind) (fields : Label → Option Tree) : Tree :=
  row k fields (leaf (match k with | .record => .unit | .variant => .empty))

theorem closed_succ (k : RowKind) (fields : Label → Option Tree) (n : Nat) :
    ∃ rest, closed k fields (n + 1) = .row k (fun l => (fields l).map (· n)) rest := by
  cases k <;> exact ⟨_, rfl⟩

/-- **The fields of a closed row are those that it is made of.** -/
theorem hasField_closed {k : RowKind} {fields : Label → Option Tree} {l : Label} {t : Tree} :
    (closed k fields).HasField k l t ↔ fields l = some t := by
  constructor
  · intro h
    have hn : ∀ n, (fields l).map (· n) = some (t n) := fun n => by
      obtain ⟨inner, rest, hx, ht⟩ := h n
      obtain ⟨rest', hx'⟩ := closed_succ k fields n
      obtain ⟨-, rfl, -⟩ := Shape.row.inj (hx'.symm.trans hx)
      exact ht
    cases hl : fields l with
    | none => simpa [hl] using hn 0
    | some u => exact congrArg some (funext fun n => by simpa [hl] using hn n)
  · refine fun h => hasField_row h fun n inner rest he => ?_
    cases k <;> cases he

/-! ## What a tree shows first -/

theorem HasField.ne_arrow {k : RowKind} {x t a b : Tree} {l : Label} (h : x.HasField k l t) :
    x ≠ arrow a b := by
  rintro rfl
  obtain ⟨_, _, he, -⟩ := h 0
  cases he

/-- Closed rows of one kind have one mapping of fields. -/
theorem closed_inj {k : RowKind} {fields fields' : Label → Option Tree}
    (h : closed k fields = closed k fields') : fields = fields' :=
  row_leaf_inj (by cases k <;> simp) h

end RowLang.Tree
