import RowLang.Proofs.Tree.Basic
import RowLang.Proofs.Expr.Tidy
import RowLang.Operator

/-!
# Proofs/Typing/Judgement — the trees that an expression has

The rules of typing for infinite trees, without variables and without a solver: what a pattern binds
when it is matched with something of a tree (`Pattern.Binds`), the trees of the operators
(`Operator.HasTree`), and the trees of expressions (`Expr.HasTree`).  Equality of types is equality
of trees, so a recursive type needs no rule.
-/

namespace RowLang

/-- The trees of the names in scope, innermost first. -/
abbrev TreeContext := List (String × Tree)

namespace Tree

/-- The tree of a pair. -/
def pair (a b : Tree) : Tree :=
  closed .record fun l => if l = "0" then some a else if l = "1" then some b else none

/-- The tree of the empty record. -/
def emptyRecord : Tree := closed .record fun _ => none

/-- The tree of a verdict. -/
def verdict : Tree :=
  closed .variant fun l =>
    if l = "false" then some emptyRecord else if l = "true" then some emptyRecord else none

end Tree

open RowLang.Tree in
/-- The trees of an operator: its scheme with trees for the quantified variables. -/
def Operator.HasTree : Operator → Tree → Prop
  | plus, x | minus, x | times, x | divide, x | modulo, x =>
    x = arrow (pair (leaf .number) (leaf .number)) (leaf .number)
  | eq, x | lt, x => x = arrow (pair (leaf .number) (leaf .number)) Tree.verdict
  | ord, x => x = arrow (leaf .char) (leaf .number)
  | chr, x => x = arrow (leaf .number) (leaf .char)
  | countUp, x => x = arrow (leaf .number) (list (leaf .number))
  | size, x => ∃ a, x = arrow (list a) (leaf .number)
  | append, x => ∃ a, x = arrow (pair (list a) (list a)) (list a)
  | map, x => ∃ a b, x = arrow (arrow a b) (arrow (list a) (list b))
  | filter, x => ∃ a, x = arrow (arrow a Tree.verdict) (arrow (list a) (list a))
  | fold, x => ∃ a b, x = arrow (arrow b (arrow a b)) (arrow b (arrow (list a) b))

namespace Pattern

mutual

/-- A pattern matched with something of a tree makes one context of another one. -/
def Binds (Γ : TreeContext) : Pattern → Tree → TreeContext → Prop
  | name n, x, Γ' => Γ' = (n, x) :: Γ
  | wildcard, _, Γ' => Γ' = Γ
  | row fields, x, Γ' => BindsFields Γ fields x Γ'

/-- The patterns of fields matched with the fields of something of a tree. -/
def BindsFields (Γ : TreeContext) : List (Label × Pattern) → Tree → TreeContext → Prop
  | [], _, Γ' => Γ' = Γ
  | (l, p) :: fields, x, Γ'' =>
    ∃ t Γ', x.HasField .record l t ∧ Binds Γ p t Γ' ∧ BindsFields Γ' fields x Γ''

end

end Pattern

open RowLang.Tree in
/-- **An expression has a tree** in a context. -/
inductive Expr.HasTree : TreeContext → Expr → Tree → Prop
  | number {Γ n} : HasTree Γ (.number n) (leaf .number)
  | char {Γ c} : HasTree Γ (.char c) (leaf .char)
  | var {Γ n x} : Γ.lookup n = some x → HasTree Γ (.var n) x
  | op {Γ o x} : o.HasTree x → HasTree Γ (.op o) x
  | lambda {Γ Γ' p body a b} : p.Binds Γ a Γ' → HasTree Γ' body b →
      HasTree Γ (.lambda p body) (arrow a b)
  | apply {Γ fn arg a b} : HasTree Γ fn (arrow a b) → HasTree Γ arg a → HasTree Γ (.apply fn arg) b
  | list {Γ elts a} : (∀ e ∈ elts, HasTree Γ e a) → HasTree Γ (.list elts) (Tree.list a)
  | record {Γ fields} (f : Label → Option Tree) : (∀ l, (f l).isSome ↔ l ∈ Row.labels fields) →
      (∀ p ∈ fields, ∀ x, f p.1 = some x → HasTree (("this", closed .record f) :: Γ) p.2 x) →
      HasTree Γ (.record fields) (closed .record f)
  | tuple {Γ items} (f : Label → Option Tree) :
      (∀ l, (f l).isSome ↔ l ∈ Row.labels (Row.positional items)) →
      (∀ p ∈ Row.positional items, ∀ x, f p.1 = some x → HasTree Γ p.2 x) →
      HasTree Γ (.tuple items) (closed .record f)
  | dispatch {Γ handlers res} (f : Label → Option Tree) :
      (∀ l, (f l).isSome ↔ l ∈ Row.labels handlers) →
      (∀ p ∈ handlers, ∀ x, f p.1 = some x → HasTree Γ p.2 (arrow x res)) →
      HasTree Γ (.dispatch handlers) (arrow (closed .variant f) res)
  | tag {Γ l payload x} : x.HasField .variant l payload → HasTree Γ (.tag l) (arrow payload x)
  | bindIn {Γ Γ' p bound body a b} : HasTree Γ bound a → p.Binds Γ a Γ' → HasTree Γ' body b →
      HasTree Γ (.bindIn p bound body) b

end RowLang
