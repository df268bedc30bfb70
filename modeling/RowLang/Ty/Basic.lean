import RowLang.Row.Basic

/-!
# Ty/Basic — the types of the language

Numbers, characters, functions, lists, records and variants, and the two binders: `mu` for recursive
types and `forall` for polymorphic ones.  A record or variant type is a row of fields and a tail:
the end marker of its kind (`unit`, `empty`) when it is closed, a variable when it is open, or a
further row of its kind.
-/

namespace RowLang

/-- Rows describe records or variants. -/
inductive RowKind where
  | record
  | variant
  deriving DecidableEq, Repr, Inhabited

/-- A bound variable stands for the whole type (`mu`) or for any type (`forall`). -/
inductive Binder where
  | mu
  | forAll
  deriving DecidableEq, Repr, Inhabited

/-- Types; variables are numbered. -/
inductive Ty where
  | number
  | char
  /-- The end of a record. -/
  | unit
  /-- The end of a variant. -/
  | empty
  | var (n : Nat)
  | arrow (arg res : Ty)
  | list (elt : Ty)
  | row (kind : RowKind) (fields : List (Label × Ty)) (tail : Ty)
  | bind (binder : Binder) (n : Nat) (body : Ty)
  deriving Repr, Inhabited

/-- The marker that closes a row of a kind. -/
def RowKind.end : RowKind → Ty
  | .record => .unit
  | .variant => .empty

/-- Finitely many variables with types for them; the first entry of a variable counts. -/
abbrev Subst := List (Nat × Ty)

namespace Ty

/-- The marker that closes rows of a kind. -/
def isEnd (k : RowKind) (t : Ty) : Bool :=
  match k, t with
  | .record, .unit => true
  | .variant, .empty => true
  | _, _ => false

/-- The closed record of a row of types. -/
def closedRecord (fields : Row Ty) : Ty := .row .record fields .unit

/-- The closed variant of a row of types. -/
def closedVariant (fields : Row Ty) : Ty := .row .variant fields .empty

/-! ## Variables -/

mutual

/-- The variables that occur free. -/
@[grind] def free : Ty → List Nat
  | number => []
  | char => []
  | unit => []
  | empty => []
  | var n => [n]
  | arrow a b => free a ++ free b
  | list t => free t
  | row _ fields tail => free tail ++ freeOfFields fields
  | bind _ n body => (free body).filter (· ≠ n)

/-- The variables that occur free in some field. -/
@[grind] def freeOfFields : List (Label × Ty) → List Nat
  | [] => []
  | (_, t) :: fields => free t ++ freeOfFields fields

end

/-! ## Substitution -/

mutual

/-- The type with its free variables replaced.  A binder hides its own variable; the types put in
are taken as they are. -/
@[grind] def substitute (σ : Subst) : Ty → Ty
  | number => number
  | char => char
  | unit => unit
  | empty => empty
  | var n => (σ.lookup n).getD (var n)
  | arrow a b => arrow (substitute σ a) (substitute σ b)
  | list t => list (substitute σ t)
  | row k fields tail => row k (substituteFields σ fields) (substitute σ tail)
  | bind b n body => bind b n (substitute (σ.filter (·.1 ≠ n)) body)

/-- The fields with their free variables replaced. -/
def substituteFields (σ : Subst) : List (Label × Ty) → List (Label × Ty)
  | [] => []
  | (l, t) :: fields => (l, substitute σ t) :: substituteFields σ fields

end

/-- A recursive type unfolded once: its variable stands for all of it. -/
def unfold (n : Nat) (body : Ty) : Ty := body.substitute [(n, .bind .mu n body)]

/-! ## Flattening -/

/-- A row in front of a flat tail.  Of two fields with one label, the one in the tail wins. -/
@[grind] def prependRow (k : RowKind) (fields : Row Ty) (tail : Ty) : Ty :=
  match tail with
  | row k' inner rest =>
    if k = k' then row k (fields.union (fun _ deeper => deeper) inner) rest
    else row k fields tail
  | _ => row k fields tail

mutual

/-- The type with each chain of rows of one kind merged into one row. -/
@[grind] def flatten : Ty → Ty
  | number => number
  | char => char
  | unit => unit
  | empty => empty
  | var n => var n
  | arrow a b => arrow (flatten a) (flatten b)
  | list t => list (flatten t)
  | row k fields tail => prependRow k (flattenFields fields) (flatten tail)
  | bind b n body => bind b n (flatten body)

/-- The fields flattened. -/
def flattenFields : List (Label × Ty) → List (Label × Ty)
  | [] => []
  | (l, t) :: fields => (l, flatten t) :: flattenFields fields

end

/-! ## Equality up to the order of fields -/

mutual

/-- The same type, fields compared as mappings from labels. -/
@[grind] def same : Ty → Ty → Bool
  | number, number => true
  | char, char => true
  | unit, unit => true
  | empty, empty => true
  | var m, var n => m = n
  | arrow a b, arrow c d => same a c && same b d
  | list s, list t => same s t
  | row k fields tail, row k' fields' tail' =>
    k = k' && fields.length = fields'.length && sameFields fields fields' && same tail tail'
  | bind b n s, bind b' n' t => b = b' && n = n' && same s t
  | _, _ => false

/-- Every field of the first row is in the second. -/
@[grind] def sameFields : List (Label × Ty) → List (Label × Ty) → Bool
  | [], _ => true
  | (l, t) :: fields, others =>
    (match others.lookup l with
      | some t' => same t t'
      | none => false) && sameFields fields others

end

/-! ## Fields as rows -/

theorem substituteFields_eq_map (σ : Subst) (fields : Row Ty) :
    substituteFields σ fields = Row.mapValues (substitute σ) fields := by
  induction fields with
  | nil => rfl
  | cons f fields ih => simp [substituteFields, ih, Row.mapValues]

theorem flattenFields_eq_map
    (fields : Row Ty) : flattenFields fields = Row.mapValues flatten fields := by
  induction fields with
  | nil => rfl
  | cons f fields ih => simp [flattenFields, ih, Row.mapValues]

end Ty

end RowLang
