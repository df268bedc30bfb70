import RowLang.Eval.Basic
import RowLang.Proofs.Eval.Messages

/-!
# Proofs/Eval/Closed — sorts of computations that operators do not leave

What operators do with values, applying functions and computing fields aside, is put together of a
few kinds of steps: looking at the world, a birth, and a failure.  So a sort of computations that
has those, and that putting computations together does not leave (`Eval.Closed`), has all that
operators do; and so it is in every host that has them (`Eval.ClosedIn`).
-/

namespace RowLang

/-- A failure that operators have without applying anything: no name is unbound, and no issue is one
too many. -/
def Failure.Plain : Failure → Prop
  | .unboundName _ | .tooManyIssues => False
  | _ => True

/-- A failure to show a value is one that says nothing of records. -/
theorem Failure.OfShowing.plain {e : Failure} (h : e.OfShowing) : e.Plain := by
  cases e with
  | tooDeep | bare => trivial
  | _ => exact h.elim

namespace Eval

/-- **A sort of computations** that has the steps of operators. -/
structure Closed (C : ∀ {α : Type}, Evaluating α → Prop) : Prop where
  pure : ∀ {α : Type} (x : α), C (pure x : Evaluating α)
  bind : ∀ {α β : Type} {m : Evaluating α} {f : α → Evaluating β}, C m →
    (∀ x, C (f x)) → C (m >>= f)
  throw : ∀ {α : Type} {e : Failure}, e.Plain → C (throw e : Evaluating α)
  look : ∀ {α : Type} {f : World → Evaluating α}, (∀ w, C (f w)) → C (get >>= f)
  birth : C World.birth

namespace Closed

variable {α : Type} {C : ∀ {α : Type}, Evaluating α → Prop}

theorem faulty (h : Closed C) (r : Except Fault α) : C (World.faulty r) := by
  cases r with
  | ok x => exact h.pure x
  | error f => exact h.throw (e := .bare f) trivial

/-- How much room there is can be asked. -/
theorem room (h : Closed C) : C World.room := h.look fun _ => h.pure _

/-- A value can be written in full. -/
theorem full (h : Closed C) (v : Value) : C (World.full v) := by
  refine h.look fun w => ?_
  split
  case h_1 => exact h.pure _
  case h_2 e he => exact h.throw (v.fails_fullChars _ _ e he).plain

/-- A failure that names a value can be raised. -/
theorem failWith (h : Closed C) {make : String → Failure} (hmake : ∀ shown, (make shown).Plain)
    (v : Value) : C (World.failWith make v : Evaluating α) := by
  refine h.look fun w => ?_
  split
  case h_1 shown _ => exact h.throw (hmake shown)
  case h_2 e he => exact h.throw (v.fails_describe _ e he).plain

/-! ## Lists, texts and records -/

theorem entries (h : Closed C) (v : Value) : C (entries v) := by
  unfold Eval.entries
  split
  · exact h.pure _
  · exact h.bind h.birth fun _ => h.pure _
  · exact h.look fun _ => h.pure _
  · split
    · exact h.pure _
    · exact h.throw trivial

theorem sizeOf (h : Closed C) (v : Value) : C (sizeOf v) := by
  unfold Eval.sizeOf
  refine h.bind h.birth fun _ => ?_
  split
  · exact h.pure _
  · exact h.pure _
  · exact h.look fun _ => h.pure _
  · split
    · exact h.pure _
    · exact h.throw trivial

/-- A value can be written by any conversion. -/
theorem written (h : Closed C) (conversion : Char) (v : Value) :
    C (Format.written conversion v) := by
  unfold Format.written
  split
  · exact h.pure _
  · exact h.bind (h.full v) fun _ => h.pure _
  · exact h.bind (h.full v) fun _ => h.pure _

end Closed

/-! ## In a host -/

/-- **A sort of computations in a host** that has the steps of operators there. -/
structure ClosedIn {σ : Type} (host : Host σ) (C : ∀ {α : Type}, Running σ α → Prop) : Prop where
  pure : ∀ {α : Type} (x : α), C (pure x : Running σ α)
  bind : ∀ {α β : Type} {m : Running σ α} {f : α → Running σ β}, C m → (∀ x, C (f x)) → C (m >>= f)
  throw : ∀ {α : Type} {e : Failure}, e.Plain → C (throw e : Running σ α)
  birth : C (host.plainly World.birth)
  room : C (host.plainly World.room)
  failWith : ∀ {α : Type} {make : String → Failure}, (∀ shown, (make shown).Plain) → ∀ v,
    C (host.failWith make v : Running σ α)
  written : ∀ conversion v, C (host.written conversion v)

/-- **In the plain host** a sort that has the steps has them where they stand. -/
theorem Closed.inWorld {C : ∀ {α : Type}, Evaluating α → Prop}
    (h : Closed C) : ClosedIn .plain C where
  pure := h.pure
  bind := h.bind
  throw := h.throw
  birth := h.birth
  room := h.room
  failWith := h.failWith
  written := h.written

namespace ClosedIn

variable {σ α : Type} {host : Host σ} {C : ∀ {α : Type}, Running σ α → Prop}

theorem faulty (h : ClosedIn host C) (r : Except Fault α) : C (World.faulty r : Running σ α) := by
  cases r with
  | ok x => exact h.pure x
  | error f => exact h.throw (e := .bare f) trivial

/-- A verdict can be read off a record. -/
theorem verdictOf (h : ClosedIn host C) (v : Value) : C (verdictOf host v) := by
  unfold Eval.verdictOf
  split
  · exact h.pure _
  · exact h.pure _
  · exact h.failWith (by exact fun _ => trivial) _

/-! ### Values in a text -/

open RowLang.Format

/-- One directive of a format is of the sort. -/
theorem convert (h : ClosedIn host C) (room : Nat) (d : Text.Directive) (index : Nat) (left : Bool)
    (width : Nat) (precision : Option Nat) (c : Nat) (v : Value) :
    C (convert host room d index left width precision c v) := by
  unfold Format.convert
  dsimp only
  split
  · exact h.bind (h.written _ v) fun _ => h.pure _
  split
  · exact h.bind (h.faulty _) fun _ => h.pure _
  split
  · exact h.bind (h.faulty _) fun _ => h.pure _
  split
  · exact h.bind (h.faulty _) fun _ => h.pure _
  split
  · exact h.bind (h.faulty _) fun _ => h.pure _
  · exact h.throw trivial

theorem fill (h : ClosedIn host C) (d : Text.Directive) (index : Nat) (s : Supply) :
    C (fill host d index s) := by
  unfold Format.fill
  refine h.bind h.room fun _ => h.bind (h.faulty _) fun (left, width, s) =>
    h.bind (h.faulty _) fun (precision, s) => ?_
  dsimp only
  unfold Format.fillSized
  split
  · exact h.throw trivial
  · exact h.bind (h.faulty _) fun (v, s) => h.bind (h.convert _ _ _ _ _ _ _ v) fun _ => h.pure _

variable {find : List Nat → Option (Running σ Value)}

theorem supplyOf (h : ClosedIn host C) (hfind : ∀ codes m, find codes = some m → C m)
    (key : Text.Key) (supply : Supply) : C (supplyOf find key supply) := by
  unfold Format.supplyOf
  split
  · exact h.pure _
  · split <;> exact h.throw trivial
  · split
    case h_1 m hm => exact h.bind (hfind _ m hm) fun _ => h.pure _
    case h_2 => exact h.throw trivial

/-- All directives of a format are of the sort, if looking values up is. -/
theorem fillAll (h : ClosedIn host C) (hfind : ∀ codes m, find codes = some m → C m)
    (total fuel : Nat) :
    ∀ (supply : Supply) (s : List Nat), C (fillAll host find total fuel supply s) := by
  induction fuel with
  | zero => exact fun supply s => h.pure _
  | succ fuel ih =>
    intro supply s
    unfold Format.fillAll
    split
    · exact h.pure _
    · exact h.bind (ih _ _) fun _ => h.pure _
    · dsimp only
      exact h.bind (h.supplyOf hfind _ _) fun _ => h.bind (h.fill _ _ _) fun _ =>
        h.bind (ih _ _) fun _ => h.pure _
    · exact h.bind (ih _ _) fun _ => h.pure _

/-- What a record has under a key is looked up in that record alone. -/
theorem lookupIn (h : ClosedIn host C) {lookup : Nat → Label → Running σ Value} {v : Value}
    (hlookup : ∀ a l, v = .record a → C (lookup a l)) {codes : List Nat} {m : Running σ Value}
    (hm : lookupIn lookup v codes = some m) : C m := by
  unfold Format.lookupIn at hm
  split at hm
  · cases hm
    exact h.throw trivial
  · split at hm <;> cases hm
    · exact hlookup _ _ rfl
    · exact h.throw trivial
  · cases hm

/-- **Formatting a text** is of the sort. -/
theorem format (h : ClosedIn host C) {lookup : Nat → Label → Running σ Value} {v : Value}
    (hlookup : ∀ a l, v = .record a → C (lookup a l)) (own fresh : Origin) (s : List Nat) :
    C (format host lookup own fresh s v) := by
  unfold Format.format
  refine h.bind (h.fillAll (fun codes m => h.lookupIn hlookup) _ _ _ _) fun (pieces, supply) => ?_
  dsimp only
  split
  · exact h.bind (h.throw trivial) fun _ => h.pure _
  · exact h.pure _

/-- **What an operator with two operands does** is of the sort. -/
theorem calculate (h : ClosedIn host C) {lookup : Nat → Label → Running σ Value} {x y : Value}
    (hlookup : ∀ a l, y = .record a → C (lookup a l)) (o : Operator) :
    C (calculate host lookup o x y) := by
  unfold Eval.calculate
  refine h.bind h.birth fun _ => ?_
  split
  · exact h.faulty _
  · exact h.faulty _
  · exact h.faulty _
  · exact h.bind h.room fun _ => h.faulty _
  · exact h.faulty _
  · split
    · exact h.format hlookup _ _ _
    · exact h.faulty _
  · exact h.pure _
  · exact h.bind (h.faulty _) fun _ => h.pure _
  · exact h.throw trivial

end ClosedIn

end Eval

end RowLang
