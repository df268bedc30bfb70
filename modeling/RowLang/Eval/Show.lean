import RowLang.Eval.World
import RowLang.Expr.Printer

/-!
# Eval/Show — values in messages and texts

A message describes functions, records and lists by a word, a tagged value by its label, and
anything else in full.  In full, a record shows the values that are computed already and three dots
for the others, so a record that reaches itself through computed fields has no end.  A dispatcher
shows where it is kept.
-/

namespace RowLang

namespace Value

/-- A value in full, following at most `depth` values inside one another. -/
def fullChars (w : World) : Nat → Value → Except Failure (List Char)
  | 0, _ => .error .tooDeep
  | depth + 1, v =>
    match v with
    | .int _ i =>
      if Decimal.writable i then .ok (Decimal.intChars i) else .error (.bare .integerTooLong)
    | .real _ x => .ok x.chars
    | .text _ codes => .ok (Text.quotedCodes codes)
    | .list _ items => do
      return '[' :: commaSeparated (← items.mapM (fullChars w depth)) ++ [']']
    | .tuple _ [item] => do return '(' :: (← fullChars w depth item) ++ [',', ')']
    | .tuple _ items => do
      return parenthesize true (commaSeparated (← items.mapM (fullChars w depth)))
    | .tagged _ ⟨l, _⟩ payload => do
      return "Tagged(label=".toList ++ (Text.quoted l).toList ++ ", value=".toList ++
        (← fullChars w depth payload) ++ [')']
    | .record address => do
      let fields ← LazyRow.snapshot (w.row address) |>.mapM fun (l, v) => do
        match v with
        | some v => return labelled (l, ← fullChars w depth v)
        | none => return labelled (l, ['.', '.', '.'])
      return '{' :: commaSeparated fields ++ ['}']
    | .operator o => .ok ("<primitive ".toList ++ o.spelling.toList ++ ['>'])
    | .waiting _ o _ => .ok ("<primitive ".toList ++ o.spelling.toList ++ ['>'])
    | .tagger _ tag => .ok ('#' :: tag.label.toList)
    | .closure _ _ p body =>
      match body.expr.unranked? with
      | some why => .error (.bare (.unranked why))
      | none => .ok ("<closure ".toList ++ (Expr.lambda p body.expr).chars ++ ['>'])
    | .dispatcher origin .. =>
      .ok ("<weblang.evaluator.Dispatcher object at 0x".toList ++
        Nat.toDigits 16 (w.machine.address origin) ++ ['>'])

/-- How deep a value is shown. -/
def showDepth : Nat := 2000

/-- A value as messages describe it. -/
def describe (w : World) (v : Value) : Except Failure String :=
  match v with
  | .tagged _ tag _ => .ok ("#" ++ tag.label)
  | .record _ => .ok "a record"
  | .list .. => .ok "a list"
  | v =>
    if v.isProcedure then .ok "a function"
    else (fullChars w showDepth v).map String.ofList

end Value

namespace World

/-- A value in full. -/
def full (v : Value) : Evaluating (List Char) := do
  match v.fullChars (← get) Value.showDepth with
  | .ok cs => return cs
  | .error e => throw e

/-- Fail with a description of a value. -/
def failWith {α : Type} (make : String → Failure) (v : Value) : Evaluating α := do
  match v.describe (← get) with
  | .ok shown => throw (make shown)
  | .error e => throw e

end World

/-! ## Values in texts -/

namespace Format

/-- A part of the text that comes out, with the origin of the text that it is, if it is one. -/
structure Piece where
  codes : List Nat
  origin? : Option Origin := none

/-- Characters as code points. -/
def codes (cs : List Char) : List Nat := cs.map Char.toNat

/-- Non-ASCII characters by their numbers. -/
def asciiOnly (cs : List Char) : List Char :=
  cs.flatMap fun c =>
    let n := c.toNat
    if n < 0x80 then [c]
    else if n < 0x100 then '\\' :: 'x' :: Text.hexChars 2 n
    else if n < 0x10000 then '\\' :: 'u' :: Text.hexChars 4 n
    else '\\' :: 'U' :: Text.hexChars 8 n

/-- A value as the conversions `s`, `r` and `a` write it. -/
def written (conversion : Char) (v : Value) : Evaluating Piece := do
  match conversion, v with
  | 's', .text o cs => return ⟨cs, some o⟩
  | 'a', v => return ⟨codes (asciiOnly (← World.full v)), none⟩
  | _, v => return ⟨codes (← World.full v), none⟩

end Format

/-! ## Where evaluation takes place -/

/-- Where evaluation takes place.  A host has a world, and may keep what it observes or give up. -/
structure Host (σ : Type) where
  /-- An operation on the world. -/
  plainly {α : Type} (m : Evaluating α) : Running σ α
  /-- Fail with a description of a value. -/
  failWith {α : Type} (make : String → Failure) (v : Value) : Running σ α
  /-- A value as the conversions `s`, `r` and `a` write it. -/
  written (conversion : Char) (v : Value) : Running σ Format.Piece
  /-- The call of a resolver for a module. -/
  calling (n : Nat) (name : String) (m : Running σ (Option Value)) : Running σ (Option Value)
  /-- The computation of a module for a resolver. -/
  computing (n : Nat) (name : String) (m : Running σ Value) : Running σ Value

/-- The world by itself. -/
def Host.plain : Host World where
  plainly m := m
  failWith := World.failWith
  written := Format.written
  calling _ _ m := m
  computing _ _ m := m

@[simp] theorem Host.plainly_plain {α : Type} (m : Evaluating α) : plain.plainly m = m := rfl

end RowLang
