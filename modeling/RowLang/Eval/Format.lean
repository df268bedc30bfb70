import RowLang.Binary64.Places
import RowLang.Eval.Show
import RowLang.Text.Directive
import RowLang.Value.Arith

/-!
# Eval/Format — a text with values filled in

The remainder of a text by a value fills the value into the text's directives.  A tuple supplies one
value per directive; any other value supplies itself once; a record supplies its fields by key.  Two
percent signs side by side stand for one.
-/

namespace RowLang.Format

open RowLang.Text (Directive Extent)

/-- The values that are still to be filled in. -/
inductive Supply where
  | several (items : List Value)
  | single (v : Value)
  | used

/-- The values of an argument. -/
def Supply.ofValue (v : Value) : Supply :=
  match v.tupleItems? with
  | some items => several items
  | none => single v

/-- Whether nothing is left. -/
def Supply.isUsed : Supply → Bool
  | several items => items.isEmpty
  | single _ => false
  | used => true

/-- The next value to be filled in. -/
def Supply.next : Supply → Except Fault (Value × Supply)
  | several (v :: items) => .ok (v, several items)
  | several [] => .error .formatTooFew
  | single v => .ok (v, used)
  | used => .error .formatTooFew

/-! ## Numbers -/

/-- A number as text: its sign, the mark of its base, and its digits. -/
structure Numeric where
  negative : Bool
  base : List Char
  digits : List Char

/-- The digits of a number in base 8 or 16. -/
def baseDigits (conversion : Char) (n : Nat) : List Char :=
  match conversion with
  | 'o' => Nat.toDigits 8 n
  | 'X' => (Nat.toDigits 16 n).map Char.toUpper
  | _ => Nat.toDigits 16 n

/-- The integer that a real conversion takes from a value. -/
def integerOf (conversion : Char) (v : Value) : Except Fault Int :=
  match v with
  | .text .. => .error (.formatNeedsReal conversion v.kind)
  | v =>
    match v.number? with
    | some _ => v.toInt
    | none => .error (.formatNeedsReal conversion v.kind)

/-- The least number of digits that a precision sets. -/
def leastDigits (room : Nat) : Option Nat → Except Fault Nat
  | none => .ok 0
  | some n =>
    if Value.wordBound - 3 ≤ n then .error .formatPrecisionTooLarge
    else if room ≤ n then .error .outOfMemory
    else .ok n

/-- A whole number in decimal, with at least as many digits as the precision sets. -/
def decimal (room : Nat) (conversion : Char) (precision : Option Nat) (v : Value) :
    Except Fault Numeric := do
  let i ← integerOf conversion v
  let least ← leastDigits room precision
  if Decimal.writable i then
    return ⟨i < 0, [], Binary64.padZeros least (Decimal.natChars i.natAbs)⟩
  else .error .integerTooLong

/-- A whole number in another base, with at least as many digits as the precision sets. -/
def based (room : Nat) (conversion : Char) (alternate : Bool) (precision : Option Nat) (v : Value) :
    Except Fault Numeric :=
  match v with
  | .int _ i => do
    let least ← leastDigits room precision
    return ⟨i < 0, if alternate then ['0', conversion] else [],
      Binary64.padZeros least (baseDigits conversion i.natAbs)⟩
  | v => .error (.formatNeedsInteger conversion v.kind)

/-- The digits of a real in one of the conversions `e`, `f` and `g`. -/
def realDigits (conversion : Char) (alternate : Bool) (precision : Nat)
    (x : Binary64) : List Char :=
  let cs := match x with
    | .undefined => "nan".toList
    | .infinite _ => "inf".toList
    | x =>
      match conversion.toLower with
      | 'e' => Binary64.scientificChars alternate precision x
      | 'f' => Binary64.fixedChars alternate precision x
      | _ => Binary64.generalChars alternate precision x
  if conversion.isUpper then cs.map Char.toUpper else cs

/-- A real number; six places if no precision is set. -/
def real (conversion : Char) (alternate : Bool) (precision : Option Nat) (v : Value) :
    Except Fault Numeric := do
  let x ← match v.number? with
    | some (.int i) => Value.toReal i
    | some (.real x) => .ok x
    | none => .error (.formatNotReal v.kind)
  return ⟨x.isNegative, [], realDigits conversion alternate (precision.getD 6) x⟩

/-- The sign of a number in front of its digits. -/
def signChars (d : Directive) (negative : Bool) : List Char :=
  if negative then ['-'] else if d.signed then ['+'] else if d.spaced then [' '] else []

/-- Blanks on one side up to a width. -/
def align (left : Bool) (width : Nat) (codes : List Nat) : List Nat :=
  let blanks := List.replicate (width - codes.length) 0x20
  if left then codes ++ blanks else blanks ++ codes

/-- A number in its place; zeros may fill it between the sign and the digits. -/
def placeNumeric (d : Directive) (left : Bool) (width : Nat) (n : Numeric) : List Nat :=
  let front := signChars d n.negative ++ n.base
  let digits :=
    if d.zeroPadded && !left then Binary64.padZeros (width - front.length) n.digits else n.digits
  align left width (codes (front ++ digits))

/-! ## Filling in -/

/-- The one character that a value is or numbers. -/
def characterOf (v : Value) : Except Fault Nat :=
  match v with
  | .text _ [c] => .ok c
  | .int _ i => if 0 ≤ i && i < 0x110000 then .ok i.toNat else .error .formatNoSuchCharacter
  | _ => .error .formatNeedsCharacter

/-- A width, with the side that it aligns to. -/
def resolveWidth (room : Nat) (d : Directive) (s : Supply) : Except Fault (Bool × Nat × Supply) :=
  match d.width with
  | .unset => .ok (d.leftAligned, 0, s)
  | .size n =>
    if room ≤ n then .error .outOfMemory else .ok (d.leftAligned, n, s)
  | .excessive => .error .formatTooWide
  | .star => do
    let (v, s) ← s.next
    match v with
    | .int _ i =>
      if -Value.indexBound ≤ i && i < Value.indexBound then
        return (d.leftAligned || i < 0, i.natAbs, s)
      else .error .tooLargeForLength
    | _ => .error .formatStar

/-- A precision, if there is one. -/
def resolvePrecision (d : Directive) (s : Supply) : Except Fault (Option Nat × Supply) :=
  match d.precision with
  | .unset => .ok (none, s)
  | .size n => .ok (some n, s)
  | .excessive => .error .formatTooPrecise
  | .star => do
    let (v, s) ← s.next
    match v with
    | .int _ i =>
      if -Value.wordBound ≤ i && i < Value.wordBound then return (some i.toNat, s)
      else .error .tooLargeForCode
    | _ => .error .formatStar

/-- An unknown conversion, by its character and its place in the text. -/
def unknown (c index : Nat) : Fault :=
  let shown := if 31 ≤ c && c ≤ 126 then String.singleton (Char.ofNat c) else "?"
  .formatUnknown shown (String.ofList (Nat.toDigits 16 c)) index

/-- The text of some pieces.  The last one may be the whole of it. -/
def Piece.together (fresh : Origin) (ps : List Piece) : Value :=
  let origin := match ps.dropWhile (·.codes.isEmpty) with
    | [p] => p.origin?.getD fresh
    | _ => fresh
  .text origin (ps.flatMap (·.codes))

/-- What was written, cut to a precision and aligned; it stays the text that it is if that changes
nothing and no sign is called for. -/
def Piece.place (p : Piece) (d : Directive) (left : Bool) (width : Nat) (precision : Option Nat) :
    Piece :=
  let cs := match precision with
    | some n => p.codes.take n
    | none => p.codes
  let kept := cs.length = p.codes.length && width ≤ cs.length && !d.signed && !d.spaced
  ⟨align left width cs, if kept then p.origin? else none⟩

section Filling

variable {σ : Type} (h : Host σ)

/-- What a conversion makes of a value. -/
def convert (room : Nat) (d : Directive) (index : Nat) (left : Bool) (width : Nat)
    (precision : Option Nat) (c : Nat) (v : Value) : Running σ Piece :=
  let conversion := Char.ofNat c
  if ['s', 'r', 'a'].contains conversion then
    return (← h.written conversion v).place d left width precision
  else if ['d', 'i', 'u'].contains conversion then
    return ⟨placeNumeric d left width (← World.faulty (decimal room conversion precision v)), none⟩
  else if ['o', 'x', 'X'].contains conversion then
    return ⟨placeNumeric d left width
      (← World.faulty (based room conversion d.alternate precision v)), none⟩
  else if ['e', 'E', 'f', 'F', 'g', 'G'].contains conversion then
    return ⟨placeNumeric d left width
      (← World.faulty (real conversion d.alternate precision v)), none⟩
  else if conversion = 'c' then
    return ⟨align left width [← World.faulty (characterOf v)], none⟩
  else throw (.bare (unknown c index))

/-- One directive filled in, once its width and its precision are known. -/
def fillSized (room : Nat) (d : Directive) (index : Nat) (left : Bool) (width : Nat)
    (precision : Option Nat) (s : Supply) : Running σ (Piece × Supply) :=
  match d.conversion with
  | none => throw (.bare .formatUnfinished)
  | some c => do
    let (v, s) ← World.faulty s.next
    return (← convert h room d index left width precision c v, s)

/-- One directive filled in. -/
def fill (d : Directive) (index : Nat) (s : Supply) : Running σ (Piece × Supply) := do
  let room ← h.plainly World.room
  let (left, width, s) ← World.faulty (resolveWidth room d s)
  let (precision, s) ← World.faulty (resolvePrecision d s)
  fillSized h room d index left width precision s

/-- What is to be filled in from a directive on: the value under its key, if it has one. -/
def supplyOf (find : List Nat → Option (Running σ Value)) (key : Text.Key) (supply : Supply) :
    Running σ Supply := do
  match key with
  | .none => return supply
  | .unfinished =>
    if (find []).isNone then throw (.bare .formatNeedsMapping)
    else throw (.bare .formatKeyUnfinished)
  | .named codes =>
    match find codes with
    | some value => return .single (← value)
    | none => throw (.bare .formatNeedsMapping)

/-- A text of `total` characters with its directives filled in, from a rest of it on; `find` finds
the value of a key. -/
def fillAll (find : List Nat → Option (Running σ Value)) (total : Nat) :
    Nat → Supply → List Nat → Running σ (List Piece × Supply)
  | 0, supply, _ => return ([], supply)
  | fuel + 1, supply, s => do
    match s with
    | [] => return ([], supply)
    | 0x25 :: 0x25 :: s =>
      let (more, supply) ← fillAll find total fuel supply s
      return (⟨[0x25], none⟩ :: more, supply)
    | 0x25 :: s =>
      let (d, rest) := Directive.read s
      let supply ← supplyOf find d.key supply
      let (piece, supply) ← fill h d (total - rest.length - 1) supply
      let (more, supply) ← fillAll find total fuel supply rest
      return (piece :: more, supply)
    | c :: s =>
      let (more, supply) ← fillAll find total fuel supply s
      return (⟨[c], none⟩ :: more, supply)

/-- What a directive finds under its key in a value; nothing if the value has no keys. -/
def lookupIn (lookup : Nat → Label → Running σ Value) (v : Value) (key : List Nat) :
    Option (Running σ Value) :=
  match v with
  | .list .. => some (throw (.bare .indexedByText))
  | .record address =>
    match Value.characters? key with
    | some cs => some (lookup address (String.ofList cs))
    | none => some (throw (.bare (.noKey (String.ofList (Text.quotedCodes key)))))
  | _ => none

/-- **A text with a value filled in.**  `lookup` finds what a record has under a key; `own` is the
origin of the text, and `fresh` that of another one. -/
def format (lookup : Nat → Label → Running σ Value) (own fresh : Origin) (s : List Nat)
    (v : Value) :
    Running σ Value := do
  let find := lookupIn lookup v
  let (pieces, supply) ← fillAll h find s.length (s.length + 1) (.ofValue v) s
  if !supply.isUsed && (find []).isNone then throw (.bare .formatTooMany)
  return if s.contains 0x25 then Piece.together fresh pieces else .text own s

end Filling

end RowLang.Format
