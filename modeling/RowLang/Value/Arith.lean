import RowLang.Binary64.Arith
import RowLang.Text.Class
import RowLang.Text.Quoted
import RowLang.Value.Basic
import RowLang.Value.Fault

/-!
# Value/Arith — arithmetic, joining, repeating and conversion

Two integers are calculated with exactly; an integer that meets a real becomes one.  Sums also join
texts, lists and tuples, and products also repeat them.  Each operation takes the origin of what it
makes; where nothing has to be made, the result is the operand itself, with the origin that it has.
-/

namespace RowLang.Value

/-- The number that a value is, if it is one. -/
def number? : Value → Option Numeral
  | int _ i => some (.int i)
  | real _ x => some (.real x)
  | _ => none

/-- An integer as a real, if it is not too large. -/
def toReal (i : Int) : Except Fault Binary64 :=
  match Binary64.ofInt? i with
  | some x => .ok x
  | none => .error .tooLargeForReal

/-- A calculation on two numbers, of integers or of reals. -/
def calculate (origin : Origin) (onInts : Int → Int → Except Fault Value)
    (onReals : Binary64 → Binary64 → Except Fault Binary64) : Numeral → Numeral → Except Fault Value
  | .int i, .int j => onInts i j
  | .int i, .real y => do return real origin (← onReals (← toReal i) y)
  | .real x, .int j => do return real origin (← onReals x (← toReal j))
  | .real x, .real y => do return real origin (← onReals x y)

/-! ## Sums and differences -/

/-- The origin of two sequences joined: that of one, if the other is empty and it may be shared. -/
def joinedOrigin {α : Type} (fresh : Origin) (xs ys : List α)
    (left right : Option Origin) : Origin :=
  if xs.isEmpty then right.getD fresh else if ys.isEmpty then left.getD fresh else fresh

/-- The origin of a tuple; a tagged value is no tuple but only counts as one. -/
def tupleOrigin? : Value → Option Origin
  | tuple o _ => some o
  | _ => none

/-- Two texts, lists or tuples joined. -/
def join (origin : Origin) (x y : Value) : Except Fault Value :=
  match x, y with
  | text o s, text o' t => .ok (text (joinedOrigin origin s t (some o) (some o')) (s ++ t))
  | text _ _, y => .error (.cannotConcatenate "str" y.kind)
  | list _ xs, list _ ys => .ok (list origin (xs ++ ys))
  | list _ _, y => .error (.cannotConcatenate "list" y.kind)
  | x, y =>
    match x.tupleItems?, y.tupleItems? with
    | some xs, some ys =>
      .ok (tuple (joinedOrigin origin xs ys x.tupleOrigin? y.tupleOrigin?) (xs ++ ys))
    | some _, none => .error (.cannotConcatenate "tuple" y.kind)
    | none, _ => .error (.unsupported "+" x.kind y.kind)

/-- The sum of two numbers, or two texts, lists or tuples joined. -/
def add (origin : Origin) (x y : Value) : Except Fault Value :=
  match x.number?, y.number? with
  | some m, some n =>
    calculate origin (fun i j => .ok (int origin (i + j))) (fun a b => .ok (a.add b)) m n
  | _, _ => join origin x y

/-- The difference of two numbers. -/
def subtract (origin : Origin) (x y : Value) : Except Fault Value :=
  match x.number?, y.number? with
  | some m, some n =>
    calculate origin (fun i j => .ok (int origin (i - j))) (fun a b => .ok (a.sub b)) m n
  | _, _ => .error (.unsupported "-" x.kind y.kind)

/-! ## Products -/

/-- The bound of the integers that count and index. -/
def indexBound : Int := 0x8000000000000000

/-- The bound of the integers that number characters and set precisions. -/
def wordBound : Int := 0x80000000

/-- A list `n` times over. -/
def repeated {α : Type} (xs : List α) (n : Int) : List α :=
  (List.replicate n.toNat xs).flatten

/-- The origin of something repeated: its own, if it may be shared and is there once. -/
def repeatedOrigin (fresh : Origin) (own : Option Origin) (n : Int) : Origin :=
  if n = 1 then own.getD fresh else fresh

/-- A text, list or tuple repeated, if `x` is one, where there is room for less than `room` entries.
-/
def repeat? (room : Nat) (origin : Origin) (x count : Value) : Option (Except Fault Value) :=
  let times (length : Nat) (excess : Fault) (make : Int → Value) : Except Fault Value :=
    match count with
    | int _ n =>
      if n < -indexBound || indexBound ≤ n then .error .tooLargeForIndex
      else if indexBound ≤ length * n then .error excess
      else if room ≤ length * n then .error .outOfMemory
      else .ok (make n)
    | y => .error (.repeatedBy y.kind)
  match x with
  | text o s =>
    some (times s.length .textTooLong fun n =>
      text (repeatedOrigin origin (some o) n) (repeated s n))
  | list _ xs => some (times xs.length .outOfMemory fun n => list origin (repeated xs n))
  | x =>
    x.tupleItems?.map fun xs =>
      times xs.length .outOfMemory fun n =>
        tuple (repeatedOrigin origin x.tupleOrigin? n) (repeated xs n)

/-- The product of two numbers, or a text, list or tuple repeated. -/
def multiply (room : Nat) (origin : Origin) (x y : Value) : Except Fault Value :=
  match x.number?, y.number? with
  | some m, some n =>
    calculate origin (fun i j => .ok (int origin (i * j))) (fun a b => .ok (a.mul b)) m n
  | _, _ =>
    match repeat? room origin x y, repeat? room origin y x with
    | some r, _ => r
    | none, some r => r
    | none, none => .error (.unsupported "*" x.kind y.kind)

/-! ## Quotients and remainders -/

/-- The quotient of two numbers, always a real. -/
def divide (origin : Origin) (x y : Value) : Except Fault Value :=
  match x.number?, y.number? with
  | some m, some n =>
    calculate origin
      (fun i j =>
        if j = 0 then .error .divisionByZero
        else match Binary64.ofQuotient? i j with
          | some q => .ok (real origin q)
          | none => .error .quotientTooLarge)
      (fun a b => if b.isZero then .error .realDivisionByZero else .ok (a.div b)) m n
  | _, _ => .error (.unsupported "/" x.kind y.kind)

/-- An integer without its sign in words of thirty bits: their number, and the topmost one. -/
def words (i : Int) : Nat × Nat :=
  let count := i.natAbs.log2 / 30 + 1
  (count, i.natAbs / Decimal.twoTo (30 * (count - 1)))

/-- The origin of the remainder of two integers.  A dividend that is seen to be below the divisor by
the number of its words or by the topmost one is its own remainder, if the signs agree. -/
def remainderOrigin (fresh : Origin) (x : Value) (i j : Int) : Origin :=
  let (m, a) := words i
  let (n, b) := words j
  match x with
  | int o _ => if 1 < n && (m < n || m = n && a < b) && (i < 0) = (j < 0) then o else fresh
  | _ => fresh

/-- The remainder of two numbers, with the sign of the divisor. -/
def remainder (origin : Origin) (x y : Value) : Except Fault Value :=
  match x.number?, y.number? with
  | some m, some n =>
    calculate origin
      (fun i j =>
        if j = 0 then .error .integerModulo
        else .ok (int (remainderOrigin origin x i j) (i.fmod j)))
      (fun a b => if b.isZero then .error .realModulo else .ok (a.mod b)) m n
  | _, _ => .error (.unsupported "%" x.kind y.kind)

/-! ## Integers from values -/

/-- Digits with single underscores between them, without the underscores. -/
def digitRun : List Char → Option (List Char)
  | [] => none
  | [c] => if Text.isDecimal c then some [c] else none
  | c :: '_' :: s => if Text.isDecimal c then (digitRun s).map (c :: ·) else none
  | c :: s => if Text.isDecimal c then (digitRun s).map (c :: ·) else none

/-- The blanks that may stand around a numeral; the information separators may not. -/
def aroundNumeral (c : Char) : Bool :=
  Text.isBlank c && !(0x1c ≤ c.toNat && c.toNat ≤ 0x1f)

/-- The characters of a text, if it has no lone surrogate. -/
def characters? (codes : List Nat) : Option (List Char) :=
  codes.mapM fun n => if h : n.isValidChar then some (Char.ofNatAux n h) else none

/-- The integer that a text denotes: perhaps a sign, then digits, with blanks around.  The number of
the digits is looked at before what follows them. -/
def readInt (codes : List Nat) : Except Fault Int :=
  match characters? codes with
  | none => .error (.badNumeral (Text.quotedBriefly codes))
  | some cs =>
    let (negative, cs) := match cs.dropWhile aroundNumeral with
      | '-' :: t => (true, t)
      | '+' :: t => (false, t)
      | t => (false, t)
    let (run, rest) := cs.span fun c => Text.isDecimal c || c = '_'
    match digitRun run with
    | none => .error (.badNumeral (Text.quotedBriefly codes))
    | some ds =>
      if Decimal.digitLimit < ds.length then .error (.numeralTooLong ds.length)
      else if rest.all aroundNumeral then
        let n : Int := Decimal.natOfDigits ds
        .ok (if negative then -n else n)
      else .error (.badNumeral (Text.quotedBriefly codes))

/-- The integer that a value amounts to: a real loses its fraction, a text is read. -/
def toInt : Value → Except Fault Int
  | int _ i => .ok i
  | real _ (.infinite _) => .error .infinityToInteger
  | real _ .undefined => .error .undefinedToInteger
  | real _ x => .ok x.truncate
  | text _ codes => readInt codes
  | x => .error (.notNumeric x.kind)

/-! ## Sizes, counts and characters -/

/-- The integers from zero below the one that a value amounts to. -/
def countUp (room : Nat) (origin : Origin) (x : Value) : Except Fault Value := do
  let n ← x.toInt
  if indexBound ≤ n then .error .tooLargeForLength
  else if room ≤ n then .error .outOfMemory
  else return list origin ((List.range n.toNat).map fun (i : Nat) => int (origin.part i) i)

/-- The code point of a character. -/
def ord (origin : Origin) : Value → Except Fault Value
  | text _ [c] => .ok (int origin c)
  | text _ codes => .error (.notOneCharacter codes.length)
  | x => .error (.notCharacter x.kind)

/-- The character of a code point. -/
def chr (origin : Origin) (x : Value) : Except Fault Value := do
  let n ← x.toInt
  if n < -wordBound || wordBound ≤ n then .error .tooLargeForCode
  else if n < 0 || 0x110000 ≤ n then .error .noSuchCharacter
  else return text origin [n.toNat]

end RowLang.Value
