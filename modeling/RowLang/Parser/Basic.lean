import RowLang.Value.Fault

/-!
# Parser/Basic — parsers as lists of readings

A parser takes a text to its readings: the pairs of a result and the text that is left.  No reading
is failure and several are ambiguity.  Two ways to choose exist on purpose: `choice` keeps the
readings of every alternative, `firstOf` commits to the first alternative that has any.  A parser
can be repeated (`many`) and a grammar can refer to itself (`knot`).

A parser can also stop the whole parse (`Halt`); then no alternative is tried.
-/

namespace RowLang

/-- Why a parse stops altogether. -/
inductive Halt where
  /-- A repetition that would go on without consuming anything. -/
  | endless
  /-- What was read denotes no value, as an integer literal with too many digits. -/
  | fault (f : Fault)
  deriving DecidableEq, Repr, Inhabited

/-- The readings of a text: results, each with the text that is left. -/
abbrev Readings (α : Type) := List (α × List Char)

/-- A parser takes a text to its readings, or stops the parse. -/
def Parser (α : Type) : Type := List Char → Except Halt (Readings α)

namespace Parser

variable {α β γ : Type}

/-- One reading, of nothing. -/
protected def pure (x : α) : Parser α := fun s => .ok [(x, s)]

/-- No reading. -/
def fail : Parser α := fun _ => .ok []

/-- The parse stops. -/
def halt (h : Halt) : Parser α := fun _ => .error h

/-- Each reading is read on, and what comes of them is kept in order. -/
def readOn (f : α → Parser β) : Readings α → Except Halt (Readings β)
  | [] => .ok []
  | (x, rest) :: more => do
    let here ← f x rest
    let after ← readOn f more
    return here ++ after

/-- Read `p`, then what its result calls for. -/
protected def bind (p : Parser α) (f : α → Parser β) : Parser β := fun s => do
  readOn f (← p s)

/-- The readings of `p` with their results changed. -/
protected def map (f : α → β) (p : Parser α) : Parser β := fun s => do
  return (← p s).map fun r => (f r.1, r.2)

/-- The readings of `p` with their results converted; a fault of one of them stops the parse. -/
def convert (f : α → Except Fault β) (p : Parser α) : Parser β :=
  p.bind fun x =>
    match f x with
    | .ok y => Parser.pure y
    | .error e => halt (.fault e)

instance : Monad Parser where
  pure := Parser.pure
  bind := Parser.bind
  map := Parser.map

/-- Read `p`, forget its result, then read `q`. -/
def before (p : Parser α) (q : Parser β) : Parser β := p.bind fun _ => q

/-- Read `p`, then `q`, and keep the result of `p`. -/
def endedBy (p : Parser α) (q : Parser β) : Parser α := p.bind fun x => q.map fun _ => x

/-- Read `p` and then `q`. -/
def both (p : Parser α) (q : Parser β) : Parser (α × β) := p.bind fun x => q.map fun y => (x, y)

/-- Read each in turn and list the results. -/
def sequence : List (Parser α) → Parser (List α)
  | [] => Parser.pure []
  | p :: ps => p.bind fun x => (sequence ps).map (x :: ·)

/-- The readings of every alternative. -/
def choice : List (Parser α) → Parser α
  | [], _ => .ok []
  | p :: ps, s => do
    let here ← p s
    let others ← choice ps s
    return here ++ others

/-- The readings of the first alternative that has any. -/
def firstOf : List (Parser α) → Parser α
  | [], _ => .ok []
  | p :: ps, s => do
    match ← p s with
    | [] => firstOf ps s
    | readings => return readings

/-- The readings of `p`, or else `x` of nothing. -/
def optional (p : Parser α) (x : α) : Parser α := firstOf [p, Parser.pure x]

/-! ## Readings of the primitives -/

@[simp] theorem pure_apply (x : α) (s : List Char) : (Parser.pure x : Parser α) s = .ok [(x, s)] :=
  rfl

@[simp] theorem fail_apply (s : List Char) : (fail : Parser α) s = .ok [] := rfl

@[simp] theorem readOn_nil (f : α → Parser β) : readOn f [] = .ok [] := rfl

@[simp] theorem readOn_singleton (f : α → Parser β) (x : α) (rest : List Char) :
    readOn f [(x, rest)] = f x rest := by
  cases h : f x rest <;> simp [readOn, h, bind, Except.bind, pure, Except.pure]

theorem bind_of_singleton {p : Parser α} {f : α → Parser β} {s rest : List Char} {x : α}
    (h : p s = .ok [(x, rest)]) : p.bind f s = f x rest := by
  simp [Parser.bind, h, bind, Except.bind]

theorem bind_of_none {p : Parser α} {f : α → Parser β} {s : List Char} (h : p s = .ok []) :
    p.bind f s = .ok [] := by
  simp [Parser.bind, h, bind, Except.bind]

theorem map_of_singleton {p : Parser α} {f : α → β} {s rest : List Char} {x : α}
    (h : p s = .ok [(x, rest)]) : p.map f s = .ok [(f x, rest)] := by
  simp [Parser.map, h, bind, Except.bind, pure, Except.pure]

end Parser

end RowLang

/-!
## Greedy repetition

`many p` reads `p` as often as it can.  While `p` has one reading the repetition walks on, and it
stops before a reading that consumes nothing.  Where `p` has several, each is continued on its own;
there a reading that consumes nothing would be repeated for ever, and the parse stops as endless.
-/

namespace RowLang.Parser

variable {α β : Type}

/-- At most `fuel` repetitions of `p`.  Several readings are continued one after the other. -/
def manyWithin (p : Parser α) : Nat → Parser (List α)
  | 0, _ => .error .endless
  | fuel + 1, s => do
    match ← p s with
    | [] => return [([], s)]
    | [(x, rest)] =>
      if rest = s then return [([], s)]
      else (manyWithin p fuel).map (x :: ·) rest
    | readings =>
      readOn (fun x rest =>
        if rest.length < s.length then (manyWithin p fuel).map (x :: ·) rest
        else .error .endless) readings

/-- `p` as often as it can be read. -/
def many (p : Parser α) : Parser (List α) := fun s => manyWithin p (s.length + 1) s

/-- `p` as often as it can be read, at least once. -/
def many1 (p : Parser α) : Parser (List α) := p.bind fun x => (many p).map (x :: ·)

/-- One or more `p`, with `sep` between them. -/
def sepBy1 (sep : Parser β) (p : Parser α) : Parser (List α) :=
  p.bind fun x => (many (sep.before p)).map (x :: ·)

/-- Any number of `p`, with `sep` between them. -/
def sepBy (sep : Parser β) (p : Parser α) : Parser (List α) :=
  firstOf [sepBy1 sep p, Parser.pure []]

end RowLang.Parser

/-!
## Recursive grammars

A grammar refers to itself.  `knot step` ties the knot: `step` gets the grammar and returns it, for
each of its nonterminals.  On a text the grammar is unrolled as often as the text is long, and once
more: that is enough if it enters itself again on shorter texts only.
-/

namespace RowLang.Parser

variable {ι α : Type}

/-- The grammar unrolled `n` times; below that it is not entered. -/
def unroll (step : (ι → Parser α) → ι → Parser α) : Nat → ι → Parser α
  | 0, _, _ => .error .endless
  | n + 1, i, s => step (unroll step n) i s

/-- The grammar that refers to itself through `step`. -/
def knot (step : (ι → Parser α) → ι → Parser α) (i : ι) : Parser α :=
  fun s => unroll step (s.length + 1) i s

end RowLang.Parser
