import RowLang.Text.Class
import RowLang.Text.Quoted

/-!
# CommandLine/Arguments — what the words of a command line ask for

A word is an option if it begins with a hyphen.  Options have a short name of one letter and a long
name, which any beginning abbreviates that fits no other one; short names can share one hyphen.  The
one option with a value takes it from the same word or from the next.  After `--` no word is an
option.

Words are told apart before any option takes effect (`Word.ofText`); a flag that asks for help ends
the reading at once, and words that fit nowhere are told of last.
-/

namespace RowLang

/-- An option without a value. -/
inductive Flag where
  | help
  | check
  | log
  | verbose
  deriving DecidableEq, Repr, Inhabited

/-- An option: a flag, or the one that takes the folder of the modules as its value. -/
inductive Switch where
  | flag (f : Flag)
  | folder
  deriving DecidableEq, Repr, Inhabited

namespace Switch

/-- All options in the order in which help lists them. -/
def all : List Switch := [.flag .help, .flag .check, .flag .log, .flag .verbose, .folder]

/-- The letter of the short name. -/
def letter : Switch → Char
  | .flag .help => 'h'
  | .flag .check => 'c'
  | .flag .log => 'l'
  | .flag .verbose => 'v'
  | .folder => 'I'

/-- The long name with its hyphens. -/
def long : Switch → String
  | .flag .help => "--help"
  | .flag .check => "--check"
  | .flag .log => "--log"
  | .flag .verbose => "--verbose"
  | .folder => "--include"

/-- Both names. -/
def names (s : Switch) : String := "-" ++ String.singleton s.letter ++ "/" ++ s.long

/-- The option of a letter. -/
def ofLetter? (c : Char) : Option Switch := all.find? fun s => s.letter = c

/-- The options whose long names begin so. -/
def abbreviatedBy (w : List Char) : List Switch := all.filter fun s => w.isPrefixOf s.long.toList

/-- **Each option has a letter of its own.** -/
theorem ofLetter?_letter (s : Switch) : ofLetter? s.letter = some s := by
  rcases s with (_ | _ | _ | _) | _ <;> rfl

end Switch

/-- Why a command line makes no sense. -/
inductive Misuse where
  /-- The beginning of several long names. -/
  | ambiguous (word : String) (candidates : List Switch)
  /-- A flag with a value. -/
  | ignoredValue (s : Switch) (value : String)
  | missingValue (s : Switch)
  | missingProgram
  | unrecognized (words : List String)
  deriving DecidableEq, Repr, Inhabited

namespace Misuse

/-- What is said of a misuse. -/
def message : Misuse → String
  | ambiguous word candidates =>
    "ambiguous option: " ++ word ++ " could match " ++
      String.intercalate ", " (candidates.map Switch.long)
  | ignoredValue s value =>
    "argument " ++ s.names ++ ": ignored explicit argument " ++ Text.quoted value
  | missingValue s => "argument " ++ s.names ++ ": expected one argument"
  | missingProgram => "the following arguments are required: program"
  | unrecognized words => "unrecognized arguments: " ++ String.intercalate " " words

end Misuse

/-- Whether the flags of a word are followed by the folder. -/
inductive FolderSetting where
  | absent
  | given (path : String)
  /-- The next word has it. -/
  | awaited
  deriving DecidableEq, Repr, Inhabited

/-- The options of one word: flags, and perhaps the folder. -/
structure Cluster where
  flags : List Flag := []
  folder : FolderSetting := .absent
  deriving DecidableEq, Repr, Inhabited

namespace Cluster

/-- The options of one word from an option on, given what follows its letter.  Behind a flag stand
more letters; if the first of them is no option, all of it is a value that the flag has no use for.
-/
def ofLetters : Switch → List Char → Except Misuse Cluster
  | .folder, [] => .ok ⟨[], .awaited⟩
  | .folder, path => .ok ⟨[], .given (String.ofList path)⟩
  | .flag f, [] => .ok ⟨[f], .absent⟩
  | .flag f, c :: cs =>
    match Switch.ofLetter? c with
    | none => .error (.ignoredValue (.flag f) (String.ofList (c :: cs)))
    | some s => (ofLetters s cs).map fun more => { more with flags := f :: more.flags }

/-- The options of a word with a short name, given what follows the letter.  An equality sign in
front of it is left out, but it has to be followed by something for a flag. -/
def ofShort : Switch → List Char → Except Misuse Cluster
  | .folder, '=' :: path => .ok ⟨[], .given (String.ofList path)⟩
  | .flag f, ['='] => .error (.ignoredValue (.flag f) "")
  | s, '=' :: cs => ofLetters s cs
  | s, cs => ofLetters s cs

/-- The option of a word with a long name, given what follows the name. -/
def ofLong : Switch → List Char → Except Misuse Cluster
  | .folder, '=' :: path => .ok ⟨[], .given (String.ofList path)⟩
  | .flag f, '=' :: value => .error (.ignoredValue (.flag f) (String.ofList value))
  | .folder, _ => .ok ⟨[], .awaited⟩
  | .flag f, _ => .ok ⟨[f], .absent⟩

end Cluster

/-- A word of the command line. -/
inductive Word where
  | plain (word : String)
  /-- An option, or what is wrong with it. -/
  | option (cluster : Except Misuse Cluster)
  | unknown (word : String)
  /-- `--` -/
  | separator
  deriving Repr, Inhabited

namespace Word

/-- Whether a text is the end of a line: nothing, or one line feed. -/
def isLineEnd (cs : List Char) : Bool := cs = [] || cs = ['\n']

/-- Whether a word is a negative number in digits, with a point or without one, up to the end of a
line. -/
def isNegativeNumber : List Char → Bool
  | '-' :: cs =>
    match cs.span Text.isDecimal with
    | (_, '.' :: rest) =>
      let (fraction, rest) := rest.span Text.isDecimal
      !fraction.isEmpty && isLineEnd rest
    | (whole, rest) => !whole.isEmpty && isLineEnd rest
  | _ => false

/-- A word that begins with a hyphen and fits no option. -/
def ofStranger (cs : List Char) : Word :=
  if isNegativeNumber cs || cs.contains ' ' then .plain (String.ofList cs)
  else .unknown (String.ofList cs)

/-- A word that begins with two hyphens. -/
def ofLong (cs : List Char) : Except Misuse Word :=
  match Switch.abbreviatedBy (cs.takeWhile (· ≠ '=')) with
  | [] => .ok (ofStranger cs)
  | [s] => .ok (.option (Cluster.ofLong s (cs.dropWhile (· ≠ '='))))
  | several => .error (.ambiguous (String.ofList cs) several)

/-- A word that begins with one hyphen and a letter. -/
def ofShort (letter : Char) (cs : List Char) : Word :=
  match Switch.ofLetter? letter with
  | none => ofStranger ('-' :: letter :: cs)
  | some s => .option (Cluster.ofShort s cs)

/-- What kind of word a text is, before any `--`. -/
def ofText (text : String) : Except Misuse Word :=
  match text.toList with
  | '-' :: '-' :: cs => ofLong ('-' :: '-' :: cs)
  | '-' :: letter :: cs => .ok (ofShort letter cs)
  | _ => .ok (.plain text)

/-- The words of a command line. -/
def ofTexts : List String → Except Misuse (List Word)
  | [] => .ok []
  | text :: texts =>
    if text = "--" then .ok (.separator :: texts.map plain)
    else do
      let w ← ofText text
      return w :: (← ofTexts texts)

end Word

/-- What is asked of one program. -/
structure Request where
  program : String
  check : Bool := false
  log : Bool := false
  /-- Whether to tell of the work. -/
  verbose : Bool := false
  /-- The folder of the modules; without one, or with an empty one, it is the program's. -/
  folder : Option String := none
  deriving DecidableEq, Repr, Inhabited

/-- What a command line asks for. -/
inductive Command where
  /-- There is nothing on the command line. -/
  | overview
  | help
  | misuse (m : Misuse)
  | run (r : Request)
  deriving DecidableEq, Repr, Inhabited

/-- A command line as far as it is read. -/
structure Draft where
  program : Option String := none
  request : Request := ⟨"", false, false, false, none⟩
  /-- Words that fit nowhere. -/
  strangers : List String := []
  deriving Repr, Inhabited

namespace Draft

/-- A flag takes effect; the call for help ends the reading. -/
def flag (d : Draft) : Flag → Except Command Draft
  | .help => .error .help
  | .check => .ok { d with request := { d.request with check := true } }
  | .log => .ok { d with request := { d.request with log := true } }
  | .verbose => .ok { d with request := { d.request with verbose := true } }

/-- The folder of the modules is known; `--` names none. -/
def folder (d : Draft) (path : String) : Draft :=
  { d with request := { d.request with folder := if path = "--" then none else some path } }

/-- Words that fit nowhere. -/
def strange (d : Draft) (ws : List String) : Draft := { d with strangers := d.strangers ++ ws }

/-- A word that is no option: the program, if there is none yet. -/
def plain (d : Draft) (w : String) : Draft :=
  if d.program.isNone then { d with program := some w } else d.strange [w]

/-- Read the words.  A separator goes with the program beside it. -/
def read (d : Draft) : List Word → Except Command Draft
  | [] => .ok d
  | .plain w :: .separator :: ws =>
    if d.program.isNone then (d.plain w).read ws else (d.strange [w, "--"]).read ws
  | .plain w :: ws => (d.plain w).read ws
  | .separator :: .plain w :: ws =>
    if d.program.isNone then (d.plain w).read ws else (d.strange ["--", w]).read ws
  | .separator :: ws => (d.strange ["--"]).read ws
  | .unknown w :: ws => (d.strange [w]).read ws
  | .option (.error m) :: _ => .error (.misuse m)
  | .option (.ok ⟨flags, .awaited⟩) :: .plain path :: ws => do
    let d ← flags.foldlM flag d
    (d.folder path).read ws
  | .option (.ok ⟨_, .awaited⟩) :: _ => .error (.misuse (.missingValue .folder))
  | .option (.ok ⟨flags, .given path⟩) :: ws => do
    let d ← flags.foldlM flag d
    (d.folder path).read ws
  | .option (.ok ⟨flags, .absent⟩) :: ws => do
    let d ← flags.foldlM flag d
    d.read ws

/-- What a command line that is read to its end asks for. -/
def command (d : Draft) : Command :=
  match d.program with
  | none => .misuse .missingProgram
  | some program =>
    if d.strangers.isEmpty then .run { d.request with program := program }
    else .misuse (.unrecognized d.strangers)

end Draft

namespace Command

/-- **What the words of a command line ask for.** -/
def ofTexts (texts : List String) : Command :=
  if texts.isEmpty then .overview
  else
    match Word.ofTexts texts with
    | .error m => .misuse m
    | .ok ws =>
      match Draft.read {} ws with
      | .error c => c
      | .ok d => d.command

end Command

end RowLang
