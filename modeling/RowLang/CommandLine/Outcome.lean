import RowLang.CommandLine.Arguments
import RowLang.Expr.Printer
import RowLang.Location
import RowLang.Session
import RowLang.Text.File

/-!
# CommandLine/Outcome — what a command line comes to

One program is read, typed and evaluated, and each stage prints what it has found; the first stage
that finds an issue ends the run with a complaint.  Files are read by the caller: the program's text
and the modules of the folder are given, and locations say which file and which folder they are.
-/

/-!
## What the command line tells of itself
-/

namespace RowLang.Usage

/-- How to call the program. -/
def summary : String := "usage: weblang [-h] [-c] [-l] [-v] [-I INCLUDE] program"

/-- The lines that are shown when nothing is asked for. -/
def overview : List String :=
  ["This is an interpreter for the weblang expression language.",
    "",
    summary,
    "",
    "",
    "For example:",
    "",
    "    weblang program.wl",
    "",
    "will parse, type, and evaluate program.wl if possible, or else try to explain why not.",
    "",
    "    weblang -h",
    "",
    "will explain all the arguments."]

/-- The lines that explain all arguments, within 80 columns. -/
def help : List String :=
  [summary,
    "",
    "Interpreter for the weblang expression language.",
    "",
    "positional arguments:",
    "  program               try examples/stream.wl for example.",
    "",
    "options:",
    "  -h, --help            show this help message and exit",
    "  -c, --check           Parse and type the program but do not evaluate it.",
    "  -l, --log             Print the type equalities that remain before solving.",
    "  -v, --verbose         Trace the type-checker's activity on the console.",
    "                        Repeat for more.",
    "  -I INCLUDE, --include INCLUDE",
    "                        Folder in which to look for imported modules. Defaults",
    "                        to the program's folder."]

end RowLang.Usage

/-!
## What a command line comes to

One program is read, typed and evaluated, and each stage prints what it has found; the first stage
that finds an issue ends the run with a complaint.  Files are read by the caller: the program's text
and the modules of the folder are given, and locations say which file and which folder they are.
-/

namespace RowLang

/-- What a run prints, line by line, and how it ends. -/
structure Outcome where
  /-- The exit code; a run that only shows the overview has none. -/
  code : Option Nat
  out : List String := []
  err : List String := []
  deriving DecidableEq, Repr, Inhabited

namespace Outcome

/-- Lines as they are printed. -/
def printed (lines : List String) : String := String.join (lines.map (· ++ "\n"))

/-- What is said of the issues at the end of a failed run. -/
def complaint (issues : List Issue) : List String :=
  if issues.isEmpty then []
  else
    String.ofList (List.replicate 60 '*') :: "Oh, Ack! I am undone." ::
      issues.flatMap fun i => [String.join (List.replicate 20 "  -"), i.text]

/-- The outcome of a command line that runs no program. -/
def ofMisuse (m : Misuse) : Outcome :=
  ⟨some 2, [], [Usage.summary, "weblang: error: " ++ m.message]⟩

end Outcome

namespace Request

/-- Where the program is. -/
def location (r : Request) (here : Location) : Location := here.within (.ofText r.program)

/-- The folder of the modules: the one that is asked for, as it is asked for, or the program's. -/
def moduleFolder (r : Request) (here : Location) : Location :=
  match r.folder with
  | some path => if path.isEmpty then (r.location here).folder else .ofText path
  | none => (r.location here).folder

/-- The outcome if the program cannot be read; where no file can be there is none. -/
def unreadable (r : Request) (here : Location) : Except Escape Outcome :=
  if (r.location here).isPossible then
    .ok ⟨some 1, [], ["I see no file called " ++ (r.location here).text]⟩
  else .error (.fault .nullInPath)

/-- What was told of the work so far, if it is asked for. -/
def told (r : Request) (s : Session) : List String :=
  if r.verbose then s.solver.trace.reverse ++ s.world.trace.reverse else []

/-- The run ends here if there are issues. -/
def orComplain (r : Request) (out : List String) (next : Acting Outcome) : Acting Outcome := do
  let s ← get
  if s.world.report.isHealthy then next
  else return ⟨some 1, out, r.told s ++ Outcome.complaint s.issues⟩

/-- The line that shows a program as it is read. -/
def programLine (source : String) : String :=
  match Expr.parse source.toList with
  | .ok e => "Parse: " ++ String.ofList e.chars
  | .error _ => ""

/-- Read, type and evaluate a program. -/
def stages (r : Request) (source : String) : Acting Outcome := do
  let _ ← Session.typeOf source false
  r.orComplain [] do
    let log := (← get).equationLog
    let out := programLine source :: if r.log then log else []
    let type ← Session.solveFull
    r.orComplain out do
      let out := out ++ ["Type: " ++ type.text]
      if r.check then
        return ⟨some 0, out, r.told (← get) ++ ["Looks plausible to me."]⟩
      let value ← Session.evaluate source
      r.orComplain out do
        return ⟨some 0, out ++ ["Result: " ++ value.text], r.told (← get)⟩

/-- **The outcome of a program**, given what is read from its file and from the modules' files. -/
def outcomeOf (r : Request) (here : Location) (contents : Except Text.Malformed String)
    (modules : List (String × Except Text.Malformed String)) : Except Escape Outcome :=
  match contents with
  | .error why => .error (.fault (.undecodable why))
  | .ok source =>
    let place := r.moduleFolder here
    let folder : Folder := ⟨place.text, modules, place.isPossible⟩
    ((r.stages source).run (.ofLibrary { folder := some folder })).1

/-- The outcome of a program, given the texts of its file and of the modules' files. -/
def outcome (r : Request) (here : Location) (contents : String) (modules : List (String × String)) :
    Except Escape Outcome :=
  r.outcomeOf here (.ok (Text.ofFile contents)) (modules.map fun m => (m.1, .ok (Text.ofFile m.2)))

end Request

end RowLang
