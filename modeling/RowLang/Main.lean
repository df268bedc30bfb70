import RowLang.CommandLine.Outcome

/-!
# Main — the command line

Reads the files, prints the outcome.
-/

namespace RowLang.Main

/-- The ending of the files that hold modules. -/
def extension : String := ".wl"

/-- What is read from a file, if it is there. -/
def contents? (path : String) : IO (Option (Except Text.Malformed String)) := do
  try return some (Text.ofBytes (← IO.FS.readBinFile path).toList)
  catch _ => return none

/-- The modules of a folder, with what is read from their files. -/
def modules (path : String) : IO (List (String × Except Text.Malformed String)) := do
  let folder : IO.FS.DirEntry := ⟨path, ""⟩
  let entries ← try folder.root.readDir catch _ => pure #[]
  let found ← entries.toList.mapM fun e => do
    if e.fileName.endsWith extension then
      let contents ← contents? (path ++ "/" ++ e.fileName)
      return contents.map fun c => ((e.fileName.dropEnd extension.length).toString, c)
    return none
  return found.filterMap id

/-- Print an outcome. -/
def print (o : Outcome) : IO UInt32 := do
  IO.print (Outcome.printed o.out)
  IO.eprint (Outcome.printed o.err)
  return (o.code.getD 0).toUInt32

/-- Print how a run ends. -/
def finish : Except Escape Outcome → IO UInt32
  | .ok o => print o
  | .error (.fault f) => print ⟨some 1, [], [f.message]⟩
  | .error .tooManyIssues => print ⟨some 1, [], []⟩

/-- Run a program. -/
def run (r : Request) : IO UInt32 := do
  let here := Location.ofText (← IO.currentDir).toString
  match ← contents? (r.location here).text with
  | none => finish (r.unreadable here)
  | some contents =>
    finish (r.outcomeOf here contents (← modules (r.moduleFolder here).text))

end RowLang.Main

/-- Run the command line. -/
def main (args : List String) : IO UInt32 :=
  match RowLang.Command.ofTexts args with
  | .run r => RowLang.Main.run r
  | .overview => RowLang.Main.print ⟨none, RowLang.Usage.overview, []⟩
  | .help => RowLang.Main.print ⟨some 0, RowLang.Usage.help, []⟩
  | .misuse m => RowLang.Main.print (.ofMisuse m)
