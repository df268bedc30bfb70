import RowLang.Value.Basic
import RowLang.Value.Fault

/-!
# Library — where modules come from

A module is an expression known by a name: defined in the library, or else the text of a file in its
folder.  A resolver loads modules; it keeps the values of those that are loaded and knows which are
under construction, outermost first.
-/

namespace RowLang

/-- A folder of modules, with what is read from the file of each. -/
structure Folder where
  path : String
  modules : List (String × Except Text.Malformed String)
  /-- Whether files can be there at all. -/
  isPossible : Bool := true
  deriving Repr

/-- The module texts at hand. -/
structure Library where
  definitions : List (String × String) := []
  folder : Option Folder := none
  deriving Repr, Inhabited

namespace Library

/-- The library with a module defined or defined anew. -/
def define (lib : Library) (name text : String) : Library :=
  { lib with definitions := (name, text) :: lib.definitions }

/-- What is read of a module that is looked for in a folder. -/
def read (f : Folder) (name : String) : Except Fault (Option String) :=
  if f.isPossible then
    match f.modules.lookup name with
    | some (.ok text) => .ok (some text)
    | some (.error why) => .error (.undecodable why)
    | none => .ok none
  else .error .nullInPath

/-- **The text of a module**, if there is one: as it is defined, or as its file holds it. -/
def source (lib : Library) (name : String) : Except Fault (Option String) :=
  match lib.definitions.lookup name, lib.folder with
  | some text, _ => .ok (some text)
  | none, some f => read f name
  | none, none => .ok none

/-- The text of a module, if there is one that can be read. -/
def source? (lib : Library) (name : String) : Option String := (lib.source name).toOption.join

/-- **The last definition of a name counts.** -/
@[simp] theorem source_define (lib : Library) (name text : String) :
    (lib.define name text).source name = .ok (some text) := by
  simp [define, source]

end Library

/-- The modules that one program has loaded, and those that it is loading. -/
structure Resolver where
  loaded : List (String × Value) := []
  construction : List String := []
  deriving Repr, Inhabited

namespace Resolver

/-- A module is under construction from now on. -/
def enter (r : Resolver) (name : String) : Resolver :=
  { r with construction := r.construction ++ [name] }

/-- The construction of the latest module is over. -/
def leave (r : Resolver) : Resolver := { r with construction := r.construction.dropLast }

/-- A module has its value. -/
def keep (r : Resolver) (name : String) (v : Value) : Resolver :=
  { r with loaded := (name, v) :: r.loaded }

/-- The modules under construction from a given one on. -/
def cycleFrom (r : Resolver) (name : String) : List String :=
  r.construction.dropWhile (· ≠ name)

/-- **Leaving undoes entering.** -/
@[simp] theorem leave_enter (r : Resolver) (name : String) : (r.enter name).leave = r := by
  simp [enter, leave]

end Resolver

end RowLang
