import RowLang.Binary64.Decimal
import RowLang.Row.Basic
import RowLang.Text.Quoted
import RowLang.Value.Fault

/-!
# Json/Document — JSON text

A document is what is to be written as JSON.  It is indented by two spaces, in ASCII only; a code
point beyond the basic plane is written as a pair of surrogates.  A document may hold something that
has no JSON form, and an integer may be too long to be written: then writing fails.
-/

namespace RowLang

/-- What is to be written. -/
inductive Document where
  | int (i : Int)
  | real (x : Binary64)
  | text (codes : List Nat)
  | array (items : List Document)
  | object (fields : List (Label × Document))
  /-- Something of a kind that has no JSON form. -/
  | alien (kind : String)
  deriving Repr, Inhabited

namespace Document

/-- A text of characters. -/
def ofString (s : String) : Document := .text (s.toList.map Char.toNat)

/-- A 16-bit unit by its number. -/
def unitChars (n : Nat) : List Char := '\\' :: 'u' :: Text.hexChars 4 n

/-- One code point inside double quotes. -/
def escaped (n : Nat) : List Char :=
  if n = 0x22 then ['\\', '"']
  else if n = 0x5c then ['\\', '\\']
  else if n = 10 then ['\\', 'n']
  else if n = 13 then ['\\', 'r']
  else if n = 9 then ['\\', 't']
  else if n = 12 then ['\\', 'f']
  else if n = 8 then ['\\', 'b']
  else if 0x20 ≤ n && n ≤ 0x7e then [Char.ofNat n]
  else if n < 0x10000 then unitChars n
  else unitChars (0xd800 + (n - 0x10000) / 0x400) ++ unitChars (0xdc00 + (n - 0x10000) % 0x400)

/-- A text between double quotes. -/
def textChars (codes : List Nat) : List Char := '"' :: codes.flatMap escaped ++ ['"']

/-- A line break and the indentation of a level. -/
def newline (level : Nat) : List Char := '\n' :: List.replicate (2 * level) ' '

/-- Entries on lines of their own between brackets; without entries only the brackets. -/
def block (level : Nat) (opening closing : Char) (items : List (List Char)) : List Char :=
  if items.isEmpty then [opening, closing]
  else
    opening :: newline (level + 1) ++ List.intercalate (',' :: newline (level + 1)) items ++
      newline level ++ [closing]

mutual

/-- A document at a level of indentation. -/
def render (level : Nat) : Document → Except Fault (List Char)
  | int i => if Decimal.writable i then .ok (Decimal.intChars i) else .error .integerTooLong
  | real x => .ok (Binary64.json.chars x)
  | text codes => .ok (textChars codes)
  | array items => do return block level '[' ']' (← renderAll (level + 1) items)
  | object fields => do return block level '{' '}' (← renderFields (level + 1) fields)
  | alien kind => .error (.notSerializable kind)

/-- Documents at a level. -/
def renderAll (level : Nat) : List Document → Except Fault (List (List Char))
  | [] => .ok []
  | d :: ds => do
    let cs ← render level d
    return cs :: (← renderAll level ds)

/-- Labelled documents at a level. -/
def renderFields (level : Nat) : List (Label × Document) → Except Fault (List (List Char))
  | [] => .ok []
  | (l, d) :: fields => do
    let cs ← render level d
    return (textChars (l.toList.map Char.toNat) ++ ':' :: ' ' :: cs) ::
      (← renderFields level fields)

end

/-- A document as text. -/
def toText (d : Document) : Except Fault String := do return String.ofList (← d.render 0)

end Document

end RowLang
