import RowLang.Row.Order
import RowLang.Text.File

/-!
# Value/Fault — what goes wrong inside an operator

A fault is the cause for which an operator refuses its arguments.  `Fault.category` sorts the causes
into five categories, and `Fault.message` is what is said of each; the kinds of the values at fault
are named as messages name them.
-/

namespace RowLang

/-- The categories of faults. -/
inductive FaultCategory where
  | wrongType
  | badValue
  | arithmetic
  | missingKey
  /-- There is no room for a result; no operator takes the blame for that. -/
  | memory
  deriving DecidableEq, Repr

/-- Why an operator refuses its arguments. -/
inductive Fault where
  -- kinds that do not fit
  | unsupported (symbol left right : String)
  | cannotConcatenate (sequence other : String)
  | repeatedBy (other : String)
  | noLength (kind : String)
  | notIterable (kind : String)
  | notNumeric (kind : String)
  | notCharacter (kind : String)
  | notOneCharacter (length : Nat)
  | incomparable (symbol left right : String)
  | notSerializable (kind : String)
  -- values that do not fit
  | badNumeral (shown : String)
  | numeralTooLong (digits : Nat)
  | integerTooLong
  /-- A type cannot be written for one of its labels. -/
  | unranked (why : Label.Unranked)
  | undefinedToInteger
  | noSuchCharacter
  -- arithmetic
  | divisionByZero
  | realDivisionByZero
  | integerModulo
  | realModulo
  | quotientTooLarge
  | tooLargeForReal
  | infinityToInteger
  | tooLargeForIndex
  | tooLargeForLength
  | tooLargeForCode
  | textTooLong
  -- room
  | outOfMemory
  -- files
  | nullInPath
  | undecodable (why : Text.Malformed)
  -- keys
  | noKey (shown : String)
  -- text with places to fill in
  | formatNeedsMapping
  | formatKeyUnfinished
  | formatUnfinished
  | formatStar
  | formatTooWide
  | formatTooPrecise
  | formatPrecisionTooLarge
  | formatTooFew
  | formatTooMany
  | formatUnknown (shown : String) (hex : String) (index : Nat)
  | formatNeedsReal (conversion : Char) (kind : String)
  | formatNeedsInteger (conversion : Char) (kind : String)
  | formatNotReal (kind : String)
  | formatNeedsCharacter
  | formatNoSuchCharacter
  | indexedByText
  deriving DecidableEq, Repr, Inhabited

namespace Fault

/-- A kind between single quotes. -/
def quote (kind : String) : String := "'" ++ kind ++ "'"

/-- The category of a fault. -/
def category : Fault → FaultCategory
  | unsupported .. | cannotConcatenate .. | repeatedBy _ | noLength _ | notIterable _ => .wrongType
  | notNumeric _ | notCharacter _ | notOneCharacter _ | incomparable .. => .wrongType
  | notSerializable _ => .wrongType
  | badNumeral _ | numeralTooLong _ | integerTooLong | undefinedToInteger => .badValue
  | noSuchCharacter | unranked _ => .badValue
  | divisionByZero | realDivisionByZero | integerModulo | realModulo => .arithmetic
  | quotientTooLarge | tooLargeForReal | infinityToInteger | tooLargeForIndex => .arithmetic
  | tooLargeForLength | tooLargeForCode | textTooLong => .arithmetic
  | outOfMemory => .memory
  | nullInPath | undecodable _ => .badValue
  | noKey _ => .missingKey
  | formatKeyUnfinished | formatUnfinished | formatTooWide | formatTooPrecise => .badValue
  | formatUnknown .. => .badValue
  | formatNeedsMapping | formatStar | formatTooFew | formatTooMany => .wrongType
  | formatNeedsReal .. | formatNeedsInteger .. | formatNotReal _ => .wrongType
  | formatNeedsCharacter | indexedByText => .wrongType
  | formatNoSuchCharacter | formatPrecisionTooLarge => .arithmetic

/-- What is said of a fault. -/
def message : Fault → String
  | unsupported symbol left right =>
    "unsupported operand type(s) for " ++ symbol ++ ": " ++ quote left ++ " and " ++ quote right
  | cannotConcatenate sequence other =>
    "can only concatenate " ++ sequence ++ " (not \"" ++ other ++ "\") to " ++ sequence
  | repeatedBy other => "can't multiply sequence by non-int of type " ++ quote other
  | noLength kind => "object of type " ++ quote kind ++ " has no len()"
  | notIterable kind => quote kind ++ " object is not iterable"
  | notNumeric kind =>
    "int() argument must be a string, a bytes-like object or a real number, not " ++ quote kind
  | notCharacter kind => "ord() expected string of length 1, but " ++ kind ++ " found"
  | notOneCharacter length =>
    "ord() expected a character, but string of length " ++ Decimal.natText length ++ " found"
  | incomparable symbol left right =>
    quote symbol ++ " not supported between instances of " ++ quote left ++ " and " ++ quote right
  | notSerializable kind => "Object of type " ++ kind ++ " is not JSON serializable"
  | badNumeral shown => "invalid literal for int() with base 10: " ++ shown
  | numeralTooLong digits => Decimal.readLimitText digits
  | integerTooLong => Decimal.writeLimitText
  | unranked why => why.message
  | undefinedToInteger => "cannot convert float NaN to integer"
  | noSuchCharacter => "chr() arg not in range(0x110000)"
  | divisionByZero => "division by zero"
  | realDivisionByZero => "float division by zero"
  | integerModulo => "integer modulo by zero"
  | realModulo => "float modulo"
  | quotientTooLarge => "integer division result too large for a float"
  | tooLargeForReal => "int too large to convert to float"
  | infinityToInteger => "cannot convert float infinity to integer"
  | tooLargeForIndex => "cannot fit 'int' into an index-sized integer"
  | tooLargeForLength => "Python int too large to convert to C ssize_t"
  | tooLargeForCode => "Python int too large to convert to C int"
  | textTooLong => "repeated string is too long"
  | outOfMemory => ""
  | nullInPath => "embedded null byte"
  | undecodable why => why.message
  | noKey shown => shown
  | formatNeedsMapping => "format requires a mapping"
  | formatKeyUnfinished => "incomplete format key"
  | formatUnfinished => "incomplete format"
  | formatStar => "* wants int"
  | formatTooWide => "width too big"
  | formatTooPrecise => "precision too big"
  | formatPrecisionTooLarge => "precision too large"
  | formatTooFew => "not enough arguments for format string"
  | formatTooMany => "not all arguments converted during string formatting"
  | formatUnknown shown hex index =>
    "unsupported format character '" ++ shown ++ "' (0x" ++ hex ++ ") at index " ++
      Decimal.natText index
  | formatNeedsReal conversion kind =>
    "%" ++ String.singleton conversion ++ " format: a real number is required, not " ++ kind
  | formatNeedsInteger conversion kind =>
    "%" ++ String.singleton conversion ++ " format: an integer is required, not " ++ kind
  | formatNotReal kind => "must be real number, not " ++ kind
  | formatNeedsCharacter => "%c requires int or char"
  | formatNoSuchCharacter => "%c arg not in range(0x110000)"
  | indexedByText => "list indices must be integers or slices, not str"

end Fault

end RowLang
