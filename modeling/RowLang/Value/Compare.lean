import RowLang.Value.Basic
import RowLang.Value.Fault

/-!
# Value/Compare — equality and order of values

Numbers, texts, lists and tuples are equal when their contents are; a tagged value equals the pair
of its label and its payload.  Records and functions equal only themselves.  An undefined real
equals nothing, but inside a list or a tuple it equals itself.  Lists and tuples are ordered by
their first difference.  Identity is finer than equality: apart from a few that exist only once,
values of one content are told apart by their origins.
-/

namespace RowLang.Value

/-- The codes of a label. -/
def labelCodes (l : Label) : List Nat := l.toList.map Char.toNat

mutual

/-- Equal as entries of lists and tuples. -/
def same : Value → Value → Bool
  | int _ i, int _ j => i = j
  | int _ i, real _ y => y.compareInt? i = some .eq
  | real _ x, int _ j => x.compareInt? j = some .eq
  | real o .undefined, real o' .undefined => o = o'
  | real _ x, real _ y => x.compare? y = some .eq
  | text _ s, text _ t => s = t
  | list _ xs, list _ ys => sameAll xs ys
  | tuple _ xs, tuple _ ys => sameAll xs ys
  | tagged _ ⟨l, _⟩ x, tagged _ ⟨l', _⟩ y => l = l' && same x y
  | tagged _ ⟨l, _⟩ x, tuple _ [text _ s, y] => labelCodes l = s && same x y
  | tuple _ [text _ s, x], tagged _ ⟨l, _⟩ y => s = labelCodes l && same x y
  | record a, record b => a = b
  | operator o, operator o' => o = o'
  | waiting o .., waiting o' .. => o = o'
  | tagger o _, tagger o' _ => o = o'
  | closure o .., closure o' .. => o = o'
  | dispatcher o .., dispatcher o' .. => o = o'
  | _, _ => false

/-- Equal entry by entry. -/
def sameAll : List Value → List Value → Bool
  | [], [] => true
  | x :: xs, y :: ys => same x y && sameAll xs ys
  | _, _ => false

end

/-- Equal: as entries are, but an undefined real equals nothing. -/
def equal : Value → Value → Bool
  | real _ .undefined, _ => false
  | x, y => same x y

/-! ## Identity -/

/-- Whether there is only one integer of this value. -/
def isUniqueInt (i : Int) : Bool := -5 ≤ i && i ≤ 256

/-- Whether there is only one text of this content: no character, or one of the first 256, unless it
is the numeral of a position. -/
def isUniqueText (o : Origin) : List Nat → Bool
  | [] => true
  | [c] => c < 256 && !o.counted
  | _ => false

/-- One and the same value. -/
def identical : Value → Value → Bool
  | int o i, int o' j => i = j && (isUniqueInt i || o = o')
  | real o _, real o' _ => o = o'
  | text o s, text o' t => s = t && (isUniqueText o s && isUniqueText o' t || o = o')
  | list o _, list o' _ => o = o'
  | tuple o xs, tuple o' ys => if xs.isEmpty then ys.isEmpty else o = o'
  | tagged o .., tagged o' .. => o = o'
  | record a, record b => a = b
  | operator o, operator o' => o = o'
  | waiting o .., waiting o' .. => o = o'
  | tagger o _, tagger o' _ => o = o'
  | closure o .., closure o' .. => o = o'
  | dispatcher o .., dispatcher o' .. => o = o'
  | _, _ => false

/-! ## Order

A tagged value is asked about its order with a tuple, never the tuple about its order with a tagged
value.  So a comparison that begins with the left value may go on with the right one in front, and
then it is the other way round that a message tells of it (`flipped`). -/

/-- The order of two texts, by code points. -/
def orderCodes : List Nat → List Nat → Ordering
  | [], [] => .eq
  | [], _ :: _ => .lt
  | _ :: _, [] => .gt
  | a :: s, b :: t => if a = b then orderCodes s t else compare a b

/-- What is wrong with the order of two values that have none. -/
def incomparable (flipped : Bool) (left right : Value) : Fault :=
  if flipped then .incomparable ">" right.kind left.kind else .incomparable "<" left.kind right.kind

/-- The order of the label of a tagged value and the first entry of a tuple. -/
def orderLabel (symbol : String) (l : Label) : Value → Except Fault (Option Ordering)
  | text _ t => .ok (some (orderCodes (labelCodes l) t))
  | y => .error (.incomparable symbol "str" y.kind)

/-- Whether the first entry of a tuple is the label of a tagged value. -/
def isLabel (l : Label) : Value → Bool
  | text _ t => labelCodes l = t
  | _ => false

mutual

/-- The order of two values; an undefined real has none. -/
def order (flipped : Bool) : Value → Value → Except Fault (Option Ordering)
  | int _ i, int _ j => .ok (some (compare i j))
  | int _ i, real _ y => .ok ((y.compareInt? i).map Ordering.swap)
  | real _ x, int _ j => .ok (x.compareInt? j)
  | real _ x, real _ y => .ok (x.compare? y)
  | text _ s, text _ t => .ok (some (orderCodes s t))
  | list _ xs, list _ ys => orderAll flipped xs ys
  | tuple _ xs, tuple _ ys => orderAll flipped xs ys
  | tagged _ ⟨l, _⟩ x, tagged _ ⟨l', _⟩ y =>
    if l ≠ l' then .ok (some (orderCodes (labelCodes l) (labelCodes l')))
    else if same x y then .ok (some .eq)
    else order flipped x y
  | tagged _ _ _, tuple _ [] => .ok (some .gt)
  | tagged _ ⟨l, _⟩ _, tuple _ [s] => if isLabel l s then .ok (some .gt) else orderLabel "<" l s
  | tagged _ ⟨l, _⟩ x, tuple _ (s :: y :: ys) =>
    if isLabel l s then
      if same x y then .ok (some (if ys.isEmpty then .eq else .lt)) else order false x y
    else orderLabel "<" l s
  | tuple _ [], tagged _ _ _ => .ok (some .lt)
  | tuple _ [s], tagged _ ⟨l, _⟩ _ =>
    if isLabel l s then .ok (some .lt)
    else (orderLabel ">" l s).map fun o => o.map Ordering.swap
  | tuple _ (s :: x :: xs), tagged _ ⟨l, _⟩ y =>
    if isLabel l s then
      if same x y then .ok (some (if xs.isEmpty then .eq else .gt)) else order true x y
    else (orderLabel ">" l s).map fun o => o.map Ordering.swap
  | x, y => .error (incomparable flipped x y)

/-- The order of the first entries that differ, or else of the lengths. -/
def orderAll (flipped : Bool) : List Value → List Value → Except Fault (Option Ordering)
  | [], ys => .ok (some (if ys.isEmpty then .eq else .lt))
  | _ :: _, [] => .ok (some .gt)
  | x :: xs, y :: ys => if same x y then orderAll flipped xs ys else order flipped x y

end

/-- Whether one value is less than another. -/
def less (x y : Value) : Except Fault Bool := (order false x y).map (· == some .lt)

end RowLang.Value
