import RowLang.Decimal.Integer
import RowLang.Text.Quoted

/-!
# Text/File — what is read from a file

A file holds bytes.  They are the text that they encode in UTF-8, if they do, and whatever breaks a
line of it is read as a line feed.  What is encoded is decoded (`decode_encode`).
-/

namespace RowLang.Text

/-! ## Bytes -/

/-- Why some bytes are no text: those from `start` to before `stop`, the first of which is `byte`.
-/
structure Malformed where
  start : Nat
  stop : Nat
  byte : UInt8
  reason : String
  deriving DecidableEq, Repr, Inhabited

/-- What is said of bytes that are no text. -/
def Malformed.message (m : Malformed) : String :=
  let place := if m.stop = m.start + 1
    then " 0x" ++ String.ofList (hexChars 2 m.byte.toNat) ++ " in position " ++
      Decimal.natText m.start
    else "s in position " ++ Decimal.natText m.start ++ "-" ++ Decimal.natText (m.stop - 1)
  "'utf-8' codec can't decode byte" ++ place ++ ": " ++ m.reason

/-- A character of which some bytes are there. -/
structure Begun where
  /-- The first byte, and its position. -/
  byte : UInt8
  start : Nat
  /-- The number so far. -/
  number : Nat
  /-- The least value of the next byte, and the least that is too large. -/
  low : Nat
  high : Nat
  /-- How many bytes follow the next one. -/
  more : Nat

/-- A character of several bytes begins.  Nothing is encoded by more bytes than it needs, and no
surrogate is encoded. -/
def begin? (byte : UInt8) (start : Nat) : Option Begun :=
  let n := byte.toNat
  if n < 0xc2 then none
  else if n < 0xe0 then some ⟨byte, start, n - 0xc0, 0x80, 0xc0, 0⟩
  else if n < 0xf0 then
    some ⟨byte, start, n - 0xe0, if n = 0xe0 then 0xa0 else 0x80,
      if n = 0xed then 0xa0 else 0xc0, 1⟩
  else if n < 0xf5 then
    some ⟨byte, start, n - 0xf0, if n = 0xf0 then 0x90 else 0x80,
      if n = 0xf4 then 0x90 else 0xc0, 2⟩
  else none

/-- The text of some bytes, from a position on, of which the first ones may end a character. -/
def decodeFrom : Nat → Option Begun → List UInt8 → Except Malformed (List Char)
  | _, none, [] => .ok []
  | position, some c, [] => .error ⟨c.start, position, c.byte, "unexpected end of data"⟩
  | position, none, byte :: bytes =>
    if byte.toNat < 0x80 then do
      return Char.ofNat byte.toNat :: (← decodeFrom (position + 1) none bytes)
    else
      match begin? byte position with
      | some c => decodeFrom (position + 1) (some c) bytes
      | none => .error ⟨position, position + 1, byte, "invalid start byte"⟩
  | position, some c, byte :: bytes =>
    if c.low ≤ byte.toNat && byte.toNat < c.high then
      let number := c.number * 64 + (byte.toNat - 0x80)
      match c.more with
      | 0 => do return Char.ofNat number :: (← decodeFrom (position + 1) none bytes)
      | more + 1 =>
        decodeFrom (position + 1) (some ⟨c.byte, c.start, number, 0x80, 0xc0, more⟩) bytes
    else .error ⟨c.start, position, c.byte, "invalid continuation byte"⟩

/-- **The text that some bytes encode.** -/
def decode (bytes : List UInt8) : Except Malformed (List Char) := decodeFrom 0 none bytes

/-! ## Line breaks

A file may end its lines with a return, a line feed, or both together. -/

/-- The text with a line feed for every line break. -/
def withLineFeeds : List Char → List Char
  | [] => []
  | '\r' :: '\n' :: s => '\n' :: withLineFeeds s
  | '\r' :: s => '\n' :: withLineFeeds s
  | c :: s => c :: withLineFeeds s

/-- **No return is left.** -/
theorem return_not_mem_withLineFeeds (s : List Char) : '\r' ∉ withLineFeeds s := by
  fun_induction withLineFeeds s <;> simp_all [eq_comm]

/-- What a text is read as. -/
def ofFile (contents : String) : String := String.ofList (withLineFeeds contents.toList)

/-- The contents of a file as text. -/
def ofBytes (bytes : List UInt8) : Except Malformed String :=
  (decode bytes).map fun cs => ofFile (String.ofList cs)

/-! ## What is encoded -/

variable {byte first : UInt8} {bytes : List UInt8} {position start number low high n : Nat}

/-- A byte that ends a character. -/
theorem decodeFrom_last (hlow : low ≤ byte.toNat) (hhigh : byte.toNat < high) :
    decodeFrom position (some ⟨first, start, number, low, high, 0⟩) (byte :: bytes)
      = (Char.ofNat (number * 64 + (byte.toNat - 0x80)) :: ·) <$> decodeFrom
        (position + 1) none bytes := by
  rw [decodeFrom, if_pos (by simpa using ⟨hlow, hhigh⟩)]
  rfl

/-- A byte within a character. -/
theorem decodeFrom_next {more : Nat} (hlow : low ≤ byte.toNat) (hhigh : byte.toNat < high) :
    decodeFrom position (some ⟨first, start, number, low, high, more + 1⟩) (byte :: bytes)
      = decodeFrom (position + 1)
        (some ⟨first, start, number * 64 + (byte.toNat - 0x80), 0x80, 0xc0, more⟩) bytes := by
  rw [decodeFrom, if_pos (by simpa using ⟨hlow, hhigh⟩)]

/-- The first of several bytes. -/
theorem decodeFrom_begin {c : Begun} (h : begin? byte position = some c) :
    decodeFrom position none (byte :: bytes) = decodeFrom (position + 1) (some c) bytes := by
  have hlarge : ¬byte.toNat < 0x80 := fun hsmall => by
    rw [begin?, if_pos (by omega)] at h
    cases h
  rw [decodeFrom, if_neg hlarge, h]

theorem toNat_ofNat_byte (h : n < 0x100) : (UInt8.ofNat n).toNat = n := by
  rw [UInt8.toNat_ofNat', Nat.mod_eq_of_lt h]

/-- **A character is decoded** where its bytes begin. -/
theorem decodeFrom_encode (c : Char) (position : Nat) (bytes : List UInt8) :
    decodeFrom position none (String.utf8EncodeChar c ++ bytes)
      = (c :: ·) <$> decodeFrom (position + (String.utf8EncodeChar c).length) none bytes := by
  have hvalid : c.val.toNat < 0xd800 ∨ 0xdfff < c.val.toNat ∧ c.val.toNat < 0x110000 := c.valid
  have hofNat : Char.ofNat c.val.toNat = c := c.ofNat_toNat
  generalize hn : c.val.toNat = n at hvalid hofNat
  have htail : ∀ m, (UInt8.ofNat (m % 64 + 128)).toNat = m % 64 + 128 := fun m =>
    toNat_ofNat_byte (by omega)
  rw [String.utf8EncodeChar, hn]
  split
  · rw [List.singleton_append, decodeFrom, toNat_ofNat_byte (by omega), if_pos (by omega), hofNat]
    rfl
  split
  · have hfirst := toNat_ofNat_byte (n := n / 64 % 32 + 192) (by omega)
    have hnumber : (n / 64 % 32 + 192 - 0xc0) * 64 + (n % 64 + 128 - 0x80) = n := by omega
    rw [List.cons_append, List.singleton_append,
      decodeFrom_begin (by rw [begin?, hfirst, if_neg (by omega), if_pos (by omega)]),
      decodeFrom_last (by rw [htail]; omega) (by rw [htail]; omega), htail, hnumber, hofNat]
    rfl
  split
  · have hfirst := toNat_ofNat_byte (n := n / 4096 % 16 + 224) (by omega)
    have hnumber : ((n / 4096 % 16 + 224 - 0xe0) * 64 + (n / 64 % 64 + 128 - 0x80)) * 64
        + (n % 64 + 128 - 0x80) = n := by omega
    rw [List.cons_append, List.cons_append, List.singleton_append,
      decodeFrom_begin
        (by rw [begin?, hfirst, if_neg (by omega), if_neg (by omega), if_pos (by omega)]),
      decodeFrom_next (by rw [htail]; split <;> omega) (by rw [htail]; split <;> omega), htail,
      decodeFrom_last (by rw [htail]; omega) (by rw [htail]; omega), htail, hnumber, hofNat]
    rfl
  · have hfirst := toNat_ofNat_byte (n := n / 262144 % 8 + 240) (by omega)
    have hnumber : (((n / 262144 % 8 + 240 - 0xf0) * 64 + (n / 4096 % 64 + 128 - 0x80)) * 64
        + (n / 64 % 64 + 128 - 0x80)) * 64 + (n % 64 + 128 - 0x80) = n := by omega
    rw [List.cons_append, List.cons_append, List.cons_append, List.singleton_append,
      decodeFrom_begin (by
        rw [begin?, hfirst, if_neg (by omega), if_neg (by omega), if_neg (by omega),
          if_pos (by omega)]),
      decodeFrom_next (by rw [htail]; split <;> omega) (by rw [htail]; split <;> omega), htail,
      decodeFrom_next (by rw [htail]; omega) (by rw [htail]; omega), htail,
      decodeFrom_last (by rw [htail]; omega) (by rw [htail]; omega), htail, hnumber, hofNat]
    rfl

/-- **What is encoded is decoded.** -/
theorem decode_encode (cs : List Char) : decode (cs.flatMap String.utf8EncodeChar) = .ok cs := by
  suffices h : ∀ position, decodeFrom position none (cs.flatMap String.utf8EncodeChar) =
    .ok cs from h 0
  induction cs with
  | nil => exact fun _ => rfl
  | cons c cs ih =>
    intro position
    rw [List.flatMap_cons, decodeFrom_encode, ih]
    rfl

/-- Bytes that stop within a character, that go on otherwise, and that begin with none. -/
example : decode [0x61, 0xf0, 0x9f] = .error ⟨1, 3, 0xf0, "unexpected end of data"⟩ ∧
    decode [0xe0, 0x9f, 0xbf] = .error ⟨0, 1, 0xe0, "invalid continuation byte"⟩ ∧
      decode [0xff] = .error ⟨0, 1, 0xff, "invalid start byte"⟩ := ⟨rfl, rfl, rfl⟩

end RowLang.Text
