import RowLang.Text.Class

/-!
# Decimal/Integer — integers, powers of ten and rounding

What decimal notation needs of the integers: their texts, the scales of its digits, and the integer
nearest to a quotient.
-/

namespace RowLang.Decimal

/-!
## Powers of two and of ten

The scales of binary and decimal notation, as functions of the exponent.
-/

/-- Two to a power. -/
def twoTo (n : Nat) : Nat := Nat.pow 2 n

/-- Ten to a power. -/
def tenTo (n : Nat) : Nat := Nat.pow 10 n

/-!
## Integers as decimal text

`natChars` and `intChars` write an integer; `natOfDigits` reads a run of decimal digits of any
script.  No text holds an integer of more than `digitLimit` digits: `writable` says which integers
have a text, and reading a longer run is refused with the number of its digits.
-/

/-- The most digits of an integer that a text may hold. -/
def digitLimit : Nat := 4300

/-- The decimal digits of a natural number. -/
def natChars (n : Nat) : List Char := Nat.toDigits 10 n

/-- The decimal text of an integer. -/
def intChars : Int → List Char
  | .ofNat n => natChars n
  | .negSucc n => '-' :: natChars (n + 1)

/-- The decimal text of a natural number, as a string. -/
def natText (n : Nat) : String := String.ofList (natChars n)

/-- An integer has a text when it has no more digits than the limit. -/
def writable (i : Int) : Bool := i.natAbs < tenTo digitLimit

/-- What is said of an integer that is too long to be written. -/
def writeLimitText : String :=
  "Exceeds the limit (4300 digits) for integer string conversion; " ++
    "use sys.set_int_max_str_digits() to increase the limit"

/-- What is said of a run of digits that is too long to be read. -/
def readLimitText (digits : Nat) : String :=
  "Exceeds the limit (4300 digits) for integer string conversion: value has " ++ natText digits ++
    " digits; use sys.set_int_max_str_digits() to increase the limit"

/-- The number that a run of digits denotes, each digit in its own script. -/
def natOfDigits (cs : List Char) : Nat :=
  cs.foldl (fun n c => 10 * n + (Text.digitValue? c).getD 0) 0

/-- The number that a run of ASCII digits denotes. -/
def natOfAscii (cs : List Char) : Nat := Nat.ofDigitChars 10 cs 0

/-- **Writing and reading a natural number gives it back.** -/
@[simp] theorem natOfAscii_natChars (n : Nat) : natOfAscii (natChars n) = n :=
  Nat.ofDigitChars_toDigits (by decide) (by decide)

/-!
## A quotient rounded to the nearest integer, a half to the even neighbour

`roundHalfEven a b` is the integer nearest to `a / b`.  Every conversion between binary and decimal
rounds with this one function.
-/

/-- The integer nearest to `a / b`; of two equally near ones, the even one. -/
def roundHalfEven (a b : Nat) : Nat :=
  let q := a / b
  let twice := 2 * (a % b)
  if twice < b then q
  else if b < twice then q + 1
  else q + q % 2

theorem roundHalfEven_eq_div_or (a b : Nat) :
    roundHalfEven a b = a / b ∨ roundHalfEven a b = a / b + 1 := by
  unfold roundHalfEven
  dsimp only
  split
  · exact .inl rfl
  · split
    · exact .inr rfl
    · omega

/-- **A whole quotient is left as it is.** -/
theorem roundHalfEven_mul (q b : Nat) (hb : 0 < b) : roundHalfEven (q * b) b = q := by
  simp [roundHalfEven, hb]

/-- **The result lies within half a unit of the quotient.** -/
theorem roundHalfEven_near (a b : Nat) (hb : 0 < b) :
    2 * a ≤ 2 * (b * roundHalfEven a b) + b ∧ 2 * (b * roundHalfEven a b) ≤ 2 * a + b := by
  have h := Nat.div_add_mod a b
  have hlt := Nat.mod_lt a hb
  have hs : b * (a / b + 1) = b * (a / b) + b := Nat.mul_succ ..
  unfold roundHalfEven
  dsimp only
  split
  · omega
  · split
    · omega
    · rcases Nat.mod_two_eq_zero_or_one (a / b) with e | e
      · rw [e, Nat.add_zero]
        omega
      · rw [e]
        omega

end RowLang.Decimal
