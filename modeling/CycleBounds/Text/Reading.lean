import CycleBounds.Word

/-!
# Reading texts

White space is the set of 25 code points with the Unicode property `White_Space`. Texts are cut
into fields and trimmed at blanks, and into lines at line feeds.

Naturals are read from plain decimal digits, optionally after a plus sign, and have to fit in 64
bits. A decimal fraction may have a sign, a point and an exponent. It stands for the nearest number
with 53 binary digits, a tie going to the one with an even last digit, as binary floating point of
64 bits has it. `Decimal.natural?` tells whether that number is a natural.
-/

namespace CycleBounds.Text

/-! ### Blanks -/

/-- A code point with the property `White_Space`. -/
def isBlank (c : Char) : Bool :=
  let n := c.toNat
  (0x9 ≤ n && n ≤ 0xd) || n == 0x20 || n == 0x85 || n == 0xa0 || n == 0x1680 ||
    (0x2000 ≤ n && n ≤ 0x200a) || n == 0x2028 || n == 0x2029 || n == 0x202f || n == 0x205f ||
    n == 0x3000

/-- Put a character in front of the first field of a list of fields. -/
def extendHead (c : Char) : List (List Char) → List (List Char)
  | [] => [[c]]
  | field :: rest => (c :: field) :: rest

/-- The maximal runs of characters that are not blank. The flag tells whether the text before
these characters ends inside a field. -/
def fieldsAfter : Bool → List Char → List (List Char)
  | inside, [] => if inside then [[]] else []
  | inside, c :: cs =>
    if isBlank c then
      if inside then [] :: fieldsAfter false cs else fieldsAfter false cs
    else
      extendHead c (fieldsAfter true cs)

def fields (s : String) : List String :=
  (fieldsAfter false s.toList).map String.ofList

def trimStart (s : String) : String :=
  String.ofList (s.toList.dropWhile isBlank)

def trim (s : String) : String :=
  String.ofList ((s.toList.dropWhile isBlank).reverse.dropWhile isBlank).reverse

def lines (s : String) : List String :=
  (s.toList.splitOn '\n').map String.ofList

/-! ### Naturals -/

def digit? (c : Char) : Option Nat :=
  if '0' ≤ c ∧ c ≤ '9' then some (c.toNat - '0'.toNat) else none

/-- The value of a list of decimal digits, `acc` being the value of those before it. -/
def digitsValue? (acc : Nat) : List Char → Option Nat
  | [] => some acc
  | c :: cs => (digit? c).bind fun d => digitsValue? (acc * 10 + d) cs

/-- The natural spelled by a list of at least one digit, if it fits in 64 bits. -/
def word? (cs : List Char) : Option Nat :=
  if cs.isEmpty then none else (digitsValue? 0 cs).filter (· < Word.limit)

/-- The 64-bit natural spelled by a text, with or without a plus sign. -/
def readWord? (s : String) : Option Nat :=
  match s.toList with
  | '+' :: cs => word? cs
  | cs => word? cs

/-! ### Decimal fractions -/

/-- The number `digits * 10 ^ exponent`, or its negative. -/
structure Decimal where
  negative : Bool
  digits : Nat
  exponent : Int
deriving DecidableEq, Repr

namespace Decimal

def isDigit (c : Char) : Bool :=
  (digit? c).isSome

/-- Take off a sign; the flag tells whether it was a minus. -/
def takeSign : List Char → Bool × List Char
  | '-' :: cs => (true, cs)
  | '+' :: cs => (false, cs)
  | cs => (false, cs)

def exponent? (cs : List Char) : Option Int :=
  let (negative, digits) := takeSign cs
  if digits.isEmpty then none
  else (digitsValue? 0 digits).map fun n => if negative then -(n : Int) else n

/-- What may follow the digits: nothing, or an exponent. -/
def tail? : List Char → Option Int
  | [] => some 0
  | c :: cs => if c = 'e' ∨ c = 'E' then exponent? cs else none

/-- The digits after a point, if there is one, and what follows them. -/
def takeFraction : List Char → List Char × List Char
  | '.' :: cs => (cs.takeWhile isDigit, cs.dropWhile isDigit)
  | cs => ([], cs)

/-- Read a decimal fraction with at least one digit before or after the point. -/
def read? (s : String) : Option Decimal :=
  let (negative, cs) := takeSign s.toList
  let whole := cs.takeWhile isDigit
  let (fraction, rest) := takeFraction (cs.dropWhile isDigit)
  if whole.isEmpty ∧ fraction.isEmpty then none
  else do
    let digits ← digitsValue? 0 (whole ++ fraction)
    let exponent ← tail? rest
    return { negative, digits, exponent := exponent - fraction.length }

/-! The nearest binary number. -/

/-- The natural nearest to a quotient; of two equally near ones the even one. -/
def roundDiv (num den : Nat) : Nat :=
  let q := num / den
  let r := num % den
  if den < 2 * r ∨ (2 * r = den ∧ q % 2 = 1) then q + 1 else q

/-- `n * 2 ^ e` as a quotient. -/
def scale (n : Nat) (e : Int) : Nat × Nat :=
  if 0 ≤ e then (n * twoPow e.toNat, 1) else (n, twoPow (-e).toNat)

/-- The largest `k` with `2 ^ k` at most the quotient of two positive naturals. -/
def floorLog2 (num den : Nat) : Int :=
  let k : Int := (num.log2 : Int) - den.log2
  let (n, d) := scale num (-k)
  if den * d ≤ n then k else k - 1

/-- The nearest number `m * 2 ^ e` to a quotient of positive naturals, `m` having at most 53 binary
digits and `e` being at least -1074. -/
def nearest (num den : Nat) : Nat × Int :=
  let e := max (floorLog2 num den - 52) (-1074)
  let (n, d) := scale num (-e)
  (roundDiv n (den * d), e)

def width (n : Nat) : Nat :=
  (Nat.toDigits 10 n).length

/-- The nearest number `m * 2 ^ e` to the absolute value. Beyond the range of 64-bit floating point
there is none, and far below it the nearest is zero. -/
def magnitude? (x : Decimal) : Option (Nat × Int) :=
  let place : Int := width x.digits + x.exponent
  if x.digits = 0 ∨ place < -330 then some (0, 0)
  else if 310 < place then none
  else
    let (num, den) :=
      if 0 ≤ x.exponent then (x.digits * Nat.pow 10 x.exponent.toNat, 1)
      else (x.digits, Nat.pow 10 (-x.exponent).toNat)
    let (m, e) := nearest num den
    let (n, d) := scale m e
    if twoPow 1024 * d ≤ n then none else some (m, e)

/-- The nearest number, if it is a natural. -/
def natural? (x : Decimal) : Option Nat := do
  let (m, e) ← x.magnitude?
  let (n, d) := scale m e
  if m = 0 then some 0
  else if x.negative then none
  else if n % d = 0 then some (n / d)
  else none

end Decimal

end CycleBounds.Text
