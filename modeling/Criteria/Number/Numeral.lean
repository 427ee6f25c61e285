import Criteria.Number.Binary64

/-! # Decimal numerals

Natural numbers and integers in base ten, and the grammar of numerals: a sign, digits with a point
somewhere, and an exponent. The longest numeral at the start of a text is read; a mark of exponent
without digits after it spoils the numeral. Both grammars, that of integers and that of numerals,
follow the documentation of the parsing library that operands are read with. -/
namespace Criteria

namespace Decimal

def isDigit (c : Char) : Bool := decide ('0' ≤ c) && decide (c ≤ '9')

/-- The number that the digits spell; no digits spell zero. -/
def value (digits : List Char) : Nat := Nat.ofDigitChars 10 digits 0

def ofNat (n : Nat) : List Char := Nat.toDigits 10 n

/-- A negative number has a minus sign, a positive one no sign. -/
def ofInt (n : Int) : List Char :=
  if n < 0 then '-' :: ofNat n.natAbs else ofNat n.natAbs

/-- At least `width` digits, filled with zeros on the left. -/
def padded (width n : Nat) : List Char :=
  List.replicate (width - (ofNat n).length) '0' ++ ofNat n

/-- The digits at the start of a text and what follows them. -/
def spanDigits (cs : List Char) : List Char × List Char :=
  (cs.takeWhile isDigit, cs.dropWhile isDigit)

/-- Whether a sign at the start of a text is a minus, and the text after the sign. -/
def spanSign : List Char → Bool × List Char
  | '-' :: cs => (true, cs)
  | '+' :: cs => (false, cs)
  | cs => (false, cs)

end Decimal

/-- The digits before and after the point, and the exponent that follows them. -/
structure Numeral where
  negative : Bool
  whole : List Char
  fraction : List Char
  exponent : Int
deriving DecidableEq, Repr

namespace Numeral
open Decimal

/-- The nearest binary64 number. -/
def toBinary64 (n : Numeral) : Binary64 :=
  Binary64.ofDecimal n.negative (value (n.whole ++ n.fraction)) (n.exponent - n.fraction.length)

/-- The digits around the point. One of the two sides may be empty, and without digits before it the
point needs some after it. -/
def spanMantissa (cs : List Char) : Option ((List Char × List Char) × List Char) :=
  let w := spanDigits cs
  match w.2 with
  | '.' :: rest =>
    let f := spanDigits rest
    if w.1.isEmpty && f.1.isEmpty then none else some ((w.1, f.1), f.2)
  | rest => if w.1.isEmpty then none else some ((w.1, []), rest)

/-- An exponent, zero if there is none. -/
def spanExponent : List Char → Option (Int × List Char)
  | [] => some (0, [])
  | c :: cs =>
    if c = 'e' ∨ c = 'E' then
      let s := spanSign cs
      let d := spanDigits s.2
      if d.1.isEmpty then none
      else some (if s.1 then -(value d.1 : Int) else value d.1, d.2)
    else some (0, c :: cs)

/-- The numeral at the start of a text and what follows it. -/
def span (cs : List Char) : Option (Numeral × List Char) := do
  let s := spanSign cs
  let m ← spanMantissa s.2
  let e ← spanExponent m.2
  return (⟨s.1, m.1.1, m.1.2, e.1⟩, e.2)

/-- An integer numeral, a single zero or digits that do not begin with one. -/
def integer? (cs : List Char) : Option Int :=
  if cs = ['0'] then some 0
  else
    let s := spanSign cs
    let d := spanDigits s.2
    if d.1.isEmpty || d.1.head? == some '0' || !d.2.isEmpty then none
    else some (if s.1 then -(value d.1 : Int) else value d.1)

/-- The integers of 64 bits. -/
def inInt64 (n : Int) : Bool :=
  decide (Int64.minValue.toInt ≤ n) && decide (n ≤ Int64.maxValue.toInt)

end Numeral
end Criteria
