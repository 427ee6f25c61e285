import Criteria.Number.Numeral

/-! # The text of binary64 numbers

The text of a finite number is made of its shortest decimal. What a format decides is collected in
one record. -/
namespace Criteria.Binary64

/-! ## The shortest decimal

A finite number is an exact decimal. Its shortest form keeps as few leading digits as still read
back to the number; the digits kept are rounded down or up, the nearer first. -/

/-- Where the two candidates are equally near. -/
inductive Tie where
  | up
  | even
deriving DecidableEq, Repr

/-- The magnitude of a finite number is exactly `digits * 10 ^ exponent`. -/
def exactDigits (x : Binary64) : Nat :=
  if 0 ≤ x.exponent then x.mantissa * Nat.pow 2 x.exponent.toNat
  else x.mantissa * Nat.pow 5 (-x.exponent).toNat

def exactExponent (x : Binary64) : Int := min x.exponent 0

/-- The number is the nearest to this decimal. -/
def readsBack (x : Binary64) (digits : Nat) (exponent : Int) : Bool :=
  ofDecimal x.negative digits exponent == x

/-- The two numbers of `unit`s around `digits`, the nearer first. -/
def candidates (tie : Tie) (digits unit : Nat) : List Nat :=
  let lo := digits / unit
  let r := 2 * (digits % unit)
  if r < unit then [lo, lo + 1]
  else if unit < r then [lo + 1, lo]
  else match tie with
    | .up => [lo + 1, lo]
    | .even => if lo % 2 = 0 then [lo, lo + 1] else [lo + 1, lo]

/-- Drops as many digits as `drop` or, if the rest does not read back, fewer. -/
def shorten (x : Binary64) (tie : Tie) : Nat → Nat × Int
  | 0 => (x.exactDigits, x.exactExponent)
  | drop + 1 =>
    let exponent := x.exactExponent + (drop + 1 : Nat)
    let near := candidates tie x.exactDigits (Nat.pow 10 (drop + 1))
    match near.find? (x.readsBack · exponent) with
    | some digits => (digits, exponent)
    | none => x.shorten tie drop

/-- The shortest decimal `digits * 10 ^ exponent` of a finite magnitude. -/
def shortest (x : Binary64) (tie : Tie) : Nat × Int :=
  x.shorten tie ((Decimal.ofNat x.exactDigits).length - 1)

/-- Significant digits, without zeros at the end, and the place of the point: the magnitude is
`0.digits * 10 ^ point`. -/
structure Significand where
  digits : List Char
  point : Int
deriving DecidableEq, Repr

def significand (x : Binary64) (tie : Tie) : Significand :=
  let d := x.shortest tie
  let digits := Decimal.ofNat d.1
  ⟨(digits.reverse.dropWhile (· == '0')).reverse, digits.length + d.2⟩

/-! ## Layout

The digits are laid out around a point, or with an exponent outside a range of sizes. -/

/-- The decisions of a number format. -/
structure Layout where
  tie : Tie
  /-- Whether the point of a number is written out; otherwise it has an exponent. -/
  positional : Int → Bool
  /-- What follows a whole number in positional form. -/
  wholeEnding : List Char

def zeros (n : Int) : List Char := List.replicate n.toNat '0'

def Layout.place (l : Layout) (s : Significand) : List Char :=
  if s.point ≤ 0 then '0' :: '.' :: zeros (-s.point) ++ s.digits
  else if s.digits.length ≤ s.point then
    s.digits ++ zeros (s.point - s.digits.length) ++ l.wholeEnding
  else s.digits.take s.point.toNat ++ '.' :: s.digits.drop s.point.toNat

/-- One digit before the point, and a signed exponent. -/
def scientific (s : Significand) : List Char :=
  let mark := if s.point ≤ 0 then ['e', '-'] else ['e', '+']
  let rest := if s.digits.length ≤ 1 then [] else '.' :: s.digits.drop 1
  s.digits.take 1 ++ rest ++ mark ++ Decimal.ofNat (s.point - 1).natAbs

def Layout.magnitude (l : Layout) (x : Binary64) : List Char :=
  if x.isZero then '0' :: l.wholeEnding
  else
    let s := x.significand l.tie
    if l.positional s.point then l.place s else scientific s

/-- The text of a finite number. Zero keeps its sign. -/
def Layout.text (l : Layout) (x : Binary64) : List Char :=
  if x.negative then '-' :: l.magnitude x else l.magnitude x

/-- Every digit is written out, and a whole number has no point. -/
def plain : Layout := ⟨.up, fun _ => true, []⟩

end Criteria.Binary64
