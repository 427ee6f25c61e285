/-! # Binary64 numbers

The numbers of the IEEE format of 64 bits: a sign and the 63 bits below it. Read as a natural
number, those 63 bits count the magnitudes in ascending order: zero, the finite magnitudes,
infinity, and above it the values that are no number. -/
namespace Criteria

/-- How many magnitudes share one exponent. -/
def Binary64.fractionCount : Nat := Nat.pow 2 52

/-- How many values the bits below the sign have. -/
def Binary64.indexCount : Nat := Nat.pow 2 63

structure Binary64 where
  negative : Bool
  /-- The bits below the sign: eleven of exponent above fifty-two of fraction. -/
  index : Fin Binary64.indexCount
deriving DecidableEq, Repr

namespace Binary64

/-- The index of infinity; the finite magnitudes lie below it. -/
def infinityIndex : Nat := 2047 * fractionCount

theorem infinityIndex_lt : infinityIndex < indexCount := by decide

def isFinite (x : Binary64) : Bool := decide (x.index.val < infinityIndex)

def isNaN (x : Binary64) : Bool := decide (infinityIndex < x.index.val)

def isZero (x : Binary64) : Bool := x.index.val == 0

/-- The number of this sign whose magnitude has the given place, infinity past the last. -/
def ofIndex (negative : Bool) (index : Nat) : Binary64 :=
  if h : index < infinityIndex then ⟨negative, ⟨index, Nat.lt_trans h infinityIndex_lt⟩⟩
  else ⟨negative, ⟨infinityIndex, infinityIndex_lt⟩⟩

/-- A finite magnitude is `mantissa * 2 ^ exponent`. The smallest ones share one exponent. -/
def mantissa (x : Binary64) : Nat :=
  if x.index.val < fractionCount then x.index.val
  else fractionCount + x.index.val % fractionCount

def exponent (x : Binary64) : Int :=
  if x.index.val < fractionCount then -1074 else (x.index.val / fractionCount : Nat) - 1075

/-- Equality of numbers: the two zeros are equal, and a value that is no number equals nothing. -/
def numEq (x y : Binary64) : Bool :=
  !x.isNaN && !y.isNaN && ((x.isZero && y.isZero) || decide (x = y))

/-- The number with the given encoding of 64 bits. -/
def ofBits (bits : UInt64) : Binary64 :=
  ⟨decide (indexCount ≤ bits.toNat), ⟨bits.toNat % indexCount, Nat.mod_lt _ (by decide)⟩⟩

/-- The encoding of 64 bits. Every value that is no number is written in the same way. -/
def toBits (x : Binary64) : UInt64 :=
  if x.isNaN then 0x7FF8000000000000
  else UInt64.ofNat ((if x.negative then indexCount else 0) + x.index.val)

/-! ## Rounding

A ratio of natural numbers is rounded to the nearest magnitude in exact arithmetic, a half going to
the even neighbour; a decimal is the ratio it denotes. -/

/-- The quotient rounded to the nearest natural number, a half to the even one. -/
def roundDiv (num den : Nat) : Nat :=
  let k := num / den
  let r := 2 * (num % den)
  if r < den then k else if den < r then k + 1 else k + k % 2

/-- The ratio `num / den` divided by `2 ^ q`, as numerator and denominator. -/
def scaled (num den : Nat) (q : Int) : Nat × Nat :=
  (num * Nat.pow 2 (-q).toNat, den * Nat.pow 2 q.toNat)

/-- The exponent of the unit in which a ratio is rounded: its quotient by the unit lies below
`2 ^ 53`, and not below `2 ^ 52` unless the unit is the least one. -/
def unitExponent (num den : Nat) : Int :=
  let e : Int := (num.log2 : Int) - den.log2
  let s := scaled num den e
  max (-1074) (if s.1 < s.2 then e - 53 else e - 52)

/-- The place of the magnitude nearest to a ratio. A quotient of `2 ^ 53` after rounding gives the
first place of the next exponent. -/
def nearestIndex (num den : Nat) : Nat :=
  let q := unitExponent num den
  let s := scaled num den q
  (q + 1074).toNat * fractionCount + roundDiv s.1 s.2

/-- The number nearest to `digits * 10 ^ exponent`. As ten exceeds `2 ^ 3`, decimals far outside the
range are known from the length of their digits, whatever their exponent. -/
def ofDecimal (negative : Bool) (digits : Nat) (exponent : Int) : Binary64 :=
  let size : Int := digits.log2 + 3 * exponent
  if digits = 0 then ofIndex negative 0
  else if 0 ≤ exponent then
    if 1024 ≤ size then ofIndex negative infinityIndex
    else ofIndex negative (nearestIndex (digits * Nat.pow 10 exponent.toNat) 1)
  else if size < -1100 then ofIndex negative 0
  else ofIndex negative (nearestIndex digits (Nat.pow 10 (-exponent).toNat))

end Binary64
end Criteria
