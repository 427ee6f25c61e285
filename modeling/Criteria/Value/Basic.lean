import Criteria.Number.Layout
import Criteria.Text.Basic

/-! # Values

The constants that conditions compare with, their literals, and when two of them are the same. -/
namespace Criteria

inductive Value where
  | null
  | int (n : Int64)
  | float (x : Binary64)
  | bool (b : Bool)
  | string (s : String)
  | array (items : List Value)
deriving Repr, Inhabited

namespace Value

def isNull : Value → Bool
  | .null => true
  | _ => false

def string? : Value → Option String
  | .string s => some s
  | _ => none

def items? : Value → Option (List Value)
  | .array items => some items
  | _ => none

def intText (n : Int64) : List Char := Decimal.ofInt n.toInt

/-- A float that is no finite number has no literal and becomes null. -/
def floatText (x : Binary64) : List Char :=
  if x.isFinite then Binary64.plain.text x else "null".toList

mutual

/-- The literal of a value: strings are quoted, truth values are one and zero, the items of an array
stand between commas. -/
def literal : Value → List Char
  | .null => "null".toList
  | .int n => intText n
  | .float x => floatText x
  | .bool b => if b then ['1'] else ['0']
  | .string s => Text.quote s.toList
  | .array items => Text.joinWith ',' (literals items)

def literals : List Value → List (List Char)
  | [] => []
  | v :: vs => v.literal :: literals vs

end

theorem literals_eq (vs : List Value) : literals vs = vs.map literal := by
  induction vs with
  | nil => rw [literals, List.map_nil]
  | cons v vs ih => rw [literals, ih, List.map_cons]

mutual

/-- The text of a value without quotes. Null has none. -/
def bare : Value → List Char
  | .null => []
  | .int n => intText n
  | .float x => floatText x
  | .bool b => if b then "true".toList else "false".toList
  | .string s => s.toList
  | .array items => Text.joinWith ',' (bares items)

def bares : List Value → List (List Char)
  | [] => []
  | v :: vs => v.bare :: bares vs

end

mutual

/-- Equality of values, floats compared as numbers. -/
def same : Value → Value → Bool
  | .null, .null => true
  | .int m, .int n => m == n
  | .float x, .float y => x.numEq y
  | .bool a, .bool b => a == b
  | .string s, .string t => s == t
  | .array vs, .array ws => sameAll vs ws
  | _, _ => false

def sameAll : List Value → List Value → Bool
  | [], [] => true
  | v :: vs, w :: ws => v.same w && sameAll vs ws
  | _, _ => false

end

end Value
end Criteria
