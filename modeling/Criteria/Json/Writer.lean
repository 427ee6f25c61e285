import Criteria.Json.Basic
import Criteria.Number.Layout
import Criteria.Text.Basic

/-! # JSON as text

Compact text: no spaces, members in their order. -/
namespace Criteria.Json

def hexDigit (n : Nat) : Char := Nat.digitChar n

/-- Quotes, backslashes and control characters are escaped, all other characters stand as they
are. -/
def escape (c : Char) : List Char :=
  match c with
  | '"' => ['\\', '"']
  | '\\' => ['\\', '\\']
  | '\x08' => ['\\', 'b']
  | '\x0C' => ['\\', 'f']
  | '\n' => ['\\', 'n']
  | '\r' => ['\\', 'r']
  | '\t' => ['\\', 't']
  | c =>
    if c.toNat < 0x20 then ['\\', 'u', '0', '0', hexDigit (c.toNat / 16), hexDigit (c.toNat % 16)]
    else [c]

def writeString (s : String) : List Char := '"' :: s.toList.flatMap escape ++ ['"']

/-- Floats are told from integers by a point or an exponent. They are positional from `1e-5` up to
`1e16`; of two shortest decimals equally near the even one is written. -/
def floatLayout : Binary64.Layout :=
  ⟨.even, fun point => decide (-5 < point) && decide (point ≤ 16), ['.', '0']⟩

mutual

def write : Json → List Char
  | .null => "null".toList
  | .bool b => if b then "true".toList else "false".toList
  | .int n => Decimal.ofInt n.toInt
  | .float x => floatLayout.text x
  | .string s => writeString s
  | .array items => '[' :: Text.joinWith ',' (writeAll items) ++ [']']
  | .object members => '\x7b' :: Text.joinWith ',' (writeMembers members) ++ ['\x7d']
  | .unusable => "null".toList

def writeAll : List Json → List (List Char)
  | [] => []
  | j :: js => j.write :: writeAll js

def writeMembers : List (String × Json) → List (List Char)
  | [] => []
  | (key, j) :: ms => (writeString key ++ ':' :: j.write) :: writeMembers ms

end

def toText (j : Json) : String := String.ofList j.write

end Criteria.Json
