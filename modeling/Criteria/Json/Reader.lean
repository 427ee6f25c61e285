import Criteria.Json.Basic
import Criteria.Number.Numeral

/-! # JSON from text

The grammar is that of JSON. Where it leaves a choice, the documented behaviour of the library that
trees are exchanged with is followed: an integer of 64 bits stays an integer, any other number is
rounded to a float, and what no string or float can hold is an error unless it is skipped. -/
namespace Criteria.Json

def isSpace (c : Char) : Bool := c == ' ' || c == '\t' || c == '\n' || c == '\r'

def skip (cs : List Char) : List Char := cs.dropWhile isSpace

/-! ## Strings

A string is first read as a list of codes. A code is a character, or half of a surrogate pair from
an escape; two halves that follow each other are one character. -/

def hexValue? (c : Char) : Option Nat :=
  if '0' ≤ c ∧ c ≤ '9' then some (c.toNat - 48)
  else if 'a' ≤ c ∧ c ≤ 'f' then some (c.toNat - 87)
  else if 'A' ≤ c ∧ c ≤ 'F' then some (c.toNat - 55)
  else none

def hex4? (a b c d : Char) : Option Nat := do
  return 4096 * (← hexValue? a) + 256 * (← hexValue? b) + 16 * (← hexValue? c) + (← hexValue? d)

/-- The character that a letter means after a backslash. -/
def unescape? : Char → Option Char
  | '"' => some '"'
  | '\\' => some '\\'
  | '/' => some '/'
  | 'b' => some '\x08'
  | 'f' => some '\x0C'
  | 'n' => some '\n'
  | 'r' => some '\r'
  | 't' => some '\t'
  | _ => none

/-- The codes of a string up to its closing quote, and the text after it. -/
def codes : List Char → Option (List Nat × List Char)
  | [] => none
  | '"' :: cs => some ([], cs)
  | '\\' :: 'u' :: a :: b :: c :: d :: cs => do
    let n ← hex4? a b c d
    let r ← codes cs
    return (n :: r.1, r.2)
  | '\\' :: e :: cs => do
    let c ← unescape? e
    let r ← codes cs
    return (c.toNat :: r.1, r.2)
  | c :: cs =>
    if c.toNat < 0x20 then none else (codes cs).map fun r => (c.toNat :: r.1, r.2)

def isHigh (n : Nat) : Bool := decide (0xD800 ≤ n) && decide (n < 0xDC00)

def isLow (n : Nat) : Bool := decide (0xDC00 ≤ n) && decide (n < 0xE000)

/-- The characters of the codes, if no half of a pair is left alone. -/
def characters? : List Nat → Option (List Char)
  | [] => some []
  | [n] => if isHigh n || isLow n then none else some [Char.ofNat n]
  | n :: m :: rest =>
    if isHigh n then
      if isLow m then
        (characters? rest).map (Char.ofNat (0x10000 + 1024 * (n - 0xD800) + (m - 0xDC00)) :: ·)
      else none
    else if isLow n then none
    else (characters? (m :: rest)).map (Char.ofNat n :: ·)

/-- The string up to its closing quote, if it denotes one, and the text after it. -/
def stringBody (cs : List Char) : Option (Option String × List Char) :=
  (codes cs).map fun r => ((characters? r.1).map String.ofList, r.2)

/-! ## Numbers -/

/-- The fraction of a number, empty without a point. A point needs digits after it. -/
def fraction : List Char → Option (List Char × List Char)
  | '.' :: cs =>
    let d := Decimal.spanDigits cs
    if d.1.isEmpty then none else some d
  | cs => some ([], cs)

def ofFloat (x : Binary64) : Json := if x.isFinite then .float x else .unusable

/-- A number without fraction and exponent is an integer, unless it is too large for 64 bits or a
negative zero. -/
def ofNumeral (n : Numeral) (isWhole : Bool) : Json :=
  let m : Int := Decimal.value n.whole
  let i := if n.negative then -m else m
  if isWhole && Numeral.inInt64 i && !(n.negative && i == 0) then .int (Int64.ofInt i)
  else ofFloat n.toBinary64

def marksExponent : List Char → Bool
  | c :: _ => c == 'e' || c == 'E'
  | [] => false

/-- A number: digits that do not begin with a zero, or a zero; a fraction; an exponent. -/
def number (cs : List Char) : Option (Json × List Char) := do
  let s := match cs with
    | '-' :: rest => (true, rest)
    | rest => (false, rest)
  let w := Decimal.spanDigits s.2
  if w.1.isEmpty || (w.1.head? == some '0' && w.1.length != 1) then none
  else
    let f ← fraction w.2
    let e ← Numeral.spanExponent f.2
    return (ofNumeral ⟨s.1, w.1, f.1, e.1⟩ (f.1.isEmpty && !marksExponent f.2), e.2)

/-! ## Values -/

/-- The text after a word that stands at its start. -/
def afterWord? (word cs : List Char) : Option (List Char) :=
  if word.isPrefixOf cs then some (cs.drop word.length) else none

/-- A value that is neither a string nor nested. -/
def scalar (cs : List Char) : Option (Json × List Char) :=
  match afterWord? "null".toList cs, afterWord? "true".toList cs, afterWord? "false".toList cs with
  | some rest, _, _ => some (.null, rest)
  | _, some rest, _ => some (.bool true, rest)
  | _, _, some rest => some (.bool false, rest)
  | none, none, none => number cs

def ofString : Option String → Json
  | some s => .string s
  | none => .unusable

/-- An object, usable if all its names are. -/
def ofMembers (members : List (Option String × Json)) : Json :=
  match members.mapM fun m => m.1.map fun key => (key, m.2) with
  | some ms => .object ms
  | none => .unusable

mutual

/-- A value and the text after it. Each step down takes at least one character, so the length of the
text bounds the steps. -/
def value : Nat → List Char → Option (Json × List Char)
  | 0, _ => none
  | n + 1, cs =>
    match skip cs with
    | '[' :: rest =>
      match skip rest with
      | ']' :: rest => some (.array [], rest)
      | rest => (items n rest).map fun r => (.array r.1, r.2)
    | '\x7b' :: rest =>
      match skip rest with
      | '\x7d' :: rest => some (.object [], rest)
      | rest => (members n rest).map fun r => (ofMembers r.1, r.2)
    | '"' :: rest => (stringBody rest).map fun r => (ofString r.1, r.2)
    | rest => scalar rest

/-- The items of an array up to its end, at least one. -/
def items : Nat → List Char → Option (List Json × List Char)
  | 0, _ => none
  | n + 1, cs => do
    let v ← value n cs
    match skip v.2 with
    | ',' :: rest => (items n rest).map fun r => (v.1 :: r.1, r.2)
    | ']' :: rest => return ([v.1], rest)
    | _ => none

/-- The members of an object up to its end, at least one. -/
def members : Nat → List Char → Option (List (Option String × Json) × List Char)
  | 0, _ => none
  | n + 1, cs =>
    match skip cs with
    | '"' :: rest => do
      let key ← stringBody rest
      match skip key.2 with
      | ':' :: rest =>
        let v ← value n rest
        match skip v.2 with
        | ',' :: rest => (members n rest).map fun r => ((key.1, v.1) :: r.1, r.2)
        | '\x7d' :: rest => return ([(key.1, v.1)], rest)
        | _ => none
      | _ => none
    | _ => none

end

/-- The value of a text that holds one value and spaces around it. -/
def read? (cs : List Char) : Option Json :=
  match value (cs.length + 1) cs with
  | some (j, rest) => if (skip rest).isEmpty then some j else none
  | none => none

def ofText? (text : String) : Option Json := read? text.toList

end Criteria.Json
