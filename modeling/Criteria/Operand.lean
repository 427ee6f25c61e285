import Criteria.Arguments
import Criteria.Number.Numeral
import Criteria.Value.Basic

/-! # Operands

What an argument of a condition is, decided from its text alone, and the value it stands for. -/
namespace Criteria

namespace Numeral

/-- The number a text spells as a whole: an integer of 64 bits if it is one, otherwise a finite
float. Words that float readers know, such as `inf`, begin with a letter and are none. -/
def number? (cs : List Char) : Option Value :=
  match cs with
  | [] => none
  | c :: _ =>
    if Decimal.isDigit c || c == '-' || c == '+' || c == '.' then
      match (integer? cs).filter inInt64 with
      | some n => some (.int (Int64.ofInt n))
      | none =>
        match span cs with
        | some (n, []) => if n.toBinary64.isFinite then some (.float n.toBinary64) else none
        | _ => none
    else none

/-- The finite number at the start of a text, after blanks. A text that begins with an ASCII letter
has none. -/
def leading? (cs : List Char) : Option Binary64 :=
  let cs := Text.trimLeft cs
  if cs.head?.any Char.isAlpha then none
  else ((span cs).map fun r => r.1.toBinary64).filter Binary64.isFinite

end Numeral

namespace Operand

inductive Kind where
  | null
  | number
  | string
  | call
  | variable
deriving DecidableEq, Repr

def isQuote (c : Char) : Bool := c == '\'' || c == '"'

/-- The first and the last character are the same quote, at two places. -/
def isQuoted : List Char → Bool
  | [] => false
  | q :: cs => isQuote q && cs.getLast? == some q

/-- The kind of a text without blanks around it. -/
def kindOfTrimmed (cs : List Char) : Kind :=
  if cs.isEmpty || Text.lower cs == "null".toList then .null
  else if isQuoted cs then .string
  else if cs.getLast? == some ')' then .call
  else if (Numeral.number? cs).isSome then .number
  else .variable

def kindOf (cs : List Char) : Kind := kindOfTrimmed (Text.trim cs)

end Operand

/-- A text without blanks around it, and its kind. -/
structure Operand where
  raw : List Char
  kind : Operand.Kind
deriving DecidableEq, Repr

namespace Operand

def isVariable (o : Operand) : Bool := o.kind == .variable

/-- The text as an error or a field name holds it. -/
def text (o : Operand) : String := String.ofList o.raw

/-- An argument as the operand of a condition. A call is none, and neither is a text that opens a
quote and does not end with it. -/
def classify (cs : List Char) : Except ReadError Operand :=
  let raw := Text.trim cs
  match kindOfTrimmed raw with
  | .call => .error (.wrongOperand (String.ofList raw) .value)
  | .variable =>
    if raw.head?.any isQuote then .error (.malformedString (String.ofList raw))
    else .ok ⟨raw, .variable⟩
  | kind => .ok ⟨raw, kind⟩

/-- The text between the quotes of a string, its escapes resolved. -/
def unquote (cs : List Char) : Except ReadError (List Char) :=
  match argumentSplitter.pieces true cs with
  | .error e => .error (.split e)
  | .ok [body] => .ok body
  | .ok _ => .error (.malformedString (String.ofList cs))

/-- The value of an operand; a variable stands for its own name. -/
def value (o : Operand) : Except ReadError Value :=
  match o.kind with
  | .null => .ok .null
  | .string => (unquote o.raw).map fun body => .string (String.ofList body)
  | .number =>
    match Numeral.number? o.raw with
    | some v => .ok v
    | none => .error (.wrongOperand o.text .value)
  | .variable => .ok (.string o.text)
  | .call => .error (.wrongOperand o.text .value)

end Operand
end Criteria
