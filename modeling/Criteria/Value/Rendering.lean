import Criteria.Calendar
import Criteria.Condition.Basic
import Criteria.InputType
import Criteria.Operand

/-! # Values as they are written

A constant is written in the way of the input type that is declared for its field, or as its own
literal if none is. The name of a field stands as it is. -/
namespace Criteria.Value

def quoted (v : Value) : List Char := Text.quote v.bare

/-- A string stands for the number it begins with, and is quoted if it begins with none. -/
def asNumber (v : Value) : List Char :=
  match v with
  | .string s =>
    match Numeral.leading? s.toList with
    | some x => floatText x
    | none => Text.quote s.toList
  | v => v.literal

/-- Zero, what is no number, and the strings and arrays that stand for nothing are false. -/
def isTrue : Value → Bool
  | .null => false
  | .bool b => b
  | .int n => n != 0
  | .float x => !x.isZero && !x.isNaN
  | .string s => !(s.isEmpty || s == "0" || Text.lower s.toList == "false".toList)
  | .array items => !items.isEmpty

def asBoolean (v : Value) : List Char := if v.isTrue then ['1'] else ['0']

/-- An integer counts milliseconds, a string is read. -/
def moment? : Value → Option Calendar.Moment
  | .int n => Calendar.Moment.ofMillis? n.toInt
  | .string s => Calendar.Moment.ofText? (Text.trim s.toList)
  | _ => none

open Calendar in
/-- A value of a date or time type, quoted so that it reads as a string. A moment that lacks what
the type asks for is left as it is, except that a date begins at midnight. -/
def asMoment (date time : Bool) (v : Value) : List Char :=
  match v.moment?, date, time with
  | some (.dateTime d _), true, false => Text.quote d.text
  | some (.date d), true, false => Text.quote d.text
  | some (.dateTime _ t), false, true => Text.quote t.text
  | some (.clock t), false, true => Text.quote t.text
  | some (.dateTime d t), true, true => Text.quote (d.text ++ 'T' :: t.text)
  | some (.date d), true, true => Text.quote (d.text ++ 'T' :: Clock.midnight.text)
  | _, _, _ => v.quoted

/-- A constant in the way of its field's type. -/
def typed (type : Option InputType) (v : Value) : List Char :=
  match type with
  | none => v.literal
  | some .string => v.quoted
  | some .number => v.asNumber
  | some .boolean => v.asBoolean
  | some .date => v.asMoment true false
  | some .time => v.asMoment false true
  | some .dateTime => v.asMoment true true

mutual

/-- The text of a value in a proposition. The items of an array stand between commas, and an empty
array is null. -/
def render (type : Option InputType) (source : Source) : Value → List Char
  | .array [] => Value.null.literal
  | .array (v :: vs) => Text.joinWith ',' (renderAll type source (v :: vs))
  | .null => Value.null.literal
  | .string s =>
    match source with
    | .field => s.toList
    | .value => typed type (.string s)
  | v =>
    match source with
    | .field => v.literal
    | .value => typed type v

def renderAll (type : Option InputType) (source : Source) : List Value → List (List Char)
  | [] => []
  | v :: vs => render type source v :: renderAll type source vs

end

end Criteria.Value
