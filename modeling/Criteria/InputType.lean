import Criteria.Text.Basic

/-! # Input types

The kind of input that is declared for a field; it decides how the field's values are written. -/
namespace Criteria

inductive InputType where
  | string
  | number
  | boolean
  | date
  | time
  | dateTime
deriving DecidableEq, Repr

namespace InputType

def name : InputType → String
  | .string => "string"
  | .number => "number"
  | .boolean => "boolean"
  | .date => "date"
  | .time => "time"
  | .dateTime => "datetime"

def all : List InputType := [.string, .number, .boolean, .date, .time, .dateTime]

def ofName? (name : String) : Option InputType := all.find? fun t => t.name == name

/-- The type that a form's name for an input means, whatever its ASCII case and the blanks around
it. -/
def ofInputName? (name : List Char) : Option InputType :=
  match String.ofList (Text.lower (Text.trim name)) with
  | "string" | "text" | "textarea" | "select" => some .string
  | "number" | "integer" | "float" | "decimal" | "range" => some .number
  | "boolean" | "bool" | "checkbox" | "toggle" => some .boolean
  | "date" => some .date
  | "time" => some .time
  | "datetime" | "datetime-local" | "timestamp" => some .dateTime
  | _ => none

end InputType

/-- The input type of each field, as far as it is declared. -/
abbrev FieldTypes := String → Option InputType

/-- No field has a declared type. -/
def FieldTypes.untyped : FieldTypes := fun _ => none

/-- Declared types, each field once. -/
structure TypeTable where
  entries : List (String × InputType)
deriving DecidableEq, Repr

namespace TypeTable

def empty : TypeTable := ⟨[]⟩

def size (t : TypeTable) : Nat := t.entries.length

def get? (t : TypeTable) : FieldTypes := fun field =>
  (t.entries.find? fun e => e.1 == field).map Prod.snd

/-- A field declared before gets the new type. -/
def insert (t : TypeTable) (field : String) (type : InputType) : TypeTable :=
  ⟨(field, type) :: t.entries.filter fun e => e.1 != field⟩

/-- Later declarations of a field count. -/
def ofList (declarations : List (String × InputType)) : TypeTable :=
  declarations.foldl (fun t d => t.insert d.1 d.2) empty

theorem get?_insert (t : TypeTable) (field other : String) (type : InputType) :
    (t.insert field type).get? other = if other = field then some type else t.get? other := by
  by_cases h : other = field
  · simp [insert, get?, h]
  · have hf : (field == other) = false := beq_false_of_ne (Ne.symm h)
    simp only [insert, get?, List.find?_cons, hf, if_neg h, List.find?_filter]
    congr 2
    funext e
    by_cases he : e.1 = other <;> simp [he, h]

end TypeTable
end Criteria
