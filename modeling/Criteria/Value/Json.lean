import Criteria.InputType
import Criteria.Json.Reader
import Criteria.Value.Basic

/-! # Values and input types as JSON

A value is the JSON value of its kind. A float that is no finite number is null. -/
namespace Criteria

namespace Value

mutual

def toJson : Value → Json
  | .null => .null
  | .int n => .int n
  | .float x => if x.isFinite then .float x else .null
  | .bool b => .bool b
  | .string s => .string s
  | .array items => .array (toJsons items)

def toJsons : List Value → List Json
  | [] => []
  | v :: vs => v.toJson :: toJsons vs

end

mutual

/-- Objects are no values. -/
def ofJson? : Json → Option Value
  | .null => some .null
  | .int n => some (.int n)
  | .float x => some (.float x)
  | .bool b => some (.bool b)
  | .string s => some (.string s)
  | .array items => (ofJsons? items).map .array
  | .object _ => none
  | .unusable => none

def ofJsons? : List Json → Option (List Value)
  | [] => some []
  | j :: js => do
    let v ← ofJson? j
    let vs ← ofJsons? js
    return v :: vs

end

def ofJsonText? (text : String) : Option Value := do
  let j ← Json.ofText? text
  if j.within Json.maxLevels then ofJson? j else none

end Value

namespace InputType

def ofJson? (j : Json) : Option InputType := do ofName? (← j.word?)

def ofJsonText? (text : String) : Option InputType := do ofJson? (← Json.ofText? text)

end InputType
end Criteria
