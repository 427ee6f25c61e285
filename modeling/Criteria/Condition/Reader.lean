import Criteria.Condition.Basic
import Criteria.Operand
import Criteria.Pattern
import Criteria.Verb

/-! # Conditions from operands

Two operands and a verb make a condition: one operand names the field, the other gives the value. -/
namespace Criteria.Condition

/-- The operand that names the field, the other one, and whether they stand the other way round. -/
structure Roles where
  field : List Char
  other : Operand
  mirrored : Bool
deriving DecidableEq, Repr

/-- Strings and null never name a field. -/
def namesNothing (o : Operand) : Bool := o.kind == .string || o.kind == .null

/-- A variable names the field, the left one first. Without variables the right operand does, or
the left one where the right one cannot. -/
def roles (left right : Operand) : Except ReadError Roles :=
  if left.isVariable then .ok ⟨left.raw, right, false⟩
  else if right.isVariable then .ok ⟨right.raw, left, true⟩
  else if namesNothing right then
    if namesNothing left then .error (.wrongOperand right.text .field)
    else .ok ⟨left.raw, right, false⟩
  else .ok ⟨right.raw, left, true⟩

/-- The condition of a verb on a field and a value. Null is only tested for equality; a constant
string after `like` is a pattern, and its side does not matter. -/
def ofRoles (verb : Verb) (r : Roles) (value : Value) : Except ReadError Condition :=
  let field := String.ofList r.field
  let source : Source := if r.other.isVariable then .field else .value
  match verb, value, source with
  | .equal, .null, _ => .ok ⟨field, .isNull, .null, source⟩
  | .notEqual, .null, _ => .ok ⟨field, .isNotNull, .null, source⟩
  | _, .null, _ => .error (.wrongOperand r.other.text .value)
  | .like, .string pattern, .value =>
    let p := Pattern.decompose pattern.toList
    .ok (constant field p.1 (.string (String.ofList p.2)))
  | _, _, _ =>
    .ok ⟨field, if r.mirrored then verb.operator.mirrored else verb.operator, value, source⟩

/-- The condition that a verb makes of two arguments. -/
def ofArguments (verb : Verb) (left right : List Char) : Except ReadError Condition := do
  let left ← Operand.classify left
  let right ← Operand.classify right
  let r ← roles left right
  let value ← r.other.value
  ofRoles verb r value

/-- The value of an item of a list; a variable is none. -/
def itemValue (cs : List Char) : Except ReadError Value := do
  let o ← Operand.classify cs
  if o.isVariable then .error (.wrongOperand o.text .value) else o.value

/-- The values of all items, or the first error. -/
def itemValues : List (List Char) → Except ReadError (List Value)
  | [] => .ok []
  | cs :: rest => do
    let v ← itemValue cs
    let vs ← itemValues rest
    return v :: vs

/-- The condition that a field, which must be a variable, is one of the items. -/
def membership (field : List Char) (items : List (List Char)) : Except ReadError Condition := do
  let f ← Operand.classify field
  if f.isVariable then
    let values ← itemValues items
    return isIn f.text values
  else .error (.wrongOperand f.text .field)

end Criteria.Condition
