import Criteria.Verb
import Criteria.Pattern
import Criteria.Value.Rendering

/-! # Conditions as text

A condition is written as one call, or as a conjunction of two for a range. -/
namespace Criteria.Condition

/-- The text of the value. -/
def valueText (types : FieldTypes) (c : Condition) : List Char :=
  c.value.render (types c.field) c.source

/-- A field that does not read as a variable is taken from the right, so it is written there and
the operator mirrored. -/
def comparison (c : Condition) (operator : Operator) (value : List Char) : List Char :=
  let field := c.field.toList
  if Operand.kindOf field = .variable then (Verb.ofOperator operator).call [field, value]
  else (Verb.ofOperator operator.mirrored).call [value, field]

/-- The name of a field has no wildcards and stands as it is. -/
def likeness (c : Condition) (operator : Operator) : List Char :=
  let pattern :=
    match c.source with
    | .field => c.value.bare
    | .value => Text.quote (Pattern.compose operator c.value.bare)
  Verb.like.call [c.field.toList, pattern]

/-- The bounds of a range. What is no array is a lower bound alone. -/
def bounds (c : Condition) : Option Value × Option Value :=
  match c.value with
  | .array items => (items[0]?, items[1]?)
  | v => (some v, none)

/-- A missing bound is null. -/
def boundText (types : FieldTypes) (c : Condition) (bound : Option Value) : List Char :=
  match bound with
  | some v => v.render (types c.field) c.source
  | none => Value.null.literal

/-- A conjunction of one comparison with each bound. -/
def range (types : FieldTypes) (c : Condition) (low high : Verb) : List Char :=
  let field := c.field.toList
  Connective.and.call
    [low.call [field, c.boundText types c.bounds.1],
      high.call [field, c.boundText types c.bounds.2]]

def membershipText (types : FieldTypes) (c : Condition) : List Char :=
  Verb.isIn.call [c.field.toList, c.valueText types]

/-- The text of a condition. -/
def write (types : FieldTypes) (c : Condition) : List Char :=
  match c.operator with
  | .contains => c.likeness .contains
  | .beginsWith => c.likeness .beginsWith
  | .endsWith => c.likeness .endsWith
  | .doesNotContain => negationText (c.likeness .contains)
  | .doesNotBeginWith => negationText (c.likeness .beginsWith)
  | .doesNotEndWith => negationText (c.likeness .endsWith)
  | .isNull => c.comparison .equal Value.null.literal
  | .isNotNull => c.comparison .notEqual Value.null.literal
  | .isIn => c.membershipText types
  | .notIn => negationText (c.membershipText types)
  | .between => c.range types .greaterThanEqual .lessThanEqual
  | .notBetween => c.range types .lessThan .greaterThan
  | operator => c.comparison operator (c.valueText types)

def toText (types : FieldTypes) (c : Condition) : String := String.ofList (c.write types)

end Criteria.Condition
