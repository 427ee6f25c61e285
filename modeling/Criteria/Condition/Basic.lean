import Criteria.Operator
import Criteria.Value.Basic

/-! # Conditions

A condition relates a field to a constant or to another field. -/
namespace Criteria

/-- Whether a value is a constant or names a field. -/
inductive Source where
  | value
  | field
deriving DecidableEq, Repr

namespace Source

def name : Source → String
  | .value => "value"
  | .field => "field"

def all : List Source := [.value, .field]

def ofName? (name : String) : Option Source := all.find? fun s => s.name == name

end Source

structure Condition where
  field : String
  operator : Operator
  value : Value
  source : Source
deriving Repr

namespace Condition

def constant (field : String) (operator : Operator) (value : Value) : Condition :=
  ⟨field, operator, value, .value⟩

def againstField (field : String) (operator : Operator) (other : String) : Condition :=
  ⟨field, operator, .string other, .field⟩

def isNull (field : String) : Condition := constant field .isNull .null

def isNotNull (field : String) : Condition := constant field .isNotNull .null

def isIn (field : String) (values : List Value) : Condition :=
  constant field .isIn (.array values)

def notIn (field : String) (values : List Value) : Condition :=
  constant field .notIn (.array values)

def between (field : String) (low high : Value) : Condition :=
  constant field .between (.array [low, high])

def notBetween (field : String) (low high : Value) : Condition :=
  constant field .notBetween (.array [low, high])

/-- Equality, floats compared as numbers. -/
def same (c d : Condition) : Bool :=
  c.field == d.field && c.operator == d.operator && c.value.same d.value && c.source == d.source

end Condition
end Criteria
