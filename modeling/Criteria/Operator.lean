/-! # Connectives and operators

The closed sets of words that join conditions and that relate a field to a value. -/
namespace Criteria

/-- How the members of a group are joined. -/
inductive Connective where
  | and
  | or
  | xor
deriving DecidableEq, Repr, Inhabited

namespace Connective

def name : Connective → String
  | .and => "and"
  | .or => "or"
  | .xor => "xor"

def all : List Connective := [.and, .or, .xor]

def ofName? (name : String) : Option Connective := all.find? fun c => c.name == name

end Connective

/-- How a condition relates its field to its value. -/
inductive Operator where
  | equal
  | notEqual
  | greaterThan
  | greaterThanEqual
  | lessThan
  | lessThanEqual
  | contains
  | beginsWith
  | endsWith
  | doesNotContain
  | doesNotBeginWith
  | doesNotEndWith
  | isNull
  | isNotNull
  | isIn
  | notIn
  | between
  | notBetween
deriving DecidableEq, Repr

namespace Operator

def name : Operator → String
  | .equal => "equal"
  | .notEqual => "not-equal"
  | .greaterThan => "greater-than"
  | .greaterThanEqual => "greater-than-equal"
  | .lessThan => "less-than"
  | .lessThanEqual => "less-than-equal"
  | .contains => "contains"
  | .beginsWith => "begins-with"
  | .endsWith => "ends-with"
  | .doesNotContain => "does-not-contain"
  | .doesNotBeginWith => "does-not-begin-with"
  | .doesNotEndWith => "does-not-end-with"
  | .isNull => "is-null"
  | .isNotNull => "is-not-null"
  | .isIn => "in"
  | .notIn => "not-in"
  | .between => "between"
  | .notBetween => "not-between"

def all : List Operator :=
  [.equal, .notEqual, .greaterThan, .greaterThanEqual, .lessThan, .lessThanEqual, .contains,
    .beginsWith, .endsWith, .doesNotContain, .doesNotBeginWith, .doesNotEndWith, .isNull,
    .isNotNull, .isIn, .notIn, .between, .notBetween]

def ofName? (name : String) : Option Operator := all.find? fun o => o.name == name

/-- The operator that says the same with the two sides exchanged. -/
def mirrored : Operator → Operator
  | .greaterThan => .lessThan
  | .greaterThanEqual => .lessThanEqual
  | .lessThan => .greaterThan
  | .lessThanEqual => .greaterThanEqual
  | o => o

theorem mirrored_mirrored (o : Operator) : o.mirrored.mirrored = o := by cases o <;> rfl

end Operator
end Criteria
