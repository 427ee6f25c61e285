import Criteria.Operator

/-! # Patterns

The pattern of `like` has a wildcard `%` at its start, at its end, at both or at neither. The
operator says where the wildcards stand, the core is the text without them. -/
namespace Criteria.Pattern

/-- Whether a wildcard stands at the start and at the end. -/
def wildcards : Operator → Bool × Bool
  | .contains => (true, true)
  | .beginsWith => (false, true)
  | .endsWith => (true, false)
  | _ => (false, false)

def operatorOf : Bool → Bool → Operator
  | true, true => .contains
  | false, true => .beginsWith
  | true, false => .endsWith
  | false, false => .equal

/-- The text with the wildcards of an operator around it. -/
def compose (o : Operator) (core : List Char) : List Char :=
  (if (wildcards o).1 then ['%'] else []) ++ core ++ (if (wildcards o).2 then ['%'] else [])

/-- Whether a text begins with a wildcard, and the text after it. -/
def takeLeading : List Char → Bool × List Char
  | '%' :: cs => (true, cs)
  | cs => (false, cs)

/-- Whether a text ends with a wildcard, and the text before it. -/
def takeTrailing (cs : List Char) : Bool × List Char :=
  if cs.getLast? = some '%' then (true, cs.dropLast) else (false, cs)

/-- The operator and the core of a pattern. A lone wildcard stands at the start. -/
def decompose (cs : List Char) : Operator × List Char :=
  let l := takeLeading cs
  let t := takeTrailing l.2
  (operatorOf l.1 t.1, t.2)

end Criteria.Pattern
