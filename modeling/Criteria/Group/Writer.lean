import Criteria.Condition.Writer
import Criteria.Group.Basic

/-! # Groups as text

A group is a call of its connective on its members. A member alone needs no call, and the negation
stands outside. -/
namespace Criteria

/-- The text of a group from the texts of its members. -/
def groupText (connective : Connective) (negated : Bool) (members : List (List Char)) : List Char :=
  let body :=
    match members with
    | [text] => text
    | texts => connective.call texts
  if negated then negationText body else body

namespace Node

mutual

def write (types : FieldTypes) : Node → List Char
  | .condition c => c.write types
  | .group connective negated members =>
    groupText connective negated (writeAll types members)

def writeAll (types : FieldTypes) : List Node → List (List Char)
  | [] => []
  | n :: ns => write types n :: writeAll types ns

end

def toText (types : FieldTypes) (n : Node) : String := String.ofList (n.write types)

end Node

namespace Group

def write (types : FieldTypes) (g : Group) : List Char := g.toNode.write types

/-- The proposition of a tree, its values written by the declared types. -/
def toText (types : FieldTypes) (g : Group) : String := String.ofList (g.write types)

end Group
end Criteria
