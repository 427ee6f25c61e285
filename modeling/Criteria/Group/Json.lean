import Criteria.Group.Basic
import Criteria.Json.Writer
import Criteria.Value.Json

/-! # Trees as JSON

A condition is a record of four fields; the value is null and a constant unless the record says
otherwise. A group is a record of three fields, not negated unless the record says otherwise. A node
is read as a group if it is one, and as a condition if not. -/
namespace Criteria

namespace Condition

def jsonKeys : List String := ["field", "operator", "value", "valueSource"]

def toJson (c : Condition) : Json :=
  .object [("field", .string c.field), ("operator", .string c.operator.name),
    ("value", c.value.toJson), ("valueSource", .string c.source.name)]

def ofJson? (j : Json) : Option Condition := do
  match ← j.fields? jsonKeys with
  | [some (.string field), some operator, value, source] =>
    let operator ← Operator.ofName? (← operator.word?)
    let value ← Json.readOr .null Value.ofJson? value
    let source ← Json.readOr .value (fun j => do Source.ofName? (← j.word?)) source
    return ⟨field, operator, value, source⟩
  | _ => none

def ofJsonText? (text : String) : Option Condition := do
  let j := (← Json.ofText? text).only jsonKeys
  if j.within Json.maxLevels then ofJson? j else none

end Condition

namespace Group

def jsonKeys : List String := ["combinator", "not", "rules"]

end Group

namespace Node

/-- The record of a group from its members. -/
def groupJson (connective : Connective) (negated : Bool) (members : List Json) : Json :=
  .object [("combinator", .string connective.name), ("not", .bool negated),
    ("rules", .array members)]

mutual

def toJson : Node → Json
  | .condition c => c.toJson
  | .group connective negated members => groupJson connective negated (toJsons members)

def toJsons : List Node → List Json
  | [] => []
  | n :: ns => n.toJson :: toJsons ns

end

/-- The connective, the negation and the members that a record gives. -/
def groupFields? (j : Json) : Option (Connective × Bool × List Json) := do
  match ← j.fields? Group.jsonKeys with
  | [some connective, negated, some (.array members)] =>
    let connective ← Connective.ofName? (← connective.word?)
    let negated ← Json.readOr false Json.bool? negated
    return (connective, negated, members)
  | _ => none

/-- The node of a value that nests at most that many levels. -/
def ofJson? : Nat → Json → Option Node
  | 0, j => (Condition.ofJson? j).map .condition
  | levels + 1, j =>
    match groupFields? j with
    | some (connective, negated, members) =>
      match members.mapM (ofJson? levels) with
      | some members => some (.group connective negated members)
      | none => (Condition.ofJson? j).map .condition
    | none => (Condition.ofJson? j).map .condition

def ofJsonText? (text : String) : Option Node := do
  let j ← Json.ofText? text
  if j.within Json.maxLevels then ofJson? Json.maxLevels j else none

end Node

namespace Group

def toJson (g : Group) : Json := g.toNode.toJson

def toJsonText (g : Group) : String := g.toJson.toText

def ofJson? (j : Json) : Option Group := do
  let r ← Node.groupFields? j
  let members ← r.2.2.mapM (Node.ofJson? Json.maxLevels)
  return ⟨r.1, r.2.1, members⟩

def ofJsonText? (text : String) : Option Group := do
  let j := (← Json.ofText? text).only jsonKeys
  if j.within Json.maxLevels then ofJson? j else none

end Group
end Criteria
