import Criteria.Number.Binary64

/-! # JSON values

The values that a JSON text denotes, and how records and words are taken from them. -/
namespace Criteria

inductive Json where
  | null
  | bool (b : Bool)
  | int (n : Int64)
  | float (x : Binary64)
  | string (s : String)
  | array (items : List Json)
  | object (members : List (String × Json))
  /-- Well-formed text that denotes nothing: a number beyond the floats, a string with half of a
  surrogate pair, or an object with such a string for a name. It can be skipped but not used. -/
  | unusable
deriving Repr, Inhabited

namespace Json

mutual

/-- All of the value denotes something, and its arrays and objects nest at most `levels` deep. -/
def within : Json → Nat → Bool
  | .unusable, _ => false
  | .array _, 0 => false
  | .object _, 0 => false
  | .array items, levels + 1 => allWithin items levels
  | .object members, levels + 1 => membersWithin members levels
  | _, _ => true

def allWithin : List Json → Nat → Bool
  | [], _ => true
  | j :: js, levels => j.within levels && allWithin js levels

def membersWithin : List (String × Json) → Nat → Bool
  | [], _ => true
  | (_, j) :: ms, levels => j.within levels && membersWithin ms levels

end

/-- The nesting that a reader accepts. -/
def maxLevels : Nat := 127

/-- A word of a closed set is a string, or an object whose only member has that name and is null. -/
def word? : Json → Option String
  | .string s => some s
  | .object [(name, .null)] => some name
  | _ => none

/-- The values of the members with this name. -/
def named (key : String) (members : List (String × Json)) : List Json :=
  (members.filter fun m => m.1 == key).map Prod.snd

/-- The fields of a record in the order of their keys, each missing or given once. A record is an
object, whose other members do not matter, or an array of its first fields. -/
def fields? (keys : List String) : Json → Option (List (Option Json))
  | .object members =>
    keys.mapM fun key =>
      match named key members with
      | [] => some none
      | [j] => some (some j)
      | _ => none
  | .array items =>
    if items.length ≤ keys.length then
      some (items.map some ++ List.replicate (keys.length - items.length) none)
    else none
  | _ => none

def bool? : Json → Option Bool
  | .bool b => some b
  | _ => none

/-- What is read from a field, or the default if the field is missing. -/
def readOr {α : Type} (default : α) (read : Json → Option α) : Option Json → Option α
  | none => some default
  | some j => read j

/-- An object without the members that are no fields of the record. -/
def only (keys : List String) : Json → Json
  | .object members => .object (members.filter fun m => keys.contains m.1)
  | j => j

end Json
end Criteria
