import Criteria.Operator
import Criteria.Text.Basic

/-! # Calls and the words that head them

Twelve verbs, each with its aliases. An alias of a verb that is not itself a connective may end in a
connective, which then joins what the call fans out to. Conditions and groups are all written as
calls: a name, and arguments between parentheses. -/
namespace Criteria

inductive Verb where
  | equal
  | notEqual
  | greaterThan
  | greaterThanEqual
  | lessThan
  | lessThanEqual
  | like
  | isIn
  | complement
  | conjunction
  | disjunction
  | exclusive
deriving DecidableEq, Repr

namespace Verb

/-- The connective of a verb that only joins. -/
def connective? : Verb → Option Connective
  | .conjunction => some .and
  | .disjunction => some .or
  | .exclusive => some .xor
  | _ => none

/-- The word that is written for a verb. -/
def word : Verb → String
  | .equal => "eq"
  | .notEqual => "neq"
  | .greaterThan => "gt"
  | .greaterThanEqual => "gte"
  | .lessThan => "lt"
  | .lessThanEqual => "lte"
  | .like => "like"
  | .isIn => "in"
  | .complement => "not"
  | .conjunction => "and"
  | .disjunction => "or"
  | .exclusive => "xor"

def ofAlias? : String → Option Verb
  | "eq" | "equal" | "equals" | "=" | "==" => some .equal
  | "neq" | "ne" | "notequal" | "!=" | "<>" => some .notEqual
  | "gt" | "greater" | ">" => some .greaterThan
  | "gte" | "ge" | "greaterequal" | ">=" => some .greaterThanEqual
  | "lt" | "less" | "<" => some .lessThan
  | "lte" | "le" | "lessequal" | "<=" => some .lessThanEqual
  | "like" | "~" => some .like
  | "in" | "@" => some .isIn
  | "not" | "!" => some .complement
  | "and" | "&" | "&&" | "all" => some .conjunction
  | "or" | "|" | "||" | "any" => some .disjunction
  | "xor" | "^" | "one" => some .exclusive
  | _ => none

/-- The operator of a comparison; a verb that compares in no other way compares for equality. -/
def operator : Verb → Operator
  | .notEqual => .notEqual
  | .greaterThan => .greaterThan
  | .greaterThanEqual => .greaterThanEqual
  | .lessThan => .lessThan
  | .lessThanEqual => .lessThanEqual
  | _ => .equal

/-- The verb that writes a comparison. -/
def ofOperator : Operator → Verb
  | .notEqual => .notEqual
  | .greaterThan => .greaterThan
  | .greaterThanEqual => .greaterThanEqual
  | .lessThan => .lessThan
  | .lessThanEqual => .lessThanEqual
  | _ => .equal

end Verb

/-- A verb and the connective that its name gives, if it gives one. -/
structure Head where
  verb : Verb
  connective : Option Connective
deriving DecidableEq, Repr

namespace Head

/-- The endings that name a connective, in the order in which they are tried: `xor` ends in `or`. -/
def endings : List (String × Connective) :=
  [("xor", .xor), ("and", .and), ("or", .or), ("^", .xor), ("&", .and), ("|", .or)]

/-- A verb in front of an ending. Connectives take no ending. -/
def withEnding? (name : List Char) (ending : String × Connective) : Option Head := do
  let stem ← Text.beforeEnding? ending.1.toList name
  let verb ← Verb.ofAlias? (String.ofList stem)
  if verb.connective?.isSome then none else some ⟨verb, some ending.2⟩

/-- The head that a name means, whatever its ASCII case and the blanks around it. -/
def ofName? (name : List Char) : Option Head :=
  let name := Text.lower (Text.trim name)
  match Verb.ofAlias? (String.ofList name) with
  | some verb => some ⟨verb, verb.connective?⟩
  | none => endings.findSome? (withEnding? name)

end Head

/-! ## Calls as text -/

/-- The text `name(arguments)`, the arguments parted by commas. -/
def callText (name : String) (args : List (List Char)) : List Char :=
  name.toList ++ '(' :: Text.joinWith ',' args ++ [')']

/-- The call of a verb on its arguments. -/
def Verb.call (verb : Verb) (args : List (List Char)) : List Char := callText verb.word args

/-- The call of a connective on its members. -/
def Connective.call (connective : Connective) (members : List (List Char)) : List Char :=
  callText connective.name members

/-- The negation of what a text says. -/
def negationText (body : List Char) : List Char := Verb.complement.call [body]

end Criteria
