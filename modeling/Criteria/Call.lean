import Criteria.Condition.Reader
import Criteria.Group.Basic
import Criteria.Text.Slots

/-! # Calls

A term has the form `name(arguments)`. It is cut at its first opening and its last closing
parenthesis, its name resolved and its arguments split. -/
namespace Criteria

structure Call where
  /-- The name as it is spelt, without blanks around it. -/
  name : List Char
  verb : Verb
  /-- What joins the members, if the call makes a group. -/
  connective : Connective
  args : List (List Char)
deriving DecidableEq, Repr

namespace Call

/-- A term is cut in three: at its first `(`, and the text after that at its last `)`. -/
def slots : Text.Slots := ⟨3, ['(', ')'], .alternate, false⟩

/-- The name, the arguments and the rest of a term, if it has an opening parenthesis. -/
def parts? (term : List Char) : Option (List Char × List Char × List Char) :=
  if term.contains '(' then
    match slots.parts term with
    | [name, args, rest] => some (name, args, rest)
    | _ => none
  else none

/-- The two cuts of a term one after the other. -/
theorem parts?_eq (term : List Char) : parts? term =
    (Text.cutFirst '(' term).map fun p => (p.1, Text.Slots.cutBack (some ')') p.2) := by
  unfold parts?
  cases hp : Text.cutFirst '(' term with
  | none => simp [Text.cutFirst_eq_none_iff.mp hp]
  | some p =>
    have hparts : slots.parts term =
        [p.1, (Text.Slots.cutBack (some ')') p.2).1, (Text.Slots.cutBack (some ')') p.2).2] := by
      simp [slots, Text.Slots.parts, Text.Slots.peel, Text.Slots.atStart, Text.Slots.separator?,
        Text.Slots.cutFront, hp]
    have hmem : '(' ∈ term := by simp [Text.cutFirst_eq hp]
    simp [hparts, hmem]

theorem length_parts? {term name args rest : List Char}
    (h : parts? term = some (name, args, rest)) : args.length < term.length := by
  rw [parts?_eq] at h
  obtain ⟨p, hp, he⟩ := Option.map_eq_some_iff.mp h
  obtain ⟨_, hq⟩ := Prod.mk.inj he
  have h1 := congrArg List.length (Text.cutFirst_eq hp)
  have h2 := Text.Slots.length_cutBack_le (some ')') p.2
  rw [hq] at h2
  simp only [List.length_append, List.length_cons] at h1 h2
  omega

/-- The call that a term makes. A verb that names no connective joins by the one it is given. -/
def ofTerm (connective : Connective) (term : List Char) : Except ReadError Call :=
  match parts? term with
  | none => .error (if term.isEmpty then .empty else .malformedTerm (String.ofList term))
  | some (name, args, rest) =>
    if (Text.trim rest).isEmpty then
      let name := Text.trim name
      match Head.ofName? name with
      | none => .error (.unknownVerb (String.ofList name))
      | some head =>
        (splitArguments args).map fun args =>
          ⟨name, head.verb, head.connective.getD connective, args⟩
    else .error (.malformedTerm (String.ofList term))

theorem totalLength_args {connective : Connective} {term : List Char} {call : Call}
    (h : ofTerm connective term = .ok call) : Text.totalLength call.args < term.length := by
  simp only [ofTerm] at h
  split at h
  · cases h
  · rename_i name args rest hp
    split at h
    · split at h
      · cases h
      · cases hs : splitArguments args with
        | error e => simp [hs, Except.map] at h
        | ok as =>
          simp only [hs, Except.map, Except.ok.injEq] at h
          subst h
          have h1 := totalLength_splitArguments hs
          have h2 := length_parts? hp
          simp only
          omega
    · cases h

/-- The error of a call that has fewer arguments than its verb needs. -/
def tooFew (c : Call) (least : Nat) : ReadError :=
  .tooFew (String.ofList c.name) least c.args.length

/-- The conditions of a verb on one operand and each of the others. -/
def fanOut (verb : Verb) (left : List Char) (others : List (List Char)) :
    Except ReadError (List Node) :=
  others.mapM fun right => (Condition.ofArguments verb left right).map Node.condition

/-- The node of a call whose arguments are operands. More than one value makes a group with one
condition for each. -/
def ofOperands (c : Call) : Except ReadError Node :=
  match c.verb, c.args with
  | .isIn, field :: item :: items => (Condition.membership field (item :: items)).map .condition
  | .isIn, _ => .error (c.tooFew 2)
  | verb, [left, right] => (Condition.ofArguments verb left right).map .condition
  | verb, left :: right :: others =>
    (fanOut verb left (right :: others)).map (.group c.connective false)
  | _, _ => .error (c.tooFew 2)

end Call
end Criteria
