import Criteria.Call

/-! # Groups from text

A proposition is a term or a list of terms. Connectives and negations read their arguments as
propositions in turn; the other calls make conditions of their operands. -/
namespace Criteria

/-- The negation of a node. A condition is put into a group first. -/
def Node.negation (connective : Connective) : Node → Node
  | .group c negated members => .group c (!negated) members
  | .condition c => .group connective true [.condition c]

theorem length_le_totalLength {arg : List Char} {args : List (List Char)} (h : arg ∈ args) :
    arg.length ≤ Text.totalLength args := by
  induction args with
  | nil => cases h
  | cons a as ih =>
    simp only [Text.totalLength]
    cases h with
    | head => omega
    | tail _ h => have := ih h; omega

mutual

/-- The node of a proposition. Two or more terms are joined by the given connective. -/
def readNode (connective : Connective) (text : List Char) : Except ReadError Node :=
  match _hs : splitArguments text with
  | .error e => .error e
  | .ok [] => .error .empty
  | .ok [term] => readTerm connective term
  | .ok (t₁ :: t₂ :: ts) =>
    ((t₁ :: t₂ :: ts).attach.mapM fun t => readNode connective t.1).map (.group connective false)
termination_by 2 * text.length + 1
decreasing_by
  · have := totalLength_splitArguments _hs
    simp [Text.totalLength] at this
    omega
  · have h1 := totalLength_splitArguments _hs
    have h2 := length_le_totalLength t.2
    simp only [List.length_cons] at h1
    omega

/-- The node of one term. -/
def readTerm (connective : Connective) (term : List Char) : Except ReadError Node :=
  match _hc : Call.ofTerm connective term with
  | .error e => .error e
  | .ok call =>
    if call.verb.connective?.isSome then
      if call.args.isEmpty then .error (call.tooFew 1)
      else
        (call.args.attach.mapM fun arg => readNode call.connective arg.1).map
          (.group call.connective false)
    else if call.verb = .complement then
      match _ha : call.args with
      | [] => .error (call.tooFew 1)
      | [arg] => (readNode call.connective arg).map (.negation call.connective)
      | a₁ :: a₂ :: as =>
        ((a₁ :: a₂ :: as).attach.mapM fun arg => readNode call.connective arg.1).map
          (.group call.connective true)
    else call.ofOperands
termination_by 2 * term.length
decreasing_by
  · have h1 := Call.totalLength_args _hc
    have h2 := length_le_totalLength arg.2
    omega
  · have h1 := Call.totalLength_args _hc
    simp [Text.totalLength, _ha] at h1
    omega
  · have h1 := Call.totalLength_args _hc
    have h2 := length_le_totalLength arg.2
    rw [_ha] at h1
    omega

end

/-- The nodes of a list of propositions, or the first error. -/
def readAll (connective : Connective) (texts : List (List Char)) : Except ReadError (List Node) :=
  texts.mapM (readNode connective)

theorem readNode_eq (connective : Connective) (text : List Char) :
    readNode connective text =
      match splitArguments text with
      | .error e => .error e
      | .ok [] => .error .empty
      | .ok [term] => readTerm connective term
      | .ok terms => (readAll connective terms).map (.group connective false) := by
  rw [readNode]
  split <;> simp [*, readAll]

theorem readTerm_eq (connective : Connective) (term : List Char) :
    readTerm connective term =
      match Call.ofTerm connective term with
      | .error e => .error e
      | .ok call =>
        if call.verb.connective?.isSome then
          if call.args.isEmpty then .error (call.tooFew 1)
          else (readAll call.connective call.args).map (.group call.connective false)
        else if call.verb = .complement then
          match call.args with
          | [] => .error (call.tooFew 1)
          | [arg] => (readNode call.connective arg).map (.negation call.connective)
          | args => (readAll call.connective args).map (.group call.connective true)
        else call.ofOperands := by
  rw [readTerm]
  split
  · simp [*]
  · simp only [*]
    split
    · simp [readAll]
    · split
      · split <;> simp [*, readAll]
      · rfl

namespace Group

/-- The tree of a proposition, read with the given connective where the text names none. -/
def read (connective : Connective) (text : List Char) : Except ReadError Group :=
  (readNode connective text).map (ofNode connective)

def ofText (text : String) (connective : Connective) : Except ReadError Group :=
  read connective text.toList

end Group
end Criteria
