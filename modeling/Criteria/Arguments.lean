import Criteria.Text.Basic
import Criteria.Text.Delimited

/-! # Lists of arguments

Arguments stand between commas. A comma inside quotes or parentheses belongs to its argument, and a
backslash inside quotes makes the next character literal. What is wrong with a text is said in one
kind of error, whether the splitter finds it or a later reader. -/
namespace Criteria

/-! ## What can be wrong with a proposition -/

/-- What an operand stands for in a condition. -/
inductive Role where
  | field
  | value
deriving DecidableEq, Repr

def Role.phrase : Role → String
  | .field => "a field"
  | .value => "a value"

inductive ReadError where
  | empty
  | split (error : Text.SplitError)
  | unknownVerb (name : String)
  | tooFew (name : String) (least got : Nat)
  | wrongOperand (operand : String) (role : Role)
  | malformedString (operand : String)
  | malformedTerm (term : String)
deriving DecidableEq, Repr

def ReadError.message : ReadError → String
  | .empty => "empty proposition"
  | .split error => error.message
  | .unknownVerb name => "unknown function '" ++ name ++ "'"
  | .tooFew name least got =>
    "function '" ++ name ++ "' takes at least " ++ toString least ++ " arguments, got " ++
      toString got
  | .wrongOperand operand role =>
    "operand '" ++ operand ++ "' cannot be used as " ++ role.phrase
  | .malformedString operand => "malformed string literal " ++ operand
  | .malformedTerm term => "malformed term '" ++ term ++ "': expected name(arguments)"

/-! ## Arguments -/

def argumentSplitter : Text.Splitter where
  separator := ','
  delimiters := [⟨'"', '"', some '\\'⟩, ⟨'\'', '\'', some '\\'⟩, ⟨'(', ')', none⟩]

/-- The arguments of a list, without the blanks around them. -/
def splitArguments (cs : List Char) : Except ReadError (List (List Char)) :=
  match argumentSplitter.pieces false cs with
  | .ok ps => .ok (ps.map Text.trim)
  | .error e => .error (.split e)

theorem totalLength_trim_le (ps : List (List Char)) :
    Text.totalLength (ps.map Text.trim) ≤ Text.totalLength ps := by
  induction ps with
  | nil => exact Nat.le_refl _
  | cons p ps ih =>
    have := Text.length_trim_le p
    simp only [Text.totalLength, List.map_cons]
    omega

/-- The commas between the arguments belong to none of them. -/
theorem totalLength_splitArguments {cs : List Char} {args : List (List Char)}
    (h : splitArguments cs = .ok args) : Text.totalLength args + (args.length - 1) ≤ cs.length := by
  simp only [splitArguments] at h
  split at h
  · rename_i ps hp
    cases h
    have h1 := Text.Splitter.length_pieces hp
    have h2 := totalLength_trim_le ps
    simp only [List.length_map]
    omega
  · cases h

end Criteria
