import Criteria.Text.Basic

/-! # Splitting into a fixed number of slots

A text is taken apart from its two ends. Each step cuts off one slot, at the front or at the back;
the slot between the last cuts takes what is left. -/
namespace Criteria.Text

inductive Direction where
  | start
  | finish
  /-- The even steps cut at the start and the odd ones at the end. -/
  | alternate
deriving DecidableEq, Repr

/-- The steps use the separators in turn. `inverted` trades start and end at every step. -/
structure Slots where
  size : Nat
  separators : List Char
  direction : Direction
  inverted : Bool
deriving DecidableEq, Repr

namespace Slots

def separator? (s : Slots) (step : Nat) : Option Char :=
  s.separators[step % s.separators.length]?

def atStart (s : Slots) (step : Nat) : Bool :=
  (match s.direction with
    | .start => true
    | .finish => false
    | .alternate => step % 2 == 0) != s.inverted

/-- The slot before the first separator and the text after it. Without a separator the slot takes
all. -/
def cutFront (sep : Option Char) (cs : List Char) : List Char × List Char :=
  match sep.bind (cutFirst · cs) with
  | some p => p
  | none => (cs, [])

/-- The text before the last separator and the slot after it. Without a separator the slot takes
all. -/
def cutBack (sep : Option Char) (cs : List Char) : List Char × List Char :=
  match sep.bind (cutLast · cs) with
  | some p => p
  | none => ([], cs)

theorem length_cutBack_le (sep : Option Char) (cs : List Char) :
    (cutBack sep cs).1.length ≤ cs.length := by
  unfold cutBack
  split
  · rename_i p hp
    obtain ⟨c, _, hc⟩ := Option.bind_eq_some_iff.mp hp
    have := congrArg List.length (cutLast_eq hc)
    rw [List.length_append] at this
    omega
  · exact Nat.zero_le _

/-- The slots that `n` more steps make of a text, in the order of their places. -/
def peel (s : Slots) : Nat → Nat → List Char → List (List Char)
  | 0, _, cs => [cs]
  | n + 1, step, cs =>
    if s.atStart step then
      let p := cutFront (s.separator? step) cs
      p.1 :: s.peel n (step + 1) p.2
    else
      let p := cutBack (s.separator? step) cs
      s.peel n (step + 1) p.1 ++ [p.2]

def parts (s : Slots) (cs : List Char) : List (List Char) :=
  match s.size with
  | 0 => []
  | n + 1 => s.peel n 0 cs

def split (s : Slots) (text : String) : List String :=
  (s.parts text.toList).map String.ofList

theorem length_peel (s : Slots) (n step : Nat) (cs : List Char) :
    (s.peel n step cs).length = n + 1 := by
  induction n generalizing step cs with
  | zero => rfl
  | succ n ih => simp only [peel]; split <;> simp [ih]

theorem length_parts (s : Slots) (cs : List Char) : (s.parts cs).length = s.size := by
  simp only [parts]
  split
  · simp [*]
  · simp [*, length_peel]

end Slots
end Criteria.Text
