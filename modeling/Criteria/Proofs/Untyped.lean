import Criteria.Condition.Writer
import Criteria.Proofs.Text.Marks

/-! # Values without a declared type

Where no type is declared a value is written as its own literal, with one difference: an array
without items is written as null, and has an empty literal. -/
namespace Criteria
open Text

namespace Value

mutual

/-- How many arrays without items there are in a value, at any depth. -/
def emptyArrays : Value → Nat
  | .array [] => 1
  | .array (v :: vs) => emptyArraysAll (v :: vs)
  | _ => 0

def emptyArraysAll : List Value → Nat
  | [] => 0
  | v :: vs => v.emptyArrays + emptyArraysAll vs

end

mutual

/-- The value with null in place of each array without items. -/
def filled : Value → Value
  | .array [] => .null
  | .array (v :: vs) => .array (filledAll (v :: vs))
  | v => v

def filledAll : List Value → List Value
  | [] => []
  | v :: vs => v.filled :: filledAll vs

end

mutual

theorem render_untyped : ∀ v : Value, v.render none .value = v.filled.literal
  | .array [] => rfl
  | .array (v :: vs) => by rw [render, filled, literal, renderAll_untyped (v :: vs)]
  | .null => rfl
  | .int _ => rfl
  | .float _ => rfl
  | .bool _ => rfl
  | .string _ => rfl

theorem renderAll_untyped : ∀ vs : List Value,
    renderAll none .value vs = literals (filledAll vs)
  | [] => rfl
  | v :: vs => by rw [renderAll, filledAll, literals, render_untyped v, renderAll_untyped vs]

end

/-! ## What null adds -/

theorem length_literals (vs : List Value) : (literals vs).length = vs.length := by
  rw [literals_eq, List.length_map]

theorem length_filledAll (vs : List Value) : (filledAll vs).length = vs.length := by
  induction vs with
  | nil => rfl
  | cons v vs ih => rw [filledAll, List.length_cons, List.length_cons, ih]

mutual

/-- Each array without items gains the four letters of null. -/
theorem length_literal_filled : ∀ v : Value,
    v.filled.literal.length = v.literal.length + 4 * v.emptyArrays
  | .array [] => rfl
  | .array (v :: vs) => by
    have hsum := sum_length_literals_filledAll (v :: vs)
    rw [filled, literal, literal, emptyArrays, length_joinWith, length_joinWith, hsum,
      length_literals, length_literals, length_filledAll]
    omega
  | .null => rfl
  | .int _ => rfl
  | .float _ => rfl
  | .bool _ => rfl
  | .string _ => rfl

theorem sum_length_literals_filledAll : ∀ vs : List Value,
    ((literals (filledAll vs)).map List.length).sum =
      ((literals vs).map List.length).sum + 4 * emptyArraysAll vs
  | [] => rfl
  | v :: vs => by
    have hv := length_literal_filled v
    have hvs := sum_length_literals_filledAll vs
    simp only [filledAll, literals, List.map_cons, List.sum_cons, emptyArraysAll]
    omega

end

mutual

theorem filled_eq_self : ∀ {v : Value}, v.emptyArrays = 0 → v.filled = v
  | .array [], h => by cases h
  | .array (v :: vs), h => by rw [filled, filledAll_eq_self h]
  | .null, _ => rfl
  | .int _, _ => rfl
  | .float _, _ => rfl
  | .bool _, _ => rfl
  | .string _, _ => rfl

theorem filledAll_eq_self : ∀ {vs : List Value}, emptyArraysAll vs = 0 → filledAll vs = vs
  | [], _ => rfl
  | v :: vs, h => by
    rw [emptyArraysAll] at h
    rw [filledAll, filled_eq_self (by omega), filledAll_eq_self (by omega)]

end

/-- The literal shows no difference exactly if there is none. -/
theorem literal_filled_iff {v : Value} : v.filled.literal = v.literal ↔ v.emptyArrays = 0 := by
  constructor
  · intro h
    have hlength := v.length_literal_filled
    rw [h] at hlength
    omega
  · intro h
    rw [filled_eq_self h]

end Value

/-- Without a declared type a constant is written as the literal of the value that has null in place
of its arrays without items. This is the literal of the value itself exactly if it has none. -/
theorem Condition.valueText_untyped (field : String) (operator : Operator) (v : Value) :
    (constant field operator v).valueText .untyped = v.filled.literal ∧
      ((constant field operator v).valueText .untyped = v.literal ↔ v.emptyArrays = 0) := by
  have htext : (constant field operator v).valueText .untyped = v.filled.literal :=
    v.render_untyped
  rw [htext]
  exact ⟨rfl, Value.literal_filled_iff⟩

/-- The literal of an array within an array may be empty, what is written for it never is. -/
theorem Condition.valueText_ne_literal : ¬ ∀ (field : String) (v : Value),
    v.literal = (constant field .isIn v).valueText .untyped := by
  intro h
  have hnested := h "name" (.array [.int 1, .array []])
  revert hnested
  decide

end Criteria
