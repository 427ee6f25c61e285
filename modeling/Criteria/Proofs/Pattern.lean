import Mathlib
import Criteria.Pattern

/-! # Patterns read back

A pattern is taken apart into a core and the places of its wildcards, and put together from them. -/
namespace Criteria.Pattern

/-- The core stands for itself between the wildcards of the operator: nothing of it is taken for a
wildcard that the operator lacks. -/
def Keeps (o : Operator) (core : List Char) : Prop :=
  match o with
  | .contains => True
  | .beginsWith => core ≠ [] ∧ core.head? ≠ some '%'
  | .endsWith => core.getLast? ≠ some '%'
  | _ => False

variable {o : Operator} {core cs : List Char}

theorem takeLeading_cases (cs : List Char) : (∃ ds, cs = '%' :: ds ∧ takeLeading cs = (true, ds)) ∨
    cs.head? ≠ some '%' ∧ takeLeading cs = (false, cs) := by
  unfold takeLeading
  split
  · exact .inl ⟨_, rfl, rfl⟩
  · rename_i hne
    refine .inr ⟨?_, rfl⟩
    intro hh
    obtain ⟨ds, rfl⟩ := List.head?_eq_some_iff.mp hh
    exact hne ds rfl

theorem takeTrailing_cases (cs : List Char) :
    (∃ ds, cs = ds ++ ['%'] ∧ takeTrailing cs = (true, ds)) ∨
      cs.getLast? ≠ some '%' ∧ takeTrailing cs = (false, cs) := by
  unfold takeTrailing
  split
  · rename_i hl
    obtain ⟨ds, rfl⟩ := List.getLast?_eq_some_iff.mp hl
    exact .inl ⟨ds, rfl, by rw [List.dropLast_concat]⟩
  · rename_i hl
    exact .inr ⟨hl, rfl⟩

theorem takeTrailing_concat (cs : List Char) : takeTrailing (cs ++ ['%']) = (true, cs) := by
  simp [takeTrailing]

theorem takeTrailing_of_ne (h : cs.getLast? ≠ some '%') : takeTrailing cs = (false, cs) :=
  if_neg h

theorem takeLeading_of_ne (h : cs.head? ≠ some '%') : takeLeading cs = (false, cs) := by
  rcases takeLeading_cases cs with ⟨ds, rfl, _⟩ | ⟨_, he⟩
  · exact absurd rfl h
  · exact he

theorem decompose_compose (h : Keeps o core) : decompose (compose o core) = (o, core) := by
  cases o with
  | contains =>
    have hc : compose .contains core = '%' :: (core ++ ['%']) := rfl
    simp [hc, decompose, takeLeading, takeTrailing_concat, operatorOf]
  | beginsWith =>
    have hc : compose .beginsWith core = core ++ ['%'] := rfl
    obtain ⟨d, ds, rfl⟩ := List.exists_cons_of_ne_nil h.1
    have hl : takeLeading (d :: ds ++ ['%']) = (false, d :: ds ++ ['%']) :=
      takeLeading_of_ne h.2
    rw [hc]
    simp only [decompose, hl, takeTrailing_concat, operatorOf]
  | endsWith =>
    have hc : compose .endsWith core = '%' :: core := by simp [compose, wildcards]
    have ht : takeTrailing core = (false, core) := takeTrailing_of_ne h
    simp [hc, decompose, takeLeading, ht, operatorOf]
  | _ => exact h.elim

theorem compose_decompose (cs : List Char) : compose (decompose cs).1 (decompose cs).2 = cs := by
  unfold decompose
  rcases takeLeading_cases cs with ⟨ds, rfl, hl⟩ | ⟨_, hl⟩
  · rcases takeTrailing_cases ds with ⟨es, rfl, ht⟩ | ⟨_, ht⟩ <;>
      simp [hl, ht, operatorOf, compose, wildcards]
  · rcases takeTrailing_cases cs with ⟨es, rfl, ht⟩ | ⟨_, ht⟩ <;>
      simp [hl, ht, operatorOf, compose, wildcards]

/-- A pattern without wildcards is an equality, any other keeps its core. -/
theorem decompose_cases (cs : List Char) :
    (decompose cs = (.equal, cs) ∧ cs.head? ≠ some '%' ∧ cs.getLast? ≠ some '%') ∨
      Keeps (decompose cs).1 (decompose cs).2 := by
  unfold decompose
  rcases takeLeading_cases cs with ⟨ds, rfl, hl⟩ | ⟨hh, hl⟩
  · right
    rcases takeTrailing_cases ds with ⟨es, rfl, ht⟩ | ⟨hne, ht⟩
    · simp [hl, ht, operatorOf, Keeps]
    · simpa [hl, ht, operatorOf, Keeps] using hne
  · rcases takeTrailing_cases cs with ⟨es, rfl, ht⟩ | ⟨hne, ht⟩
    · right
      simp only [hl, ht, operatorOf, Keeps]
      cases es with
      | nil => exact absurd rfl hh
      | cons e es => exact ⟨List.cons_ne_nil _ _, hh⟩
    · left
      simp [hl, ht, operatorOf, hh, hne]

/-- The operators that put a wildcard somewhere. -/
def HasWildcard (o : Operator) : Prop := (wildcards o).1 = true ∨ (wildcards o).2 = true

/-- Whatever its core, a pattern with a wildcard reads as one that makes the same pattern. -/
theorem keeps_decompose_compose (h : HasWildcard o) (core : List Char) :
    Keeps (decompose (compose o core)).1 (decompose (compose o core)).2 := by
  rcases decompose_cases (compose o core) with ⟨_, hh, hl⟩ | hk
  · rcases h with h | h
    · exact absurd (by simp [compose, h]) hh
    · exact absurd (by simp [compose, h]) hl
  · exact hk

/-- What is put together around a core is taken apart into the same core exactly if nothing of the
core is taken for a wildcard. -/
theorem decompose_compose_iff (h : HasWildcard o) :
    decompose (compose o core) = (o, core) ↔ Keeps o core := by
  constructor
  · intro he
    have hk := keeps_decompose_compose h core
    rwa [he] at hk
  · exact decompose_compose

theorem decompose_eq_equal_iff :
    decompose cs = (.equal, cs) ↔ cs.head? ≠ some '%' ∧ cs.getLast? ≠ some '%' := by
  constructor
  · intro he
    rcases decompose_cases cs with ⟨_, hends⟩ | hk
    · exact hends
    · rw [he] at hk
      exact hk.elim
  · intro h
    obtain ⟨hh, hl⟩ := h
    simp only [decompose, takeLeading_of_ne hh, takeTrailing_of_ne hl, operatorOf]

theorem operatorOf_mem (leading trailing : Bool) :
    operatorOf leading trailing ∈ [Operator.contains, .beginsWith, .endsWith, .equal] := by
  cases leading <;> cases trailing <;> simp [operatorOf]

/-- A pattern is put together again from its operator and its core. The other way round a core is
found again between the wildcards of an operator exactly if none of its own ends is taken for one
that the operator lacks; between two wildcards this is any core. -/
theorem wildcards_inverse :
    (∀ p, (decompose p).1 ∈ [Operator.contains, .beginsWith, .endsWith, .equal] ∧
      compose (decompose p).1 (decompose p).2 = p) ∧
    ∀ s, decompose (compose .contains s) = (.contains, s) ∧
      (decompose (compose .beginsWith s) = (.beginsWith, s) ↔ s ≠ [] ∧ s.head? ≠ some '%') ∧
      (decompose (compose .endsWith s) = (.endsWith, s) ↔ s.getLast? ≠ some '%') ∧
      (decompose (compose .equal s) = (.equal, s) ↔
        s.head? ≠ some '%' ∧ s.getLast? ≠ some '%') := by
  refine ⟨fun p => ⟨operatorOf_mem _ _, compose_decompose p⟩, fun s => ?_⟩
  have hequal : compose .equal s = s := by simp [compose, wildcards]
  refine ⟨decompose_compose trivial, decompose_compose_iff (.inr rfl),
    decompose_compose_iff (.inl rfl), ?_⟩
  rw [hequal]
  exact decompose_eq_equal_iff

end Criteria.Pattern
