import Criteria.Proofs.Rendering

/-! # Lists of literals

The literal of an array is split again at the commas between its items, whatever the strings among
them hold, and each of its parts is read as the item that it shows. -/
namespace Criteria
open Text

namespace Value

/-- The kind of operand that the literal of a constant is: numbers and truth values are shown as
numerals. -/
def operandKind : Value → Operand.Kind
  | .null => .null
  | .string _ => .string
  | _ => .number

/-- What is read for the literal of a constant: a truth value has become one or zero. -/
def recovered : Value → Value
  | .bool b => .int (if b then 1 else 0)
  | v => v

theorem operandKind_recovered (v : Value) : v.recovered.operandKind = v.operandKind := by
  cases v <;> rfl

end Value

/-- A written constant is an operand of its kind. -/
theorem Spells.operand {text : List Char} {v : Value} (h : Spells text v) :
    Operand.classify text = .ok ⟨text, v.operandKind⟩ ∧
      Operand.value ⟨text, v.operandKind⟩ = .ok v := by
  cases h with
  | null => exact ⟨rfl, rfl⟩
  | number h =>
    have hk : v.operandKind = .number := by
      obtain ⟨_, hn, hs⟩ := Numeral.number?_scalar h
      cases v with
      | null => exact absurd rfl hn
      | string s => cases hs
      | _ => rfl
    rw [hk]
    exact ⟨classify_numeral h, value_numeral h⟩
  | string cs => exact ⟨classify_quote cs, value_quote cs⟩

namespace Value
variable {v : Value} {vs : List Value}

/-- Without a type a constant is written as its literal. -/
theorem exists_spells_literal (ha : v.items? = none) : ∃ w, Spells v.literal w := by
  have hr : v.render none .value = v.literal := by
    cases v with
    | array items => cases ha
    | _ => rfl
  obtain ⟨w, hw⟩ := exists_stable none ha
  exact ⟨w, hr ▸ hw.spells⟩

theorem spells_recovered (h : v.IsExact ∨ ∃ b, v = .bool b) : Spells v.literal v.recovered := by
  rcases h with h | ⟨b, rfl⟩
  · have hr : v.recovered = v := by
      cases v with
      | bool b => exact h.elim
      | _ => rfl
    rw [hr]
    exact h.spells
  · cases b with
    | false => exact spells_zero
    | true => exact spells_one

/-- The pieces of the literal of an array of constants are the literals of these. An empty array has
an empty literal, and that has no pieces. -/
theorem pieces_literal (h : ∀ v ∈ vs, v.items? = none) :
    argumentSplitter.pieces false (Value.array vs).literal = .ok (vs.map literal) := by
  have hread : ∀ t ∈ vs.map literal, ∃ w, ReadsAs t w := by
    rw [List.forall_mem_map]
    intro v hv
    obtain ⟨w, hw⟩ := exists_spells_literal (h v hv)
    exact ⟨w, hw.readsAs⟩
  rw [literal, literals_eq]
  refine pieces_eq_ok_iff.mpr ⟨fun t ht => ?_, fun hnil => ?_, rfl⟩
  · obtain ⟨w, hw⟩ := hread t ht
    exact hw.segment.balanced
  · obtain ⟨w, hw⟩ := hread [] (by simp [hnil])
    exact hw.ne_nil rfl

/-- A list of constants survives the splitter: each of them has one segment, its literal, in its
place, which is an operand of its kind and has it for its value. Truth values alone come back as
numbers. -/
theorem split_literals (h : ∀ v ∈ vs, v.IsExact ∨ ∃ b, v = .bool b) :
    argumentSplitter.split false (String.ofList (Value.array vs).literal) =
      .ok (vs.map fun v => String.ofList v.literal) ∧
    ∀ v ∈ vs, Operand.classify v.literal = .ok ⟨v.literal, v.operandKind⟩ ∧
      Operand.value ⟨v.literal, v.operandKind⟩ = .ok v.recovered := by
  constructor
  · have hconstant : ∀ v ∈ vs, v.items? = none := by
      intro v hv
      rcases h v hv with he | ⟨b, rfl⟩
      · exact he.isScalar.items?
      · rfl
    rw [Splitter.split, String.toList_ofList, pieces_literal hconstant]
    simp [Except.map]
  · intro v hv
    have ho := (spells_recovered (h v hv)).operand
    rwa [operandKind_recovered] at ho

/-- Neither the commas and parentheses in a string nor its quotes part it from its neighbours. -/
theorem split_literals_hostile :
    (∀ v ∈ [Value.int Int64.minValue, .bool true, .string "it's) ,\\", .null, .string "null"],
      v.IsExact ∨ ∃ b, v = .bool b) ∧
    argumentSplitter.split false "-9223372036854775808,1,'it\\'s) ,\\\\',null,'null'" =
      .ok ["-9223372036854775808", "1", "'it\\'s) ,\\\\'", "null", "'null'"] ∧
    Operand.classify "'it\\'s) ,\\\\'".toList =
      .ok ⟨"'it\\'s) ,\\\\'".toList, .string⟩ ∧
    Operand.value ⟨"'it\\'s) ,\\\\'".toList, .string⟩ = .ok (.string "it's) ,\\") := by
  have h : ∀ v ∈ [Value.int Int64.minValue, .bool true, .string "it's) ,\\", .null,
      .string "null"], v.IsExact ∨ ∃ b, v = .bool b := by
    intro v hv
    fin_cases hv
    · exact .inl trivial
    · exact .inr ⟨true, rfl⟩
    · exact .inl trivial
    · exact .inl trivial
    · exact .inl trivial
  obtain ⟨hsplit, hread⟩ := split_literals h
  exact ⟨h, hsplit, hread (.string "it's) ,\\") (by simp)⟩

end Value
end Criteria
