import Criteria.Proofs.Meaning

/-! # Ranges of integers

What a tree of comparisons says about a record of integers. The text of a range is read as the
conjunction of its two bounds. The text of its outside is read as a conjunction too, of which no
value fulfils both sides unless the bounds are exchanged. -/
namespace Criteria
open Text

/-- The truth of a comparison of two integers. Other operators say nothing about them. -/
def Operator.compare? : Operator → Int → Int → Option Bool
  | .equal, x, y => some (decide (x = y))
  | .notEqual, x, y => some (decide (x ≠ y))
  | .greaterThan, x, y => some (decide (y < x))
  | .greaterThanEqual, x, y => some (decide (y ≤ x))
  | .lessThan, x, y => some (decide (x < y))
  | .lessThanEqual, x, y => some (decide (x ≤ y))
  | _, _, _ => none

/-- The truth of a comparison of a field with an integer. -/
def Condition.holds? (record : String → Int) (c : Condition) : Option Bool :=
  match c.value, c.source with
  | .int n, .value => c.operator.compare? (record c.field) n.toInt
  | _, _ => none

namespace Node

mutual

/-- The truth of a tree of comparisons with integers. -/
def holds? (record : String → Int) : Node → Option Bool
  | .condition c => c.holds? record
  | .group connective negated members =>
    (allHold? record members).map fun bs => connective.combine bs ^^ negated

def allHold? (record : String → Int) : List Node → Option (List Bool)
  | [] => some []
  | n :: ns => (n.holds? record).bind fun b => (allHold? record ns).map fun bs => b :: bs

end

end Node

namespace Group

def holds? (record : String → Int) (g : Group) : Option Bool := g.toNode.holds? record

/-- The conjunction of two comparisons of a field with integers. -/
def ofBounds (field : String) (low high : Operator) (lo hi : Int64) : Group :=
  ⟨.and, false, [.condition (.constant field low (.int lo)),
    .condition (.constant field high (.int hi))]⟩

theorem holds?_ofBounds {record : String → Int} {field : String} {low high : Operator}
    {lo hi : Int64} {a b : Bool} (ha : low.compare? (record field) lo.toInt = some a)
    (hb : high.compare? (record field) hi.toInt = some b) :
    (ofBounds field low high lo hi).holds? record = some (a && b) := by
  simp [holds?, toNode, ofBounds, Node.holds?, Node.allHold?, Condition.holds?, Condition.constant,
    ha, hb, Connective.combine]

end Group

/-! ## Ranges read back -/

/-- A range of a plain name is read as the conjunction of its two comparisons. -/
theorem Condition.readNode_range {types : FieldTypes} {c : Condition} {low high : Operator}
    {v w : Value} (k : Connective) (hf : PlainName c.field) (hs : c.source = .value)
    (hl : low ∈ Operator.comparisons) (hh : high ∈ Operator.comparisons)
    (hv : ReadsAs (c.boundText types c.bounds.1) v) (hw : ReadsAs (c.boundText types c.bounds.2) w)
    (hvn : v ≠ .null) (hwn : w ≠ .null) :
    readNode k (c.range types (Verb.ofOperator low) (Verb.ofOperator high)) =
      .ok (.group .and false [.condition (constant c.field low v),
        .condition (constant c.field high w)]) := by
  have hlegible : c.Legible := ⟨.inl hf, by simp [hs]⟩
  have hlow := readNode_comparison .and (.inl hf) hl hv hvn
  have hhigh := readNode_comparison .and (.inl hf) hh hw hwn
  rw [comparison_plain hf] at hlow hhigh
  exact (hlegible.readNode_range_iff (Verb.compares_ofOperator low)
    (Verb.compares_ofOperator high)).mpr ⟨_, _, hlow, hhigh, rfl⟩

/-- Fields of numbers have their integers written as they are, like fields of no type. -/
theorem Value.readsAs_int {type : Option InputType} (ht : type = none ∨ type = some .number)
    (n : Int64) : ReadsAs ((Value.int n).render type .value) (.int n) := by
  have hread := readsAs_number (Numeral.number?_intText n)
  rcases ht with rfl | rfl <;> exact hread

/-! ## Inside and outside -/

namespace Group
variable {types : FieldTypes} {field : String}

/-- A range of integers is read as the conjunction of its bounds. -/
theorem ofText_range {operator low high : Operator} {lo hi : Int64} (hf : PlainName field)
    (ht : types field = none ∨ types field = some .number) (hl : low ∈ Operator.comparisons)
    (hh : high ∈ Operator.comparisons)
    (hw : ∀ c : Condition, c.operator = operator →
      c.write types = c.range types (Verb.ofOperator low) (Verb.ofOperator high)) (d : Connective) :
    Group.ofText ((Condition.constant field operator (.array [.int lo, .int hi])).toText types) d =
      .ok (ofBounds field low high lo hi) := by
  have hread := Condition.readNode_range
    (c := .constant field operator (.array [.int lo, .int hi])) d hf rfl hl hh
    (Value.readsAs_int ht lo) (Value.readsAs_int ht hi) nofun nofun
  rw [ofText, Condition.toText, String.toList_ofList, hw _ rfl]
  exact congrArg (Except.map (ofNode d)) hread

theorem ofText_between (hf : PlainName field)
    (ht : types field = none ∨ types field = some .number) (lo hi : Int64) (d : Connective) :
    Group.ofText ((Condition.between field (.int lo) (.int hi)).toText types) d =
      .ok (ofBounds field .greaterThanEqual .lessThanEqual lo hi) := by
  refine ofText_range hf ht (Verb.operator_mem .greaterThanEqual)
    (Verb.operator_mem .lessThanEqual) (fun c hc => ?_) d
  rw [Condition.write, hc]
  rfl

theorem ofText_notBetween (hf : PlainName field)
    (ht : types field = none ∨ types field = some .number) (lo hi : Int64) (d : Connective) :
    Group.ofText ((Condition.notBetween field (.int lo) (.int hi)).toText types) d =
      .ok (ofBounds field .lessThan .greaterThan lo hi) := by
  refine ofText_range hf ht (Verb.operator_mem .lessThan)
    (Verb.operator_mem .greaterThan) (fun c hc => ?_) d
  rw [Condition.write, hc]
  rfl

end Group

/-- The text of a range is read as a tree that holds from the lower to the upper bound. The text of
its outside is read as one that holds of what is both below the lower and above the upper bound. So
the second negates the first exactly where these two sides agree. -/
theorem Group.outside_negates_iff {types : FieldTypes} {field : String} (hf : PlainName field)
    (ht : types field = none ∨ types field = some .number) (lo hi : Int64) (d : Connective) :
    ∃ inside outside,
      Group.ofText ((Condition.between field (.int lo) (.int hi)).toText types) d = .ok inside ∧
      Group.ofText ((Condition.notBetween field (.int lo) (.int hi)).toText types) d =
        .ok outside ∧
      ∀ record : String → Int,
        inside.holds? record = some (decide (lo.toInt ≤ record field ∧ record field ≤ hi.toInt)) ∧
        outside.holds? record = some (decide (record field < lo.toInt ∧ hi.toInt < record field)) ∧
        (outside.holds? record = (inside.holds? record).map not ↔
          (record field < lo.toInt ↔ hi.toInt < record field)) := by
  refine ⟨_, _, ofText_between hf ht lo hi d, ofText_notBetween hf ht lo hi d, ?_⟩
  intro record
  rw [holds?_ofBounds rfl rfl, holds?_ofBounds rfl rfl]
  refine ⟨by simp, by simp, ?_⟩
  have hlo : lo.toInt ≤ record field ↔ ¬ record field < lo.toInt := Int.not_lt.symm
  have hhi : record field ≤ hi.toInt ↔ ¬ hi.toInt < record field := Int.not_lt.symm
  simp only [hlo, hhi]
  by_cases hl : record field < lo.toInt <;> by_cases hh : hi.toInt < record field <;> simp [hl, hh]

/-- With the bounds exchanged the outside is what lies between them. -/
theorem Group.outside_negates_iff_exchanged :
    (PlainName "name" ∧
      (FieldTypes.untyped "name" = none ∨ FieldTypes.untyped "name" = some .number)) ∧
    ∃ inside outside,
      Group.ofText ((Condition.between "name" (.int 10) (.int 1)).toText .untyped) .xor =
        .ok inside ∧
      Group.ofText ((Condition.notBetween "name" (.int 10) (.int 1)).toText .untyped) .xor =
        .ok outside ∧
      ∀ record : String → Int,
        inside.holds? record = some (decide ((10 : Int64).toInt ≤ record "name" ∧
          record "name" ≤ (1 : Int64).toInt)) ∧
        outside.holds? record = some (decide (record "name" < (10 : Int64).toInt ∧
          (1 : Int64).toInt < record "name")) ∧
        (outside.holds? record = (inside.holds? record).map not ↔
          (record "name" < (10 : Int64).toInt ↔ (1 : Int64).toInt < record "name")) :=
  ⟨⟨PlainName.name, .inl rfl⟩, Group.outside_negates_iff PlainName.name (.inl rfl) 10 1 .xor⟩

/-- Below a range neither the tree of the range holds nor that of its outside. -/
theorem Group.outside_misses_zero : ¬ ∀ (field : String) (lo hi : Int64) (x : Int)
    (inside outside : Group), PlainName field →
    Group.ofText ((Condition.between field (.int lo) (.int hi)).toText .untyped) .and =
      .ok inside →
    Group.ofText ((Condition.notBetween field (.int lo) (.int hi)).toText .untyped) .and =
      .ok outside →
    outside.holds? (fun _ => x) = (inside.holds? fun _ => x).map not := by
  intro h
  have hzero := h "name" 1 10 0 _ _ PlainName.name
    (ofText_between PlainName.name (.inl rfl) 1 10 .and)
    (ofText_notBetween PlainName.name (.inl rfl) 1 10 .and)
  revert hzero
  decide

end Criteria
