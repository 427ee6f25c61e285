import Criteria.Proofs.Condition

/-! # Operands the other way round

A comparison may be turned round: its operands are exchanged and its verb mirrored. The operands
keep their roles then, unless both could name the field. Of two variables the left one names it, of
two numbers the right one, and so the two comparisons are mirror images. -/
namespace Criteria
open Operand (isQuote)
open Text

/-- The verb that says the same with its operands exchanged. -/
def Verb.mirrored : Verb → Verb
  | .greaterThan => .lessThan
  | .greaterThanEqual => .lessThanEqual
  | .lessThan => .greaterThan
  | .lessThanEqual => .greaterThanEqual
  | verb => verb

theorem Verb.mirrored_mirrored (verb : Verb) : verb.mirrored.mirrored = verb := by
  cases verb <;> rfl

theorem Verb.operator_mirrored (verb : Verb) :
    verb.mirrored.operator = verb.operator.mirrored := by
  cases verb <;> rfl

theorem Verb.mirrored_eq_like {verb : Verb} : verb.mirrored = .like ↔ verb = .like := by
  cases verb <;> decide

/-- A text that names a field: a variable that opens no quote. -/
structure NamesField (text : List Char) : Prop where
  kind : Operand.kindOf text = .variable
  unquoted : ∀ c ∈ (trim text).head?, isQuote c = false

section
variable {text : List Char}

theorem NamesField.classify (h : NamesField text) :
    Operand.classify text = .ok ⟨trim text, .variable⟩ :=
  classify_eq_ok_iff.mpr ⟨by rw [h.kind], by rw [h.kind]; decide, fun _ => h.unquoted⟩

theorem classify_number (h : Operand.kindOf text = .number) :
    Operand.classify text = .ok ⟨trim text, .number⟩ :=
  classify_eq_ok_iff.mpr ⟨by rw [h], by rw [h]; decide, fun hk => by rw [h] at hk; cases hk⟩

end

/-! ## Roles -/

namespace Condition

/-- The same roles, the operands read from the other side. -/
def Roles.turned (r : Roles) : Roles := { r with mirrored := !r.mirrored }

/-- Two operands keep their roles, unless both are variables or both are numbers. -/
theorem roles_turned {l r : Operand} {ro : Roles} (hl : l.kind ≠ .call) (hr : r.kind ≠ .call)
    (hv : ¬ (l.kind = .variable ∧ r.kind = .variable))
    (hn : ¬ (l.kind = .number ∧ r.kind = .number)) (h : roles l r = .ok ro) :
    roles r l = .ok ro.turned := by
  rcases roles_cases h with ⟨hlv, rfl⟩ | ⟨_, hrv, rfl⟩ | ⟨hlv, hrv, _, hln, rfl⟩ |
    ⟨hlv, hrv, hrn, rfl⟩
  · have hrv : r.isVariable = false := by
      by_contra hx
      exact hv ⟨Operand.isVariable_iff.mp hlv, Operand.isVariable_iff.mp (by simpa using hx)⟩
    simp [roles, hlv, hrv, Roles.turned]
  · simp [roles, hrv, Roles.turned]
  · simp [roles, hlv, hrv, hln, Roles.turned]
  · -- the right one is a number, and so the left one names nothing
    have hln : namesNothing l = true := by
      by_contra hx
      exact hn ⟨kind_of_names hl hlv (by simpa using hx), kind_of_names hr hrv hrn⟩
    simp [roles, hlv, hrv, hln, hrn, Roles.turned]

/-- A verb that is mirrored together with the roles makes the same of them. -/
theorem ofRoles_turned (verb : Verb) (r : Roles) (v : Value) :
    ofRoles verb.mirrored r.turned v = ofRoles verb r v := by
  by_cases hn : v = .null
  · subst hn
    cases verb <;> rfl
  rcases like_or_comparison verb r v with ⟨rfl, hvar, s, rfl⟩ | hl
  · exact (ofRoles_like (r := r.turned) hvar s).trans (ofRoles_like hvar s).symm
  · have hop : (if r.turned.mirrored then verb.mirrored.operator.mirrored
        else verb.mirrored.operator) =
        if r.mirrored then verb.operator.mirrored else verb.operator := by
      cases hm : r.mirrored <;>
        simp [Roles.turned, hm, Verb.operator_mirrored, Operator.mirrored_mirrored]
    rw [ofRoles_comparison hn hl, ofRoles_comparison (r := r.turned) hn
      fun he => hl (Verb.mirrored_eq_like.mp he), hop]
    rfl

/-! ## Two arguments -/

variable {verb : Verb} {left right : List Char}

theorem ofArguments_mirrored {d : Condition} (hv : ¬ (NamesField left ∧ NamesField right))
    (hn : ¬ (Operand.kindOf left = .number ∧ Operand.kindOf right = .number))
    (h : ofArguments verb left right = .ok d) : ofArguments verb.mirrored right left = .ok d := by
  obtain ⟨l, r, ro, v, hl, hr, hro, hval, hd⟩ := ofArguments_eq_ok_iff.mp h
  obtain ⟨rfl, hlc, hlq⟩ := classify_eq_ok_iff.mp hl
  obtain ⟨rfl, hrc, hrq⟩ := classify_eq_ok_iff.mp hr
  have hvars : ¬ (Operand.kindOf left = .variable ∧ Operand.kindOf right = .variable) :=
    fun hk => hv ⟨⟨hk.1, hlq hk.1⟩, ⟨hk.2, hrq hk.2⟩⟩
  have hturn : roles ⟨trim right, Operand.kindOf right⟩ ⟨trim left, Operand.kindOf left⟩ =
      .ok ro.turned := roles_turned hlc hrc hvars hn hro
  rw [ofArguments_eq hr hl hturn hval, ofRoles_turned, hd]

/-- Of two variables the left one names the field. -/
theorem ofArguments_variables (verb : Verb) (hl : NamesField left) (hr : NamesField right) :
    ofArguments verb left right = .ok (againstField (String.ofList (trim left)) verb.operator
      (String.ofList (trim right))) := by
  have hro : roles ⟨trim left, .variable⟩ ⟨trim right, .variable⟩ =
      .ok ⟨trim left, ⟨trim right, .variable⟩, false⟩ := rfl
  rw [ofArguments_eq hl.classify hr.classify hro rfl,
    ofRoles_comparison (by nofun) fun _ => .inl rfl]
  rfl

/-- Of two numbers the right one names the field. -/
theorem ofArguments_numbers (verb : Verb) (hl : Operand.kindOf left = .number)
    (hr : Operand.kindOf right = .number) : ∃ v, Numeral.number? (trim left) = some v ∧
      ofArguments verb left right =
        .ok (constant (String.ofList (trim right)) verb.operator.mirrored v) := by
  obtain ⟨v, hv⟩ := number?_of_kindOfTrimmed hl
  obtain ⟨_, hn, hs⟩ := Numeral.number?_scalar hv
  have hro : roles ⟨trim left, .number⟩ ⟨trim right, .number⟩ =
      .ok ⟨trim right, ⟨trim left, .number⟩, true⟩ := rfl
  refine ⟨v, hv, ?_⟩
  rw [ofArguments_eq (classify_number hl) (classify_number hr) hro (value_numeral hv),
    ofRoles_comparison hn fun _ => .inr hs]
  rfl

/-- Exchanging two operands and mirroring the verb makes the same condition of them. Two variables
and two numbers make mirror images instead, each with the other's value for its field. -/
theorem ofArguments_turned (verb : Verb) (left right : List Char) :
    (¬ (NamesField left ∧ NamesField right) →
      ¬ (Operand.kindOf left = .number ∧ Operand.kindOf right = .number) →
      ∀ d, ofArguments verb left right = .ok d ↔ ofArguments verb.mirrored right left = .ok d) ∧
    (NamesField left → NamesField right →
      ofArguments verb left right = .ok (againstField (String.ofList (trim left)) verb.operator
        (String.ofList (trim right))) ∧
      ofArguments verb.mirrored right left = .ok (againstField (String.ofList (trim right))
        verb.operator.mirrored (String.ofList (trim left)))) ∧
    (Operand.kindOf left = .number → Operand.kindOf right = .number →
      ∃ v w, Numeral.number? (trim left) = some v ∧ Numeral.number? (trim right) = some w ∧
        ofArguments verb left right =
          .ok (constant (String.ofList (trim right)) verb.operator.mirrored v) ∧
        ofArguments verb.mirrored right left =
          .ok (constant (String.ofList (trim left)) verb.operator w)) := by
  refine ⟨fun hv hn d => ⟨ofArguments_mirrored hv hn, fun h => ?_⟩, fun hl hr => ⟨?_, ?_⟩,
    fun hl hr => ?_⟩
  · have hback := ofArguments_mirrored (fun hx => hv hx.symm) (fun hx => hn hx.symm) h
    rwa [verb.mirrored_mirrored] at hback
  · exact ofArguments_variables verb hl hr
  · rw [ofArguments_variables verb.mirrored hr hl, verb.operator_mirrored]
  · obtain ⟨v, hv, hd⟩ := ofArguments_numbers verb hl hr
    obtain ⟨w, hw, he⟩ := ofArguments_numbers verb.mirrored hr hl
    rw [verb.operator_mirrored, Operator.mirrored_mirrored] at he
    exact ⟨v, w, hv, hw, hd, he⟩

theorem ofArguments_turned_kinds :
    (∀ d, ofArguments .greaterThan " 12 ".toList "'x'".toList = .ok d ↔
      ofArguments .lessThan "'x'".toList " 12 ".toList = .ok d) ∧
    (ofArguments .lessThanEqual " a".toList "b ".toList =
        .ok (againstField "a" .lessThanEqual "b") ∧
      ofArguments .greaterThanEqual "b ".toList " a".toList =
        .ok (againstField "b" .greaterThanEqual "a")) ∧
    ∃ v w, Numeral.number? ['1'] = some v ∧ Numeral.number? ['-', '2'] = some w ∧
      ofArguments .lessThan ['1'] ['-', '2'] = .ok (constant "-2" .greaterThan v) ∧
      ofArguments .greaterThan ['-', '2'] ['1'] = .ok (constant "1" .lessThan w) := by
  refine ⟨(ofArguments_turned .greaterThan _ _).1 ?_ ?_, ?_, ?_⟩
  · rintro ⟨h, _⟩
    exact absurd h.kind (by decide +kernel)
  · decide +kernel
  · exact (ofArguments_turned .lessThanEqual " a".toList "b ".toList).2.1 ⟨rfl, by rintro _ ⟨⟩; rfl⟩
      ⟨rfl, by rintro _ ⟨⟩; rfl⟩
  · exact (ofArguments_turned .lessThan ['1'] ['-', '2']).2.2 (by decide +kernel)
      (by decide +kernel)

end Condition
end Criteria
