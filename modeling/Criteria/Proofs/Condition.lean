import Criteria.Proofs.CallText
import Criteria.Proofs.Pattern
import Criteria.Proofs.Rendering

/-! # Conditions read back

The conditions that operands make, and how a condition is read from its text: a comparison, a test
for null, a membership or a pattern, with a value that is written in the same way. -/
namespace Criteria
open Text

/-- The names that a written condition may have for its field. -/
def FieldName (name : String) : Prop := PlainName name ∨ NumericName name

/-- The operators that are written as the verb of the same comparison. -/
def Operator.comparisons : List Operator :=
  [.equal, .notEqual, .greaterThan, .greaterThanEqual, .lessThan, .lessThanEqual]

def Operator.ranges : List Operator := [.between, .notBetween]

/-- The conditions that are read, over a class of constants. -/
inductive Condition.Regular (constant : Value → Prop) : Condition → Prop
  | comparison {field : String} {operator : Operator} {v : Value} : FieldName field →
      operator ∈ Operator.comparisons → constant v → v ≠ .null →
      Regular constant (.constant field operator v)
  | against {field other : String} {operator : Operator} : PlainName field → PlainName other →
      operator ∈ Operator.comparisons → Regular constant (.againstField field operator other)
  | isNull {field : String} : FieldName field → Regular constant (.isNull field)
  | isNotNull {field : String} : FieldName field → Regular constant (.isNotNull field)
  | isIn {field : String} {values : List Value} : PlainName field → values ≠ [] →
      (∀ v ∈ values, constant v) → Regular constant (.isIn field values)
  | like {field core : String} {operator : Operator} : FieldName field →
      Pattern.Keeps operator core.toList → Regular constant (.constant field operator (.string core))

theorem FieldName.argument {name : String} (h : FieldName name) : Argument name.toList := by
  rcases h with h | h
  · exact ⟨h.segment, h.ne_nil_and_balanced.1⟩
  · obtain ⟨v, hv⟩ := h.readsAs
    exact ⟨hv.segment, hv.ne_nil⟩

theorem ReadsAs.argument {text : List Char} {v : Value} (h : ReadsAs text v) : Argument text :=
  ⟨h.segment, h.ne_nil⟩

theorem Operator.mirrored_mem {o : Operator} (h : o ∈ comparisons) : o.mirrored ∈ comparisons := by
  revert h
  cases o <;> decide

theorem Verb.operator_mem (verb : Verb) : verb.operator ∈ Operator.comparisons := by
  cases verb <;> decide

theorem Verb.operator_ofOperator {o : Operator} (h : o ∈ Operator.comparisons) :
    (Verb.ofOperator o).operator = o := by
  revert h
  cases o <;> decide

theorem Verb.compares_ofOperator (o : Operator) : (Verb.ofOperator o).Compares := by
  cases o <;> exact ⟨rfl, nofun, nofun⟩

theorem Verb.ofOperator_ne_like (o : Operator) : Verb.ofOperator o ≠ .like := by cases o <;> nofun

/-! ## Two operands -/

namespace Condition

theorem ofArguments_eq {verb : Verb} {left right : List Char} {l r : Operand} {ro : Roles}
    {v : Value} (hl : Operand.classify left = .ok l) (hr : Operand.classify right = .ok r)
    (hro : roles l r = .ok ro) (hv : ro.other.value = .ok v) :
    ofArguments verb left right = ofRoles verb ro v := by
  simp [ofArguments, hl, hr, hro, hv, bind, Except.bind]

theorem ofArguments_eq_ok_iff {verb : Verb} {left right : List Char} {d : Condition} :
    ofArguments verb left right = .ok d ↔ ∃ l r ro v, Operand.classify left = .ok l ∧
      Operand.classify right = .ok r ∧ roles l r = .ok ro ∧ ro.other.value = .ok v ∧
      ofRoles verb ro v = .ok d := by
  unfold ofArguments
  simp only [bind_eq_ok_iff]
  constructor
  · rintro ⟨l, hl, r, hr, ro, hro, v, hv, h⟩
    exact ⟨l, r, ro, v, hl, hr, hro, hv, h⟩
  · rintro ⟨l, r, ro, v, hl, hr, hro, hv, h⟩
    exact ⟨l, hl, r, hr, ro, hro, v, hv, h⟩

/-- All the ways in which two operands share the roles. -/
theorem roles_cases {l r : Operand} {ro : Roles} (h : roles l r = .ok ro) :
    (l.isVariable = true ∧ ro = ⟨l.raw, r, false⟩) ∨
      (l.isVariable = false ∧ r.isVariable = true ∧ ro = ⟨r.raw, l, true⟩) ∨
      (l.isVariable = false ∧ r.isVariable = false ∧ namesNothing r = true ∧
        namesNothing l = false ∧ ro = ⟨l.raw, r, false⟩) ∨
      (l.isVariable = false ∧ r.isVariable = false ∧ namesNothing r = false ∧
        ro = ⟨r.raw, l, true⟩) := by
  unfold roles at h
  cases hl : l.isVariable with
  | true => exact .inl ⟨rfl, by simpa [hl] using h.symm⟩
  | false =>
    cases hr : r.isVariable with
    | true => exact .inr (.inl ⟨rfl, rfl, by simpa [hl, hr] using h.symm⟩)
    | false =>
      cases hn : namesNothing r with
      | false => exact .inr (.inr (.inr ⟨rfl, rfl, rfl, by simpa [hl, hr, hn] using h.symm⟩))
      | true =>
        cases hm : namesNothing l with
        | true => simp [hl, hr, hn, hm] at h
        | false =>
          exact .inr (.inr (.inl ⟨rfl, rfl, rfl, rfl, by simpa [hl, hr, hn, hm] using h.symm⟩))

/-- An operand that is no variable and still names a field is a number. -/
theorem kind_of_names {o : Operand} (hc : o.kind ≠ .call) (hv : o.isVariable = false)
    (hn : namesNothing o = false) : o.kind = .number := by
  simp only [namesNothing, Bool.or_eq_false_iff, beq_eq_false_iff_ne] at hn
  simp only [Operand.isVariable, beq_eq_false_iff_ne] at hv
  cases hk : o.kind <;> simp_all

theorem ofRoles_comparison {verb : Verb} {r : Roles} {v : Value} (hn : v ≠ .null)
    (hl : verb = .like → r.other.isVariable = true ∨ v.string? = none) :
    ofRoles verb r v = .ok ⟨String.ofList r.field,
      if r.mirrored then verb.operator.mirrored else verb.operator, v,
      if r.other.isVariable then .field else .value⟩ := by
  by_cases hv : verb = .like
  · subst hv
    cases v with
    | null => exact absurd rfl hn
    | string s =>
      rcases hl rfl with h | h
      · simp [ofRoles, h]
      · cases h
    | _ => rfl
  · cases v with
    | null => exact absurd rfl hn
    | _ => cases verb <;> first | rfl | exact absurd rfl hv

/-- A constant string after `like` is a pattern; whatever else is not null is compared. -/
theorem like_or_comparison (verb : Verb) (r : Roles) (v : Value) :
    (verb = .like ∧ r.other.isVariable = false ∧ ∃ pattern, v = .string pattern) ∨
      (verb = .like → r.other.isVariable = true ∨ v.string? = none) := by
  cases hvar : r.other.isVariable with
  | true => exact .inr fun _ => .inl rfl
  | false =>
    cases v with
    | string pattern =>
      by_cases hl : verb = .like
      · exact .inl ⟨hl, rfl, pattern, rfl⟩
      · exact .inr fun h => absurd h hl
    | _ => exact .inr fun _ => .inr rfl

variable {field : String} {text : List Char} {v : Value}

/-- Null is tested for equality alone. -/
theorem ofRoles_null {r : Roles} (ho : r.other.isVariable = false) :
    ofRoles .equal r .null = .ok (.isNull (String.ofList r.field)) ∧
      ofRoles .notEqual r .null = .ok (.isNotNull (String.ofList r.field)) := by
  simp [ofRoles, ho, isNull, isNotNull, constant]

theorem ofRoles_like {r : Roles} (ho : r.other.isVariable = false) (pattern : String) :
    ofRoles .like r (.string pattern) = .ok (constant (String.ofList r.field)
      (Pattern.decompose pattern.toList).1
      (.string (String.ofList (Pattern.decompose pattern.toList).2))) := by
  simp [ofRoles, ho]

theorem roles_numeric {o : Operand} (ho : o.isVariable = false) :
    roles o ⟨field.toList, .number⟩ = .ok ⟨field.toList, o, true⟩ := by
  simp only [roles, ho]
  rfl

end Condition

/-! ## Written conditions -/

section
open Condition
variable {k : Connective} {c : Condition} {operator : Operator} {text : List Char} {v : Value}

theorem Condition.comparison_plain (hf : PlainName c.field) (operator : Operator)
    (text : List Char) :
    c.comparison operator text = (Verb.ofOperator operator).call [c.field.toList, text] :=
  if_pos hf.kind

theorem Condition.comparison_numeric (hf : NumericName c.field) (operator : Operator)
    (text : List Char) : c.comparison operator text =
      (Verb.ofOperator operator.mirrored).call [text, c.field.toList] := by
  have hk : ¬ Operand.kindOf c.field.toList = .variable := by
    rw [hf.kind]
    decide
  exact if_neg hk

/-- A written comparison gives the roles to its operands, whichever of them is written first. -/
theorem readNode_comparison_roles (k : Connective) (operator : Operator)
    (hf : FieldName c.field) (h : ReadsAs text v) : ∃ o verb mirrored,
      o.isVariable = false ∧
      verb = Verb.ofOperator (if mirrored then operator.mirrored else operator) ∧
      readNode k (c.comparison operator text) =
        (ofRoles verb ⟨c.field.toList, o, mirrored⟩ v).map .condition := by
  obtain ⟨o, hcl, hvar, hv⟩ := h.item
  rcases hf with hf | hf
  · refine ⟨o, _, false, hvar, rfl, ?_⟩
    rw [comparison_plain hf, readNode_pair k (Verb.compares_ofOperator _)
      (FieldName.argument (.inl hf)) h.argument]
    have hro : roles ⟨c.field.toList, .variable⟩ o = .ok ⟨c.field.toList, o, false⟩ := rfl
    rw [ofArguments_eq hf.classify hcl hro hv]
    rfl
  · refine ⟨o, _, true, hvar, rfl, ?_⟩
    rw [comparison_numeric hf, readNode_pair k (Verb.compares_ofOperator _) h.argument
      (FieldName.argument (.inr hf)), ofArguments_eq hcl hf.classify (roles_numeric hvar) hv]
    rfl

theorem readNode_comparison (k : Connective) (hf : FieldName c.field)
    (ho : operator ∈ Operator.comparisons) (h : ReadsAs text v) (hn : v ≠ .null) :
    readNode k (c.comparison operator text) =
      .ok (.condition (.constant c.field operator v)) := by
  obtain ⟨o, verb, mirrored, hvar, rfl, hread⟩ := readNode_comparison_roles k operator hf h
  rw [hread, ofRoles_comparison hn fun he => absurd he (Verb.ofOperator_ne_like _)]
  cases mirrored with
  | false => simp [Verb.operator_ofOperator ho, hvar, Except.map, constant]
  | true =>
    simp [Verb.operator_ofOperator (Operator.mirrored_mem ho), Operator.mirrored_mirrored, hvar,
      Except.map, constant]

theorem readNode_comparison_null (k : Connective) (hf : FieldName c.field)
    (h : ReadsAs text .null) :
    readNode k (c.comparison .equal text) = .ok (.condition (.isNull c.field)) ∧
      readNode k (c.comparison .notEqual text) = .ok (.condition (.isNotNull c.field)) := by
  constructor
  · obtain ⟨o, verb, mirrored, hvar, rfl, hread⟩ := readNode_comparison_roles k .equal hf h
    have hv : Verb.ofOperator (if mirrored then Operator.equal.mirrored else .equal) = .equal := by
      cases mirrored <;> rfl
    rw [hread, hv, (ofRoles_null hvar).1]
    simp [Except.map]
  · obtain ⟨o, verb, mirrored, hvar, rfl, hread⟩ := readNode_comparison_roles k .notEqual hf h
    have hv : Verb.ofOperator (if mirrored then Operator.notEqual.mirrored else .notEqual) =
        .notEqual := by
      cases mirrored <;> rfl
    rw [hread, hv, (ofRoles_null hvar).2]
    simp [Except.map]

theorem readNode_against {other : String} (k : Connective) (hf : PlainName c.field)
    (ho : operator ∈ Operator.comparisons) (hg : PlainName other) :
    readNode k (c.comparison operator other.toList) =
      .ok (.condition (.againstField c.field operator other)) := by
  have hro : roles ⟨c.field.toList, .variable⟩ ⟨other.toList, .variable⟩ =
      .ok ⟨c.field.toList, ⟨other.toList, .variable⟩, false⟩ := rfl
  have hv : (Operand.mk other.toList .variable).value = .ok (.string other) := by
    simp [Operand.value, Operand.text]
  rw [comparison_plain hf, readNode_pair k (Verb.compares_ofOperator _)
    (FieldName.argument (.inl hf)) (FieldName.argument (.inl hg)),
    ofArguments_eq hf.classify hg.classify hro hv,
    ofRoles_comparison (v := .string other) (by simp) fun he =>
      absurd he (Verb.ofOperator_ne_like _)]
  simp [Verb.operator_ofOperator ho, Operand.isVariable, Except.map, againstField]

/-- A quoted pattern is read as the operator and the core that make it. -/
theorem readNode_like (k : Connective) {field : String} (hf : FieldName field)
    (pattern : List Char) : readNode k (Verb.like.call [field.toList, quote pattern]) =
      .ok (.condition (.constant field (Pattern.decompose pattern).1
        (.string (String.ofList (Pattern.decompose pattern).2)))) := by
  have hro : ∃ f, Operand.classify field.toList = .ok f ∧
      roles f ⟨quote pattern, .string⟩ = .ok ⟨field.toList, ⟨quote pattern, .string⟩, false⟩ := by
    rcases hf with hf | hf
    · exact ⟨_, hf.classify, rfl⟩
    · exact ⟨_, hf.classify, rfl⟩
  obtain ⟨f, hf', hro⟩ := hro
  have hlike : Verb.like.Compares := ⟨rfl, by decide, by decide⟩
  rw [readNode_pair k hlike hf.argument (readsAs_quote pattern).argument,
    ofArguments_eq hf' (classify_quote pattern) hro (value_quote pattern), ofRoles_like rfl]
  simp [Except.map]

theorem exists_right {α β : Type} {R : α → β → Prop} {xs : List α} {ys : List β}
    (h : List.Forall₂ R xs ys) {x : α} (hx : x ∈ xs) : ∃ y, R x y := by
  induction h with
  | nil => cases hx
  | cons hxy _ ih =>
    rcases List.mem_cons.mp hx with rfl | hx
    · exact ⟨_, hxy⟩
    · exact ih hx

theorem readNode_isIn (k : Connective) {field : String} {texts : List (List Char)}
    {values : List Value} (hf : PlainName field) (hne : texts ≠ [])
    (h : List.Forall₂ ReadsAs texts values) :
    readNode k (Verb.isIn.call (field.toList :: texts)) =
      .ok (.condition (.isIn field values)) := by
  obtain ⟨hl, hz⟩ := List.forall₂_iff_zip.mp h
  have hargs : ∀ a ∈ field.toList :: texts, Argument a := by
    refine List.forall_mem_cons.mpr ⟨FieldName.argument (.inl hf), fun a ha => ?_⟩
    obtain ⟨w, hw⟩ := exists_right h ha
    exact hw.argument
  obtain ⟨text, rest, rfl⟩ := List.exists_cons_of_ne_nil hne
  have hm := membership_eq_ok_iff.mpr
    ⟨_, values, hf.classify, rfl, hl, fun p hp => (hz hp).item, rfl⟩
  have hjoin : Verb.isIn.connective? = none := rfl
  have hneg : Verb.isIn ≠ .complement := by decide
  rw [readNode_operands k hjoin hneg hargs]
  simp only [Call.ofOperands, hm]
  simp [Except.map, Operand.text]

end

/-! ## Regular conditions -/

namespace Condition
variable {types : FieldTypes} {field : String} {operator : Operator} {v : Value}

theorem write_comparison (ho : operator ∈ Operator.comparisons) (c : Condition)
    (hc : c.operator = operator) : c.write types = c.comparison operator (c.valueText types) := by
  simp only [Operator.comparisons, List.mem_cons, List.not_mem_nil, or_false] at ho
  rcases ho with rfl | rfl | rfl | rfl | rfl | rfl <;> simp only [write, hc]

theorem write_range {c : Condition} (hr : c.operator ∈ Operator.ranges) :
    ∃ low high : Verb, (low.Compares ∧ low ≠ .like) ∧ (high.Compares ∧ high ≠ .like) ∧
      ∀ types, c.write types = c.range types low high := by
  have orders : ∀ o : Operator, (Verb.ofOperator o).Compares ∧ Verb.ofOperator o ≠ .like :=
    fun o => ⟨Verb.compares_ofOperator o, Verb.ofOperator_ne_like o⟩
  simp only [Operator.ranges, List.mem_cons, List.not_mem_nil, or_false] at hr
  rcases hr with hop | hop
  · exact ⟨_, _, orders .greaterThanEqual, orders .lessThanEqual, fun _ => by rw [write, hop]; rfl⟩
  · exact ⟨_, _, orders .lessThan, orders .greaterThan, fun _ => by rw [write, hop]; rfl⟩

/-- The texts of conditions with other operators. -/
inductive Test (types : FieldTypes) (c : Condition) : List Char → Prop
  | pattern (operator : Operator) : Test types c (c.likeness operator)
  | null : Test types c (c.comparison .equal Value.null.literal)
  | notNull : Test types c (c.comparison .notEqual Value.null.literal)
  | membership : Test types c (c.membershipText types)
  | negation {text : List Char} : Test types c text → Test types c (negationText text)

theorem write_test {c : Condition} (ho : c.operator ∉ Operator.comparisons)
    (hr : c.operator ∉ Operator.ranges) : c.Test types (c.write types) := by
  unfold write
  split
  · exact .pattern _
  · exact .pattern _
  · exact .pattern _
  · exact .negation (.pattern _)
  · exact .negation (.pattern _)
  · exact .negation (.pattern _)
  · exact .null
  · exact .notNull
  · exact .membership
  · exact .negation .membership
  · rename_i hop
    exact absurd (hop ▸ by decide) hr
  · rename_i hop
    exact absurd (hop ▸ by decide) hr
  · refine absurd ?_ ho
    cases hop : c.operator <;> simp_all [Operator.comparisons]

theorem write_like {core : String} (ho : Pattern.Keeps operator core.toList) :
    (constant field operator (.string core)).write types =
      Verb.like.call [field.toList, quote (Pattern.compose operator core.toList)] := by
  cases operator with
  | contains => rfl
  | beginsWith => rfl
  | endsWith => rfl
  | _ => exact ho.elim

theorem likeness_value {c : Condition} (hs : c.source = .value) (operator : Operator) :
    c.likeness operator =
      Verb.like.call [c.field.toList, quote (Pattern.compose operator c.value.bare)] := by
  simp [likeness, hs]

theorem valueText_eq_texts {c : Condition} (hs : c.source = .value) :
    c.valueText types = joinWith ',' (c.value.texts (types c.field)) := by
  rw [valueText, hs, Value.render_eq_texts]

theorem membershipText_eq_texts {c : Condition} (hs : c.source = .value) :
    c.membershipText types =
      Verb.isIn.call (c.field.toList :: c.value.texts (types c.field)) := by
  rw [membershipText, valueText_eq_texts hs, ← Verb.call_cons _ _ (Value.texts_ne_nil _ _)]

/-- A condition and what is read for it: the constants may be others, null and single strings
apart. -/
inductive Rewrites (R : Value → Value → Prop) : Condition → Condition → Prop
  | same {c : Condition} : c.value = .null ∨ (∃ s, c.value = .string s) → Rewrites R c c
  | comparison {field : String} {operator : Operator} {v w : Value} :
      operator ∈ Operator.comparisons → R v w →
      Rewrites R (constant field operator v) (constant field operator w)
  | isIn {field : String} {vs ws : List Value} : List.Forall₂ R vs ws →
      Rewrites R (.isIn field vs) (.isIn field ws)

theorem valueText_isIn {vs : List Value} (hne : vs ≠ []) (hv : ∀ v ∈ vs, v.items? = none) :
    (isIn field vs).valueText types =
      joinWith ',' (vs.map (Value.render (types field) .value)) := by
  have hatoms : (Value.array vs).atoms = vs := by
    obtain ⟨u, us, rfl⟩ := List.exists_cons_of_ne_nil hne
    have hall : (u :: us).map Value.atoms = (u :: us).map fun w => [w] :=
      List.map_congr_left fun w hw => Value.atoms_of_constant (hv w hw)
    rw [Value.atoms, Value.atomsAll_eq, hall, ← List.flatMap_def, List.flatMap_singleton']
  have := Value.render_atoms (types field) .value (.array vs)
  rw [hatoms] at this
  exact this

theorem write_isIn {vs : List Value} (hne : vs ≠ []) (hv : ∀ v ∈ vs, v.items? = none) :
    (isIn field vs).write types =
      Verb.isIn.call (field.toList :: vs.map (Value.render (types field) .value)) := by
  have hw : (isIn field vs).write types =
      Verb.isIn.call [field.toList, (isIn field vs).valueText types] := rfl
  rw [hw, valueText_isIn hne hv]
  obtain ⟨u, us, rfl⟩ := List.exists_cons_of_ne_nil hne
  rfl

/-- A regular condition is read from its text, its constants replaced by those that are read for
them. -/
theorem Regular.read {constant : Value → Prop} {R : Value → Value → Prop} {c : Condition}
    (h : c.Regular constant) (k : Connective) (types : FieldTypes)
    (hi : ∀ v, constant v → v.items? = none)
    (hR : ∀ v, constant v → ∃ w, R v w ∧ Spells (v.render (types c.field) .value) w ∧
      (v ≠ .null → w ≠ .null)) :
    ∃ d, readNode k (c.write types) = .ok (.condition d) ∧ Rewrites R c d := by
  cases h with
  | @comparison field operator v hf ho hv hn =>
    obtain ⟨w, hw, hs, hnull⟩ := hR v hv
    refine ⟨_, ?_, .comparison ho hw⟩
    rw [write_comparison ho _ rfl]
    have hread : ReadsAs ((Condition.constant field operator v).valueText types) w := by
      cases v with
      | array items => cases hi _ hv
      | _ => exact hs.readsAs
    exact readNode_comparison k hf ho hread (hnull hn)
  | against hf hg ho =>
    refine ⟨_, ?_, .same (.inr ⟨_, rfl⟩)⟩
    rw [write_comparison ho _ rfl]
    exact readNode_against k hf ho hg
  | isNull hf => exact ⟨_, (readNode_comparison_null k hf readsAs_null).1, .same (.inl rfl)⟩
  | isNotNull hf => exact ⟨_, (readNode_comparison_null k hf readsAs_null).2, .same (.inl rfl)⟩
  | @isIn field vs hf hne hv =>
    obtain ⟨ws, hws⟩ := exists_forall₂ fun v h => hR v (hv v h)
    refine ⟨_, ?_, .isIn (hws.imp fun _ _ h => h.1)⟩
    have hreads : List.Forall₂ ReadsAs (vs.map (Value.render (types field) .value)) ws :=
      List.forall₂_map_left_iff.mpr (hws.imp fun _ _ h => h.2.1.readsAs)
    rw [write_isIn hne fun v h => hi v (hv v h)]
    exact readNode_isIn k hf (by simpa using hne) hreads
  | @like field core operator hf hk =>
    refine ⟨_, ?_, .same (.inr ⟨_, rfl⟩)⟩
    rw [write_like hk, readNode_like k hf, Pattern.decompose_compose hk, String.ofList_toList]

/-- A membership is read as one with the same text, whatever arrays its value has in it. -/
theorem read_membership {c : Condition} (k : Connective) (types : FieldTypes) (hf : PlainName c.field)
    (hs : c.source = .value) : ∃ values,
      readNode k (c.membershipText types) = .ok (.condition (.isIn c.field values)) ∧
      (isIn c.field values).valueText types = c.valueText types := by
  obtain ⟨ws, hws⟩ := Value.exists_stables (types c.field)
    fun a ha => Value.items?_of_mem_atoms (v := c.value) ha
  obtain ⟨hr, ht, hi⟩ := Value.stables_render hws
  have htexts := Value.texts_ne_nil (types c.field) c.value
  have hne : ws ≠ [] := by
    rintro rfl
    exact htexts ht.symm
  refine ⟨ws, ?_, ?_⟩
  · rw [membershipText_eq_texts hs]
    exact readNode_isIn k hf htexts hr
  · rw [valueText_isIn hne hi, ht, valueText_eq_texts hs, Value.texts]

end Condition
end Criteria
