import Criteria.Proofs.Confinement

/-! # Which operand names the field

Where no operand is a variable a number on the right is read as the name of the field. The text of
a comparison puts a field that is a number there. The text of a range does not, and an array fans
out from its first item, so that a number among the constants may be read in place of the field. -/
namespace Criteria
open Text

/-! ## Two operands -/

/-- A text that is read as a constant. -/
structure ConstantText (text : List Char) : Prop extends Argument text where
  kind : Operand.kindOf text ≠ .variable

theorem ReadsAs.constantText {text : List Char} {v : Value} (h : ReadsAs text v) :
    ConstantText text := by
  refine ⟨h.argument, fun hk => ?_⟩
  obtain ⟨o, hcl, hvar, _⟩ := h.item
  rw [(classify_eq_ok_iff.mp hcl).1] at hvar
  simp [Operand.isVariable, hk] at hvar

/-- The operand that names the field, if the right one is a constant. -/
def namingOperand (left right : List Char) : List Char :=
  if Operand.kindOf left ≠ .variable ∧ Operand.kindOf right = .number then right else left

namespace Condition
variable {verb : Verb} {left right : List Char} {d : Condition}

theorem field_of_ofRoles {r : Roles} {v : Value} (h : ofRoles verb r v = .ok d) :
    d.field = String.ofList r.field := by
  unfold ofRoles at h
  simp only at h
  split at h <;> cases h <;> rfl

theorem field_of_roles {l r : Operand} {ro : Roles} (hcall : r.kind ≠ .call)
    (hk : r.kind ≠ .variable) (h : roles l r = .ok ro) :
    ro.field = if l.kind ≠ .variable ∧ r.kind = .number then r.raw else l.raw := by
  have hvar := Operand.isVariable_iff (o := l)
  rcases roles_cases h with ⟨hl, rfl⟩ | ⟨_, hr, rfl⟩ | ⟨_, _, hn, _, rfl⟩ | ⟨hl, hr, hn, rfl⟩
  · exact (if_neg fun hx => hx.1 (hvar.mp hl)).symm
  · exact absurd (Operand.isVariable_iff.mp hr) hk
  · refine (if_neg fun hx => ?_).symm
    simp [namesNothing, hx.2] at hn
  · have hlk : l.kind ≠ .variable := fun hx => by rw [hvar.mpr hx] at hl; cases hl
    exact (if_pos ⟨hlk, kind_of_names hcall hr hn⟩).symm

theorem field_of_ofArguments (hl : Trimmed left) (hr : Trimmed right)
    (hk : Operand.kindOf right ≠ .variable) (h : ofArguments verb left right = .ok d) :
    d.field.toList = namingOperand left right := by
  obtain ⟨l, r, ro, v, hcl, hcr, hro, _, hd⟩ := ofArguments_eq_ok_iff.mp h
  obtain ⟨rfl, _⟩ := classify_eq_ok_iff.mp hcl
  obtain ⟨rfl, hcall, _⟩ := classify_eq_ok_iff.mp hcr
  have hfield := field_of_roles hcall hk hro
  rw [hl, hr] at hfield
  rw [field_of_ofRoles hd, String.toList_ofList, hfield, namingOperand]

end Condition

/-! ## Calls -/

theorem map_eq_of_mapM {α β γ ε : Type} {f : α → Except ε β} {g : β → γ} {k : α → γ}
    {xs : List α} {ys : List β} (h : xs.mapM f = .ok ys)
    (hk : ∀ x ∈ xs, ∀ y, f x = .ok y → g y = k x) : ys.map g = xs.map k := by
  induction xs generalizing ys with
  | nil =>
    cases h
    rfl
  | cons x xs ih =>
    obtain ⟨y, zs, hy, hz, rfl⟩ := mapM_cons_eq_ok.mp h
    rw [List.map_cons, List.map_cons, hk x (by simp) y hy,
      ih hz fun z hz => hk z (List.mem_cons_of_mem _ hz)]

/-- The fields of a call that compares one operand with constants. -/
theorem fields_of_call {k : Connective} {verb : Verb} {left : List Char}
    {rights : List (List Char)} {n : Node} (hv : verb.Compares) (hl : Argument left)
    (hne : rights ≠ []) (hr : ∀ r ∈ rights, ConstantText r)
    (h : readNode k (verb.call (left :: rights)) = .ok n) :
    n.conditions.map (fun d => d.field.toList) = rights.map (namingOperand left) := by
  have hargs : ∀ a ∈ left :: rights, Argument a :=
    List.forall_mem_cons.mpr ⟨hl, fun r hx => (hr r hx).toArgument⟩
  have field : ∀ r ∈ rights, ∀ d, Condition.ofArguments verb left r = .ok d →
      d.field.toList = namingOperand left r := fun r hx d hd =>
    Condition.field_of_ofArguments hl.trimmed (hr r hx).trimmed (hr r hx).kind hd
  rw [readNode_operands k hv.1 hv.2.1 hargs] at h
  rcases rights with _ | ⟨r₁, _ | ⟨r₂, rights⟩⟩
  · exact absurd rfl hne
  · rw [ofOperands_pair hv.2.2] at h
    obtain ⟨d, hd, rfl⟩ := map_eq_ok h
    simp [Node.conditions, field r₁ (by simp) d hd]
  · rw [ofOperands_fanOut hv.2.2, fanOut_eq] at h
    obtain ⟨ns, hns, rfl⟩ := map_eq_ok h
    obtain ⟨ds, hds, rfl⟩ := map_eq_ok hns
    rw [Node.conditions, Node.allConditions_map]
    exact map_eq_of_mapM hds field

/-- Every condition of the node is on the field. -/
def Node.OnField (field : String) (n : Node) : Prop := n.All fun d => d.field = field

theorem onField_of_call_iff {k : Connective} {verb : Verb} {field : String} {left : List Char}
    {rights : List (List Char)} {n : Node} (hv : verb.Compares) (hl : Argument left)
    (hne : rights ≠ []) (hr : ∀ r ∈ rights, ConstantText r)
    (h : readNode k (verb.call (left :: rights)) = .ok n) :
    n.OnField field ↔ ∀ r ∈ rights, namingOperand left r = field.toList := by
  have hfields := fields_of_call hv hl hne hr h
  calc n.OnField field
      ↔ ∀ x ∈ n.conditions.map (fun d => d.field.toList), x = field.toList := by
        simp [Node.OnField, Node.All, String.toList_inj]
    _ ↔ ∀ r ∈ rights, namingOperand left r = field.toList := by
        rw [hfields, List.forall_mem_map]

theorem NumericName.not_plain {name : String} (h : NumericName name) : ¬ PlainName name := by
  intro hp
  have := h.kind.symm.trans hp.kind
  cases this

/-- To the right of the field, nothing but a number is read in its place. -/
theorem namingOperand_field {field : String} (hf : FieldName field) (right : List Char) :
    namingOperand field.toList right = field.toList ↔
      PlainName field ∨ (Operand.kindOf right = .number → right = field.toList) := by
  rcases hf with hf | hf
  · simp [namingOperand, hf.kind, hf]
  · by_cases hr : Operand.kindOf right = .number <;>
      simp [namingOperand, hf.kind, hf.not_plain, hr]

/-! ## Constants -/

theorem Value.constantText_of_mem {type : Option InputType} {v : Value} {t : List Char}
    (h : t ∈ v.texts type) : ConstantText t := by
  obtain ⟨w, hw⟩ := exists_spells_of_mem_texts h
  exact hw.readsAs.constantText

namespace Condition
variable {types : FieldTypes} {c : Condition} {k : Connective} {n : Node}

/-- The texts of a bound, null for one that is missing. -/
def boundTexts (types : FieldTypes) (c : Condition) : Option Value → List (List Char)
  | some v => v.texts (types c.field)
  | none => [Value.null.literal]

theorem boundTexts_ne_nil (types : FieldTypes) (c : Condition) (bound : Option Value) :
    c.boundTexts types bound ≠ [] := by
  cases bound with
  | some v => exact Value.texts_ne_nil _ v
  | none => exact List.cons_ne_nil _ _

theorem boundText_eq_texts (hs : c.source = .value) (bound : Option Value) :
    c.boundText types bound = joinWith ',' (c.boundTexts types bound) := by
  cases bound with
  | some v =>
    rw [boundText, boundTexts, hs]
    exact Value.render_eq_texts _ v
  | none => rfl

theorem constantText_of_mem_boundTexts {bound : Option Value} {t : List Char}
    (h : t ∈ c.boundTexts types bound) : ConstantText t := by
  cases bound with
  | some v => exact Value.constantText_of_mem h
  | none =>
    rw [List.mem_singleton.mp h]
    exact readsAs_null.constantText

/-- The operands that are read as the field, next to the field itself, where the field is a
number: all numbers in a range, and the items of an array after the first or, for those that are no
numbers, the first. -/
def rivals (types : FieldTypes) (c : Condition) : List (List Char) :=
  if c.operator ∈ Operator.comparisons then
    match c.value.texts (types c.field) with
    | [] => []
    | first :: rest => rest.map (namingOperand first)
  else if c.operator ∈ Operator.ranges then
    (c.boundTexts types c.bounds.1 ++ c.boundTexts types c.bounds.2).filter fun t =>
      Operand.kindOf t == .number
  else []

/-! ## Conditions -/

theorem onField_comparison_iff (hf : FieldName c.field) (operator : Operator) {first : List Char}
    {rest : List (List Char)} (ht : ∀ t ∈ first :: rest, ConstantText t)
    (h : readNode k (c.comparison operator (joinWith ',' (first :: rest))) = .ok n) :
    n.OnField c.field ↔
      PlainName c.field ∨ ∀ r ∈ rest.map (namingOperand first), r = c.field.toList := by
  have hne : first :: rest ≠ [] := List.cons_ne_nil _ _
  rcases hf with hf | hf
  · rw [comparison_plain hf, ← Verb.call_cons _ _ hne] at h
    rw [onField_of_call_iff (Verb.compares_ofOperator _) (FieldName.argument (.inl hf)) hne ht h]
    refine iff_of_true (fun r _ => ?_) (.inl hf)
    exact (namingOperand_field (.inl hf) r).mpr (.inl hf)
  · -- the field stands behind the constants, and the first of these is compared with the others
    obtain ⟨v, hv⟩ := hf.readsAs
    have hrights : ∀ r ∈ rest ++ [c.field.toList], ConstantText r := by
      intro r hr
      rcases List.mem_append.mp hr with hr | hr
      · exact ht r (List.mem_cons_of_mem _ hr)
      · exact List.mem_singleton.mp hr ▸ hv.constantText
    have hlast : namingOperand first c.field.toList = c.field.toList :=
      if_pos ⟨(ht first (by simp)).kind, hf.kind⟩
    rw [comparison_numeric hf, ← Verb.call_concat _ hne, List.cons_append] at h
    rw [onField_of_call_iff (Verb.compares_ofOperator _) (ht first (by simp)).toArgument (by simp)
      hrights h, or_iff_right hf.not_plain, List.forall_mem_map]
    simp only [List.mem_append, List.mem_singleton]
    constructor
    · exact fun hall r hr => hall r (.inl hr)
    · rintro hall r (hr | rfl)
      · exact hall r hr
      · exact hlast

theorem onField_range_iff (hf : FieldName c.field) (hs : c.source = .value) {low high : Verb}
    (hl : low.Compares) (hh : high.Compares) (h : readNode k (c.range types low high) = .ok n) :
    n.OnField c.field ↔ PlainName c.field ∨
      ∀ r ∈ (c.boundTexts types c.bounds.1 ++ c.boundTexts types c.bounds.2).filter fun t =>
        Operand.kindOf t == .number, r = c.field.toList := by
  have hlegible : c.Legible := ⟨hf, by simp [hs]⟩
  obtain ⟨m₁, m₂, hm₁, hm₂, rfl⟩ := (hlegible.readNode_range_iff hl hh).mp h
  have side : ∀ {verb : Verb} {bound : Option Value} {m : Node}, verb.Compares →
      readNode .and (verb.call (c.field.toList :: c.boundTexts types bound)) = .ok m →
      (m.OnField c.field ↔ ∀ r ∈ c.boundTexts types bound, PlainName c.field ∨
        (Operand.kindOf r = .number → r = c.field.toList)) := by
    intro verb bound m hv hm
    rw [onField_of_call_iff hv hf.argument (boundTexts_ne_nil types c bound)
      (fun r hr => constantText_of_mem_boundTexts hr) hm]
    exact forall₂_congr fun r _ => namingOperand_field hf r
  rw [boundText_eq_texts hs, ← Verb.call_cons _ _ (boundTexts_ne_nil types c _)] at hm₁ hm₂
  have hboth : (Node.group .and false [m₁, m₂]).OnField c.field ↔
      m₁.OnField c.field ∧ m₂.OnField c.field := by
    simp [Node.OnField, Node.all_group]
  rw [hboth, side hl hm₁, side hh hm₂]
  by_cases hp : PlainName c.field
  · simp [hp]
  · simp [hp, or_imp, forall_and, and_imp]

/-- Whatever is read from the text is on the field. -/
def Stays (field : String) (text : List Char) : Prop :=
  ∀ k n, readNode k text = .ok n → n.OnField field

theorem stays_condition {field : String} {text : List Char} {d : Condition}
    (h : ∀ k, readNode k text = .ok (.condition d)) (hd : d.field = field) : Stays field text := by
  intro k n hn
  rw [h k] at hn
  cases hn
  exact Node.all_condition hd

theorem Stays.negation {field : String} {text : List Char} (ht : Formed text)
    (h : Stays field text) : Stays field (negationText text) := by
  intro k n hn
  rw [readNode_negation k ht.argument] at hn
  obtain ⟨m, hm, rfl⟩ := map_eq_ok hn
  rw [Node.OnField, Node.All, Node.conditions_negation]
  exact h k m hm

theorem stays_likeness (hf : FieldName c.field) (hs : c.source = .value) (operator : Operator) :
    Stays c.field (c.likeness operator) := by
  rw [likeness_value hs]
  exact stays_condition (fun k => readNode_like k hf _) rfl

theorem stays_membershipText (hf : FieldName c.field) (hs : c.source = .value) :
    Stays c.field (c.membershipText types) := by
  intro k n h
  have hargs : ∀ a ∈ c.field.toList :: c.value.texts (types c.field), Argument a :=
    List.forall_mem_cons.mpr ⟨hf.argument, fun a ha => (Value.constantText_of_mem ha).toArgument⟩
  have hneg : Verb.isIn ≠ .complement := by decide
  rw [membershipText_eq_texts hs, readNode_operands k rfl hneg hargs] at h
  obtain ⟨t, ts, ht⟩ := List.exists_cons_of_ne_nil (Value.texts_ne_nil (types c.field) c.value)
  rw [ht] at h
  obtain ⟨d, hd, rfl⟩ := map_eq_ok h
  obtain ⟨f, values, hcl, _, _, _, rfl⟩ := membership_eq_ok_iff.mp hd
  have hraw : f.raw = c.field.toList := by
    rw [(classify_eq_ok_iff.mp hcl).1]
    exact hf.argument.trimmed
  refine Node.all_condition ?_
  rw [isIn, constant, Operand.text, hraw, String.ofList_toList]

theorem stays_null (hf : FieldName c.field) :
    Stays c.field (c.comparison .equal Value.null.literal) ∧
      Stays c.field (c.comparison .notEqual Value.null.literal) :=
  ⟨stays_condition (fun k => (readNode_comparison_null k hf readsAs_null).1) rfl,
    stays_condition (fun k => (readNode_comparison_null k hf readsAs_null).2) rfl⟩

theorem Test.stays {text : List Char} (ht : c.Test types text) (hf : FieldName c.field)
    (hs : c.source = .value) : Stays c.field text := by
  induction ht with
  | pattern operator => exact stays_likeness hf hs operator
  | null => exact (stays_null hf).1
  | notNull => exact (stays_null hf).2
  | membership => exact stays_membershipText hf hs
  | negation ht ih => exact ih.negation (ht.formed ⟨hf, by simp [hs]⟩)

theorem onField_write_iff (hf : FieldName c.field) (hs : c.source = .value)
    (h : readNode k (c.write types) = .ok n) :
    n.OnField c.field ↔ PlainName c.field ∨ ∀ r ∈ c.rivals types, r = c.field.toList := by
  unfold rivals
  by_cases ho : c.operator ∈ Operator.comparisons
  · obtain ⟨first, rest, ht⟩ := List.exists_cons_of_ne_nil
      (Value.texts_ne_nil (types c.field) c.value)
    rw [write_comparison ho c rfl, valueText_eq_texts hs, ht] at h
    rw [if_pos ho, ht]
    exact onField_comparison_iff hf _ (fun t hm => Value.constantText_of_mem (ht ▸ hm)) h
  rw [if_neg ho]
  by_cases hr : c.operator ∈ Operator.ranges
  · rw [if_pos hr]
    obtain ⟨low, high, hl, hh, hw⟩ := write_range hr
    rw [hw] at h
    exact onField_range_iff hf hs hl.1 hh.1 h
  · rw [if_neg hr]
    exact iff_of_true ((write_test ho hr).stays hf hs k n h) (.inr (by simp))

/-- A single constant has no rivals, except in a range. -/
theorem rivals_eq_nil (hr : c.operator ∉ Operator.ranges) (hv : c.value.items? = none) :
    c.rivals types = [] := by
  have ht : c.value.texts (types c.field) = [c.value.render (types c.field) .value] := by
    rw [Value.texts, Value.atoms_of_constant hv, List.map_singleton]
  simp [rivals, ht, hr]

end Condition

/-! ## Whole texts -/

section
variable {types : FieldTypes} {c : Condition} {d : Connective} {t : Group}

theorem Condition.exists_node_of_ofText (h : Group.ofText (c.toText types) d = .ok t) :
    ∃ n, readNode d (c.write types) = .ok n ∧ t.leaves = n.conditions := by
  rw [Group.ofText, toText, String.toList_ofList] at h
  obtain ⟨n, hn, rfl⟩ := map_eq_ok h
  exact ⟨n, hn, (Group.leaves_eq _).trans (Group.conditions_ofNode d n)⟩

/-- A single constant leaves the condition on its field, whatever the field is, except in a
range. -/
theorem Group.field_kept_of_constant (hf : FieldName c.field) (hs : c.source = .value)
    (hr : c.operator ∉ Operator.ranges) (hv : c.value.items? = none)
    (h : Group.ofText (c.toText types) d = .ok t) : ∀ l ∈ t.leaves, l.field = c.field := by
  obtain ⟨n, hn, he⟩ := Condition.exists_node_of_ofText h
  rw [he]
  refine (Condition.onField_write_iff hf hs hn).mpr (.inr ?_)
  rw [Condition.rivals_eq_nil hr hv]
  exact nofun

/-- If the text of a condition is read, the leaves are all on its field exactly if the field is a
plain name or is spelt like everything that is read in its place. -/
theorem Group.field_kept_iff (hf : FieldName c.field) (hs : c.source = .value)
    (h : Group.ofText (c.toText types) d = .ok t) :
    (∀ l ∈ t.leaves, l.field = c.field) ↔
      PlainName c.field ∨ ∀ r ∈ c.rivals types, r = c.field.toList := by
  obtain ⟨n, hn, he⟩ := Condition.exists_node_of_ofText h
  rw [he]
  exact Condition.onField_write_iff hf hs hn

end

theorem Group.field_kept_twelve : ∃ t,
    Group.ofText ((Condition.between "12" (.string "x") (.int 12)).toText .untyped) .or = .ok t ∧
      ∀ l ∈ t.leaves, l.field = "12" := by
  obtain ⟨t, ht⟩ := exists_of_isOk (x := Group.ofText
    ((Condition.between "12" (.string "x") (.int 12)).toText .untyped) .or) (by decide +kernel)
  exact ⟨t, ht, (Group.field_kept_iff (.inr .twelve) rfl ht).mpr (.inr (by decide +kernel))⟩

/-- The range of a number is read as two comparisons of its bounds with that number. -/
theorem Group.numeric_range_strays : ¬ ∀ (types : FieldTypes) (c : Condition) (t : Group),
    FieldName c.field → c.source = .value → Group.ofText (c.toText types) .and = .ok t →
      ∀ l ∈ t.leaves, l.field = c.field := by
  intro h
  have hread : (Group.ofText ((Condition.between "12" (.int 1) (.int 10)).toText .untyped) .and).map
      (fun t => t.conditions.map Condition.field) = .ok ["1", "10"] := by
    decide +kernel
  obtain ⟨t, ht, hfields⟩ := map_eq_ok hread
  have hone : "1" ∈ t.conditions.map Condition.field := hfields ▸ List.mem_cons_self
  obtain ⟨l, hl, hfield⟩ := List.mem_map.mp hone
  have := hfield.symm.trans (h _ _ t (.inr .twelve) rfl ht l (leaves_eq t ▸ hl))
  exact absurd this (by decide)

end Criteria
