import Criteria.Proofs.Leaves

/-! # Values stay in their conditions

Whatever stands in a constant, its text is read as constants for the field that it was written for.
So the leaves of a tree that is read back are one run for each condition that was written, and
nothing in a value adds a condition, names another field or moves a bracket. -/
namespace Criteria
open Text

/-- Conditions, at least one, that compare one field with constants. -/
structure OwnedBy (field : String) (run : List Condition) : Prop where
  ne_nil : run ≠ []
  own : ∀ d ∈ run, d.field = field ∧ d.source = .value

/-- A text that is read as conditions on one field, whatever connective is handed down. -/
def Confines (field : String) (text : List Char) : Prop :=
  ∀ k, ∃ n, readNode k text = .ok n ∧ OwnedBy field n.conditions

section
variable {field : String} {text : List Char}

theorem OwnedBy.append {run rest : List Condition} (h : OwnedBy field run)
    (h' : OwnedBy field rest) : OwnedBy field (run ++ rest) := by
  refine ⟨List.append_ne_nil_of_left_ne_nil h.ne_nil _, ?_⟩
  intro d hd
  rcases List.mem_append.mp hd with hd | hd
  · exact h.own d hd
  · exact h'.own d hd

theorem OwnedBy.single {c : Condition} (hf : c.field = field) (hs : c.source = .value) :
    OwnedBy field (Node.condition c).conditions := by
  refine ⟨List.cons_ne_nil _ _, ?_⟩
  intro d hd
  rw [Node.mem_conditions_condition.mp hd]
  exact ⟨hf, hs⟩

theorem Confines.negation (ht : Formed text) (h : Confines field text) :
    Confines field (negationText text) := by
  intro k
  obtain ⟨n, hn, ho⟩ := h k
  refine ⟨_, readNode_negation_ok ht.argument hn, ?_⟩
  rwa [Node.conditions_negation]

theorem OwnedBy.joined {m n : Node} (hm : OwnedBy field m.conditions)
    (hn : OwnedBy field n.conditions) (c : Connective) (negated : Bool) :
    OwnedBy field (Node.group c negated [m, n]).conditions := by
  have hc : (Node.group c negated [m, n]).conditions = m.conditions ++ n.conditions := by
    simp [Node.conditions, Node.allConditions]
  rw [hc]
  exact hm.append hn

end

/-! ## Several constants -/

/-- Nothing but equality is tested against null. -/
def Verb.TestsNull (verb : Verb) : Prop := verb = .equal ∨ verb = .notEqual

section
variable {verb : Verb} {field : String}

theorem Condition.ofArguments_constant {text : List Char} {v : Value} (hl : verb ≠ .like)
    (hf : PlainName field) (h : ReadsAs text v) (hn : v ≠ .null) :
    ofArguments verb field.toList text = .ok (constant field verb.operator v) := by
  obtain ⟨o, hcl, hvar, hv⟩ := h.item
  have hro : roles ⟨field.toList, .variable⟩ o = .ok ⟨field.toList, o, false⟩ := rfl
  rw [ofArguments_eq hf.classify hcl hro hv, ofRoles_comparison hn fun he => absurd he hl]
  simp [constant, hvar]

/-- A name and a constant make a condition on the name. -/
theorem Condition.exists_ofArguments {text : List Char} {v : Value} (hl : verb ≠ .like)
    (hf : PlainName field) (h : ReadsAs text v) (hn : verb.TestsNull ∨ v ≠ .null) :
    ∃ d, ofArguments verb field.toList text = .ok d ∧ d.field = field ∧ d.source = .value := by
  by_cases hnull : v = .null
  · subst hnull
    obtain ⟨o, hcl, hvar, hv⟩ := h.item
    have hro : roles ⟨field.toList, .variable⟩ o = .ok ⟨field.toList, o, false⟩ := rfl
    rw [ofArguments_eq hf.classify hcl hro hv]
    obtain ⟨he, hne⟩ := ofRoles_null (r := ⟨field.toList, o, false⟩) hvar
    rcases hn with (rfl | rfl) | hn
    · exact ⟨_, he, String.ofList_toList, rfl⟩
    · exact ⟨_, hne, String.ofList_toList, rfl⟩
    · exact absurd rfl hn
  · exact ⟨_, ofArguments_constant hl hf h hnull, rfl, rfl⟩

/-- A comparison with constants makes one condition for each of them. -/
theorem confines_operands {texts : List (List Char)} (hv : verb.Compares) (hf : PlainName field)
    (hne : texts ≠ []) (ht : ∀ t ∈ texts, Argument t ∧ ∃ d,
      Condition.ofArguments verb field.toList t = .ok d ∧ d.field = field ∧ d.source = .value) :
    Confines field (verb.call (field.toList :: texts)) := by
  intro k
  have hargs : ∀ a ∈ field.toList :: texts, Argument a :=
    List.forall_mem_cons.mpr ⟨FieldName.argument (.inl hf), fun t h => (ht t h).1⟩
  obtain ⟨ds, hds⟩ := exists_forall₂ fun t h => (ht t h).2
  obtain ⟨hl, hz⟩ := List.forall₂_iff_zip.mp hds
  have hread : texts.mapM (Condition.ofArguments verb field.toList) = .ok ds :=
    mapM_eq_ok_iff.mpr ⟨hl, fun p hp => (hz hp).1⟩
  have howned : OwnedBy field ds := by
    refine ⟨?_, ?_⟩
    · intro hnil
      rw [hnil] at hl
      exact hne (List.length_eq_zero_iff.mp hl)
    · intro d hd
      obtain ⟨t, _, hm⟩ := exists_mem_zip hl hd
      exact (hz hm).2
  rw [readNode_operands k hv.1 hv.2.1 hargs]
  rcases texts with _ | ⟨t₁, _ | ⟨t₂, rest⟩⟩
  · exact absurd rfl hne
  · obtain ⟨d, rfl⟩ := List.length_eq_one_iff.mp hl.symm
    rw [ofOperands_pair hv.2.2, (hz (a := t₁) (b := d) (by simp)).1]
    exact ⟨_, rfl, howned⟩
  · rw [ofOperands_fanOut hv.2.2, fanOut_eq, hread]
    refine ⟨_, rfl, ?_⟩
    rwa [Node.conditions, Node.allConditions_map]

end

namespace Value
variable {verb : Verb} {field : String} {type : Option InputType} {v : Value}

/-- None of the constants in a value is written as null. -/
def NeverNull (type : Option InputType) (v : Value) : Prop :=
  ∀ a ∈ v.atoms, a.render type .value ≠ Value.null.literal

instance (type : Option InputType) (v : Value) : Decidable (v.NeverNull type) :=
  inferInstanceAs (Decidable (∀ a ∈ v.atoms, a.render type .value ≠ Value.null.literal))

/-- An array in a comparison is a list of constants. -/
theorem confines_render (hv : verb.Compares) (hl : verb ≠ .like) (hf : PlainName field)
    (hn : verb.TestsNull ∨ v.NeverNull type) :
    Confines field (verb.call [field.toList, v.render type .value]) := by
  have hne := texts_ne_nil type v
  rw [render_eq_texts, ← verb.call_cons _ hne]
  refine confines_operands hv hf hne fun t ht => ?_
  obtain ⟨w, hw⟩ := exists_spells_of_mem_texts ht
  refine ⟨hw.readsAs.argument, Condition.exists_ofArguments hl hf hw.readsAs ?_⟩
  rcases hn with hn | hn
  · exact .inl hn
  · obtain ⟨a, ha, rfl⟩ := List.mem_map.mp ht
    exact .inr fun he => hn a ha (hw.null_iff.mp he)

end Value

/-! ## Conditions -/

namespace Operator

/-- The operators that compare by order. -/
def orderings : List Operator := [.greaterThan, .greaterThanEqual, .lessThan, .lessThanEqual]

theorem testsNull_or_ordering {o : Operator} (h : o ∈ comparisons) :
    (Verb.ofOperator o).TestsNull ∨ o ∈ orderings := by
  unfold Verb.TestsNull
  revert h
  cases o <;> decide

end Operator

namespace Condition
variable {types : FieldTypes} {c : Condition}

/-- A condition of one field and a constant. What is compared by order has no null in it, and a
range has both its bounds. -/
structure Orderly (types : FieldTypes) (c : Condition) : Prop where
  field : PlainName c.field
  source : c.source = .value
  ordering : c.operator ∈ Operator.orderings → c.value.NeverNull (types c.field)
  range : c.operator ∈ Operator.ranges → ∃ low high, c.bounds = (some low, some high) ∧
    low.NeverNull (types c.field) ∧ high.NeverNull (types c.field)

namespace Orderly

theorem legible (h : c.Orderly types) : c.Legible := ⟨.inl h.field, by simp [h.source]⟩

theorem valueText_eq (h : c.Orderly types) :
    c.valueText types = c.value.render (types c.field) .value := by
  rw [valueText, h.source]

theorem confines_comparison (h : c.Orderly types) (ho : c.operator ∈ Operator.comparisons) :
    Confines c.field (c.write types) := by
  rw [write_comparison ho c rfl, comparison_plain h.field, h.valueText_eq]
  refine Value.confines_render (Verb.compares_ofOperator _) (Verb.ofOperator_ne_like _) h.field ?_
  rcases Operator.testsNull_or_ordering ho with hv | hv
  · exact .inl hv
  · exact .inr (h.ordering hv)

/-- A pattern is one quoted string. -/
theorem confines_likeness (h : c.Orderly types) (operator : Operator) :
    Confines c.field (c.likeness operator) := by
  intro k
  rw [likeness_value h.source]
  exact ⟨_, readNode_like k (.inl h.field) _, .single rfl rfl⟩

theorem confines_membershipText (h : c.Orderly types) :
    Confines c.field (c.membershipText types) := by
  intro k
  obtain ⟨values, hread, _⟩ := read_membership k types h.field h.source
  exact ⟨_, hread, .single rfl rfl⟩

theorem confines_range (h : c.Orderly types) (ho : c.operator ∈ Operator.ranges) {low high : Verb}
    (hl : low.Compares ∧ low ≠ .like) (hh : high.Compares ∧ high ≠ .like) :
    Confines c.field (c.range types low high) := by
  intro k
  obtain ⟨a, b, hb, ha, hb'⟩ := h.range ho
  have text : ∀ v : Value, c.boundText types (some v) = v.render (types c.field) .value := by
    intro v
    rw [boundText, h.source]
  obtain ⟨m, hm, hmo⟩ := Value.confines_render hl.1 hl.2 h.field (.inr ha) .and
  obtain ⟨n, hn, hno⟩ := Value.confines_render hh.1 hh.2 h.field (.inr hb') .and
  refine ⟨_, (h.legible.readNode_range_iff hl.1 hh.1).mpr ⟨m, n, ?_, ?_, rfl⟩,
    hmo.joined hno .and false⟩
  · rwa [hb, text]
  · rwa [hb, text]

theorem confines_null (h : c.Orderly types) :
    Confines c.field (c.comparison .equal Value.null.literal) ∧
      Confines c.field (c.comparison .notEqual Value.null.literal) := by
  have hread := fun k => readNode_comparison_null (c := c) k (.inl h.field) readsAs_null
  exact ⟨fun k => ⟨_, (hread k).1, .single rfl rfl⟩, fun k => ⟨_, (hread k).2, .single rfl rfl⟩⟩

theorem confines_test (h : c.Orderly types) {text : List Char} (ht : c.Test types text) :
    Confines c.field text := by
  induction ht with
  | pattern operator => exact h.confines_likeness operator
  | null => exact h.confines_null.1
  | notNull => exact h.confines_null.2
  | membership => exact h.confines_membershipText
  | negation ht ih => exact ih.negation (ht.formed h.legible)

/-- The text of a condition is read as conditions on its field. -/
theorem confines_write (h : c.Orderly types) : Confines c.field (c.write types) := by
  by_cases ho : c.operator ∈ Operator.comparisons
  · exact h.confines_comparison ho
  by_cases hr : c.operator ∈ Operator.ranges
  · obtain ⟨low, high, hl, hh, hw⟩ := write_range hr
    rw [hw]
    exact h.confines_range hr hl hh
  · exact h.confines_test (write_test ho hr)

end Orderly
end Condition

/-! ## Trees -/

/-- A tree of such conditions is read back, and its leaves are one run for each condition that was
written, on the field of that condition and with constants alone. -/
theorem Group.exists_runs_owned {types : FieldTypes} {t : Group} (ht : t.toNode.Populated)
    (h : ∀ c ∈ t.leaves, c.Orderly types) (d : Connective) :
    ∃ t', Group.ofText (t.toText types) d = .ok t' ∧ (∀ l ∈ t'.leaves, l.source = .value) ∧
      Runs (fun c run => run ≠ [] ∧ ∀ l ∈ run, l.field = c.field) t.leaves t'.leaves := by
  obtain ⟨t', ht', hr⟩ := exists_runs types (R := fun c run => OwnedBy c.field run) ht
    (fun c hc => (h c hc).legible) (fun c hc k => (h c hc).confines_write k) d
  refine ⟨t', ht', ?_, ?_⟩
  · exact hr.forall_mem fun c run howned l hl => (howned.own l hl).2
  · exact hr.mono fun c run howned => ⟨howned.ne_nil, fun l hl => (howned.own l hl).1⟩

theorem Group.exists_runs_owned_hostile : ∃ t : Group,
    t = ⟨.xor, true,
      [.group .or true [.condition (.constant "name" .greaterThan
        (.array [.string "1),eq(x,'", .array [.bool true, .float (.ofIndex true 5)]]))],
      .condition (.constant "name" .doesNotContain (.string "%\\'),eq(x,\"")),
      .condition (.between "name" (.string "null") (.array [.int 5, .string ""]))]⟩ ∧
    ∃ t', Group.ofText (t.toText fun _ => some .number) .and = .ok t' ∧
      (∀ l ∈ t'.leaves, l.source = .value) ∧
      Runs (fun c run => run ≠ [] ∧ ∀ l ∈ run, l.field = c.field) t.leaves t'.leaves := by
  refine ⟨_, rfl, Group.exists_runs_owned ?_ ?_ .and⟩
  · refine .group (List.cons_ne_nil _ _) fun m hm => ?_
    rcases List.mem_cons.mp hm with rfl | hm
    · refine .group (List.cons_ne_nil _ _) fun m hm => ?_
      cases List.mem_singleton.mp hm
      exact .condition _
    rcases List.mem_cons.mp hm with rfl | hm
    · exact .condition _
    · cases List.mem_singleton.mp hm
      exact .condition _
  · intro c hc
    rw [leaves_eq] at hc
    rcases List.mem_cons.mp hc with rfl | hc
    · exact ⟨PlainName.name, rfl, fun _ => by decide +kernel, fun ho => absurd ho (by decide)⟩
    rcases List.mem_cons.mp hc with rfl | hc
    · exact ⟨PlainName.name, rfl, fun ho => absurd ho (by decide), fun ho => absurd ho (by decide)⟩
    · cases List.mem_singleton.mp hc
      exact ⟨PlainName.name, rfl, fun ho => absurd ho (by decide),
        fun _ => ⟨_, _, rfl, by decide +kernel, by decide +kernel⟩⟩

/-- An array whose text is not null may have a null among its items, and order is not tested
against it. -/
theorem Group.null_item_unread : ¬ ∀ (types : FieldTypes) (t : Group), t.toNode.Populated →
    (∀ c ∈ t.leaves, PlainName c.field ∧ c.source = .value ∧
      (c.operator ∈ Operator.orderings → c.valueText types ≠ Value.null.literal) ∧
      (c.operator ∈ Operator.ranges → c.boundText types c.bounds.1 ≠ Value.null.literal ∧
        c.boundText types c.bounds.2 ≠ Value.null.literal)) →
    ∃ t', Group.ofText (t.toText types) .and = .ok t' := by
  intro h
  have hunread : (Group.ofText (Group.toText .untyped ⟨.and, false,
      [.condition (.constant "name" .greaterThan (.array [.int 1, .null]))]⟩) .and).isOk =
      false := by
    decide +kernel
  obtain ⟨t', ht'⟩ := h .untyped
    ⟨.and, false, [.condition (.constant "name" .greaterThan (.array [.int 1, .null]))]⟩
    (.group (List.cons_ne_nil _ _) fun m hm => by
      cases List.mem_singleton.mp hm
      exact .condition _)
    (fun c hc => by
      rw [leaves_eq] at hc
      cases List.mem_singleton.mp hc
      exact ⟨PlainName.name, rfl, fun _ => by decide +kernel, fun ho => absurd ho (by decide)⟩)
  rw [ht'] at hunread
  cases hunread

end Criteria
