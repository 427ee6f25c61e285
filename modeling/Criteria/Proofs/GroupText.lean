import Criteria.Proofs.Condition

/-! # Written trees

The texts of trees are calls on arguments, connectives on such texts, and their negations. Each of
them stands alone, whatever the values in it. -/
namespace Criteria
open Text

/-! ## Trees -/

namespace Node

@[elab_as_elim] theorem induct {P : Node → Prop} (condition : ∀ c, P (.condition c))
    (group : ∀ connective negated members, (∀ m ∈ members, P m) →
      P (.group connective negated members)) (n : Node) : P n := by
  refine @Node.rec P (fun ms => ∀ m ∈ ms, P m) condition group ?_ ?_ n
  · exact fun m hm => absurd hm List.not_mem_nil
  · intro m ms hm hms x hx
    rcases List.mem_cons.mp hx with rfl | hx
    · exact hm
    · exact hms x hx

theorem writeAll_eq (types : FieldTypes) (ns : List Node) :
    writeAll types ns = ns.map (write types) := by
  induction ns with
  | nil => rfl
  | cons n ns ih => rw [writeAll, ih, List.map_cons]

theorem mem_allConditions {c : Condition} {ns : List Node} :
    c ∈ allConditions ns ↔ ∃ n ∈ ns, c ∈ n.conditions := by
  induction ns with
  | nil => simp [allConditions]
  | cons n ns ih => simp [allConditions, ih]

theorem mem_conditions_condition {c d : Condition} :
    d ∈ (condition c).conditions ↔ d = c := List.mem_singleton

theorem mem_conditions_group {c : Condition} {k : Connective} {negated : Bool}
    {members : List Node} :
    c ∈ (group k negated members).conditions ↔ ∃ m ∈ members, c ∈ m.conditions := by
  rw [conditions, mem_allConditions]

/-- Every condition of the node has the property. -/
def All (P : Condition → Prop) (n : Node) : Prop := ∀ c ∈ n.conditions, P c

theorem all_condition {P : Condition → Prop} {c : Condition} (h : P c) : All P (condition c) := by
  intro d hd
  rw [mem_conditions_condition.mp hd]
  exact h

theorem all_group {P : Condition → Prop} {k : Connective} {negated : Bool} {members : List Node} :
    All P (group k negated members) ↔ ∀ m ∈ members, All P m := by
  constructor
  · intro h m hm c hc
    exact h c (mem_conditions_group.mpr ⟨m, hm, hc⟩)
  · intro h c hc
    obtain ⟨m, hm, hcm⟩ := mem_conditions_group.mp hc
    exact h m hm c hcm

end Node

theorem groupText_one (c : Connective) (negated : Bool) (text : List Char) :
    groupText c negated [text] = if negated then negationText text else text := rfl

theorem groupText_call (c : Connective) (negated : Bool) {texts : List (List Char)}
    (h : texts.length ≠ 1) : groupText c negated texts =
      if negated then negationText (c.call texts) else c.call texts := by
  rcases texts with _ | ⟨a, _ | ⟨b, rest⟩⟩
  · rfl
  · exact absurd rfl h
  · rfl

/-! ## Reading groups -/

section
variable {k c : Connective} {negated : Bool} {texts : List (List Char)}

theorem readNode_groupText_one (c : Connective) (negated : Bool) {text : List Char} {n : Node}
    (ht : Argument text) (h : readNode k text = .ok n) : readNode k (groupText c negated [text]) =
      .ok (if negated then n.negation k else n) := by
  rw [groupText_one]
  cases negated with
  | false => exact h
  | true => exact readNode_negation_ok ht h

theorem readNode_groupText {ns : List Node} (h2 : 2 ≤ texts.length)
    (ht : ∀ t ∈ texts, Argument t) (h : readAll c texts = .ok ns) :
    readNode k (groupText c negated texts) = .ok (.group c negated ns) := by
  have hne : texts ≠ [] := by
    rintro rfl
    simp at h2
  have hread : ∀ k, readNode k (c.call texts) = .ok (.group c false ns) := by
    intro k
    rw [readNode_connective k hne ht, h]
    rfl
  rw [groupText_call c negated (by omega)]
  cases negated with
  | false => exact hread k
  | true => exact readNode_negation_ok (c.argument_call ht) (hread k)

/-- Members that are read one by one are read together. -/
theorem readAll_write {R : Node → Node → Prop} (types : FieldTypes) {ms : List Node}
    (h : ∀ m ∈ ms, ∃ n, readNode c (m.write types) = .ok n ∧ R m n) :
    ∃ ns, readAll c (Node.writeAll types ms) = .ok ns ∧ List.Forall₂ R ms ns := by
  induction ms with
  | nil => exact ⟨[], rfl, .nil⟩
  | cons m ms ih =>
    obtain ⟨n, hn, hr⟩ := h m (by simp)
    obtain ⟨ns, hns, hrs⟩ := ih fun x hx => h x (by simp [hx])
    exact ⟨n :: ns, mapM_cons_eq_ok.mpr ⟨n, ns, hn, hns, rfl⟩, .cons hr hrs⟩

theorem Group.write_ofNode (types : FieldTypes) (n : Node) :
    (Group.ofNode k n).write types = n.write types := by cases n <;> rfl

theorem Group.ofText_of_readNode {types : FieldTypes} {t : Group} {n : Node}
    (h : readNode k (t.write types) = .ok n) :
    Group.ofText (t.toText types) k = .ok (.ofNode k n) := by
  rw [ofText, toText, String.toList_ofList, read, h]
  rfl

end

/-! ## Texts of trees -/

/-- The texts that trees are written as. A connective is not written for a single member. -/
inductive Formed : List Char → Prop
  | operands {verb : Verb} {args : List (List Char)} : verb.connective? = none →
      verb ≠ .complement → (∀ a ∈ args, Argument a) → Formed (verb.call args)
  | joined {c : Connective} {texts : List (List Char)} : texts.length ≠ 1 →
      (∀ t ∈ texts, Formed t) → Formed (c.call texts)
  | negated {text : List Char} : Formed text → Formed (negationText text)

theorem Formed.argument {text : List Char} (h : Formed text) : Argument text := by
  induction h with
  | @operands verb args _ _ h => exact verb.argument_call h
  | @joined c texts _ _ ih => exact c.argument_call ih
  | negated _ ih => exact argument_negationText ih

/-- The names in a condition can be told from its other parts. -/
structure Condition.Legible (c : Condition) : Prop where
  field : FieldName c.field
  value : c.source = .field → ∃ name, c.value = .string name ∧ PlainName name

/-- Several arguments between commas. -/
def Arguments (text : List Char) : Prop :=
  ∃ args : List (List Char), args ≠ [] ∧ (∀ a ∈ args, Argument a) ∧ joinWith ',' args = text

theorem Argument.arguments {text : List Char} (h : Argument text) : Arguments text :=
  ⟨[text], by simp, by simpa using h, rfl⟩

theorem formed_pair {verb : Verb} {left right : List Char} (hj : verb.connective? = none)
    (hc : verb ≠ .complement) (hl : Arguments left) (hr : Arguments right) :
    Formed (verb.call [left, right]) := by
  obtain ⟨ls, hls, hla, rfl⟩ := hl
  obtain ⟨rs, hrs, hra, rfl⟩ := hr
  rw [← verb.call_append hls hrs]
  refine .operands hj hc fun a ha => ?_
  rcases List.mem_append.mp ha with ha | ha
  · exact hla a ha
  · exact hra a ha

/-- A constant is written as arguments, an array as several of them. -/
theorem Value.arguments_render (type : Option InputType) (v : Value) :
    Arguments (v.render type .value) := by
  refine ⟨v.texts type, texts_ne_nil type v, ?_, (render_eq_texts type v).symm⟩
  intro text ht
  obtain ⟨w, hw⟩ := exists_spells_of_mem_texts ht
  exact hw.readsAs.argument

namespace Condition.Legible
variable {c : Condition} {types : FieldTypes}

theorem arguments_valueText (h : c.Legible) : Arguments (c.valueText types) := by
  unfold valueText
  cases hs : c.source with
  | value => exact Value.arguments_render _ _
  | field =>
    obtain ⟨name, hv, hn⟩ := h.value hs
    rw [hv]
    exact (FieldName.argument (.inl hn)).arguments

theorem arguments_boundText (h : c.Legible) {bound : Option Value}
    (hb : bound = c.bounds.1 ∨ bound = c.bounds.2) : Arguments (c.boundText types bound) := by
  unfold boundText
  cases bound with
  | none => exact readsAs_null.argument.arguments
  | some v =>
    cases hs : c.source with
    | value => exact Value.arguments_render _ _
    | field =>
      obtain ⟨name, hv, hn⟩ := h.value hs
      have hbounds : c.bounds = (some (.string name), none) := by rw [bounds, hv]
      rw [hbounds] at hb
      rcases hb with hb | hb
      · cases hb
        exact (FieldName.argument (.inl hn)).arguments
      · cases hb

theorem formed_comparison (h : c.Legible) (operator : Operator) {text : List Char}
    (ht : Arguments text) : Formed (c.comparison operator text) := by
  have hf := h.field.argument.arguments
  unfold comparison
  simp only
  split
  · have hv := Verb.compares_ofOperator operator
    exact formed_pair hv.1 hv.2.1 hf ht
  · have hv := Verb.compares_ofOperator operator.mirrored
    exact formed_pair hv.1 hv.2.1 ht hf

theorem formed_likeness (h : c.Legible) (operator : Operator) :
    Formed (c.likeness operator) := by
  refine formed_pair rfl nofun h.field.argument.arguments ?_
  cases hs : c.source with
  | value => exact (readsAs_quote _).argument.arguments
  | field =>
    obtain ⟨name, hv, hn⟩ := h.value hs
    simp only [hv]
    exact (FieldName.argument (.inl hn)).arguments

theorem formed_membershipText (h : c.Legible) : Formed (c.membershipText types) :=
  formed_pair rfl nofun h.field.argument.arguments h.arguments_valueText

/-- The two comparisons of a range. -/
theorem formed_bounds (h : c.Legible) {low high : Verb} (hl : low.Compares) (hh : high.Compares) :
    ∀ text ∈ [low.call [c.field.toList, c.boundText types c.bounds.1],
      high.call [c.field.toList, c.boundText types c.bounds.2]], Formed text := by
  have hf := h.field.argument.arguments
  intro text ht
  rcases List.mem_cons.mp ht with rfl | ht
  · exact formed_pair hl.1 hl.2.1 hf (h.arguments_boundText (.inl rfl))
  · cases List.mem_singleton.mp ht
    exact formed_pair hh.1 hh.2.1 hf (h.arguments_boundText (.inr rfl))

theorem formed_range (h : c.Legible) {low high : Verb} (hl : low.Compares) (hh : high.Compares) :
    Formed (c.range types low high) :=
  .joined (by simp) (h.formed_bounds hl hh)

/-- A range is read as the conjunction of what its two comparisons are read as. -/
theorem readNode_range_iff (h : c.Legible) {low high : Verb} (hl : low.Compares)
    (hh : high.Compares) {k : Connective} {n : Node} :
    readNode k (c.range types low high) = .ok n ↔ ∃ m₁ m₂,
      readNode .and (low.call [c.field.toList, c.boundText types c.bounds.1]) = .ok m₁ ∧
      readNode .and (high.call [c.field.toList, c.boundText types c.bounds.2]) = .ok m₂ ∧
      n = .group .and false [m₁, m₂] := by
  rw [range, readNode_connective k (List.cons_ne_nil _ _)
    fun a ha => (h.formed_bounds hl hh a ha).argument]
  constructor
  · intro hn
    obtain ⟨ns, hns, rfl⟩ := map_eq_ok hn
    obtain ⟨m₁, ms, hm₁, hms, rfl⟩ := mapM_cons_eq_ok.mp hns
    obtain ⟨m₂, ms, hm₂, hnil, rfl⟩ := mapM_cons_eq_ok.mp hms
    cases hnil
    exact ⟨m₁, m₂, hm₁, hm₂, rfl⟩
  · rintro ⟨m₁, m₂, hm₁, hm₂, rfl⟩
    have hall : readAll .and [low.call [c.field.toList, c.boundText types c.bounds.1],
        high.call [c.field.toList, c.boundText types c.bounds.2]] = .ok [m₁, m₂] :=
      mapM_cons_eq_ok.mpr ⟨m₁, [m₂], hm₁, mapM_cons_eq_ok.mpr ⟨m₂, [], hm₂, rfl, rfl⟩, rfl⟩
    rw [hall]
    rfl

end Condition.Legible

theorem Condition.Test.formed {types : FieldTypes} {c : Condition} {text : List Char}
    (ht : c.Test types text) (h : c.Legible) : Formed text := by
  have hnull := readsAs_null.argument.arguments
  induction ht with
  | pattern operator => exact h.formed_likeness operator
  | null => exact h.formed_comparison _ hnull
  | notNull => exact h.formed_comparison _ hnull
  | membership => exact h.formed_membershipText
  | negation _ ih => exact .negated ih

/-- A legible condition is written in form, whatever its operator and its value. -/
theorem Condition.Legible.formed_write {types : FieldTypes} {c : Condition} (h : c.Legible) :
    Formed (c.write types) := by
  by_cases ho : c.operator ∈ Operator.comparisons
  · rw [write_comparison ho c rfl]
    exact h.formed_comparison _ h.arguments_valueText
  by_cases hr : c.operator ∈ Operator.ranges
  · obtain ⟨low, high, hl, hh, hw⟩ := write_range hr
    rw [hw]
    exact h.formed_range hl.1 hh.1
  · exact (write_test ho hr).formed h

theorem formed_groupText {c : Connective} {negated : Bool} {texts : List (List Char)}
    (h : ∀ t ∈ texts, Formed t) : Formed (groupText c negated texts) := by
  have body : ∀ {text : List Char}, Formed text →
      Formed (if negated then negationText text else text) := by
    intro text ht
    split
    · exact .negated ht
    · exact ht
  by_cases h1 : texts.length = 1
  · obtain ⟨text, rfl⟩ := List.length_eq_one_iff.mp h1
    exact body (h text (by simp))
  · rw [groupText_call c negated h1]
    exact body (.joined h1 h)

theorem Node.formed_write {types : FieldTypes} {n : Node} (h : n.All Condition.Legible) :
    Formed (n.write types) := by
  induction n using Node.induct with
  | condition c => exact (h c (mem_conditions_condition.mpr rfl)).formed_write
  | group k negated members ih =>
    rw [write, writeAll_eq]
    refine formed_groupText fun t ht => ?_
    obtain ⟨m, hm, rfl⟩ := List.mem_map.mp ht
    exact ih m hm (all_group.mp h m hm)

theorem Condition.Regular.legible {constant : Value → Prop} {c : Condition}
    (h : c.Regular constant) : c.Legible := by
  cases h with
  | comparison hf => exact ⟨hf, nofun⟩
  | against hf hg => exact ⟨.inl hf, fun _ => ⟨_, rfl, hg⟩⟩
  | isNull hf => exact ⟨hf, nofun⟩
  | isNotNull hf => exact ⟨hf, nofun⟩
  | isIn hf => exact ⟨.inl hf, nofun⟩
  | like hf => exact ⟨hf, nofun⟩

/-! ## Reading written groups -/

namespace Node
variable {types : FieldTypes} {members : List Node}

/-- The members of a group are read one by one, below its connective. -/
theorem read_group {R : Node → Node → Prop} (k c : Connective) (negated : Bool)
    (h2 : 2 ≤ members.length) (hl : ∀ m ∈ members, m.All Condition.Legible)
    (h : ∀ m ∈ members, ∃ n, readNode c (m.write types) = .ok n ∧ R m n) :
    ∃ ns, readNode k ((group c negated members).write types) = .ok (.group c negated ns) ∧
      List.Forall₂ R members ns := by
  obtain ⟨ns, hns, hr⟩ := readAll_write types h
  refine ⟨ns, ?_, hr⟩
  rw [write]
  refine readNode_groupText ?_ ?_ hns
  · rwa [writeAll_eq, List.length_map]
  · intro t ht
    rw [writeAll_eq] at ht
    obtain ⟨m, hm, rfl⟩ := List.mem_map.mp ht
    exact (formed_write (hl m hm)).argument

/-- A member alone is read in place of its group, below the connective that is handed down. -/
theorem read_one {k : Connective} (c : Connective) (negated : Bool) {m n : Node}
    (hl : m.All Condition.Legible) (h : readNode k (m.write types) = .ok n) :
    readNode k ((group c negated [m]).write types) =
      .ok (if negated then n.negation k else n) :=
  readNode_groupText_one c negated (formed_write hl).argument h

end Node
end Criteria
