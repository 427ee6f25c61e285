import Criteria.Proofs.Leaves
import Criteria.Proofs.Regular

/-! # Trees that are read

Whatever the text, the groups of the tree that is read from it have members, and its conditions are
regular. What that means for a consumer of the tree is listed condition by condition. -/
namespace Criteria
open Text

/-! ## Reading gives regular conditions -/

/-- Every group has a member, and every condition is one that operands make. -/
structure Node.Sound (n : Node) : Prop where
  populated : n.Populated
  regular : n.All (Condition.Regular Value.IsScalar)

namespace Node.Sound
variable {k : Connective} {members : List Node}

theorem condition {c : Condition} (h : c.Regular Value.IsScalar) : Sound (.condition c) :=
  ⟨.condition c, all_condition h⟩

theorem group (negated : Bool) (hne : members ≠ []) (h : ∀ m ∈ members, m.Sound) :
    Sound (.group k negated members) :=
  ⟨.group hne fun m hm => (h m hm).populated, all_group.mpr fun m hm => (h m hm).regular⟩

theorem negation {n : Node} (h : n.Sound) (k : Connective) : (n.negation k).Sound := by
  refine ⟨?_, fun c hc => h.regular c (by rwa [conditions_negation] at hc)⟩
  cases n with
  | condition c =>
    refine .group (List.cons_ne_nil _ _) fun m hm => ?_
    rw [List.mem_singleton.mp hm]
    exact .condition c
  | group c negated members =>
    cases h.populated with
    | group hne hm => exact .group hne hm

end Node.Sound

theorem ne_nil_of_length_eq {α β : Type} {xs : List α} {ys : List β} (h : xs.length = ys.length)
    (hne : xs ≠ []) : ys ≠ [] := by
  rintro rfl
  exact hne (List.length_eq_zero_iff.mp h)

theorem Denotes.sound {k : Connective} {term : List Char} {n : Node} (h : Denotes k term n) :
    n.Sound := by
  induction h with
  | join _ _ hne hl _ ih =>
    refine .group false (ne_nil_of_length_eq hl hne) fun m hm => ?_
    obtain ⟨a, _, hz⟩ := exists_mem_zip hl hm
    exact ih _ hz
  | negate _ _ ih => exact ih.negation _
  | negateAll _ h2 hl _ ih =>
    refine .group true (ne_nil_of_length_eq hl ?_) fun m hm => ?_
    · rintro rfl
      simp at h2
    · obtain ⟨a, _, hz⟩ := exists_mem_zip hl hm
      exact ih _ hz
  | @membership k c term field items values f hc hne hf hv hl hi =>
    have hread := membership_eq_ok_iff.mpr ⟨f, values, hf, hv, hl, hi, rfl⟩
    exact .condition (Condition.regular_of_membership (hc.segment field (by simp)) hne hread)
  | @compare k c term left right verb d hc _ hd =>
    exact .condition (Condition.regular_of_ofArguments (hc.segment left (by simp))
      (hc.segment right (by simp)) hd)
  | @fanOut k c term left rights verb ds hc _ h2 hl he =>
    have hne : rights ≠ [] := by
      rintro rfl
      simp at h2
    have hds : ds.map Node.condition ≠ [] := by simpa using ne_nil_of_length_eq hl hne
    refine .group false hds fun m hm => ?_
    obtain ⟨d, hd, rfl⟩ := List.mem_map.mp hm
    obtain ⟨r, hr, hz⟩ := exists_mem_zip hl hd
    exact .condition (Condition.regular_of_ofArguments (hc.segment left (by simp))
      (hc.segment r (List.mem_cons_of_mem _ hr)) (he _ hz))

/-- Whatever text is read, the node is sound: its segments denote sound nodes. -/
theorem sound_of_readNode {k : Connective} {text : List Char} {n : Node}
    (h : readNode k text = .ok n) : n.Sound := by
  rw [readNode_eq] at h
  cases hs : splitArguments text with
  | error e =>
    rw [hs] at h
    cases h
  | ok segments =>
    have hseg := (splitArguments_eq_ok_iff.mp hs).segment
    rw [hs] at h
    rcases segments with _ | ⟨s, _ | ⟨s', rest⟩⟩
    · cases h
    · exact (denotes_of_readTerm (hseg s (by simp)) h).sound
    · obtain ⟨ns, hns, rfl⟩ := map_eq_ok h
      obtain ⟨hl, he⟩ := (readAll_segments_iff hseg).mp hns
      refine .group false (ne_nil_of_length_eq hl (List.cons_ne_nil _ _)) fun m hm => ?_
      obtain ⟨a, _, hz⟩ := exists_mem_zip hl hm
      exact (he _ hz).sound

theorem Group.sound_of_ofText {text : String} {d : Connective} {t : Group}
    (h : Group.ofText text d = .ok t) : t.toNode.Sound := by
  obtain ⟨n, hn, rfl⟩ := map_eq_ok h
  have hs := sound_of_readNode hn
  cases n with
  | condition c =>
    refine .group false (List.cons_ne_nil _ _) fun m hm => ?_
    rw [List.mem_singleton.mp hm]
    exact hs
  | group c negated members => exact hs

/-! ## What regular conditions are -/

namespace Operator

/-- The operators of patterns. -/
def patterns : List Operator := [.contains, .beginsWith, .endsWith]

/-- The operators that are not read: negations and ranges are spelt out in groups. -/
def derived : List Operator :=
  [.notIn, .between, .notBetween, .doesNotContain, .doesNotBeginWith, .doesNotEndWith]

theorem of_mem_comparisons {o : Operator} (h : o ∈ comparisons) :
    o ∉ derived ∧ o ∉ patterns ∧ o ≠ .isIn ∧ ¬ (o = .isNull ∨ o = .isNotNull) := by
  revert h
  cases o <;> decide

theorem of_null {o : Operator} (h : o = .isNull ∨ o = .isNotNull) :
    o ∉ derived ∧ o ∉ patterns ∧ o ≠ .isIn := by
  revert h
  cases o <;> decide

theorem of_mem_patterns {o : Operator} (h : o ∈ patterns) :
    o ∉ derived ∧ o ≠ .isIn ∧ ¬ (o = .isNull ∨ o = .isNotNull) := by
  revert h
  cases o <;> decide

end Operator

/-- A name that stands as it is: it is not cut at its commas, opens no quote, and reads as a
variable or a number. -/
structure StandsAlone (name : String) : Prop where
  ne_empty : name ≠ ""
  trimmed : Trimmed name.toList
  single : argumentSplitter.split false name = .ok [name]
  kind : Operand.kindOf name.toList = .variable ∨ Operand.kindOf name.toList = .number
  unquoted : ∀ c ∈ name.toList.head?, Operand.isQuote c = false

theorem FieldName.standsAlone {name : String} (h : FieldName name) : StandsAlone name := by
  have nonempty : name.toList ≠ [] → name ≠ "" := by
    intro hne he
    subst he
    exact hne rfl
  cases h with
  | inl h =>
    exact ⟨nonempty h.ne_nil_and_balanced.1, h.trimmed, h.single, .inl h.kind, h.unquoted⟩
  | inr h =>
    obtain ⟨v, hv⟩ := h.number?
    obtain ⟨hne, hc⟩ := Numeral.number?_chars hv
    have hsplit := pieces_eq_self_iff.mpr ⟨hne, (segment_of_number? hv).balanced⟩
    refine ⟨nonempty hne, h.trimmed, ?_, .inr h.kind, ?_⟩
    · simp [Splitter.split, hsplit, Except.map]
    · intro c hm
      exact (Numeral.plain_of_isNumeralChar (hc c (List.mem_of_head? hm))).1

namespace Condition

/-- What may be relied on in a condition that was read. -/
structure WellFormed (c : Condition) : Prop where
  field : StandsAlone c.field
  operator : c.operator ∉ Operator.derived
  null : c.value = .null ↔ c.operator = .isNull ∨ c.operator = .isNotNull
  array : (∃ items, c.value = .array items) ↔ c.operator = .isIn
  /-- The items of a list are constants, and its field is a variable. -/
  items : ∀ items, c.value = .array items → items ≠ [] ∧ (∀ v ∈ items, v.IsScalar) ∧
    Operand.kindOf c.field.toList = .variable
  /-- Nothing of a core would be taken for a wildcard. -/
  pattern : c.operator ∈ Operator.patterns → c.source = .value ∧
    ∃ core : String, c.value = .string core ∧
      (c.operator = .beginsWith → core ≠ "" ∧ core.toList.head? ≠ some '%') ∧
      (c.operator = .endsWith → core.toList.getLast? ≠ some '%')
  /-- Only a comparison names another field. -/
  reference : c.source = .field → c.operator ∈ Operator.comparisons ∧
    Operand.kindOf c.field.toList = .variable ∧
    ∃ name : String, c.value = .string name ∧ Operand.kindOf name.toList = .variable
  /-- A value is no truth value, and a float is finite. -/
  scalar : c.value.IsScalar ∨ ∃ items, c.value = .array items

theorem not_array_of_isScalar {v : Value} (h : v.IsScalar) (items : List Value) :
    v ≠ .array items := by
  intro he
  rw [he] at h
  exact h

theorem wellFormed_comparison {field : String} {operator : Operator} {v : Value}
    (hf : FieldName field) (ho : operator ∈ Operator.comparisons) (hv : v.IsScalar)
    (hn : v ≠ .null) : (constant field operator v).WellFormed := by
  obtain ⟨hd, hp, hi, hnull⟩ := Operator.of_mem_comparisons ho
  refine ⟨hf.standsAlone, hd, iff_of_false hn hnull, iff_of_false ?_ hi, ?_, fun h => absurd h hp,
    nofun, .inl hv⟩
  · intro ⟨items, he⟩
    exact not_array_of_isScalar hv items he
  · intro items he
    exact absurd he (not_array_of_isScalar hv items)

theorem wellFormed_against {field other : String} {operator : Operator} (hf : PlainName field)
    (hg : PlainName other) (ho : operator ∈ Operator.comparisons) :
    (againstField field operator other).WellFormed := by
  obtain ⟨hd, hp, hi, hnull⟩ := Operator.of_mem_comparisons ho
  exact ⟨FieldName.standsAlone (.inl hf), hd, iff_of_false nofun hnull, iff_of_false nofun hi,
    nofun, fun h => absurd h hp, fun _ => ⟨ho, hf.kind, other, rfl, hg.kind⟩, .inl trivial⟩

theorem wellFormed_null {field : String} {operator : Operator} (hf : FieldName field)
    (ho : operator = .isNull ∨ operator = .isNotNull) :
    (constant field operator .null).WellFormed := by
  obtain ⟨hd, hp, hi⟩ := Operator.of_null ho
  exact ⟨hf.standsAlone, hd, iff_of_true rfl ho, iff_of_false nofun hi, nofun,
    fun h => absurd h hp, nofun, .inl trivial⟩

theorem wellFormed_isIn {field : String} {values : List Value} (hf : PlainName field)
    (hne : values ≠ []) (hv : ∀ v ∈ values, v.IsScalar) : (isIn field values).WellFormed := by
  obtain ⟨hd, hp⟩ : Operator.isIn ∉ Operator.derived ∧ Operator.isIn ∉ Operator.patterns := by
    decide
  refine ⟨FieldName.standsAlone (.inl hf), hd, iff_of_false nofun ?_,
    iff_of_true ⟨values, rfl⟩ rfl, ?_, fun h => absurd h hp, nofun, .inr ⟨values, rfl⟩⟩
  · intro h
    cases h <;> contradiction
  · intro items he
    cases he
    exact ⟨hne, hv, hf.kind⟩

theorem wellFormed_like {field core : String} {operator : Operator} (hf : FieldName field)
    (hk : Pattern.Keeps operator core.toList) :
    (constant field operator (.string core)).WellFormed := by
  have ho : operator ∈ Operator.patterns := by
    cases operator with
    | contains => decide
    | beginsWith => decide
    | endsWith => decide
    | _ => exact hk.elim
  obtain ⟨hd, hi, hnull⟩ := Operator.of_mem_patterns ho
  refine ⟨hf.standsAlone, hd, iff_of_false nofun hnull, iff_of_false nofun hi, nofun,
    fun _ => ⟨rfl, core, rfl, ?_, ?_⟩, nofun, .inl trivial⟩
  · intro he
    subst he
    refine ⟨?_, hk.2⟩
    intro hc
    subst hc
    exact hk.1 rfl
  · intro he
    subst he
    exact hk

theorem Regular.wellFormed {c : Condition} (h : c.Regular Value.IsScalar) : c.WellFormed := by
  cases h with
  | comparison hf ho hv hn => exact wellFormed_comparison hf ho hv hn
  | against hf hg ho => exact wellFormed_against hf hg ho
  | isNull hf => exact wellFormed_null hf (.inl rfl)
  | isNotNull hf => exact wellFormed_null hf (.inr rfl)
  | isIn hf hne hv => exact wellFormed_isIn hf hne hv
  | like hf hk => exact wellFormed_like hf hk

end Condition

/-- Whatever text is read, each group of the tree has a member and each of its conditions is well
formed. -/
theorem Group.wellFormed_of_ofText {text : String} {d : Connective} {t : Group}
    (h : Group.ofText text d = .ok t) :
    t.toNode.Populated ∧ ∀ c ∈ t.leaves, c.WellFormed := by
  have hs := sound_of_ofText h
  refine ⟨hs.populated, fun c hc => ?_⟩
  rw [leaves_eq] at hc
  exact (hs.regular c hc).wellFormed

theorem Group.wellFormed_of_ofText_mixed : ∃ t,
    Group.ofText "not(like(name,'x%%'),in(name,1,null)),gtor(5,2,x)" .xor = .ok t ∧
      t.leaves = [.constant "name" .beginsWith (.string "x%"), .isIn "name" [.int 1, .null],
        .constant "2" .lessThan (.int 5), .constant "x" .lessThan (.int 5)] ∧
      t.toNode.Populated ∧ ∀ c ∈ t.leaves, c.WellFormed := by
  have hlike : readNode .xor "like(name,'x%%')".toList =
      .ok (.condition (.constant "name" .beginsWith (.string "x%"))) := readNode_of_call rfl rfl rfl
  have hin : readNode .xor "in(name,1,null)".toList =
      .ok (.condition (.isIn "name" [.int 1, .null])) := readNode_of_call rfl rfl rfl
  have hnot : readNode .xor "not(like(name,'x%%'),in(name,1,null))".toList = .ok (.group .xor true
      [.condition (.constant "name" .beginsWith (.string "x%")),
        .condition (.isIn "name" [.int 1, .null])]) :=
    readNode_of_call rfl rfl
      (congrArg (Except.map (Node.group .xor true)) (readAll_cons hlike (readAll_cons hin rfl)))
  have hgreater : readNode .xor "gtor(5,2,x)".toList = .ok (.group .or false
      [.condition (.constant "2" .lessThan (.int 5)),
        .condition (.constant "x" .lessThan (.int 5))]) := readNode_of_call rfl rfl rfl
  have hread : Group.ofText "not(like(name,'x%%'),in(name,1,null)),gtor(5,2,x)" .xor = .ok _ :=
    congrArg (Except.map _) (readNode_of_list (readAll_cons hnot (readAll_cons hgreater rfl)) rfl)
  exact ⟨_, hread, leaves_eq _, Group.wellFormed_of_ofText hread⟩

end Criteria
