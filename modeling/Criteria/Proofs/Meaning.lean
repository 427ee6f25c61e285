import Criteria.Proofs.GroupText

/-! # Meaning

What a tree says about a record, over any truth values for its atoms, and that writing it and
reading it back says the same, although groups of one member vanish and negations move. -/
namespace Criteria
open Text

/-- A truth value for each atom: a verb, the name of a field and the text of an operand. -/
abbrev Valuation := Verb → String → List Char → Bool

/-- All, any, or an odd number of the members. -/
def Connective.combine : Connective → List Bool → Bool
  | .and, bs => bs.all id
  | .or, bs => bs.any id
  | .xor, bs => bs.foldr Bool.xor false

namespace Condition

/-- The pattern that is written for an operator with wildcards. -/
def patternText (c : Condition) (operator : Operator) : List Char :=
  quote (Pattern.compose operator c.value.bare)

def eval (V : Valuation) (c : Condition) : Bool :=
  let inRange := V .greaterThanEqual c.field (c.boundText .untyped c.bounds.1) &&
    V .lessThanEqual c.field (c.boundText .untyped c.bounds.2)
  match c.operator with
  | .contains => V .like c.field (c.patternText .contains)
  | .beginsWith => V .like c.field (c.patternText .beginsWith)
  | .endsWith => V .like c.field (c.patternText .endsWith)
  | .doesNotContain => !V .like c.field (c.patternText .contains)
  | .doesNotBeginWith => !V .like c.field (c.patternText .beginsWith)
  | .doesNotEndWith => !V .like c.field (c.patternText .endsWith)
  | .isNull => V .equal c.field Value.null.literal
  | .isNotNull => V .notEqual c.field Value.null.literal
  | .isIn => V .isIn c.field (c.valueText .untyped)
  | .notIn => !V .isIn c.field (c.valueText .untyped)
  | .between => inRange
  | .notBetween => !inRange
  | operator => V (Verb.ofOperator operator) c.field (c.valueText .untyped)

/-- The conditions whose text can be read again: a comparison has one constant or field, a range
has two constants, and nothing but equality is tested against null. -/
structure Readable (c : Condition) : Prop where
  field : PlainName c.field
  operator : c.operator ≠ .notBetween
  comparison : c.operator ∈ Operator.comparisons → c.value.items? = none ∧
    (c.operator ≠ .equal → c.operator ≠ .notEqual → c.valueText .untyped ≠ Value.null.literal)
  range : c.operator = .between → ∃ low high, c.bounds = (some low, some high) ∧
    low.items? = none ∧ high.items? = none ∧
    c.boundText .untyped (some low) ≠ Value.null.literal ∧
    c.boundText .untyped (some high) ≠ Value.null.literal
  source : c.source = .field → c.operator ∈ Operator.comparisons ∧
    ∃ name, c.value = .string name ∧ PlainName name

end Condition

namespace Node

mutual

def eval (V : Valuation) : Node → Bool
  | .condition c => c.eval V
  | .group connective negated members => connective.combine (evalAll V members) ^^ negated

def evalAll (V : Valuation) : List Node → List Bool
  | [] => []
  | n :: ns => n.eval V :: evalAll V ns

end

/-- Every group has members, and every condition can be read again. -/
inductive Readable : Node → Prop
  | condition {c : Condition} : c.Readable → Readable (.condition c)
  | group {k : Connective} {negated : Bool} {members : List Node} : members ≠ [] →
      (∀ m ∈ members, m.Readable) → Readable (.group k negated members)

end Node

@[simp] theorem Connective.combine_one (k : Connective) (b : Bool) : k.combine [b] = b := by
  cases k <;> simp [combine]

@[simp] theorem Node.eval_negation (V : Valuation) (k : Connective) (n : Node) :
    (n.negation k).eval V = !n.eval V := by
  cases n with
  | condition c => simp [negation, eval, evalAll]
  | group c negated members => cases negated <;> simp [negation, eval]

theorem Node.evalAll_eq {V : Valuation} {ms ns : List Node}
    (h : List.Forall₂ (fun m n => ∀ V, n.eval V = m.eval V) ms ns) :
    evalAll V ns = evalAll V ms := by
  induction h with
  | nil => rfl
  | cons hmn _ ih => rw [evalAll, evalAll, hmn V, ih]

/-- A text is read as a node with the given meaning. -/
def Says (k : Connective) (text : List Char) (meaning : Valuation → Bool) : Prop :=
  ∃ n, readNode k text = .ok n ∧ ∀ V, n.eval V = meaning V

theorem Says.negation {k : Connective} {text : List Char} {meaning : Valuation → Bool}
    (ht : Formed text) (h : Says k text meaning) :
    Says k (negationText text) fun V => !meaning V := by
  obtain ⟨n, hn, hv⟩ := h
  refine ⟨_, readNode_negation_ok ht.argument hn, ?_⟩
  intro V
  rw [Node.eval_negation, hv]

/-! ## Conditions -/

namespace Condition
variable {c : Condition} {operator : Operator}

theorem eval_comparison (V : Valuation) (ho : c.operator ∈ Operator.comparisons) :
    c.eval V = V (Verb.ofOperator c.operator) c.field (c.valueText .untyped) := by
  simp only [Operator.comparisons, List.mem_cons, List.not_mem_nil, or_false] at ho
  rcases ho with h | h | h | h | h | h <;> simp only [eval, h]

theorem eval_like (V : Valuation) {field core : String}
    (hk : Pattern.Keeps operator core.toList) :
    (constant field operator (.string core)).eval V =
      V .like field (quote (Pattern.compose operator core.toList)) := by
  cases operator with
  | contains => rfl
  | beginsWith => rfl
  | endsWith => rfl
  | _ => exact hk.elim

theorem Readable.legible (h : c.Readable) : c.Legible := ⟨.inl h.field, fun hs => (h.source hs).2⟩

theorem says_constant (k : Connective) (hf : PlainName c.field)
    (ho : operator ∈ Operator.comparisons) {v : Value} (hv : v.items? = none)
    (hn : operator ≠ .equal → operator ≠ .notEqual → v.render none .value ≠ Value.null.literal) :
    Says k (c.comparison operator (v.render none .value)) fun V =>
      V (Verb.ofOperator operator) c.field (v.render none .value) := by
  obtain ⟨w, hw⟩ := Value.exists_stable none hv
  have hr := hw.spells.readsAs
  by_cases hwn : w = .null
  · subst hwn
    have ht := hw.spells.null_iff.mp rfl
    obtain ⟨he, hne⟩ := readNode_comparison_null k (.inl hf) hr
    by_cases h1 : operator = .equal
    · subst h1
      refine ⟨_, he, ?_⟩
      intro V
      rw [ht]
      rfl
    by_cases h2 : operator = .notEqual
    · subst h2
      refine ⟨_, hne, ?_⟩
      intro V
      rw [ht]
      rfl
    exact absurd ht (hn h1 h2)
  · refine ⟨_, readNode_comparison k (.inl hf) ho hr hwn, ?_⟩
    intro V
    rw [← hw.render]
    exact eval_comparison V ho

theorem Readable.says_comparison (h : c.Readable) (k : Connective)
    (ho : c.operator ∈ Operator.comparisons) : Says k (c.write .untyped) fun V => c.eval V := by
  obtain ⟨hv, hn⟩ := h.comparison ho
  rw [write_comparison ho c rfl]
  cases hs : c.source with
  | value =>
    have ht : c.valueText .untyped = c.value.render none .value := by
      rw [valueText, hs]
      rfl
    rw [ht] at hn ⊢
    obtain ⟨n, hread, hm⟩ := says_constant k h.field ho hv hn
    refine ⟨n, hread, ?_⟩
    intro V
    show n.eval V = c.eval V
    rw [hm, eval_comparison V ho, ht]
  | field =>
    obtain ⟨_, name, hname, hp⟩ := h.source hs
    have ht : c.valueText .untyped = name.toList := by
      rw [valueText, hname, hs]
      rfl
    rw [ht]
    refine ⟨_, readNode_against k h.field ho hp, ?_⟩
    intro V
    show (againstField c.field c.operator name).eval V = c.eval V
    rw [eval_comparison V ho, ht]
    exact eval_comparison V ho

/-- A pattern is read as a condition with the same pattern. -/
theorem says_likeness (k : Connective) (hf : PlainName c.field) (hs : c.source = .value)
    (hw : Pattern.HasWildcard operator) :
    Says k (c.likeness operator) fun V => V .like c.field (c.patternText operator) := by
  rw [likeness_value hs]
  refine ⟨_, readNode_like k (.inl hf) _, ?_⟩
  intro V
  have hk := Pattern.keeps_decompose_compose hw c.value.bare
  rw [Node.eval, eval_like V (by simpa using hk), String.toList_ofList, Pattern.compose_decompose]
  rfl

theorem says_membership (k : Connective) (hf : PlainName c.field) (hs : c.source = .value) :
    Says k (c.membershipText .untyped) fun V => V .isIn c.field (c.valueText .untyped) := by
  obtain ⟨values, hread, ht⟩ := read_membership k .untyped hf hs
  refine ⟨_, hread, ?_⟩
  intro V
  rw [← ht]
  rfl

/-- A range is read as a conjunction of its bounds. -/
theorem says_range (k : Connective) (hf : PlainName c.field) (hs : c.source = .value)
    {low high : Value} (hb : c.bounds = (some low, some high))
    (hl : low.items? = none) (hh : high.items? = none)
    (hln : c.boundText .untyped (some low) ≠ Value.null.literal)
    (hhn : c.boundText .untyped (some high) ≠ Value.null.literal) :
    Says k (c.range .untyped .greaterThanEqual .lessThanEqual) fun V =>
      V .greaterThanEqual c.field (c.boundText .untyped c.bounds.1) &&
        V .lessThanEqual c.field (c.boundText .untyped c.bounds.2) := by
  have text : ∀ v : Value, c.boundText .untyped (some v) = v.render none .value := by
    intro v
    rw [boundText, hs]
    rfl
  rw [text] at hln hhn
  obtain ⟨m, hm, hmv⟩ := says_constant .and hf (Verb.operator_mem .greaterThanEqual) hl
    fun _ _ => hln
  obtain ⟨n, hn, hnv⟩ := says_constant .and hf (Verb.operator_mem .lessThanEqual) hh
    fun _ _ => hhn
  have hlegible : c.Legible := ⟨.inl hf, by simp [hs]⟩
  rw [comparison_plain hf] at hm hn
  refine ⟨.group .and false [m, n], ?_, ?_⟩
  · refine (hlegible.readNode_range_iff (Verb.compares_ofOperator .greaterThanEqual)
      (Verb.compares_ofOperator .lessThanEqual)).mpr ⟨m, n, ?_, ?_, rfl⟩
    · rwa [hb, text]
    · rwa [hb, text]
  · intro V
    simp only [Node.eval, Node.evalAll, Connective.combine, hmv, hnv, hb, text]
    simp
    rfl

/-- A readable condition is read as a node that says the same. -/
theorem Readable.says (h : c.Readable) (k : Connective) :
    Says k (c.write .untyped) fun V => c.eval V := by
  by_cases ho : c.operator ∈ Operator.comparisons
  · exact h.says_comparison k ho
  have hf := h.field
  have hs : c.source = .value := by
    cases hs : c.source with
    | value => rfl
    | field => exact absurd (h.source hs).1 ho
  have hnull := readNode_comparison_null (c := c) k (.inl hf) readsAs_null
  cases hop : c.operator with
  | contains =>
    simp only [write, eval, hop]
    exact says_likeness k hf hs (.inl rfl)
  | beginsWith =>
    simp only [write, eval, hop]
    exact says_likeness k hf hs (.inr rfl)
  | endsWith =>
    simp only [write, eval, hop]
    exact says_likeness k hf hs (.inl rfl)
  | doesNotContain =>
    simp only [write, eval, hop]
    exact .negation (h.legible.formed_likeness _) (says_likeness k hf hs (.inl rfl))
  | doesNotBeginWith =>
    simp only [write, eval, hop]
    exact .negation (h.legible.formed_likeness _) (says_likeness k hf hs (.inr rfl))
  | doesNotEndWith =>
    simp only [write, eval, hop]
    exact .negation (h.legible.formed_likeness _) (says_likeness k hf hs (.inl rfl))
  | isNull =>
    simp only [write, eval, hop]
    exact ⟨_, hnull.1, fun V => rfl⟩
  | isNotNull =>
    simp only [write, eval, hop]
    exact ⟨_, hnull.2, fun V => rfl⟩
  | isIn =>
    simp only [write, eval, hop]
    exact says_membership k hf hs
  | notIn =>
    simp only [write, eval, hop]
    exact .negation h.legible.formed_membershipText (says_membership k hf hs)
  | between =>
    obtain ⟨low, high, hb, hl, hh, hln, hhn⟩ := h.range hop
    simp only [write, eval, hop]
    exact says_range k hf hs hb hl hh hln hhn
  | notBetween => exact absurd hop h.operator
  | _ =>
    refine absurd ?_ ho
    rw [hop]
    decide

end Condition

/-! ## Trees -/

theorem Node.Readable.legible {n : Node} (h : n.Readable) : n.All Condition.Legible := by
  induction h with
  | condition hc => exact all_condition hc.legible
  | group _ _ ih => exact all_group.mpr ih

theorem Node.Readable.says {n : Node} (h : n.Readable) (k : Connective) :
    Says k (n.write .untyped) fun V => n.eval V := by
  induction h generalizing k with
  | condition hc => exact hc.says k
  | @group c negated members hne hm ih =>
    have hl : ∀ m ∈ members, m.All Condition.Legible := fun m hmem => (hm m hmem).legible
    by_cases h1 : members.length = 1
    · -- the group of one member vanishes, its connective with it
      obtain ⟨m, rfl⟩ := List.length_eq_one_iff.mp h1
      obtain ⟨n, hn, hnv⟩ := ih m (List.mem_singleton.mpr rfl) k
      refine ⟨_, read_one c negated (hl m (List.mem_singleton.mpr rfl)) hn, ?_⟩
      intro V
      cases negated <;> simp [eval, evalAll, hnv]
    · have h2 : 2 ≤ members.length := by
        have := List.length_pos_of_ne_nil hne
        omega
      obtain ⟨ns, hns, he⟩ := read_group (R := fun m n => ∀ V, n.eval V = m.eval V) k c negated
        h2 hl fun m hmem => ih m hmem c
      refine ⟨_, hns, ?_⟩
      intro V
      show Node.eval V (.group c negated ns) = Node.eval V (.group c negated members)
      rw [eval, eval, evalAll_eq he]

/-- A readable tree is read back from its proposition as a tree with the same meaning. -/
theorem Group.exists_same_meaning {t : Group} (h : t.toNode.Readable) (d : Connective) :
    ∃ t', Group.ofText (t.toText .untyped) d = .ok t' ∧
      ∀ V, t'.toNode.eval V = t.toNode.eval V := by
  obtain ⟨n, hn, hv⟩ := h.says d
  refine ⟨.ofNode d n, ofText_of_readNode hn, ?_⟩
  intro V
  have same : n.eval V = t.toNode.eval V := hv V
  rw [← same]
  cases n with
  | condition c => simp [ofNode, toNode, Node.eval, Node.evalAll]
  | group c negated members => rfl

theorem Group.exists_same_meaning_nested : ∃ t', Group.ofText (Group.toText .untyped
      ⟨.xor, true, [.group .or true [.condition (.between "name" (.int 1) (.string "z"))],
        .condition (.constant "name" .doesNotBeginWith (.string "%"))]⟩) .and = .ok t' ∧
    ∀ V, t'.toNode.eval V = Node.eval V (.group .xor true
      [.group .or true [.condition (.between "name" (.int 1) (.string "z"))],
        .condition (.constant "name" .doesNotBeginWith (.string "%"))]) := by
  have hrange : (Condition.between "name" (.int 1) (.string "z")).Readable :=
    ⟨PlainName.name, nofun, fun h => absurd h (by decide),
      fun _ => ⟨_, _, rfl, rfl, rfl, by decide, by decide⟩, nofun⟩
  have hlike : (Condition.constant "name" .doesNotBeginWith (.string "%")).Readable :=
    ⟨PlainName.name, nofun, fun h => absurd h (by decide), nofun, nofun⟩
  refine Group.exists_same_meaning (.group (List.cons_ne_nil _ _) fun m hm => ?_) .and
  rcases List.mem_cons.mp hm with rfl | hm
  · refine .group (List.cons_ne_nil _ _) fun m hm => ?_
    cases List.mem_singleton.mp hm
    exact .condition hrange
  · cases List.mem_singleton.mp hm
    exact .condition hlike

end Criteria
