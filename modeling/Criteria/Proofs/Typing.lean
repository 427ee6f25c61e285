import Criteria.Proofs.Erasure
import Criteria.Proofs.Naming

/-! # Declared types

The types that are declared for the fields change how constants are written and nothing else.
Whichever they are, the texts of a tree are read as trees with one outline: constants are forgotten
in it, but not where null stands, nor how long an array is. -/
namespace Criteria
open Text

/-! ## Outlines -/

namespace Value

mutual

/-- What is left of a value if its constants are forgotten: null and the lengths of arrays. -/
def outline : Value → Value
  | .null => .null
  | .array items => .array (outlineAll items)
  | _ => .bool true

def outlineAll : List Value → List Value
  | [] => []
  | v :: vs => v.outline :: outlineAll vs

end

theorem outlineAll_eq (vs : List Value) : outlineAll vs = vs.map outline := by
  induction vs with
  | nil => rfl
  | cons v vs ih => rw [outlineAll, ih, List.map_cons]

theorem outline_eq_null_iff {v : Value} : v.outline = .null ↔ v = .null := by
  cases v <;> simp [outline]

/-- Constants have one outline if both are null or neither. -/
theorem outline_congr {v w : Value} (hv : v.items? = none) (hw : w.items? = none)
    (h : v = .null ↔ w = .null) : v.outline = w.outline := by
  have plain : ∀ {u : Value}, u.items? = none → u ≠ .null → u.outline = .bool true := by
    intro u hu hn
    cases u with
    | null => exact absurd rfl hn
    | array items => cases hu
    | _ => rfl
  by_cases hn : v = .null
  · rw [hn, h.mp hn]
  · rw [plain hv hn, plain hw (mt h.mpr hn)]

/-- Every float in the value is a finite number. -/
def Finite (v : Value) : Prop := ∀ x, Value.float x ∈ v.atoms → x.isFinite = true

theorem Finite.item {items : List Value} {v : Value} (h : (Value.array items).Finite)
    (hv : v ∈ items) : v.Finite := fun x hx => h x (mem_atoms_array hv hx)

end Value

/-- A condition without its constants; another field keeps its name. -/
def Condition.outline (c : Condition) : Condition :=
  match c.source with
  | .value => { c with value := c.value.outline }
  | .field => c

abbrev Node.outline : Node → Node := map id Condition.outline

abbrev Group.outline : Group → Group := map id Condition.outline

/-! ## Texts of constants -/

/-- Two texts of constants, both of null or neither. -/
def Alike (s t : List Char) : Prop :=
  ∃ v w, Spells s v ∧ Spells t w ∧ v.outline = w.outline

section
variable {s t : List Char} {ss ts : List (List Char)}

theorem Alike.argument (h : Alike s t) : Argument s ∧ Argument t := by
  obtain ⟨v, w, hv, hw, _⟩ := h
  exact ⟨hv.readsAs.argument, hw.readsAs.argument⟩

/-- Alike texts are equal, unless neither of them is null. -/
theorem Alike.eq_or_ne_null (h : Alike s t) : s = t ∨ ∃ v w, ReadsAs s v ∧ ReadsAs t w ∧ v ≠ .null ∧
    w ≠ .null ∧ v.outline = w.outline := by
  obtain ⟨v, w, hv, hw, ho⟩ := h
  have hn : v = .null ↔ w = .null := by
    rw [← Value.outline_eq_null_iff, ho, Value.outline_eq_null_iff]
  by_cases hnull : v = .null
  · exact .inl ((hv.null_iff.mp hnull).trans (hw.null_iff.mp (hn.mp hnull)).symm)
  · exact .inr ⟨v, w, hv.readsAs, hw.readsAs, hnull, mt hn.mpr hnull, ho⟩

theorem Alike.forall_argument (h : List.Forall₂ Alike ss ts) :
    (∀ s ∈ ss, Argument s) ∧ ∀ t ∈ ts, Argument t := by
  induction h with
  | nil => simp
  | cons hst _ ih =>
    obtain ⟨hs, ht⟩ := hst.argument
    exact ⟨List.forall_mem_cons.mpr ⟨hs, ih.1⟩, List.forall_mem_cons.mpr ⟨ht, ih.2⟩⟩

theorem Alike.exists_values (h : List.Forall₂ Alike ss ts) : ∃ vs ws, List.Forall₂ ReadsAs ss vs ∧
    List.Forall₂ ReadsAs ts ws ∧ vs.map Value.outline = ws.map Value.outline := by
  induction h with
  | nil => exact ⟨[], [], .nil, .nil, rfl⟩
  | cons hst _ ih =>
    obtain ⟨v, w, hv, hw, ho⟩ := hst
    obtain ⟨vs, ws, hvs, hws, hos⟩ := ih
    refine ⟨v :: vs, w :: ws, .cons hv.readsAs hvs, .cons hw.readsAs hws, ?_⟩
    rw [List.map_cons, List.map_cons, ho, hos]

end

/-- A value is written as alike constants, whatever the types. -/
theorem Value.Finite.alike_texts {v : Value} (h : v.Finite) (type₁ type₂ : Option InputType) :
    List.Forall₂ Alike (v.texts type₁) (v.texts type₂) := by
  have atom : ∀ a ∈ v.atoms, Alike (a.render type₁ .value) (a.render type₂ .value) := by
    intro a ha
    have hi := items?_of_mem_atoms ha
    have hf : ∀ x, a = .float x → x.isFinite = true := fun x hx => h x (hx ▸ ha)
    obtain ⟨v, hv, hvn⟩ := exists_spells_null_iff type₁ hi hf
    obtain ⟨w, hw, hwn⟩ := exists_spells_null_iff type₂ hi hf
    exact ⟨v, w, hv, hw, outline_congr hv.isScalar.items? hw.isScalar.items?
      (hvn.trans hwn.symm)⟩
  exact List.forall₂_map_left_iff.mpr (List.forall₂_map_right_iff.mpr (List.forall₂_same.mpr atom))

/-! ## Readings with one outline -/

/-- Below any connective the two texts are read as trees with one outline, or with one error. -/
def ReadAlike (s t : List Char) : Prop :=
  ∀ k, (readNode k s).map Node.outline = (readNode k t).map Node.outline

theorem Condition.outline_constant (field : String) (operator : Operator) (v : Value) :
    (constant field operator v).outline = constant field operator v.outline := rfl

namespace ReadAlike
variable {s t : List Char} {ss ts : List (List Char)}

theorem refl (s : List Char) : ReadAlike s s := fun _ => rfl

theorem of_eq (h : s = t) : ReadAlike s t := h ▸ refl s

theorem negation (hs : Formed s) (ht : Formed t) (h : ReadAlike s t) :
    ReadAlike (negationText s) (negationText t) := by
  intro k
  rw [readNode_negation k hs.argument, readNode_negation k ht.argument, map_read_negation,
    map_read_negation, h k]

theorem joined (c : Connective) (hs : ∀ s ∈ ss, Formed s) (ht : ∀ t ∈ ts, Formed t)
    (h : List.Forall₂ ReadAlike ss ts) : ReadAlike (c.call ss) (c.call ts) := by
  intro k
  cases h with
  | nil => rfl
  | cons hst hrest =>
    rw [readNode_connective k (List.cons_ne_nil _ _) fun a ha => (hs a ha).argument,
      readNode_connective k (List.cons_ne_nil _ _) fun a ha => (ht a ha).argument,
      map_read_group, map_read_group,
      readAll_image ((List.Forall₂.cons hst hrest).imp fun _ _ hst => hst c)]

theorem grouped (c : Connective) (negated : Bool) (hs : ∀ s ∈ ss, Formed s)
    (ht : ∀ t ∈ ts, Formed t) (h : List.Forall₂ ReadAlike ss ts) :
    ReadAlike (groupText c negated ss) (groupText c negated ts) := by
  have body : ∀ {s t : List Char}, Formed s → Formed t → ReadAlike s t →
      ReadAlike (if negated then negationText s else s)
        (if negated then negationText t else t) := by
    intro s t hs ht hst
    cases negated with
    | false => exact hst
    | true => exact hst.negation hs ht
  have hl := h.length_eq
  by_cases h1 : ss.length = 1
  · obtain ⟨s, rfl⟩ := List.length_eq_one_iff.mp h1
    obtain ⟨t, rfl⟩ := List.length_eq_one_iff.mp (hl.symm.trans h1)
    cases h with
    | cons hst _ => exact body (hs s (by simp)) (ht t (by simp)) hst
  · have h1' : ts.length ≠ 1 := hl ▸ h1
    rw [groupText_call c negated h1, groupText_call c negated h1']
    exact body (.joined h1 hs) (.joined h1' ht) (joined c hs ht h)

end ReadAlike

/-! ## Operands -/

section
variable {verb : Verb} {field : String} {s t : List Char} {ss ts : List (List Char)}

/-- A name makes conditions with one outline of alike constants. -/
theorem Alike.ofArguments (hl : verb ≠ .like) (hf : PlainName field) (h : Alike s t) :
    (Condition.ofArguments verb field.toList s).map Condition.outline =
      (Condition.ofArguments verb field.toList t).map Condition.outline := by
  rcases h.eq_or_ne_null with rfl | ⟨v, w, hs, ht, hv, hw, ho⟩
  · rfl
  · rw [Condition.ofArguments_constant hl hf hs hv, Condition.ofArguments_constant hl hf ht hw]
    simp only [Except.map, Condition.outline_constant, ho]

theorem readAlike_operands (hv : verb.Compares) (hl : verb ≠ .like) (hf : PlainName field)
    (h : List.Forall₂ Alike ss ts) :
    ReadAlike (verb.call (field.toList :: ss)) (verb.call (field.toList :: ts)) := by
  intro k
  have hfield := FieldName.argument (.inl hf)
  obtain ⟨hs, ht⟩ := Alike.forall_argument h
  rw [readNode_operands k hv.1 hv.2.1 (List.forall_mem_cons.mpr ⟨hfield, hs⟩),
    readNode_operands k hv.1 hv.2.1 (List.forall_mem_cons.mpr ⟨hfield, ht⟩)]
  rcases h with _ | ⟨h₁, _ | ⟨h₂, h⟩⟩
  · rfl
  · rw [ofOperands_pair hv.2.2, ofOperands_pair hv.2.2, map_read_condition, map_read_condition,
      h₁.ofArguments hl hf]
  · rw [ofOperands_fanOut hv.2.2, ofOperands_fanOut hv.2.2, map_read_group, map_read_group]
    have hall := List.Forall₂.cons h₁ (.cons h₂ h)
    rw [Call.fanOut, Call.fanOut, ← mapM_except_map, ← mapM_except_map]
    refine congrArg _ (mapM_forall₂ (hall.imp fun s t hst => ?_))
    rw [map_read_condition, map_read_condition, hst.ofArguments hl hf]

theorem readAlike_isIn (hf : PlainName field) (hne : ss ≠ []) (h : List.Forall₂ Alike ss ts) :
    ReadAlike (Verb.isIn.call (field.toList :: ss)) (Verb.isIn.call (field.toList :: ts)) := by
  intro k
  have hne' : ts ≠ [] := by
    rintro rfl
    cases h
    exact hne rfl
  obtain ⟨vs, ws, hvs, hws, ho⟩ := Alike.exists_values h
  rw [readNode_isIn k hf hne hvs, readNode_isIn k hf hne' hws]
  have houtline : (Condition.isIn field vs).outline = (Condition.isIn field ws).outline := by
    simp only [Condition.isIn, Condition.outline_constant, Value.outline, Value.outlineAll_eq, ho]
  simp only [Except.map, Node.map, houtline]

end

/-! ## Conditions -/

namespace Condition
variable {c : Condition}

/-- A condition on plain names, with floats that are finite. -/
structure Plain (c : Condition) : Prop where
  field : PlainName c.field
  value : c.source = .field → ∃ name, c.value = .string name ∧ PlainName name
  finite : c.value.Finite

/-- What is no comparison and no range is written in one way for all types, unless it is a
membership. -/
theorem write_other (ho : c.operator ∉ Operator.comparisons) (hr : c.operator ∉ Operator.ranges) :
    (∀ types₁ types₂, c.write types₁ = c.write types₂) ∨
      (∀ types, c.write types = c.membershipText types) ∨
      ∀ types, c.write types = negationText (c.membershipText types) := by
  unfold write
  cases hop : c.operator with
  | isIn => exact .inr (.inl fun _ => rfl)
  | notIn => exact .inr (.inr fun _ => rfl)
  | between | notBetween => exact absurd (hop ▸ by decide) hr
  | equal | notEqual | greaterThan | greaterThanEqual | lessThan | lessThanEqual =>
    exact absurd (hop ▸ by decide) ho
  | _ => exact .inl fun _ _ => rfl

namespace Plain

theorem legible (h : c.Plain) : c.Legible := ⟨.inl h.field, h.value⟩

/-- The name of another field is written in one way for all types. -/
theorem texts_field (h : c.Plain) (hs : c.source = .field) (types₁ types₂ : FieldTypes) :
    c.valueText types₁ = c.valueText types₂ ∧
      c.boundText types₁ c.bounds.1 = c.boundText types₂ c.bounds.1 ∧
      c.boundText types₁ c.bounds.2 = c.boundText types₂ c.bounds.2 := by
  obtain ⟨name, hv, _⟩ := h.value hs
  simp only [valueText, boundText, bounds, hv, hs, Value.render, and_self]

theorem finite_bound (h : c.Plain) {bound : Option Value}
    (hb : bound = c.bounds.1 ∨ bound = c.bounds.2) {v : Value} (hv : bound = some v) :
    v.Finite := by
  have hf := h.finite
  unfold bounds at hb
  subst hv
  split at hb
  · rename_i items hi
    rw [hi] at hf
    rcases hb with hb | hb
    · exact hf.item (List.mem_of_getElem? hb.symm)
    · exact hf.item (List.mem_of_getElem? hb.symm)
  · rcases hb with hb | hb
    · cases hb
      exact hf
    · cases hb

theorem read_comparison (h : c.Plain) (ho : c.operator ∈ Operator.comparisons)
    (types₁ types₂ : FieldTypes) : ReadAlike (c.write types₁) (c.write types₂) := by
  rw [write_comparison ho c rfl, write_comparison ho c rfl]
  cases hs : c.source with
  | field => exact .of_eq (congrArg _ (h.texts_field hs types₁ types₂).1)
  | value =>
    have hne := Value.texts_ne_nil
    rw [comparison_plain h.field, comparison_plain h.field, valueText_eq_texts hs,
      valueText_eq_texts hs, ← Verb.call_cons _ _ (hne _ _), ← Verb.call_cons _ _ (hne _ _)]
    exact readAlike_operands (Verb.compares_ofOperator _) (Verb.ofOperator_ne_like _) h.field
      (h.finite.alike_texts _ _)

theorem read_bound (h : c.Plain) {verb : Verb} (hv : verb.Compares ∧ verb ≠ .like)
    {bound : Option Value} (hb : bound = c.bounds.1 ∨ bound = c.bounds.2)
    (types₁ types₂ : FieldTypes) :
    ReadAlike (verb.call [c.field.toList, c.boundText types₁ bound])
      (verb.call [c.field.toList, c.boundText types₂ bound]) := by
  cases hs : c.source with
  | field =>
    obtain ⟨_, hlow, hhigh⟩ := h.texts_field hs types₁ types₂
    rcases hb with rfl | rfl
    · rw [hlow]
      exact .refl _
    · rw [hhigh]
      exact .refl _
  | value =>
    have hne := boundTexts_ne_nil (c := c)
    rw [boundText_eq_texts hs, boundText_eq_texts hs, ← Verb.call_cons _ _ (hne _ _),
      ← Verb.call_cons _ _ (hne _ _)]
    refine readAlike_operands hv.1 hv.2 h.field ?_
    cases bound with
    | none => exact .cons ⟨.null, .null, .null, .null, rfl⟩ .nil
    | some v => exact (h.finite_bound hb rfl).alike_texts _ _

theorem read_range (h : c.Plain) {low high : Verb} (hl : low.Compares ∧ low ≠ .like)
    (hh : high.Compares ∧ high ≠ .like) (types₁ types₂ : FieldTypes) :
    ReadAlike (c.range types₁ low high) (c.range types₂ low high) := by
  exact .joined .and (h.legible.formed_bounds hl.1 hh.1) (h.legible.formed_bounds hl.1 hh.1)
    (.cons (h.read_bound hl (.inl rfl) types₁ types₂)
      (.cons (h.read_bound hh (.inr rfl) types₁ types₂) .nil))

theorem read_membershipText (h : c.Plain) (types₁ types₂ : FieldTypes) :
    ReadAlike (c.membershipText types₁) (c.membershipText types₂) := by
  cases hs : c.source with
  | field =>
    unfold membershipText
    rw [(h.texts_field hs types₁ types₂).1]
    exact .refl _
  | value =>
    rw [membershipText_eq_texts hs, membershipText_eq_texts hs]
    exact readAlike_isIn h.field (Value.texts_ne_nil _ _) (h.finite.alike_texts _ _)

/-- A condition is read with one outline, whatever types its value is written by. -/
theorem read_write (h : c.Plain) (types₁ types₂ : FieldTypes) :
    ReadAlike (c.write types₁) (c.write types₂) := by
  by_cases ho : c.operator ∈ Operator.comparisons
  · exact h.read_comparison ho types₁ types₂
  by_cases hr : c.operator ∈ Operator.ranges
  · obtain ⟨low, high, hl, hh, hw⟩ := write_range hr
    rw [hw, hw]
    exact h.read_range hl hh types₁ types₂
  rcases write_other ho hr with hw | hw | hw
  · exact .of_eq (hw types₁ types₂)
  · rw [hw, hw]
    exact h.read_membershipText types₁ types₂
  · rw [hw, hw]
    exact (h.read_membershipText types₁ types₂).negation h.legible.formed_membershipText
      h.legible.formed_membershipText

end Plain
end Condition

/-! ## Trees -/

theorem Node.read_write {n : Node} (h : n.All Condition.Plain) (types₁ types₂ : FieldTypes) :
    ReadAlike (n.write types₁) (n.write types₂) := by
  induction n using Node.induct with
  | condition c =>
    exact (h c (mem_conditions_condition.mpr rfl)).read_write types₁ types₂
  | group k negated members ih =>
    have h := all_group.mp h
    have formed : ∀ types, ∀ t ∈ members.map (write types), Formed t := by
      intro types t ht
      obtain ⟨m, hm, rfl⟩ := List.mem_map.mp ht
      exact formed_write fun c hc => (h m hm c hc).legible
    rw [write, write, writeAll_eq, writeAll_eq]
    refine .grouped k negated (formed types₁) (formed types₂) ?_
    exact List.forall₂_map_left_iff.mpr (List.forall₂_map_right_iff.mpr
      (List.forall₂_same.mpr fun m hm => ih m hm (h m hm)))

/-- Declared types affect constants alone. Written by any two typings, a tree is read back with the
same error, or with the same groups, connectives and negations, and leaf by leaf with the same
field, operator and source, with null in the same places and arrays of the same lengths. -/
theorem Group.ofText_outline {t : Group} (h : ∀ c ∈ t.leaves, c.Plain)
    (types₁ types₂ : FieldTypes) (d : Connective) :
    (ofText (t.toText types₁) d).map outline = (ofText (t.toText types₂) d).map outline := by
  rw [leaves_eq] at h
  have hread : ReadAlike (t.write types₁) (t.write types₂) :=
    Node.read_write (n := t.toNode) h types₁ types₂
  simp only [ofText, toText, String.toList_ofList]
  rw [read, read, map_read_root, map_read_root, hread d]

theorem Group.ofText_outline_dates : ∃ t : Group,
    t = ⟨.xor, true,
      [.group .or true [.condition (.constant "name" .notEqual
        (.array [.string " 12px", .null, .float (.ofIndex true 0)]))],
      .condition (.isIn "name" [.bool true, .array [], .string "1),eq(x,'"]),
      .condition (.notBetween "name" (.int 86400000) (.string "2024-02-29 12:30")),
      .condition (.againstField "name" .greaterThan "name")]⟩ ∧
    (∀ c ∈ t.leaves, c.Plain) ∧ (ofText (t.toText .untyped) .and).isOk = true ∧
    (ofText (t.toText fun _ => some .date) .and).map outline =
      (ofText (t.toText .untyped) .and).map outline := by
  refine ⟨_, rfl, ?plain, by decide +kernel, ofText_outline ?plain _ _ .and⟩
  have constant : ∀ {operator : Operator} {v : Value}, v.Finite →
      (Condition.constant "name" operator v).Plain := by
    intro operator v hv
    refine ⟨PlainName.name, fun hs => ?_, hv⟩
    cases hs
  intro c hc
  rw [leaves_eq] at hc
  rcases List.mem_cons.mp hc with rfl | hc
  · refine constant fun x hx => ?_
    obtain rfl : x = .ofIndex true 0 := by simpa [Value.atoms, Value.atomsAll] using hx
    rfl
  rcases List.mem_cons.mp hc with rfl | hc
  · exact constant (by simp [Value.Finite, Value.atoms, Value.atomsAll])
  rcases List.mem_cons.mp hc with rfl | hc
  · exact constant (by simp [Value.Finite, Value.atoms, Value.atomsAll])
  · cases List.mem_singleton.mp hc
    refine ⟨PlainName.name, fun _ => ⟨_, rfl, PlainName.name⟩, ?_⟩
    simp [Value.Finite, Condition.againstField, Value.atoms]

end Criteria
