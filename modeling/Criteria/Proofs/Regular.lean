import Criteria.Proofs.Condition

/-! # What reading makes

Whatever its text, a condition that is read is regular: its field is a name, and its value is one of
the constants that can be written or the name of another field. -/
namespace Criteria
open Text

/-! ## Operands -/

/-- The operands that are classified: a variable is a name, and a number may be one. -/
structure Operand.Sound (o : Operand) : Prop where
  noCall : o.kind ≠ .call
  numeric : o.kind = .number → NumericName o.text
  plain : o.isVariable = true → PlainName o.text

theorem classify_sound {text : List Char} {o : Operand} (hs : Segment text)
    (h : Operand.classify text = .ok o) : o.Sound := by
  have ht : trim text = text := hs.trimmed
  obtain ⟨rfl, hc, hq⟩ := classify_eq_ok_iff.mp h
  rw [ht] at hq ⊢
  have hkind : Operand.kindOf (String.ofList text).toList = Operand.kindOf text := by
    rw [String.toList_ofList]
  have htrim : Trimmed (String.ofList text).toList := by
    rw [String.toList_ofList]
    exact hs.trimmed
  refine ⟨hc, fun hn => ⟨htrim, hkind.trans hn⟩, fun hx => ?_⟩
  have hk : Operand.kindOf text = .variable := Operand.isVariable_iff.mp hx
  refine ⟨htrim, hkind.trans hk, by simpa [Operand.text] using hq hk, ?_⟩
  have hne : text ≠ [] := by
    rintro rfl
    cases hk
  have := pieces_eq_self_iff.mpr ⟨hne, hs.balanced⟩
  simp [Splitter.split, Operand.text, this, Except.map]

/-- The value of an operand is a constant, and that of a variable its own name. -/
theorem Operand.value_scalar {o : Operand} {v : Value} (h : o.value = .ok v) :
    v.IsScalar ∧ (o.isVariable = true → v = .string o.text) := by
  unfold Operand.value at h
  have hvar := Operand.isVariable_iff (o := o)
  split at h
  · rename_i hk
    cases h
    exact ⟨trivial, fun hx => by rw [hvar, hk] at hx; cases hx⟩
  · rename_i hk
    obtain ⟨body, _, rfl⟩ := map_eq_ok h
    exact ⟨trivial, fun hx => by rw [hvar, hk] at hx; cases hx⟩
  · rename_i hk
    split at h
    · rename_i hn
      cases h
      exact ⟨(Numeral.number?_scalar hn).1, fun hx => by rw [hvar, hk] at hx; cases hx⟩
    · cases h
  · cases h
    exact ⟨trivial, fun _ => rfl⟩
  · cases h

namespace Condition

/-- The field has a name, which is a variable if the value names a field too. -/
theorem roles_sound {l r : Operand} {ro : Roles} (hl : l.Sound) (hr : r.Sound)
    (h : roles l r = .ok ro) : ro.other.Sound ∧ FieldName (String.ofList ro.field) ∧
      (ro.other.isVariable = true → PlainName (String.ofList ro.field)) := by
  have numeric : ∀ {o : Operand}, o.Sound → o.isVariable = false → namesNothing o = false →
      FieldName o.text :=
    fun ho hv hn => .inr (ho.numeric (kind_of_names ho.noCall hv hn))
  rcases roles_cases h with ⟨hv, rfl⟩ | ⟨_, hv, rfl⟩ | ⟨hlv, hrv, _, hn, rfl⟩ | ⟨hlv, hrv, hn, rfl⟩
  · exact ⟨hr, .inl (hl.plain hv), fun _ => hl.plain hv⟩
  · exact ⟨hl, .inl (hr.plain hv), fun _ => hr.plain hv⟩
  · exact ⟨hr, numeric hl hlv hn, fun hx => by rw [hrv] at hx; cases hx⟩
  · exact ⟨hl, numeric hr hrv hn, fun hx => by rw [hlv] at hx; cases hx⟩

theorem regular_of_ofRoles {verb : Verb} {r : Roles} {v : Value} {d : Condition}
    (ho : r.other.Sound) (hf : FieldName (String.ofList r.field))
    (hp : r.other.isVariable = true → PlainName (String.ofList r.field))
    (hv : r.other.value = .ok v) (h : ofRoles verb r v = .ok d) : d.Regular Value.IsScalar := by
  obtain ⟨hscalar, hname⟩ := Operand.value_scalar hv
  by_cases hn : v = .null
  · subst hn
    have hvar : r.other.isVariable = false := by
      by_contra hx
      cases hname (by simpa using hx)
    cases verb with
    | equal =>
      rw [(ofRoles_null hvar).1] at h
      cases h
      exact .isNull hf
    | notEqual =>
      rw [(ofRoles_null hvar).2] at h
      cases h
      exact .isNotNull hf
    | _ => cases h
  rcases like_or_comparison verb r v with ⟨rfl, hvar, pattern, rfl⟩ | hl
  · rw [ofRoles_like hvar] at h
    cases h
    rcases Pattern.decompose_cases pattern.toList with ⟨he, _⟩ | hk
    · rw [he]
      exact .comparison hf (Verb.operator_mem .equal) trivial nofun
    · exact .like hf (by simpa using hk)
  · rw [ofRoles_comparison hn hl] at h
    cases h
    have hop : (if r.mirrored = true then verb.operator.mirrored else verb.operator) ∈
        Operator.comparisons := by
      split
      · exact Operator.mirrored_mem verb.operator_mem
      · exact verb.operator_mem
    cases hvar : r.other.isVariable with
    | false => exact .comparison hf hop hscalar hn
    | true =>
      rw [hname hvar]
      exact .against (hp hvar) (ho.plain hvar) hop

theorem regular_of_ofArguments {verb : Verb} {left right : List Char} {d : Condition}
    (hl : Segment left) (hr : Segment right) (h : ofArguments verb left right = .ok d) :
    d.Regular Value.IsScalar := by
  obtain ⟨l, r, ro, v, hl', hr', hro, hv, hd⟩ := ofArguments_eq_ok_iff.mp h
  obtain ⟨ho, hf, hp⟩ := roles_sound (classify_sound hl hl') (classify_sound hr hr') hro
  exact regular_of_ofRoles ho hf hp hv hd

theorem regular_of_membership {field : List Char} {items : List (List Char)} {d : Condition}
    (hf : Segment field) (hne : items ≠ []) (h : membership field items = .ok d) :
    d.Regular Value.IsScalar := by
  obtain ⟨f, values, hcl, hvar, hl, he, rfl⟩ := membership_eq_ok_iff.mp h
  refine .isIn ((classify_sound hf hcl).plain hvar) ?_ ?_
  · rintro rfl
    exact hne (List.length_eq_zero_iff.mp hl)
  · intro v hv
    obtain ⟨item, _, hmem⟩ := exists_mem_zip hl hv
    obtain ⟨o, _, _, hov⟩ := he _ hmem
    exact (Operand.value_scalar hov).1

end Condition
end Criteria
