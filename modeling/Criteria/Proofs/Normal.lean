import Criteria.Proofs.GroupText
import Criteria.Proofs.Regular

/-! # One reading normalizes

Reading the text of any tree gives a normal one, in which a group of one member has only a condition
in it. A normal tree is written with the same text after every further reading. -/
namespace Criteria
open Text

/-- The nodes that are read from the texts of trees. -/
inductive Node.Normal : Node → Prop
  | condition {c : Condition} : c.Regular Value.IsScalar → Normal (.condition c)
  | one {k : Connective} {negated : Bool} {c : Condition} : c.Regular Value.IsScalar →
      Normal (.group k negated [.condition c])
  | many {k : Connective} {negated : Bool} {members : List Node} : 2 ≤ members.length →
      (∀ m ∈ members, m.Normal) → Normal (.group k negated members)

/-! ## Reading gives normal nodes -/

theorem Node.Normal.negation {n : Node} (h : n.Normal) (k : Connective) : (n.negation k).Normal := by
  cases h with
  | condition hc => exact .one hc
  | one hc => exact .one hc
  | many h2 hm => exact .many h2 hm

theorem normal_of_ofOperands {call : Call} {n : Node} (hs : ∀ a ∈ call.args, Segment a)
    (h : call.ofOperands = .ok n) : n.Normal := by
  obtain ⟨name, verb, c, args⟩ := call
  by_cases hin : verb = .isIn
  · subst hin
    rcases args with _ | ⟨field, _ | ⟨item, items⟩⟩
    · cases h
    · cases h
    · obtain ⟨d, hd, rfl⟩ := map_eq_ok h
      exact .condition (Condition.regular_of_membership (hs field (by simp)) (by simp) hd)
  · rcases args with _ | ⟨left, _ | ⟨right, _ | ⟨right', rights⟩⟩⟩
    · cases verb <;> cases h
    · cases verb <;> cases h
    · rw [ofOperands_pair hin] at h
      obtain ⟨d, hd, rfl⟩ := map_eq_ok h
      exact .condition
        (Condition.regular_of_ofArguments (hs left (by simp)) (hs right (by simp)) hd)
    · rw [ofOperands_fanOut hin, fanOut_eq] at h
      obtain ⟨ns, hns, rfl⟩ := map_eq_ok h
      obtain ⟨ds, hds, rfl⟩ := map_eq_ok hns
      obtain ⟨hl, he⟩ := mapM_eq_ok_iff.mp hds
      refine .many ?_ fun m hm => ?_
      · rw [List.length_map, ← hl]
        simp
      · obtain ⟨d, hd, rfl⟩ := List.mem_map.mp hm
        obtain ⟨r, hr, hmem⟩ := exists_mem_zip hl hd
        have hread : Condition.ofArguments verb left r = .ok d := he (r, d) hmem
        exact .condition (Condition.regular_of_ofArguments (hs left (by simp))
          (hs r (List.mem_cons_of_mem _ hr)) hread)

/-- A connective without members is no proposition. -/
theorem readNode_connective_nil {k c : Connective} {n : Node} :
    readNode k (c.call []) ≠ .ok n := by
  have hargs : ∀ a ∈ ([] : List (List Char)), Argument a := by simp
  rw [readNode_segment k (c.argument_call hargs).toSegment, readTerm_eq, Connective.call_eq,
    ofTerm_call k hargs]
  simp

theorem Formed.normal {text : List Char} (h : Formed text) {k : Connective} {n : Node}
    (hn : readNode k text = .ok n) : n.Normal := by
  induction h generalizing k n with
  | operands hj hc ha =>
    rw [readNode_operands k hj hc ha] at hn
    exact normal_of_ofOperands (fun a h => (ha a h).toSegment) hn
  | @joined c texts h1 ht ih =>
    have harg : ∀ t ∈ texts, Argument t := fun t h => (ht t h).argument
    by_cases hne : texts = []
    · subst hne
      exact absurd hn readNode_connective_nil
    rw [readNode_connective k hne harg] at hn
    obtain ⟨ns, hns, rfl⟩ := map_eq_ok hn
    obtain ⟨hl, he⟩ := readAll_eq_ok_iff.mp hns
    refine .many ?_ fun m hm => ?_
    · have := List.length_pos_of_ne_nil hne
      omega
    · obtain ⟨t, ht', hmem⟩ := exists_mem_zip hl hm
      exact ih t ht' (he _ hmem)
  | negated ht ih =>
    rw [readNode_negation k ht.argument] at hn
    obtain ⟨m, hm, rfl⟩ := map_eq_ok hn
    exact (ih hm).negation k

/-! ## Normal nodes keep their text -/

theorem Condition.Rewrites.write_eq {types : FieldTypes} {c d : Condition}
    (h : Rewrites (Value.Stable (types c.field)) c d)
    (hc : c.Regular Value.IsScalar) : d.write types = c.write types := by
  cases h with
  | same => rfl
  | @comparison field operator v w ho hv =>
    rw [write_comparison ho _ rfl, write_comparison ho _ rfl]
    have hr : w.render (types field) .value = v.render (types field) .value := hv.render
    show (constant field operator v).comparison operator (w.render (types field) .value) =
      (constant field operator v).comparison operator (v.render (types field) .value)
    rw [hr]
  | @isIn field vs ws hv =>
    obtain ⟨_, ht, hi⟩ := Value.stables_render hv
    cases hc with
    | comparison _ ho => exact absurd ho (by decide)
    | isIn hf hne hs =>
      have hne' : ws ≠ [] := by
        rintro rfl
        exact hne (List.map_eq_nil_iff.mp ht.symm)
      rw [write_isIn hne' hi, write_isIn hne fun v h => (hs v h).items?]
      exact congrArg (fun texts => Verb.isIn.call (field.toList :: texts)) ht

theorem Condition.Regular.exists_same_text {c : Condition} (h : c.Regular Value.IsScalar)
    (k : Connective) (types : FieldTypes) :
    ∃ d, readNode k (c.write types) = .ok (.condition d) ∧ d.write types = c.write types := by
  obtain ⟨d, hd, hr⟩ := Regular.read (R := Value.Stable (types c.field)) h k types
    (fun v hv => hv.items?) fun v hv => by
      obtain ⟨w, hw⟩ := Value.exists_stable (types c.field) hv.items?
      exact ⟨w, hw, hw.spells, hw.ne_null hv⟩
  exact ⟨d, hd, hr.write_eq h⟩

namespace Node

theorem Normal.legible {n : Node} (h : n.Normal) : n.All Condition.Legible := by
  induction h with
  | condition hc => exact all_condition hc.legible
  | one hc =>
    refine all_group.mpr fun m hm => ?_
    rw [List.mem_singleton.mp hm]
    exact all_condition hc.legible
  | many _ _ ih => exact all_group.mpr ih

/-- What is read from the text of a normal node is written with that text. -/
theorem Normal.exists_same_text {n : Node} (h : n.Normal) (k : Connective) (types : FieldTypes) :
    ∃ n', readNode k (n.write types) = .ok n' ∧ n'.write types = n.write types := by
  induction h generalizing k with
  | condition hc =>
    obtain ⟨d, hd, hw⟩ := hc.exists_same_text k types
    exact ⟨_, hd, hw⟩
  | @one c negated d hc =>
    obtain ⟨e, he, hw⟩ := hc.exists_same_text k types
    refine ⟨_, read_one c negated (all_condition hc.legible) he, ?_⟩
    cases negated with
    | false => exact hw
    | true => exact congrArg negationText hw
  | @many c negated members h2 hm ih =>
    have hl : ∀ m ∈ members, m.All Condition.Legible := fun m hmem => (hm m hmem).legible
    obtain ⟨ns, hns, he⟩ := read_group (R := fun m n => n.write types = m.write types) k c negated
      h2 hl fun m hmem => ih m hmem c
    have hwrite : writeAll types ns = writeAll types members := by
      rw [writeAll_eq, writeAll_eq]
      exact map_eq_of_forall₂ he
    refine ⟨.group c negated ns, hns, ?_⟩
    rw [write, write, hwrite]

end Node

/-- Reading the text of a tree normalizes it: what is read from then on is written with the same
text. -/
theorem Group.toText_stable {types : FieldTypes} {d : Connective} {t t₁ : Group}
    (hl : ∀ c ∈ t.conditions, c.Legible) (h : Group.ofText (t.toText types) d = .ok t₁) :
    ∃ t₂, Group.ofText (t₁.toText types) d = .ok t₂ ∧ t₂.toText types = t₁.toText types := by
  rw [ofText, toText, String.toList_ofList, read] at h
  obtain ⟨n₁, hn₁, rfl⟩ := map_eq_ok h
  have hnormal : n₁.Normal := (Node.formed_write (n := t.toNode) hl).normal hn₁
  obtain ⟨n₂, hn₂, hw⟩ := hnormal.exists_same_text d types
  refine ⟨_, ofText_of_readNode (by rwa [write_ofNode]), ?_⟩
  rw [toText, toText, write_ofNode, write_ofNode, hw]

theorem Group.toText_stable_negations : ∃ t₁ t₂,
    (∀ c ∈ Group.conditions ⟨.or, true,
      [.group .and true [.condition (.constant "name" .equal (.string "7 apples"))]]⟩,
      c.Legible) ∧
    Group.ofText (Group.toText (fun _ => some .number) ⟨.or, true,
      [.group .and true [.condition (.constant "name" .equal (.string "7 apples"))]]⟩) .and =
        .ok t₁ ∧
    t₁ = ⟨.and, false, [.condition (.constant "name" .equal (.int 7))]⟩ ∧
    Group.ofText (t₁.toText fun _ => some .number) .and = .ok t₂ ∧
      t₂.toText (fun _ => some .number) = t₁.toText fun _ => some .number := by
  have hc : (Condition.constant "name" .equal (.string "7 apples")).Regular Value.IsScalar :=
    .comparison (.inl .name) (by decide) trivial nofun
  have hl : ∀ c ∈ Group.conditions ⟨.or, true,
      [.group .and true [.condition (.constant "name" .equal (.string "7 apples"))]]⟩,
      c.Legible := by
    intro c hm
    cases List.mem_singleton.mp hm
    exact hc.legible
  have hwrite : (Condition.constant "name" .equal (.string "7 apples")).write
      (fun _ => some .number) = "eq(name,7)".toList := by
    decide +kernel
  have hd : readNode .and ((Condition.constant "name" .equal (.string "7 apples")).write
      fun _ => some .number) = .ok (.condition (.constant "name" .equal (.int 7))) := by
    rw [hwrite]
    exact readNode_of_call rfl rfl rfl
  have hlegible := Node.all_condition hc.legible
  have hinner := Node.read_one .and true hlegible hd
  have houter := Node.read_one .or true (Node.all_group.mpr fun m hm => by
    rw [List.mem_singleton.mp hm]
    exact hlegible) hinner
  have hread : Group.ofText (Group.toText (fun _ => some .number) ⟨.or, true,
      [.group .and true [.condition (.constant "name" .equal (.string "7 apples"))]]⟩) .and =
        .ok _ := Group.ofText_of_readNode houter
  obtain ⟨t₂, h₂, hw⟩ := Group.toText_stable hl hread
  exact ⟨_, t₂, hl, hread, rfl, h₂, hw⟩

end Criteria
