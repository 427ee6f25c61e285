import Criteria.Proofs.GroupText

/-! # Trees that are read back

Writing keeps a tree exactly if nothing in it is spelt in two ways: its values read as themselves,
and no group stands where its only member would do. -/
namespace Criteria
open Text

/-- The nodes below a connective that are read back from their texts. A single condition needs a
group only to be negated, and then takes the connective that is handed down. -/
inductive Node.Canonical : Connective → Node → Prop
  | condition {k : Connective} {c : Condition} : c.Regular Value.IsExact →
      Canonical k (.condition c)
  | group {k c : Connective} {negated : Bool} {members : List Node} : 2 ≤ members.length →
      (∀ m ∈ members, Canonical c m) → Canonical k (.group c negated members)
  | negation {k : Connective} {c : Condition} : c.Regular Value.IsExact →
      Canonical k (.group k true [.condition c])

/-- A tree with such a node for its root, a condition alone being a group of one. -/
def Group.Canonical (k : Connective) (t : Group) : Prop :=
  ∃ n : Node, n.Canonical k ∧ t = .ofNode k n

theorem Condition.Rewrites.eq {c d : Condition} (h : Rewrites Eq c d) : d = c := by
  cases h with
  | same => rfl
  | comparison _ hv => rw [hv]
  | isIn hv =>
    rw [List.forall₂_eq_eq_eq] at hv
    rw [hv]

theorem Condition.Regular.read_untyped {c : Condition} (h : c.Regular Value.IsExact)
    (k : Connective) : readNode k (c.write .untyped) = .ok (.condition c) := by
  obtain ⟨d, hd, hr⟩ := Regular.read (R := Eq) h k .untyped
    (fun v hv => hv.isScalar.items?) fun v hv => ⟨v, rfl, hv.render_spells, id⟩
  rwa [hr.eq] at hd

theorem Node.Canonical.legible {k : Connective} {n : Node} (h : n.Canonical k) :
    n.All Condition.Legible := by
  induction h with
  | condition hc => exact all_condition hc.legible
  | group _ _ ih => exact all_group.mpr ih
  | negation hc =>
    refine all_group.mpr fun m hm => ?_
    rw [List.mem_singleton.mp hm]
    exact all_condition hc.legible

theorem Node.Canonical.read {k : Connective} {n : Node} (h : n.Canonical k) :
    readNode k (n.write .untyped) = .ok n := by
  induction h with
  | condition hc => exact hc.read_untyped _
  | @group k c negated members h2 hm ih =>
    have hl : ∀ m ∈ members, m.All Condition.Legible := fun m hmem => (hm m hmem).legible
    obtain ⟨ns, hns, he⟩ := read_group (R := Eq) k c negated h2 hl
      fun m hmem => ⟨m, ih m hmem, rfl⟩
    rw [List.forall₂_eq_eq_eq] at he
    subst he
    exact hns
  | @negation k c hc => exact read_one k true (all_condition hc.legible) (hc.read_untyped k)

/-- A canonical tree is read back from its proposition, with the connective it is canonical for as
the default. -/
theorem Group.ofText_toText {d : Connective} {t : Group} (h : t.Canonical d) :
    Group.ofText (t.toText .untyped) d = .ok t := by
  obtain ⟨n, hn, rfl⟩ := h
  refine ofText_of_readNode ?_
  rw [write_ofNode, hn.read]

theorem Group.ofText_toText_negated :
    Group.ofText (Group.toText .untyped ⟨.or, true, [
      .condition (.constant "name" .equal (.string "it's, (12)")),
      .group .or true [.condition (.isNull "12")]]⟩) .and = .ok ⟨.or, true, [
      .condition (.constant "name" .equal (.string "it's, (12)")),
      .group .or true [.condition (.isNull "12")]]⟩ := by
  refine Group.ofText_toText ⟨.group .or true _, .group (by decide) fun m hm => ?_, rfl⟩
  rcases List.mem_cons.mp hm with rfl | hm
  · exact .condition (.comparison (.inl .name) (by decide) trivial nofun)
  · cases List.mem_singleton.mp hm
    exact .negation (.isNull (.inr .twelve))

end Criteria
