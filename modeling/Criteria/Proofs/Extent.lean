import Criteria.Proofs.Leaves
import Criteria.Proofs.Text.Depth

/-! # The size of what is read

A tree is no larger than its text: each level of groups but the outermost stands in parentheses of
its own, and each leaf has a comma of its own. -/
namespace Criteria
open Text

/-! ## Trees -/

namespace Node

mutual

/-- How deep groups are nested. A condition alone is no group. -/
def depth : Node → Nat
  | .condition _ => 0
  | .group _ _ members => depthAll members + 1

def depthAll : List Node → Nat
  | [] => 0
  | n :: ns => max n.depth (depthAll ns)

end

theorem depthAll_le_iff {ns : List Node} {b : Nat} : depthAll ns ≤ b ↔ ∀ n ∈ ns, n.depth ≤ b := by
  induction ns with
  | nil => simp [depthAll]
  | cons n ns ih => simp [depthAll, ih]

theorem depthAll_conditions (ds : List Condition) : depthAll (ds.map .condition) = 0 :=
  Nat.le_zero.mp (depthAll_le_iff.mpr (by simp [depth]))

theorem depth_negation (k : Connective) (n : Node) : (n.negation k).depth = max 1 n.depth := by
  cases n with
  | condition c => rfl
  | group c negated members => exact (Nat.max_eq_right (Nat.succ_pos _)).symm

/-- The groups of a node are nested no deeper than the parentheses of a text, and its conditions are
no more than the commas. -/
structure FitsIn (n : Node) (text : List Char) : Prop where
  depth : n.depth ≤ parenDepth text
  length : n.conditions.length ≤ text.count ','

section
variable {texts : List (List Char)} {ns : List Node}

theorem depthAll_le_of_fitsIn (hl : texts.length = ns.length)
    (h : ∀ p ∈ texts.zip ns, p.2.FitsIn p.1) {b : Nat} (hb : ∀ t ∈ texts, parenDepth t ≤ b) :
    depthAll ns ≤ b := by
  refine depthAll_le_iff.mpr fun n hn => ?_
  obtain ⟨t, ht, hz⟩ := exists_mem_zip hl hn
  exact (h _ hz).depth.trans (hb t ht)

theorem length_le_of_fitsIn (hl : texts.length = ns.length)
    (h : ∀ p ∈ texts.zip ns, p.2.FitsIn p.1) :
    (allConditions ns).length ≤ (texts.map (List.count ',')).sum := by
  induction texts generalizing ns with
  | nil =>
    rw [List.length_eq_zero_iff.mp hl.symm]
    exact Nat.le_refl _
  | cons t ts ih =>
    cases ns with
    | nil => cases hl
    | cons n ns =>
      have hn : n.conditions.length ≤ t.count ',' := (h (t, n) (by simp)).length
      have hns := ih (Nat.succ.inj hl) fun p hp => h p (List.mem_cons_of_mem _ hp)
      simp only [allConditions, List.length_append, List.map_cons, List.sum_cons]
      omega

end
end Node

def Group.depth (g : Group) : Nat := g.toNode.depth

theorem Group.depth_ofNode (k : Connective) (n : Node) : (ofNode k n).depth = max 1 n.depth := by
  cases n with
  | condition c => rfl
  | group c negated members => exact (Nat.max_eq_right (Nat.succ_pos _)).symm

/-! ## Segments -/

/-- The segments of a text lie no deeper than the text, and share its commas with the cuts. -/
theorem Segments.extent {text : List Char} {segments : List (List Char)}
    (h : Segments text segments) : (∀ s ∈ segments, parenDepth s ≤ parenDepth text) ∧
      (segments.map (List.count ',')).sum + (segments.length - 1) ≤ text.count ',' := by
  obtain ⟨ps, hb, _, rfl, rfl⟩ := h
  constructor
  · intro s hs
    obtain ⟨p, hp, rfl⟩ := List.mem_map.mp hs
    exact (parenDepth_trim_le (hb p hp)).trans (parenDepth_le_joinWith hp hb)
  · have htrim : (ps.map fun p => (trim p).count ',').sum ≤ (ps.map (List.count ',')).sum :=
      List.sum_le_sum fun p _ => (isInfix_trim p).sublist.count_le ','
    rw [count_joinWith, List.map_map, List.length_map]
    exact Nat.add_le_add_right htrim _

namespace IsCall
variable {k c d : Connective} {term : List Char} {verb : Verb} {args : List (List Char)}

/-- The arguments of a call lie in parentheses that they do not have themselves. -/
theorem extent (h : IsCall k term verb c args) :
    ∃ b, (∀ a ∈ args, parenDepth a ≤ b) ∧ b + 1 ≤ parenDepth term ∧
      (args.map (List.count ',')).sum + (args.length - 1) ≤ term.count ',' := by
  obtain ⟨name, body, head, rfl, hs, hh, _, _⟩ := h
  obtain ⟨hdepth, hcount⟩ := hs.extent
  have hname : Balanced false name := .of_plain (Head.ofName?_unmarked hh)
  have hbody : Balanced true body := balanced_iff_segments.mpr ⟨_, hs⟩
  refine ⟨parenDepth body, hdepth, ?_, ?_⟩
  · rw [hname.parenDepth_append, hbody.parenDepth_nested]
    exact Nat.le_max_right _ _
  · simp only [List.count_append, List.count_cons]
    omega

theorem fitsIn_group {members : List Node} (h : IsCall k term verb c args) (negated : Bool)
    (hl : args.length = members.length) (hm : ∀ p ∈ args.zip members, p.2.FitsIn p.1) :
    (Node.group d negated members).FitsIn term := by
  obtain ⟨b, hargs, hb, hcount⟩ := h.extent
  refine ⟨(Nat.succ_le_succ (Node.depthAll_le_of_fitsIn hl hm hargs)).trans hb, ?_⟩
  have := Node.length_le_of_fitsIn hl hm
  rw [Node.conditions]
  omega

/-- A call of two arguments has room for a condition. -/
theorem fitsIn_condition (h : IsCall k term verb c args) (h2 : 2 ≤ args.length) (d : Condition) :
    (Node.condition d).FitsIn term := by
  obtain ⟨b, _, _, hcount⟩ := h.extent
  refine ⟨Nat.zero_le _, ?_⟩
  rw [Node.conditions, List.length_singleton]
  omega

end IsCall

/-! ## What is read -/

theorem Denotes.fitsIn {k : Connective} {term : List Char} {n : Node} (h : Denotes k term n) :
    n.FitsIn term := by
  induction h with
  | join hc _ _ hl _ ih => exact hc.fitsIn_group false hl ih
  | @negate k c term arg n hc _ ih =>
    -- the negation of a condition is a group, for which the parentheses of the call have room
    obtain ⟨b, hargs, hb, hcount⟩ := hc.extent
    have hdepth := ih.depth.trans (hargs arg (by simp))
    have hlength := ih.length
    simp only [List.map_singleton, List.sum_singleton] at hcount
    constructor
    · rw [Node.depth_negation]
      omega
    · rw [Node.conditions_negation]
      omega
  | negateAll hc _ hl _ ih => exact hc.fitsIn_group true hl ih
  | membership hc hne _ _ _ _ =>
    exact hc.fitsIn_condition (Nat.succ_le_succ (List.length_pos_of_ne_nil hne)) _
  | compare hc _ _ => exact hc.fitsIn_condition (Nat.le_refl 2) _
  | @fanOut k c term left rights verb ds hc _ _ hl _ =>
    obtain ⟨b, _, hb, hcount⟩ := hc.extent
    simp only [List.length_cons] at hcount
    constructor
    · rw [Node.depth, Node.depthAll_conditions]
      omega
    · rw [Node.conditions, Node.allConditions_map]
      omega

theorem DenotesTree.extent {k : Connective} {text : List Char} {segments : List (List Char)}
    {t : Group} (hs : Segments text segments) (h : DenotesTree k segments t) :
    t.depth ≤ parenDepth text + 1 ∧ t.conditions.length ≤ text.count ',' := by
  obtain ⟨hdepth, hcount⟩ := hs.extent
  cases h with
  | @term s n hd =>
    have hn := hd.fitsIn.depth.trans (hdepth s (by simp))
    have hlength := hd.fitsIn.length
    simp only [List.map_singleton, List.sum_singleton] at hcount
    rw [Group.depth_ofNode, Group.conditions_ofNode]
    omega
  | list _ hl hd =>
    have hm := fun p hp => (hd p hp).fitsIn
    have hlength := Node.length_le_of_fitsIn hl hm
    exact ⟨Nat.succ_le_succ (Node.depthAll_le_of_fitsIn hl hm hdepth),
      hlength.trans ((Nat.le_add_right _ _).trans hcount)⟩

/-- A tree that is read is no larger than its text: its groups are nested at most one deeper than
the parentheses outside quotes, and it has no more leaves than the text has commas. -/
theorem Group.extent_of_ofText {text : String} {k : Connective} {t : Group}
    (h : Group.ofText text k = .ok t) :
    t.depth ≤ parenDepth text.toList + 1 ∧ t.leaves.length ≤ text.toList.count ',' := by
  have hread := h
  rw [ofText, read] at hread
  obtain ⟨n, hn, _⟩ := map_eq_ok hread
  cases hs : splitArguments text.toList with
  | error e =>
    rw [readNode_eq, hs] at hn
    cases hn
  | ok segments =>
    have hs := splitArguments_eq_ok_iff.mp hs
    rw [leaves_eq]
    exact DenotesTree.extent hs ((readNode_segments hs).mp hread)

/-- A list of calls that fan out is nested one deeper than its parentheses; those in quotes do not
count. -/
theorem Group.extent_of_ofText_fanOut : ∃ t,
    Group.ofText "eq(a,'((',\"\\\"(\"),eq(b,1,2)" .or = .ok t ∧ t.depth = 2 ∧
      parenDepth "eq(a,'((',\"\\\"(\"),eq(b,1,2)".toList = 1 ∧
      t.depth ≤ parenDepth "eq(a,'((',\"\\\"(\"),eq(b,1,2)".toList + 1 ∧
      t.leaves.length ≤ "eq(a,'((',\"\\\"(\"),eq(b,1,2)".toList.count ',' := by
  have hread : (Group.ofText "eq(a,'((',\"\\\"(\"),eq(b,1,2)" .or).map Group.depth = .ok 2 := by
    decide +kernel
  obtain ⟨t, ht, hdepth⟩ := map_eq_ok hread
  exact ⟨t, ht, hdepth, by decide +kernel, Group.extent_of_ofText ht⟩

end Criteria
