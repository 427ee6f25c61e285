import Criteria.Proofs.Composition

/-! # What a reading owes to its connective

Two readings are compared through the images of their trees, in which connectives or constants are
forgotten. A text is read below a connective that joins what the text does not join itself. This
connective names groups and does nothing else: below any other the text has a tree of the same
shape, or the same error. -/
namespace Criteria
open Text

/-! ## Images of trees -/

namespace Node
section
variable (join : Connective → Connective) (leaf : Condition → Condition)

mutual

/-- The tree with other connectives and other conditions. -/
def map : Node → Node
  | .condition c => .condition (leaf c)
  | .group connective negated members => .group (join connective) negated (mapAll members)

def mapAll : List Node → List Node
  | [] => []
  | n :: ns => map n :: mapAll ns

end

theorem mapAll_eq (ns : List Node) : mapAll join leaf ns = ns.map (map join leaf) := by
  induction ns with
  | nil => rfl
  | cons n ns ih => rw [mapAll, ih, List.map_cons]

theorem map_negation (k : Connective) (n : Node) :
    (n.negation k).map join leaf = (n.map join leaf).negation (join k) := by
  cases n <;> rfl

end
end Node

section
variable {join : Connective → Connective} {leaf : Condition → Condition}

/-- The image of a tree. -/
def Group.map (join : Connective → Connective) (leaf : Condition → Condition) (t : Group) : Group :=
  ⟨join t.connective, t.negated, t.members.map (Node.map join leaf)⟩

theorem Group.map_ofNode (k : Connective) (n : Node) :
    (ofNode k n).map join leaf = ofNode (join k) (n.map join leaf) := by
  cases n with
  | condition c => rfl
  | group c negated members => rw [ofNode, Group.map, Node.map, Node.mapAll_eq, ofNode]

theorem map_read_condition (x : Except ReadError Condition) :
    (x.map .condition).map (Node.map join leaf) = (x.map leaf).map .condition := by
  cases x <;> rfl

theorem map_read_group (c : Connective) (negated : Bool) (x : Except ReadError (List Node)) :
    (x.map (.group c negated)).map (Node.map join leaf) =
      (x.map (List.map (Node.map join leaf))).map (.group (join c) negated) := by
  cases x with
  | error e => rfl
  | ok ns => simp only [Except.map, Node.map, Node.mapAll_eq]

theorem map_read_negation (c : Connective) (x : Except ReadError Node) :
    (x.map (.negation c)).map (Node.map join leaf) =
      (x.map (Node.map join leaf)).map (.negation (join c)) := by
  cases x with
  | error e => rfl
  | ok n => simp only [Except.map, Node.map_negation]

theorem map_read_root (k : Connective) (x : Except ReadError Node) :
    (x.map (Group.ofNode k)).map (Group.map join leaf) =
      (x.map (Node.map join leaf)).map (Group.ofNode (join k)) := by
  cases x with
  | error e => rfl
  | ok n => simp only [Except.map, Group.map_ofNode]

end

/-- Texts that have the same images one by one have them in a list. -/
theorem readAll_image {image : Node → Node} {k₁ k₂ : Connective} {texts₁ texts₂ : List (List Char)}
    (h : List.Forall₂ (fun s t => (readNode k₁ s).map image = (readNode k₂ t).map image)
      texts₁ texts₂) :
    (readAll k₁ texts₁).map (List.map image) = (readAll k₂ texts₂).map (List.map image) := by
  rw [readAll, readAll, ← mapM_except_map, ← mapM_except_map]
  exact mapM_forall₂ h

/-! ## Trees without their connectives -/

/-- What is left of a node if its connectives are forgotten. -/
abbrev Node.shape : Node → Node := map (fun _ => .and) id

abbrev Group.shape : Group → Group := map (fun _ => .and) id

/-- The text has the same shape below any two connectives, or the same error. -/
def Shaped (text : List Char) : Prop :=
  ∀ k₁ k₂, (readNode k₁ text).map Node.shape = (readNode k₂ text).map Node.shape

/-- Whether a term is a call, and of what on which arguments, does not depend on the connective that
is handed down. -/
theorem Call.ofTerm_cases (term : List Char) : (∃ e, ∀ k, ofTerm k term = .error e) ∨
    ∃ name body rest head args, parts? term = some (name, body, rest) ∧
      Head.ofName? name = some head ∧
      ∀ k, ofTerm k term = .ok ⟨trim name, head.verb, head.connective.getD k, args⟩ := by
  unfold ofTerm
  split
  · exact .inl ⟨_, fun _ => rfl⟩
  · rename_i name body rest hp
    split
    · simp only [Head.ofName?_trim]
      cases hh : Head.ofName? name with
      | none => exact .inl ⟨_, fun _ => rfl⟩
      | some head =>
        cases splitArguments body with
        | error e => exact .inl ⟨e, fun _ => rfl⟩
        | ok args => exact .inr ⟨name, body, rest, head, args, hp, hh, fun _ => rfl⟩
    · exact .inl ⟨_, fun _ => rfl⟩

theorem readAll_shape {texts : List (List Char)} (h : ∀ t ∈ texts, Shaped t)
    (k₁ k₂ : Connective) (negated : Bool) :
    ((readAll k₁ texts).map (.group k₁ negated)).map Node.shape =
      ((readAll k₂ texts).map (.group k₂ negated)).map Node.shape := by
  have hall : (readAll k₁ texts).map (List.map Node.shape) =
      (readAll k₂ texts).map (List.map Node.shape) :=
    readAll_image (List.forall₂_same.mpr fun t ht => h t ht k₁ k₂)
  rw [map_read_group, map_read_group, hall]

theorem Call.ofOperands_shape (name : List Char) (verb : Verb) (args : List (List Char))
    (c₁ c₂ : Connective) : (ofOperands ⟨name, verb, c₁, args⟩).map Node.shape =
      (ofOperands ⟨name, verb, c₂, args⟩).map Node.shape := by
  by_cases hv : verb = .isIn
  · subst hv
    rcases args with _ | ⟨field, _ | ⟨item, items⟩⟩ <;> rfl
  rcases args with _ | ⟨left, _ | ⟨r₁, _ | ⟨r₂, rights⟩⟩⟩
  · cases verb <;> rfl
  · cases verb <;> rfl
  · rw [ofOperands_pair hv, ofOperands_pair hv]
  · rw [ofOperands_fanOut hv, ofOperands_fanOut hv, map_read_group, map_read_group]

/-- A call has the same shape below any two connectives if its arguments have. -/
theorem Call.node_shape {args : List (List Char)} (h : ∀ a ∈ args, Shaped a) (name : List Char)
    (verb : Verb) (c₁ c₂ : Connective) : (node ⟨name, verb, c₁, args⟩).map Node.shape =
      (node ⟨name, verb, c₂, args⟩).map Node.shape := by
  unfold node
  simp only
  split
  · split
    · rfl
    · exact readAll_shape h c₁ c₂ false
  · split
    · rcases args with _ | ⟨a, _ | ⟨b, rest⟩⟩
      · rfl
      · have ha := h a (by simp) c₁ c₂
        rw [map_read_negation, map_read_negation, ha]
      · exact readAll_shape h c₁ c₂ true
    · exact ofOperands_shape name verb args c₁ c₂

theorem shaped_of_terms {text : List Char} (h : ∀ t, t.length < text.length → Shaped t)
    (hterm : ∀ term, splitArguments text = .ok [term] → ∀ k₁ k₂,
      (readTerm k₁ term).map Node.shape = (readTerm k₂ term).map Node.shape) : Shaped text := by
  intro k₁ k₂
  rw [readNode_eq, readNode_eq]
  cases hs : splitArguments text with
  | error e => rfl
  | ok terms =>
    rcases terms with _ | ⟨t, _ | ⟨t', rest⟩⟩
    · rfl
    · exact hterm t hs k₁ k₂
    · refine readAll_shape (fun a ha => h a ?_) k₁ k₂ false
      have h1 := totalLength_splitArguments hs
      have h2 := length_le_totalLength ha
      simp only [List.length_cons] at h1
      omega

/-- The connective that is handed down does not change the shape of what is read. -/
theorem shaped (text : List Char) : Shaped text := by
  -- the members of a list and the arguments of a term are shorter than the text
  induction hlen : text.length using Nat.strong_induction_on generalizing text with
  | _ len ih =>
  subst hlen
  refine shaped_of_terms (fun t ht => ih t.length ht t rfl) fun term hs k₁ k₂ => ?_
  rw [readTerm_eq_node, readTerm_eq_node]
  rcases Call.ofTerm_cases term with ⟨e, he⟩ | ⟨name, _, _, head, args, _, _, hcall⟩
  · rw [he, he]
  · rw [hcall, hcall]
    refine Call.node_shape (fun a ha => ih a.length ?_ a rfl) _ _ _ _
    have h1 := totalLength_splitArguments hs
    have h2 : totalLength args < term.length := Call.totalLength_args (hcall k₁)
    have h3 := length_le_totalLength ha
    simp only [totalLength] at h1
    omega

/-! ## Connectives on top -/

/-- A single term whose name is a connective. -/
def Joined (text : List Char) : Prop := ∃ term name body rest head,
  splitArguments text = .ok [term] ∧ Call.parts? term = some (name, body, rest) ∧
    Head.ofName? name = some head ∧ head.verb.connective?.isSome = true

/-- Such a term is read as a group of its own connective, whatever is handed down. -/
theorem Joined.exists_members {text : List Char} (h : Joined text) :
    ∃ c members, ∀ k, readNode k text = Except.map (Node.group c false) members := by
  obtain ⟨term, name, body, rest, head, hs, hp, hh, hv⟩ := h
  obtain ⟨c, hc⟩ := Option.isSome_iff_exists.mp hv
  have hgiven : head.connective = some c := (Head.connective_of_verb hh hv).trans hc
  have hread := fun k => readNode_eq_node k hs
  rcases Call.ofTerm_cases term with ⟨e, he⟩ | ⟨_, _, _, _, args, hp', hh', hcall⟩
  · refine ⟨c, .error e, fun k => ?_⟩
    rw [hread, he]
    rfl
  · cases hp.symm.trans hp'
    cases hh.symm.trans hh'
    simp only [hgiven, Option.getD_some] at hcall
    by_cases hne : args = []
    · subst hne
      refine ⟨c, .error (Call.tooFew ⟨trim name, head.verb, c, []⟩ 1), fun k => ?_⟩
      rw [hread, hcall]
      exact if_pos hv
    · refine ⟨c, readAll c args, fun k => ?_⟩
      rw [hread, hcall]
      exact Call.node_join hv hne

/-- The default connective only names connectives: two readings of one text differ in these alone or
have the same error. They do not differ at all if the text is one term that names its connective. -/
theorem Group.ofText_shape (text : String) (d₁ d₂ : Connective) :
    (ofText text d₁).map shape = (ofText text d₂).map shape ∧
      (Joined text.toList → ofText text d₁ = ofText text d₂) := by
  constructor
  · have h := shaped text.toList d₁ d₂
    rw [ofText, ofText, read, read, shape, map_read_root, map_read_root, h]
  · intro hj
    obtain ⟨c, members, hread⟩ := hj.exists_members
    rw [ofText, ofText, read_of_group (hread d₁), read_of_group (hread d₂)]

theorem Group.ofText_shape_any :
    Joined " Any ( neq|(a,1,2), not( eq(b,c) ) ) ".toList ∧
      ofText " Any ( neq|(a,1,2), not( eq(b,c) ) ) " .and = .ok ⟨.or, false,
        [.group .or false [.condition (.constant "a" .notEqual (.int 1)),
          .condition (.constant "a" .notEqual (.int 2))],
        .group .or true [.condition (.againstField "b" .equal "c")]]⟩ ∧
      ofText " Any ( neq|(a,1,2), not( eq(b,c) ) ) " .and =
        ofText " Any ( neq|(a,1,2), not( eq(b,c) ) ) " .xor := by
  have hj : Joined " Any ( neq|(a,1,2), not( eq(b,c) ) ) ".toList := by
    refine ⟨_, _, _, _, _, rfl, rfl, rfl, ?_⟩
    rfl
  have hunequal : readNode .or "neq|(a,1,2)".toList = .ok (.group .or false
      [.condition (.constant "a" .notEqual (.int 1)),
        .condition (.constant "a" .notEqual (.int 2))]) := readNode_of_call rfl rfl rfl
  have hequal : readNode .or "eq(b,c)".toList =
      .ok (.condition (.againstField "b" .equal "c")) := readNode_of_call rfl rfl rfl
  have hnot : readNode .or "not( eq(b,c) )".toList = .ok (.group .or true
      [.condition (.againstField "b" .equal "c")]) := readNode_of_negation hequal rfl rfl
  have hany : readNode .and " Any ( neq|(a,1,2), not( eq(b,c) ) ) ".toList =
      .ok (.group .or false _) :=
    readNode_of_join (readAll_cons hunequal (readAll_cons hnot rfl)) rfl rfl rfl nofun
  exact ⟨hj, congrArg (Except.map _) hany, (ofText_shape _ .and .xor).2 hj⟩

end Criteria
