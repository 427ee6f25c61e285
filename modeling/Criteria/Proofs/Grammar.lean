import Criteria.Proofs.Call
import Criteria.Proofs.Operand

/-! # The grammar of propositions

Which node a text denotes, as rules over its calls and their segments. Reading a proposition gives
exactly the tree that the rules give it. -/
namespace Criteria
open Text

/-- A term is a call: a name that resolves, and a balanced text in the parentheses that end the
term. Where the name gives no connective, the one that is handed down counts. -/
def IsCall (k : Connective) (term : List Char) (verb : Verb) (c : Connective)
    (args : List (List Char)) : Prop :=
  ∃ name body head, term = name ++ '(' :: (body ++ [')']) ∧ Segments body args ∧
    Head.ofName? name = some head ∧ head.verb = verb ∧ head.connective.getD k = c

/-- The verbs that make a condition of two operands. -/
def Verb.Compares (verb : Verb) : Prop :=
  verb.connective? = none ∧ verb ≠ .complement ∧ verb ≠ .isIn

/-- The node of a term below a connective. -/
inductive Denotes : Connective → List Char → Node → Prop
  /-- A connective joins the nodes of its arguments, of which there is at least one. -/
  | join {k c : Connective} {term : List Char} {verb : Verb} {args : List (List Char)}
      {members : List Node} : IsCall k term verb c args → verb.connective?.isSome = true →
      args ≠ [] → args.length = members.length → (∀ p ∈ args.zip members, Denotes c p.1 p.2) →
      Denotes k term (.group c false members)
  /-- The negation of a group turns it over, that of a condition is a group of one. -/
  | negate {k c : Connective} {term arg : List Char} {n : Node} :
      IsCall k term .complement c [arg] → Denotes c arg n → Denotes k term (n.negation c)
  /-- Several arguments are negated as one group. -/
  | negateAll {k c : Connective} {term : List Char} {args : List (List Char)}
      {members : List Node} : IsCall k term .complement c args → 2 ≤ args.length →
      args.length = members.length → (∀ p ∈ args.zip members, Denotes c p.1 p.2) →
      Denotes k term (.group c true members)
  /-- A field and at least one constant. -/
  | membership {k c : Connective} {term field : List Char} {items : List (List Char)}
      {values : List Value} {f : Operand} : IsCall k term .isIn c (field :: items) → items ≠ [] →
      Operand.classify field = .ok f → f.isVariable = true → items.length = values.length →
      (∀ p ∈ items.zip values, IsItem p.1 p.2) →
      Denotes k term (.condition (.isIn f.text values))
  | compare {k c : Connective} {term left right : List Char} {verb : Verb} {d : Condition} :
      IsCall k term verb c [left, right] → verb.Compares →
      Condition.ofArguments verb left right = .ok d → Denotes k term (.condition d)
  /-- One condition for each value, all with the first operand. -/
  | fanOut {k c : Connective} {term left : List Char} {rights : List (List Char)} {verb : Verb}
      {conditions : List Condition} : IsCall k term verb c (left :: rights) → verb.Compares →
      2 ≤ rights.length → rights.length = conditions.length →
      (∀ p ∈ rights.zip conditions, Condition.ofArguments verb left p.1 = .ok p.2) →
      Denotes k term (.group c false (conditions.map .condition))

/-- The tree of the segments of a proposition: one segment gives its node as a group, several are
joined by the given connective. -/
inductive DenotesTree (k : Connective) : List (List Char) → Group → Prop
  | term {term : List Char} {n : Node} : Denotes k term n → DenotesTree k [term] (.ofNode k n)
  | list {terms : List (List Char)} {members : List Node} : 2 ≤ terms.length →
      terms.length = members.length → (∀ p ∈ terms.zip members, Denotes k p.1 p.2) →
      DenotesTree k terms ⟨k, false, members⟩

/-! ## Reading by the rules -/

theorem isCall_iff {k : Connective} {term : List Char} (ht : Segment term) {verb : Verb}
    {c : Connective} {args : List (List Char)} : IsCall k term verb c args ↔
      ∃ call, Call.ofTerm k term = .ok call ∧ call.verb = verb ∧ call.connective = c ∧
        call.args = args := by
  constructor
  · rintro ⟨name, body, head, he, hs, hh, rfl, rfl⟩
    refine ⟨⟨trim name, head.verb, head.connective.getD k, args⟩, ?_, rfl, rfl, rfl⟩
    exact (ofTerm_eq_ok_iff ht).mpr
      ⟨name, body, head, he, splitArguments_eq_ok_iff.mpr hs, hh, rfl, rfl, rfl⟩
  · rintro ⟨call, hc, rfl, rfl, rfl⟩
    obtain ⟨name, body, head, he, hs, hh, _, hv, hk⟩ := (ofTerm_eq_ok_iff ht).mp hc
    exact ⟨name, body, head, he, splitArguments_eq_ok_iff.mp hs, hh, hv.symm, hk.symm⟩

theorem IsCall.segment {k c : Connective} {term : List Char} {verb : Verb}
    {args : List (List Char)} (h : IsCall k term verb c args) : ∀ arg ∈ args, Segment arg := by
  obtain ⟨_, _, _, _, hs, _⟩ := h
  exact hs.segment

/-- A text without commas of its own is read as a term. -/
theorem readNode_balanced (k : Connective) {text : List Char} (h : Balanced false text) :
    readNode k text = readTerm k (trim text) := by
  rw [readNode_eq]
  cases text with
  | nil => rw [readTerm_eq]; rfl
  | cons c cs =>
    have hs : splitArguments (c :: cs) = .ok [trim (c :: cs)] :=
      splitArguments_eq_ok_iff.mpr ⟨[c :: cs], by simpa using h, by simp, rfl, rfl⟩
    rw [hs]

theorem readNode_segment (k : Connective) {s : List Char} (h : Segment s) :
    readNode k s = readTerm k s := by
  rw [readNode_balanced k h.balanced, h.trimmed]

theorem readAll_eq_ok_iff {k : Connective} {texts : List (List Char)} {ns : List Node} :
    readAll k texts = .ok ns ↔
      texts.length = ns.length ∧ ∀ p ∈ texts.zip ns, readNode k p.1 = .ok p.2 :=
  mapM_eq_ok_iff

/-- Texts that are segments are read as terms. -/
theorem readAll_of_terms {k : Connective} {texts : List (List Char)} {ns : List Node}
    (hs : ∀ t ∈ texts, Segment t) (hl : texts.length = ns.length)
    (h : ∀ p ∈ texts.zip ns, Segment p.1 → readTerm k p.1 = .ok p.2) :
    readAll k texts = .ok ns := by
  refine readAll_eq_ok_iff.mpr ⟨hl, ?_⟩
  intro p hp
  have hseg := hs p.1 (List.of_mem_zip hp).1
  exact (readNode_segment _ hseg).trans (h p hp hseg)

theorem exists_cons_cons {α : Type} {xs : List α} (h : 2 ≤ xs.length) :
    ∃ a b rest, xs = a :: b :: rest := by
  rcases xs with _ | ⟨a, _ | ⟨b, rest⟩⟩
  · simp at h
  · simp at h
  · exact ⟨a, b, rest, rfl⟩

theorem itemValue_eq_ok_iff {text : List Char} {v : Value} :
    Condition.itemValue text = .ok v ↔ IsItem text v := by
  unfold Condition.itemValue IsItem
  cases Operand.classify text with
  | error e => simp [bind, Except.bind]
  | ok o => cases hv : o.isVariable <;> simp [bind, Except.bind, hv]

theorem itemValues_eq_mapM (texts : List (List Char)) :
    Condition.itemValues texts = texts.mapM Condition.itemValue := by
  induction texts with
  | nil => rfl
  | cons t ts ih => rw [Condition.itemValues, ih, List.mapM_cons]

theorem fanOut_eq (verb : Verb) (left : List Char) (rights : List (List Char)) :
    Call.fanOut verb left rights =
      (rights.mapM (Condition.ofArguments verb left)).map (List.map Node.condition) :=
  mapM_except_map _ _ _

theorem ofOperands_pair {name left right : List Char} {verb : Verb} {c : Connective}
    (hv : verb ≠ .isIn) : Call.ofOperands ⟨name, verb, c, [left, right]⟩ =
      (Condition.ofArguments verb left right).map .condition := by
  unfold Call.ofOperands
  split <;> simp_all

theorem ofOperands_fanOut {name left r₁ r₂ : List Char} {rights : List (List Char)} {verb : Verb}
    {c : Connective} (hv : verb ≠ .isIn) :
    Call.ofOperands ⟨name, verb, c, left :: r₁ :: r₂ :: rights⟩ =
      (Call.fanOut verb left (r₁ :: r₂ :: rights)).map (.group c false) := by
  unfold Call.ofOperands
  split <;> simp_all

theorem membership_eq_ok_iff {field : List Char} {items : List (List Char)} {d : Condition} :
    Condition.membership field items = .ok d ↔ ∃ f values, Operand.classify field = .ok f ∧
      f.isVariable = true ∧ items.length = values.length ∧
      (∀ p ∈ items.zip values, IsItem p.1 p.2) ∧ Condition.isIn f.text values = d := by
  unfold Condition.membership
  rw [bind_eq_ok_iff, itemValues_eq_mapM]
  constructor
  · rintro ⟨f, hf, h⟩
    split at h
    · rename_i hv
      obtain ⟨values, hvs, h⟩ := bind_eq_ok_iff.mp h
      obtain ⟨hl, he⟩ := mapM_eq_ok_iff.mp hvs
      exact ⟨f, values, hf, hv, hl, fun p hp => itemValue_eq_ok_iff.mp (he p hp), Except.ok.inj h⟩
    · cases h
  · rintro ⟨f, values, hf, hv, hl, he, rfl⟩
    refine ⟨f, hf, ?_⟩
    rw [if_pos hv]
    have hvs := mapM_eq_ok_iff.mpr ⟨hl, fun p hp => itemValue_eq_ok_iff.mpr (he p hp)⟩
    exact bind_eq_ok_iff.mpr ⟨values, hvs, rfl⟩

/-- What the operands of a call make is denoted by the call. -/
theorem denotes_of_ofOperands {k : Connective} {term : List Char} {call : Call} {n : Node}
    (hc : IsCall k term call.verb call.connective call.args)
    (hj : call.verb.connective? = none) (hn : call.verb ≠ .complement)
    (h : call.ofOperands = .ok n) : Denotes k term n := by
  obtain ⟨name, verb, c, args⟩ := call
  by_cases hin : verb = .isIn
  · subst hin
    rcases args with _ | ⟨field, _ | ⟨item, items⟩⟩
    · cases h
    · cases h
    · obtain ⟨d, hd, rfl⟩ := map_eq_ok h
      obtain ⟨f, values, hf, hv, hl, he, rfl⟩ := membership_eq_ok_iff.mp hd
      exact .membership hc (by simp) hf hv hl he
  · have hcmp : verb.Compares := ⟨hj, hn, hin⟩
    rcases args with _ | ⟨left, _ | ⟨right, _ | ⟨right', rights⟩⟩⟩
    · cases verb <;> cases h
    · cases verb <;> cases h
    · rw [ofOperands_pair hin] at h
      obtain ⟨d, hd, rfl⟩ := map_eq_ok h
      exact .compare hc hcmp hd
    · rw [ofOperands_fanOut hin, fanOut_eq] at h
      obtain ⟨ns, hns, rfl⟩ := map_eq_ok h
      obtain ⟨ds, hds, rfl⟩ := map_eq_ok hns
      obtain ⟨hl, he⟩ := mapM_eq_ok_iff.mp hds
      exact .fanOut hc hcmp (by simp) hl he

theorem denotes_of_readTerm {k : Connective} {term : List Char} {n : Node} (ht : Segment term)
    (h : readTerm k term = .ok n) : Denotes k term n := by
  induction hlen : term.length using Nat.strong_induction_on generalizing k term n with
  | _ len ih =>
  rw [readTerm_eq] at h
  cases hcall : Call.ofTerm k term with
  | error e => rw [hcall] at h; cases h
  | ok call =>
    have hc := (isCall_iff ht).mpr ⟨call, hcall, rfl, rfl, rfl⟩
    have arg : ∀ a ∈ call.args, ∀ m, readNode call.connective a = .ok m →
        Denotes call.connective a m := by
      intro a ha m hm
      have hs := hc.segment a ha
      have h1 := Call.totalLength_args hcall
      have h2 := length_le_totalLength ha
      rw [readNode_segment _ hs] at hm
      exact ih a.length (by omega) hs hm rfl
    have all : ∀ ns, readAll call.connective call.args = .ok ns →
        call.args.length = ns.length ∧ ∀ p ∈ call.args.zip ns, Denotes call.connective p.1 p.2 := by
      intro ns hns
      obtain ⟨hl, he⟩ := readAll_eq_ok_iff.mp hns
      exact ⟨hl, fun p hp => arg p.1 (List.of_mem_zip hp).1 p.2 (he p hp)⟩
    rw [hcall] at h
    simp only at h
    split at h
    · rename_i hj
      split at h
      · cases h
      · rename_i hne
        obtain ⟨ns, hns, rfl⟩ := map_eq_ok h
        obtain ⟨hl, he⟩ := all ns hns
        exact .join hc hj (by simpa using hne) hl he
    · rename_i hj
      split at h
      · rename_i hv
        rw [hv] at hc
        split at h
        · cases h
        · rename_i a ha
          obtain ⟨m, hm, rfl⟩ := map_eq_ok h
          rw [ha] at hc
          exact .negate hc (arg a (by simp [ha]) m hm)
        · rename_i hnil hone
          obtain ⟨ns, hns, rfl⟩ := map_eq_ok h
          obtain ⟨hl, he⟩ := all ns hns
          refine .negateAll hc ?_ hl he
          rcases hargs : call.args with _ | ⟨a, _ | ⟨b, as⟩⟩
          · exact absurd hargs hnil
          · exact absurd hargs (hone a)
          · simp
      · rename_i hv
        exact denotes_of_ofOperands hc (by simpa using hj) hv h

/-- What the rules give for a segment is read. -/
theorem readTerm_of_denotes {k : Connective} {term : List Char} {n : Node} (ht : Segment term)
    (h : Denotes k term n) : readTerm k term = .ok n := by
  induction h with
  | @join k c term verb args members hc hj hne hl _ ih =>
    obtain ⟨call, hcall, rfl, rfl, rfl⟩ := (isCall_iff ht).mp hc
    have hall : readAll call.connective call.args = .ok members :=
      readAll_of_terms hc.segment hl ih
    rw [readTerm_of_call hcall, Call.node_join hj hne, hall]
    rfl
  | @negate k c term arg n hc _ ih =>
    have hs := hc.segment arg (by simp)
    obtain ⟨call, hcall, hv, rfl, ha⟩ := (isCall_iff ht).mp hc
    rw [readTerm_of_call hcall, Call.node_complement hv ha, readNode_segment _ hs, ih hs]
    rfl
  | @negateAll k c term args members hc h2 hl _ ih =>
    have hall : readAll c args = .ok members := readAll_of_terms hc.segment hl ih
    obtain ⟨call, hcall, hv, rfl, rfl⟩ := (isCall_iff ht).mp hc
    rw [readTerm_of_call hcall, Call.node_complementAll hv h2, hall]
    rfl
  | @membership k c term field items values f hc hne hf hv hl he =>
    obtain ⟨call, hcall, hverb, rfl, ha⟩ := (isCall_iff ht).mp hc
    obtain ⟨item, rest, rfl⟩ := List.exists_cons_of_ne_nil hne
    have hm := membership_eq_ok_iff.mpr ⟨f, values, hf, hv, hl, he, rfl⟩
    obtain ⟨name, verb, c, args⟩ := call
    simp only at hverb ha
    subst hverb ha
    rw [readTerm_of_call hcall, Call.node_operands rfl (by simp)]
    exact congrArg (Except.map Node.condition) hm
  | @compare k c term left right verb d hc hcmp hd =>
    obtain ⟨call, hcall, rfl, rfl, ha⟩ := (isCall_iff ht).mp hc
    obtain ⟨name, verb, c, args⟩ := call
    simp only at ha hcmp hd
    subst ha
    rw [readTerm_of_call hcall, Call.node_operands hcmp.1 hcmp.2.1, ofOperands_pair hcmp.2.2, hd]
    rfl
  | @fanOut k c term left rights verb ds hc hcmp h2 hl he =>
    obtain ⟨call, hcall, rfl, rfl, ha⟩ := (isCall_iff ht).mp hc
    obtain ⟨name, verb, c, args⟩ := call
    simp only at ha hcmp he
    subst ha
    have hds := mapM_eq_ok_iff.mpr ⟨hl, he⟩
    obtain ⟨r₁, r₂, rs, rfl⟩ := exists_cons_cons h2
    rw [readTerm_of_call hcall, Call.node_operands hcmp.1 hcmp.2.1, ofOperands_fanOut hcmp.2.2,
      fanOut_eq, hds]
    rfl

theorem readNode_eq_ok_iff {k : Connective} {s : List Char} {n : Node} (hs : Segment s) :
    readNode k s = .ok n ↔ Denotes k s n := by
  rw [readNode_segment k hs]
  exact ⟨denotes_of_readTerm hs, readTerm_of_denotes hs⟩

theorem readAll_segments_iff {k : Connective} {texts : List (List Char)} {ns : List Node}
    (hs : ∀ t ∈ texts, Segment t) : readAll k texts = .ok ns ↔
      texts.length = ns.length ∧ ∀ p ∈ texts.zip ns, Denotes k p.1 p.2 := by
  rw [readAll_eq_ok_iff]
  refine and_congr_right fun _ => forall₂_congr fun p hp => ?_
  exact readNode_eq_ok_iff (hs p.1 (List.of_mem_zip hp).1)

theorem readNode_segments {k : Connective} {text : List Char} {segments : List (List Char)}
    {t : Group} (hs : Segments text segments) :
    (readNode k text).map (Group.ofNode k) = .ok t ↔ DenotesTree k segments t := by
  rw [readNode_eq, splitArguments_eq_ok_iff.mpr hs]
  have seg := hs.segment
  rcases segments with _ | ⟨s, _ | ⟨s', rest⟩⟩
  · constructor
    · intro h
      cases h
    · intro h
      cases h with
      | list h2 => simp at h2
  · have hone : readTerm k s = readNode k s := (readNode_segment k (seg s (by simp))).symm
    simp only [hone]
    constructor
    · intro h
      obtain ⟨n, hn, rfl⟩ := map_eq_ok h
      exact .term ((readNode_eq_ok_iff (seg s (by simp))).mp hn)
    · intro h
      cases h with
      | term hn => rw [(readNode_eq_ok_iff (seg s (by simp))).mpr hn]; rfl
      | list h2 => simp at h2
  · constructor
    · intro h
      obtain ⟨n, hn, rfl⟩ := map_eq_ok h
      obtain ⟨ns, hns, rfl⟩ := map_eq_ok hn
      obtain ⟨hl, he⟩ := (readAll_segments_iff seg).mp hns
      exact .list (by simp) hl he
    · intro h
      cases h with
      | list _ hl he =>
        simp only [(readAll_segments_iff seg).mpr ⟨hl, he⟩]
        rfl

/-- Reading a proposition gives the tree of its segments and nothing else: what is read is balanced,
not empty, and denotes the tree, and whatever does so is read. -/
theorem Group.ofText_eq_ok_iff (text : String) (k : Connective) (t : Group) :
    Group.ofText text k = .ok t ↔ text ≠ "" ∧ Balanced true text.toList ∧
      ∃ segments, Segments text.toList segments ∧ DenotesTree k segments t := by
  unfold Group.ofText Group.read
  constructor
  · intro h
    obtain ⟨n, hn, _⟩ := map_eq_ok h
    cases hs : splitArguments text.toList with
    | error e => rw [readNode_eq, hs] at hn; cases hn
    | ok segments =>
      have hs := splitArguments_eq_ok_iff.mp hs
      refine ⟨?_, balanced_iff_segments.mpr ⟨_, hs⟩, segments, hs, (readNode_segments hs).mp h⟩
      rintro rfl
      rw [readNode_eq] at hn
      cases hn
  · rintro ⟨_, _, segments, hs, ht⟩
    exact (readNode_segments hs).mpr ht

end Criteria
