import Criteria.Group.Writer
import Criteria.Proofs.Grammar

/-! # Written calls read back

A call on texts that stand alone stands alone itself, and is read as a call of the same verb on
these texts. -/
namespace Criteria
open Text

/-- A segment that is not empty: a text that may be an argument. -/
structure Argument (text : List Char) : Prop extends Segment text where
  ne_nil : text ≠ []

variable {k c : Connective} {verb : Verb} {head : Head} {name : String} {body : List Char}
  {args : List (List Char)}

/-! ## Texts that stand alone -/

theorem readNode_trim (k : Connective) {text : List Char} (h : Balanced false text) :
    readNode k (trim text) = readNode k text :=
  (readNode_segment k ⟨h.trim, trimmed_trim text⟩).trans (readNode_balanced k h).symm

theorem readAll_trim (k : Connective) (h : ∀ a ∈ args, Balanced false a) :
    readAll k (args.map trim) = readAll k args := by
  rw [readAll, List.mapM_map]
  exact mapM_congr fun a ha => readNode_trim k (h a ha)

/-- Two or more texts in a list are read as the members of one group. -/
theorem readNode_list (k : Connective) (h : ∀ a ∈ args, Balanced false a) (h2 : 2 ≤ args.length) :
    readNode k (joinWith ',' args) = (readAll k args).map (.group k false) := by
  obtain ⟨a, b, rest, rfl⟩ := exists_cons_cons h2
  have hs := splitArguments_eq_ok_iff.mpr ⟨_, h, by simp, rfl, rfl⟩
  rw [readNode_eq, hs, ← readAll_trim k h]
  rfl

/-! ## Calls by any name -/

theorem callText_eq (name : String) (args : List (List Char)) :
    callText name args = name.toList ++ '(' :: (joinWith ',' args ++ [')']) := by
  simp [callText]

theorem balanced_callText_of_unmarked (hn : ∀ c ∈ name.toList, Unmarked c)
    (h : ∀ a ∈ args, Balanced false a) : Balanced false (callText name args) := by
  have hname : Balanced false name.toList := .of_plain hn
  have hbody : Balanced true (joinWith ',' args) := .joined fun a ha => (h a ha).allow
  rw [callText_eq]
  exact hname.append (.nested hbody .nil)

theorem balanced_callText (hn : Head.ofName? name.toList = some head)
    (h : ∀ a ∈ args, Balanced false a) : Balanced false (callText name args) :=
  balanced_callText_of_unmarked (Head.ofName?_unmarked hn) h

theorem trim_callText (name : String) (args : List (List Char)) : trim (callText name args) =
    trimLeft name.toList ++ '(' :: (joinWith ',' args ++ [')']) := by
  rw [callText_eq, trim, trimLeft_append_cons _ _ rfl]
  refine trimRight_eq_self fun c hc => ?_
  rw [← List.cons_append, ← List.append_assoc, List.getLast?_concat] at hc
  cases hc
  rfl

/-- A call is cut into its name and its arguments again. -/
theorem ofTerm_callText (k : Connective) (hn : Head.ofName? name.toList = some head)
    (h : ∀ a ∈ args, Balanced false a) (hone : args ≠ [[]]) :
    Call.ofTerm k (trim (callText name args)) =
      .ok ⟨trim name.toList, head.verb, head.connective.getD k, args.map trim⟩ := by
  have hseg : Segment (trim (callText name args)) :=
    ⟨(balanced_callText hn h).trim, trimmed_trim _⟩
  have hs : splitArguments (joinWith ',' args) = .ok (args.map trim) :=
    splitArguments_eq_ok_iff.mpr ⟨args, h, hone, rfl, rfl⟩
  have hname : Head.ofName? (trimLeft name.toList) = some head := by
    simpa only [Head.ofName?, trim_trimLeft] using hn
  exact (ofTerm_eq_ok_iff hseg).mpr ⟨_, _, head, trim_callText name args, hs, hname,
    (trim_trimLeft _).symm, rfl, rfl⟩

theorem readNode_callText (k : Connective) (hn : Head.ofName? name.toList = some head)
    (h : ∀ a ∈ args, Balanced false a) (hone : args ≠ [[]]) : readNode k (callText name args) =
      Call.node ⟨trim name.toList, head.verb, head.connective.getD k, args.map trim⟩ := by
  rw [readNode_balanced k (balanced_callText hn h), readTerm_eq_node, ofTerm_callText k hn h hone]
  rfl

/-- A connective joins what its arguments are read as. -/
theorem readNode_join (k : Connective) (hn : Head.ofName? name.toList = some ⟨verb, some c⟩)
    (hv : verb.connective?.isSome = true) (h : ∀ a ∈ args, Balanced false a) (hne : args ≠ [])
    (hone : args ≠ [[]]) :
    readNode k (callText name args) = (readAll c args).map (.group c false) := by
  rw [readNode_callText k hn h hone, Call.node_join hv (by simpa using hne), Option.getD_some,
    readAll_trim c h]

/-- A negation turns over what its arguments are read as in a list. -/
theorem readNode_complement (k : Connective)
    (hn : Head.ofName? name.toList = some ⟨.complement, none⟩) (h : ∀ a ∈ args, Balanced false a)
    (hne : args ≠ []) (hone : args ≠ [[]]) :
    readNode k (callText name args) = (readNode k (joinWith ',' args)).map (.negation k) := by
  rw [readNode_callText k hn h hone]
  rcases args with _ | ⟨a, _ | ⟨b, rest⟩⟩
  · exact absurd rfl hne
  · rw [joinWith, ← readNode_trim k (h a (by simp))]
    rfl
  · rw [readNode_list k h (by simp), ← readAll_trim k h, map_map]
    rfl

/-! ## Calls as they are written -/

theorem Argument.map_trim (h : ∀ a ∈ args, Argument a) : args.map trim = args :=
  (List.map_congr_left fun a ha => (h a ha).trimmed).trans (List.map_id _)

theorem Argument.ne_single_nil (h : ∀ a ∈ args, Argument a) : args ≠ [[]] := by
  intro he
  subst he
  exact (h [] (by simp)).ne_nil rfl

theorem Verb.trim_word (verb : Verb) : trim verb.word.toList = verb.word.toList := by
  cases verb <;> rfl

theorem Verb.argument_call (verb : Verb) (h : ∀ a ∈ args, Argument a) :
    Argument (verb.call args) := by
  have hleft : trimLeft verb.word.toList = verb.word.toList := by cases verb <;> rfl
  refine { balanced := ?_, trimmed := ?_, ne_nil := by simp [Verb.call, callText] }
  · exact balanced_callText verb.spells_word.ofName? fun a ha => (h a ha).balanced
  · rw [Trimmed, Verb.call, trim_callText, hleft, callText_eq]

theorem Connective.argument_call (c : Connective) (h : ∀ a ∈ args, Argument a) :
    Argument (c.call args) := by
  rw [Connective.call_eq]
  exact Verb.argument_call _ h

theorem argument_negationText (h : Argument body) : Argument (negationText body) :=
  Verb.argument_call _ (by simpa using h)

/-- Arguments may be joined before they are written into a call. -/
theorem Verb.call_append (verb : Verb) {xs ys : List (List Char)} (hx : xs ≠ []) (hy : ys ≠ []) :
    verb.call (xs ++ ys) = verb.call [joinWith ',' xs, joinWith ',' ys] := by
  rw [Verb.call, Verb.call, callText, callText, joinWith_append ',' hx hy]
  rfl

theorem Verb.call_cons (verb : Verb) (left : List Char) {ys : List (List Char)} (hy : ys ≠ []) :
    verb.call (left :: ys) = verb.call [left, joinWith ',' ys] :=
  verb.call_append (List.cons_ne_nil left []) hy

theorem Verb.call_concat (verb : Verb) {xs : List (List Char)} (hx : xs ≠ []) (right : List Char) :
    verb.call (xs ++ [right]) = verb.call [joinWith ',' xs, right] :=
  verb.call_append hx (List.cons_ne_nil right [])

/-- A written call is cut into its verb and its arguments again. -/
theorem ofTerm_call (k : Connective) (h : ∀ a ∈ args, Argument a) :
    Call.ofTerm k (verb.call args) =
      .ok ⟨verb.word.toList, verb, verb.connective?.getD k, args⟩ := by
  have hterm := ofTerm_callText k verb.spells_word.ofName? (fun a ha => (h a ha).balanced)
    (Argument.ne_single_nil h)
  have htrim : trim (verb.call args) = verb.call args := (verb.argument_call h).trimmed
  rwa [← Verb.call, htrim, verb.trim_word, Argument.map_trim h] at hterm

theorem readNode_negation (k : Connective) (h : Argument body) :
    readNode k (negationText body) = (readNode k body).map (.negation k) :=
  readNode_complement k (Verb.spells_word .complement).ofName? (by simpa using h.balanced)
    (by simp) (by simpa using h.ne_nil)

theorem readNode_connective (k : Connective) (hne : args ≠ []) (h : ∀ a ∈ args, Argument a) :
    readNode k (c.call args) = (readAll c args).map (.group c false) :=
  readNode_join k (by simpa using c.spells_name.ofName?) (by simp)
    (fun a ha => (h a ha).balanced) hne (Argument.ne_single_nil h)

theorem readNode_operands (k : Connective) (hj : verb.connective? = none)
    (hc : verb ≠ .complement) (h : ∀ a ∈ args, Argument a) :
    readNode k (verb.call args) = Call.ofOperands ⟨verb.word.toList, verb, k, args⟩ := by
  rw [readNode_segment k (verb.argument_call h).toSegment, readTerm_eq_node, ofTerm_call k h, hj]
  exact Call.node_operands hj hc

theorem readNode_pair {left right : List Char} (k : Connective) (hv : verb.Compares)
    (hl : Argument left) (hr : Argument right) :
    readNode k (verb.call [left, right]) =
      (Condition.ofArguments verb left right).map .condition := by
  have h : ∀ a ∈ [left, right], Argument a := by simp [hl, hr]
  rw [readNode_operands k hv.1 hv.2.1 h, ofOperands_pair hv.2.2]

/-- A negation that is written reads as the negation. -/
theorem readNode_negation_ok {n : Node} (h : Argument body) (hn : readNode k body = .ok n) :
    readNode k (negationText body) = .ok (n.negation k) := by
  rw [readNode_negation k h, hn]
  rfl

end Criteria
