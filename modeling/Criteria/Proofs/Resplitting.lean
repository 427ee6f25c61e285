import Criteria.Proofs.ReadError

/-! # Arguments that are split again

The reader splits every argument of a call from scratch, and once more to take the quotes off a
string. Neither finds a comma to cut at: trimming leaves a balanced text balanced, so that what was
one segment stays one. -/
namespace Criteria
open Text

/-- A text that is one argument for whatever reads it again: unless it is empty it is its own only
segment, it is read as a term and never as a list of terms, and if it is a string it has one body. -/
structure StaysSingle (text : List Char) : Prop where
  alone : text ≠ [] → splitArguments text = .ok [text]
  unlisted : ∀ t₁ t₂ ts, splitArguments text ≠ .ok (t₁ :: t₂ :: ts)
  term : ∀ k, readNode k text = readTerm k text
  body : ∀ o, Operand.classify text = .ok o → o.kind = .string →
    ∃ body, argumentSplitter.pieces true o.raw = .ok [body] ∧
      o.value = .ok (.string (String.ofList body))

namespace Segment
variable {s : List Char}

theorem splitArguments_eq (h : Segment s) (hne : s ≠ []) : splitArguments s = .ok [s] := by
  have hmap : [s].map trim = [s] := congrArg (fun t => [t]) h.trimmed
  exact splitArguments_eq_ok_iff.mpr ⟨[s], by simpa using h.balanced, by simpa using hne, rfl, hmap⟩

theorem staysSingle (h : Segment s) : StaysSingle s where
  alone := h.splitArguments_eq
  unlisted t₁ t₂ ts he := by
    by_cases hne : s = []
    · subst hne
      cases he
    · rw [h.splitArguments_eq hne] at he
      cases he
  term k := readNode_segment k h
  body o ho hk := by
    obtain ⟨rfl, _, _⟩ := classify_eq_ok_iff.mp ho
    have hk : Operand.kindOf s = .string := hk
    rw [hk]
    exact exists_body h.balanced hk

end Segment

/-- The arguments of a call are segments, whatever the term is. -/
theorem Call.segment_of_ofTerm {k : Connective} {term : List Char} {call : Call}
    (h : ofTerm k term = .ok call) : ∀ a ∈ call.args, Segment a := by
  obtain ⟨name, body, rest, head, _, _, hargs, _⟩ := ofTerm_spec h
  exact (splitArguments_eq_ok_iff.mp hargs).segment

/-- A malformed string begins with a quote and ends in another way, so that it is none of the kind
of strings. -/
theorem kindOfTrimmed_of_malformed {k : Connective} {text : List Char} {s : String}
    (h : readNode k text = .error (.malformedString s)) :
    Operand.kindOfTrimmed s.toList ≠ .string := by
  rcases readNode_error_cases h with hsplit | he
  · obtain ⟨f, _, hf⟩ := splitArguments_eq_error_iff.mp hsplit
    cases hf
  · obtain ⟨q, hhead, _, hlast⟩ := he.holds
    intro hk
    obtain ⟨q', rest, hs, _, hrest⟩ := isQuoted_iff.mp (kindOfTrimmed_eq_string_iff.mp hk)
    rw [hs] at hhead hlast
    cases hhead
    refine hlast ?_
    rw [List.getLast?_cons, hrest]
    rfl

/-- What was one segment stays one: split again it is its own only segment, an argument of a call is
always read as a term and never as a list of terms, and an argument that is a string has one body,
so that no string is refused for falling into several. -/
theorem arguments_stay_single :
    (∀ text segments, splitArguments text = .ok segments → ∀ s ∈ segments, StaysSingle s) ∧
    (∀ k term call, Call.ofTerm k term = .ok call → ∀ a ∈ call.args, StaysSingle a) ∧
    ∀ text k s, Group.ofText text k = .error (.malformedString s) →
      Operand.kindOfTrimmed s.toList ≠ .string := by
  refine ⟨fun text segments h s hs => ?_, fun k term call h a ha => ?_, fun text k s h => ?_⟩
  · exact ((splitArguments_eq_ok_iff.mp h).segment s hs).staysSingle
  · exact (Call.segment_of_ofTerm h a ha).staysSingle
  · exact kindOfTrimmed_of_malformed (map_eq_error_iff.mp h)

theorem arguments_stay_single_quoted :
    (splitArguments " 'a,(' , f(1,')') ,\t\"\\\"\" ".toList =
      .ok ["'a,('".toList, "f(1,')')".toList, "\"\\\"\"".toList] ∧
      StaysSingle "'a,('".toList ∧ StaysSingle "f(1,')')".toList ∧
      StaysSingle "\"\\\"\"".toList) ∧
    (Call.ofTerm .and "Eqor ( a , ' ,\\'' )".toList =
      .ok ⟨"Eqor".toList, .equal, .or, ["a".toList, "' ,\\''".toList]⟩ ∧
      StaysSingle "a".toList ∧ StaysSingle "' ,\\''".toList) ∧
    Group.ofText "eq(a,'x'y)" .and = .error (.malformedString "'x'y") ∧
      Operand.kindOfTrimmed "'x'y".toList ≠ .string := by
  obtain ⟨hsplit, hcall, herror⟩ := arguments_stay_single
  have hs : splitArguments " 'a,(' , f(1,')') ,\t\"\\\"\" ".toList =
      .ok ["'a,('".toList, "f(1,')')".toList, "\"\\\"\"".toList] := rfl
  have hc : Call.ofTerm .and "Eqor ( a , ' ,\\'' )".toList =
      .ok ⟨"Eqor".toList, .equal, .or, ["a".toList, "' ,\\''".toList]⟩ := rfl
  have hnode : readNode .and "eq(a,'x'y)".toList = .error (.malformedString "'x'y") :=
    Eq.trans (readNode_eq_node .and rfl) rfl
  have he : Group.ofText "eq(a,'x'y)" .and = .error (.malformedString "'x'y") :=
    congrArg (Except.map _) hnode
  refine ⟨⟨hs, ?_, ?_, ?_⟩, ⟨hc, ?_, ?_⟩, he, herror _ _ _ he⟩
  · exact hsplit _ _ hs _ (by simp)
  · exact hsplit _ _ hs _ (by simp)
  · exact hsplit _ _ hs _ (by simp)
  · exact hcall _ _ _ hc _ (by simp)
  · exact hcall _ _ _ hc _ (by simp)

end Criteria
