import Criteria.Proofs.Arguments

/-! # Quoted strings

A quoted string is one segment, whatever it holds, and its body is read back. -/
namespace Criteria
open Text

theorem quoteBody_escape (cs : List Char) : QuoteBody '\'' (escape cs) := by
  induction cs with
  | nil => exact .nil
  | cons c cs ih =>
    unfold escape
    split
    · exact .escaped ih
    · rename_i h
      simp only [not_or] at h
      exact .plain h.2 h.1 ih

theorem segment_quote (cs : List Char) : Segment (quote cs) := by
  refine ⟨.quoted rfl (quoteBody_escape cs) .nil, trimmed_of_ends ?_ ?_⟩
  · intro c hc
    cases hc
    rfl
  · intro c hc
    have hl : (quote cs).getLast? = some '\'' := List.getLast?_concat
    rw [hl] at hc
    cases hc
    rfl

theorem quote_ne_nil (cs : List Char) : quote cs ≠ [] := List.cons_ne_nil _ _

theorem unescape_escape (cs : List Char) : unescape (escape cs) = cs := by
  induction cs with
  | nil => rfl
  | cons c cs ih =>
    unfold escape
    split
    · rw [unescape, ih]
    · rename_i h
      simp only [not_or] at h
      rw [unescape_plain h.1, ih]

/-- What stands in quotes is the text without its outermost quotes and parentheses. -/
theorem unquote_eq_ok_iff {cs body : List Char} (hne : cs ≠ []) :
    Operand.unquote cs = .ok body ↔ Bared cs body := by
  rw [← shows_top_iff, ← Splitter.pieces_clean_eq_singleton_iff hne, Operand.unquote]
  cases argumentSplitter.pieces true cs with
  | error e => simp
  | ok ps => rcases ps with _ | ⟨p, _ | ⟨p', ps⟩⟩ <;> simp

theorem bared_quote (cs : List Char) : Bared (quote cs) cs := by
  have h : Bared (quote cs) (unescape (escape cs) ++ []) :=
    .quoted rfl (quoteBody_escape cs) .nil
  rwa [List.append_nil, unescape_escape] at h

theorem unquote_quote (cs : List Char) : Operand.unquote (quote cs) = .ok cs :=
  (unquote_eq_ok_iff (quote_ne_nil cs)).mpr (bared_quote cs)

theorem isQuoted_iff {cs : List Char} : Operand.isQuoted cs = true ↔
    ∃ q rest, cs = q :: rest ∧ Operand.isQuote q = true ∧ rest.getLast? = some q := by
  cases cs with
  | nil => simp [Operand.isQuoted]
  | cons q rest => simp [Operand.isQuoted]

theorem lower_ne_null {q : Char} (hq : Operand.isQuote q = true) (rest : List Char) :
    (lower (q :: rest) == "null".toList) = false := by
  refine beq_false_of_ne fun he => ?_
  have hn : q.toLower = 'n' := (List.cons.inj he).1
  rcases isQuote_iff.mp hq with rfl | rfl <;> cases hn

/-- A string is told by its two ends alone. -/
theorem kindOfTrimmed_eq_string_iff {cs : List Char} :
    Operand.kindOfTrimmed cs = .string ↔ Operand.isQuoted cs = true := by
  constructor
  · intro h
    unfold Operand.kindOfTrimmed at h
    split at h
    · cases h
    · split at h
      · assumption
      · split at h
        · cases h
        · split at h <;> cases h
  · intro h
    obtain ⟨q, rest, rfl, hq, _⟩ := isQuoted_iff.mp h
    have hempty : (q :: rest).isEmpty = false := rfl
    simp only [Operand.kindOfTrimmed, hempty, lower_ne_null hq, h]
    rfl

theorem ne_nil_of_string {cs : List Char} (h : Operand.kindOfTrimmed cs = .string) : cs ≠ [] := by
  rintro rfl
  cases h

theorem kindOfTrimmed_quote (cs : List Char) : Operand.kindOfTrimmed (quote cs) = .string := by
  have hlast : (escape cs ++ ['\'']).getLast? = some '\'' := List.getLast?_concat
  exact kindOfTrimmed_eq_string_iff.mpr (isQuoted_iff.mpr ⟨_, _, rfl, rfl, hlast⟩)

end Criteria
