import Criteria.Proofs.Text.Marks
import Criteria.Proofs.Text.Trimming

/-! # How deep parentheses are nested

The deepest nesting of parentheses outside quotes, found by one scan of a text. Balanced texts side
by side do not add to each other's depth, and a pair of parentheses around them adds one. -/
namespace Criteria
open Operand (isQuote)
open Text

/-- Where a scan for parentheses stands: outside quotes, in a quoted run, or there behind a
backslash, which makes the next character literal. -/
inductive Scan where
  | outside
  | quoted (q : Char)
  | escaped (q : Char)

/-- The most parentheses that are open at once in a text, if some are open before it. -/
def deepest : Nat → Scan → List Char → Nat
  | level, _, [] => level
  | level, .outside, c :: cs =>
    if isQuote c then deepest level (.quoted c) cs
    else if c = '(' then deepest (level + 1) .outside cs
    else if c = ')' then max level (deepest (level - 1) .outside cs)
    else deepest level .outside cs
  | level, .quoted q, c :: cs =>
    if c = '\\' then deepest level (.escaped q) cs
    else if c = q then deepest level .outside cs
    else deepest level (.quoted q) cs
  | level, .escaped q, _ :: cs => deepest level (.quoted q) cs

/-- The deepest nesting of parentheses outside quotes. -/
def parenDepth (cs : List Char) : Nat := deepest 0 .outside cs

/-! ## One step -/

section
variable {level : Nat} {c q : Char} {body cs : List Char}

theorem deepest_plain (hq : isQuote c = false) (ho : c ≠ '(') (hc : c ≠ ')') :
    deepest level .outside (c :: cs) = deepest level .outside cs := by
  rw [deepest, hq, if_neg Bool.false_ne_true, if_neg ho, if_neg hc]

theorem deepest_open : deepest level .outside ('(' :: cs) = deepest (level + 1) .outside cs := rfl

theorem deepest_close : deepest (level + 1) .outside (')' :: cs) =
    max (level + 1) (deepest level .outside cs) := rfl

/-- Parentheses in quotes do not count. -/
theorem deepest_quoted (hq : isQuote q = true) (hb : QuoteBody q body) :
    deepest level .outside (q :: (body ++ q :: cs)) = deepest level .outside cs := by
  have hne : q ≠ '\\' := by
    rintro rfl
    cases hq
  rw [deepest, if_pos hq]
  induction hb with
  | nil => rw [List.nil_append, deepest, if_neg hne, if_pos rfl]
  | plain hc hs _ ih => rw [List.cons_append, deepest, if_neg hs, if_neg hc, ih]
  | escaped _ ih => rw [List.cons_append, List.cons_append, deepest, if_pos rfl, deepest, ih]

end

theorem level_le_deepest (level : Nat) (scan : Scan) (cs : List Char) :
    level ≤ deepest level scan cs := by
  fun_induction deepest level scan cs with
  | case1 => exact Nat.le_refl _
  | case3 => omega
  | case4 => exact Nat.le_max_left _ _
  | _ => assumption

/-! ## Balanced texts -/

namespace Balanced
variable {commas : Bool} {cs : List Char}

/-- What is balanced leaves a scan at the level where it found it. -/
theorem deepest_append (h : Balanced commas cs) (level : Nat) (rest : List Char) :
    deepest level .outside (cs ++ rest) =
      max (level + parenDepth cs) (deepest level .outside rest) := by
  induction h generalizing level rest with
  | nil => exact (Nat.max_eq_right (level_le_deepest level .outside rest)).symm
  | plain hq ho hc _ _ ih =>
    rw [List.cons_append, deepest_plain hq ho hc, ih, parenDepth, parenDepth,
      deepest_plain hq ho hc]
  | quoted hq hb _ ih =>
    rw [List.cons_append, List.append_assoc, List.cons_append, deepest_quoted hq hb, ih, parenDepth,
      parenDepth, deepest_quoted hq hb]
  | @nested _ inner cs _ _ ihi ih =>
    have hdepth : parenDepth ('(' :: (inner ++ ')' :: cs)) =
        max (1 + parenDepth inner) (max 1 (parenDepth cs)) := by
      rw [parenDepth, deepest_open, ihi, deepest_close, Nat.zero_add, parenDepth, parenDepth]
    rw [List.cons_append, List.append_assoc, List.cons_append, deepest_open, ihi, deepest_close, ih,
      hdepth]
    omega

theorem parenDepth_append (h : Balanced commas cs) (rest : List Char) :
    parenDepth (cs ++ rest) = max (parenDepth cs) (parenDepth rest) := by
  rw [parenDepth, h.deepest_append, Nat.zero_add]
  rfl

theorem parenDepth_nested (h : Balanced commas cs) :
    parenDepth ('(' :: (cs ++ [')'])) = parenDepth cs + 1 := by
  have hend : deepest 0 .outside [] = 0 := rfl
  rw [parenDepth, deepest_open, h.deepest_append, deepest_close, hend]
  omega

end Balanced

/-! ## Parts of a text -/

theorem parenDepth_le_joinWith {p : List Char} {ps : List (List Char)} (hp : p ∈ ps)
    (hb : ∀ x ∈ ps, Balanced false x) : parenDepth p ≤ parenDepth (joinWith ',' ps) := by
  fun_induction joinWith ',' ps with
  | case1 => cases hp
  | case2 cs => rw [List.mem_singleton.mp hp]
  | case3 cs ds rest ih =>
    have hcomma : parenDepth (',' :: joinWith ',' (ds :: rest)) =
        parenDepth (joinWith ',' (ds :: rest)) := rfl
    rw [(hb cs (by simp)).parenDepth_append, hcomma]
    rcases List.mem_cons.mp hp with rfl | hp
    · exact Nat.le_max_left _ _
    · exact (ih hp fun x hx => hb x (List.mem_cons_of_mem _ hx)).trans (Nat.le_max_right _ _)

theorem parenDepth_trimLeft (cs : List Char) : parenDepth (trimLeft cs) = parenDepth cs := by
  induction cs with
  | nil => rfl
  | cons c cs ih =>
    rw [trimLeft, List.dropWhile_cons]
    split
    · rename_i hb
      obtain ⟨hq, ho, hc⟩ := isQuote_of_isBlank hb
      exact ih.trans (deepest_plain hq ho hc).symm
    · rfl

theorem parenDepth_trim_le {commas : Bool} {cs : List Char} (h : Balanced commas cs) :
    parenDepth (trim cs) ≤ parenDepth cs := by
  obtain ⟨blanks, hr⟩ := trimRight_prefix (trimLeft cs)
  have hdepth : parenDepth (trimLeft cs) = max (parenDepth (trim cs)) (parenDepth blanks) :=
    hr ▸ h.trim.parenDepth_append blanks
  rw [← parenDepth_trimLeft cs, hdepth]
  exact Nat.le_max_left _ _

end Criteria
