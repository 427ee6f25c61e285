import Criteria.Proofs.Text.Balanced

/-! # Trimming

Trimming stops at the first character from either end that is no blank. Blanks mean nothing to the
argument splitter, so a balanced text stays balanced. -/
namespace Criteria
open Operand (isQuote)

namespace Text

/-- A text that begins and ends with a character that is no blank, or is empty. -/
def Trimmed (cs : List Char) : Prop := trim cs = cs

theorem trimRight_concat (cs : List Char) (c : Char) :
    trimRight (cs ++ [c]) = if isBlank c then trimRight cs else cs ++ [c] := by
  unfold trimRight
  rw [List.reverse_concat, List.dropWhile_cons]
  split <;> simp

theorem trimLeft_eq_self {cs : List Char} (h : ∀ c ∈ cs.head?, isBlank c = false) :
    trimLeft cs = cs := by
  cases cs with
  | nil => rfl
  | cons c cs => exact List.dropWhile_cons_of_neg (by simpa using h c rfl)

theorem trimRight_eq_self {cs : List Char} (h : ∀ c ∈ cs.getLast?, isBlank c = false) :
    trimRight cs = cs := by
  rcases List.eq_nil_or_concat cs with rfl | ⟨ds, c, rfl⟩
  · rfl
  · rw [List.concat_eq_append] at h ⊢
    rw [trimRight_concat, h c (by simp)]
    rfl

theorem trimmed_of_ends {cs : List Char} (hh : ∀ c ∈ cs.head?, isBlank c = false)
    (hl : ∀ c ∈ cs.getLast?, isBlank c = false) : Trimmed cs := by
  rw [Trimmed, trim, trimLeft_eq_self hh]
  exact trimRight_eq_self hl

theorem trimmed_of_not_blank {cs : List Char} (h : ∀ c ∈ cs, isBlank c = false) : Trimmed cs :=
  trimmed_of_ends (fun c hc => h c (List.mem_of_head? hc)) fun c hc =>
    h c (List.mem_of_getLast? hc)

theorem trimLeft_append_cons (cs : List Char) {c : Char} (ds : List Char) (h : isBlank c = false) :
    trimLeft (cs ++ c :: ds) = trimLeft cs ++ c :: ds := by
  induction cs with
  | nil => exact trimLeft_eq_self (by simpa using h)
  | cons d cs ih =>
    unfold trimLeft at ih ⊢
    rw [List.cons_append, List.dropWhile_cons, List.dropWhile_cons, ih]
    split <;> rfl

theorem head?_trimLeft (cs : List Char) : ∀ c ∈ (trimLeft cs).head?, isBlank c = false := by
  intro c hc
  have := List.head?_dropWhile_not isBlank cs
  simp only [trimLeft, Option.mem_def] at hc
  simpa [hc] using this

theorem trim_trimLeft (cs : List Char) : trim (trimLeft cs) = trim cs := by
  rw [trim, trimLeft_eq_self (head?_trimLeft cs), trim]

theorem getLast?_trimRight (cs : List Char) : ∀ c ∈ (trimRight cs).getLast?, isBlank c = false := by
  intro c hc
  rw [trimRight, List.getLast?_reverse] at hc
  exact head?_trimLeft cs.reverse c hc

theorem trimRight_prefix (cs : List Char) : trimRight cs <+: cs := by
  have := List.reverse_prefix.mpr (List.dropWhile_suffix isBlank (l := cs.reverse))
  simpa [trimRight] using this

theorem head?_trim (cs : List Char) : ∀ c ∈ (trim cs).head?, isBlank c = false := by
  intro c hc
  obtain ⟨rest, hr⟩ := trimRight_prefix (trimLeft cs)
  refine head?_trimLeft cs c ?_
  rw [← hr, List.head?_append]
  rw [trim] at hc
  simp [Option.mem_def.mp hc]

theorem getLast?_trim (cs : List Char) : ∀ c ∈ (trim cs).getLast?, isBlank c = false :=
  getLast?_trimRight _

theorem trimmed_trim (cs : List Char) : Trimmed (trim cs) :=
  trimmed_of_ends (head?_trim cs) (getLast?_trim cs)

@[simp] theorem trim_trim (cs : List Char) : trim (trim cs) = trim cs := trimmed_trim cs

theorem Trimmed.head? {cs : List Char} (h : Trimmed cs) : ∀ c ∈ cs.head?, isBlank c = false := by
  rw [← h]
  exact head?_trim cs

theorem Trimmed.getLast? {cs : List Char} (h : Trimmed cs) :
    ∀ c ∈ cs.getLast?, isBlank c = false := by
  rw [← h]
  exact getLast?_trim cs

theorem mem_trim {c : Char} {cs : List Char} (h : c ∈ cs) (hb : isBlank c = false) :
    c ∈ trim cs := by
  have keep : ∀ {ds : List Char}, c ∈ ds → c ∈ ds.dropWhile isBlank := by
    intro ds hd
    rw [← List.takeWhile_append_dropWhile (p := isBlank) (l := ds)] at hd
    rcases List.mem_append.mp hd with ht | ht
    · rw [List.mem_takeWhile_imp ht] at hb
      cases hb
    · exact ht
  have hl : c ∈ trimLeft cs := keep h
  exact List.mem_reverse.mpr (keep (List.mem_reverse.mpr hl))

/-- What follows a character of a trimmed text is empty if it has only blanks. -/
theorem Trimmed.suffix_eq_nil (cs : List Char) {ds : List Char} (h : Trimmed (cs ++ ds))
    (hd : trim ds = []) : ds = [] := by
  rcases List.eq_nil_or_concat ds with rfl | ⟨es, c, rfl⟩
  · rfl
  · have hc : isBlank c = false := h.getLast? c (by simp)
    have hm : c ∈ trim (es.concat c) := mem_trim (by simp) hc
    rw [hd] at hm
    cases hm

end Text

open Text

theorem isInfix_trim (cs : List Char) : trim cs <:+: cs := by
  have right := trimRight_prefix (trimLeft cs)
  have left : trimLeft cs <:+ cs := List.dropWhile_suffix isBlank
  exact right.isInfix.trans left.isInfix

theorem isQuote_of_isBlank {c : Char} (h : isBlank c = true) :
    isQuote c = false ∧ c ≠ '(' ∧ c ≠ ')' := by
  refine ⟨?_, ?_, ?_⟩
  · by_contra hq
    rcases isQuote_iff.mp (by simpa using hq) with rfl | rfl <;> cases h
  · rintro rfl; cases h
  · rintro rfl; cases h

namespace Balanced
variable {commas : Bool} {cs : List Char}

theorem trimLeft (h : Balanced commas cs) : Balanced commas (Text.trimLeft cs) := by
  induction cs with
  | nil => exact h
  | cons c cs ih =>
    rw [Text.trimLeft, List.dropWhile_cons]
    split
    · rename_i hb
      obtain ⟨hq, ho, _⟩ := isQuote_of_isBlank hb
      exact ih (h.tail hq ho)
    · exact h

theorem trimRight (h : Balanced commas cs) : Balanced commas (Text.trimRight cs) := by
  induction cs using List.reverseRecOn with
  | nil => exact h
  | append_singleton cs c ih =>
    rw [trimRight_concat]
    split
    · rename_i hb
      obtain ⟨hq, _, hc⟩ := isQuote_of_isBlank hb
      have hd := h.dropLast (by simpa using ⟨hq, hc⟩)
      rw [List.dropLast_concat] at hd
      exact ih hd
    · exact h

theorem trim (h : Balanced commas cs) : Balanced commas (Text.trim cs) := h.trimLeft.trimRight

end Balanced
end Criteria
