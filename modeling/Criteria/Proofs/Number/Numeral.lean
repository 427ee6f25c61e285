import Mathlib
import Criteria.Number.Numeral
import Criteria.Proofs.Arguments

/-! # The characters of numerals

A numeral has digits, signs, points and marks of exponents. None of them is a blank or means
anything to the argument splitter. -/
namespace Criteria
open Operand (isQuote)
open Decimal (isDigit)

namespace Numeral

def isNumeralChar (c : Char) : Bool := isDigit c || c ∈ ['+', '-', '.', 'e', 'E']

theorem isDigit_iff {c : Char} : isDigit c = true ↔ 48 ≤ c.toNat ∧ c.toNat ≤ 57 := by
  simp only [isDigit, Bool.and_eq_true, decide_eq_true_eq]
  rfl

theorem isNumeralChar_of_isDigit {c : Char} (h : isDigit c = true) : isNumeralChar c = true := by
  simp [isNumeralChar, h]

theorem isBlank_of_isNumeralChar {c : Char} (h : isNumeralChar c = true) :
    Text.isBlank c = false := by
  simp only [isNumeralChar, Bool.or_eq_true, decide_eq_true_eq] at h
  rcases h with h | h
  · obtain ⟨hl, hu⟩ := isDigit_iff.mp h
    simp only [Text.isBlank, Text.blankRanges, List.any_cons, List.any_nil, Bool.or_false,
      Bool.or_eq_false_iff, Bool.and_eq_false_iff, decide_eq_false_iff_not]
    omega
  · simp only [List.mem_cons, List.not_mem_nil, or_false] at h
    rcases h with rfl | rfl | rfl | rfl | rfl <;> rfl

theorem plain_of_isNumeralChar {c : Char} (h : isNumeralChar c = true) :
    isQuote c = false ∧ c ≠ '(' ∧ c ≠ ')' ∧ c ≠ ',' := by
  refine ⟨?_, ?_, ?_, ?_⟩
  · by_contra hq
    rcases isQuote_iff.mp (by simpa using hq) with rfl | rfl <;> cases h
  all_goals rintro rfl; cases h

/-- A reader of numeral characters leaves the text after what it reads. -/
def Reads (cs rest : List Char) : Prop :=
  ∃ used, cs = used ++ rest ∧ ∀ c ∈ used, isNumeralChar c = true

theorem Reads.refl (cs : List Char) : Reads cs cs := ⟨[], rfl, by simp⟩

theorem Reads.trans {cs ds es : List Char} (h : Reads cs ds) (h' : Reads ds es) : Reads cs es := by
  obtain ⟨u, rfl, hu⟩ := h
  obtain ⟨v, rfl, hv⟩ := h'
  refine ⟨u ++ v, by simp, ?_⟩
  intro c hc
  rcases List.mem_append.mp hc with hc | hc
  · exact hu c hc
  · exact hv c hc

theorem Reads.cons {c : Char} {cs ds : List Char} (hc : isNumeralChar c = true)
    (h : Reads cs ds) : Reads (c :: cs) ds :=
  Reads.trans ⟨[c], rfl, by simpa using hc⟩ h

theorem reads_spanDigits (cs : List Char) : Reads cs (Decimal.spanDigits cs).2 :=
  ⟨cs.takeWhile isDigit, List.takeWhile_append_dropWhile.symm,
    fun _ hc => isNumeralChar_of_isDigit (List.mem_takeWhile_imp hc)⟩

theorem reads_spanSign (cs : List Char) : Reads cs (Decimal.spanSign cs).2 := by
  unfold Decimal.spanSign
  split
  · exact .cons rfl (.refl _)
  · exact .cons rfl (.refl _)
  · exact .refl _

theorem reads_spanMantissa {cs : List Char} {m : (List Char × List Char) × List Char}
    (h : spanMantissa cs = some m) : Reads cs m.2 := by
  have hw := reads_spanDigits cs
  simp only [spanMantissa] at h
  split at h
  · rename_i rest hr
    rw [hr] at hw
    split at h
    · cases h
    · cases h
      exact hw.trans (.cons rfl (reads_spanDigits rest))
  · split at h
    · cases h
    · cases h
      exact hw

theorem reads_spanExponent {cs : List Char} {e : Int × List Char}
    (h : spanExponent cs = some e) : Reads cs e.2 := by
  unfold spanExponent at h
  split at h
  · cases h
    exact .refl _
  · rename_i c cs
    split at h
    · rename_i hc
      have hn : isNumeralChar c = true := by rcases hc with rfl | rfl <;> rfl
      simp only at h
      split at h
      · cases h
      · cases h
        exact .cons hn ((reads_spanSign cs).trans (reads_spanDigits _))
    · cases h
      exact .refl _

theorem reads_span {cs rest : List Char} {n : Numeral} (h : span cs = some (n, rest)) :
    Reads cs rest := by
  obtain ⟨m, hm, h⟩ := Option.bind_eq_some_iff.mp h
  obtain ⟨e, he, h⟩ := Option.bind_eq_some_iff.mp h
  cases h
  exact (reads_spanSign cs).trans ((reads_spanMantissa hm).trans (reads_spanExponent he))

theorem reads_integer? {cs : List Char} {n : Int} (h : integer? cs = some n) : Reads cs [] := by
  unfold integer? at h
  split at h
  · rename_i hc
    rw [hc]
    exact .cons rfl (.refl _)
  · simp only at h
    split at h
    · cases h
    · rename_i hd
      simp only [Bool.or_eq_true, not_or] at hd
      have hnil : (Decimal.spanDigits (Decimal.spanSign cs).2).2 = [] := by simpa using hd.2
      have := (reads_spanSign cs).trans (reads_spanDigits _)
      rwa [hnil] at this

theorem reads_number? {cs : List Char} {v : Value} (h : number? cs = some v) : Reads cs [] := by
  unfold number? at h
  split at h
  · cases h
  · rename_i c cs
    split at h
    · split at h
      · rename_i n hn
        exact reads_integer? (Option.filter_eq_some_iff.mp hn).1
      · split at h
        · rename_i n hs
          exact reads_span hs
        · cases h
    · cases h

theorem number?_chars {cs : List Char} {v : Value} (h : number? cs = some v) :
    cs ≠ [] ∧ ∀ c ∈ cs, isNumeralChar c = true := by
  refine ⟨?_, ?_⟩
  · rintro rfl
    cases h
  · obtain ⟨used, he, hu⟩ := reads_number? h
    rwa [he, List.append_nil]

end Numeral

/-- A numeral stands alone between commas. -/
theorem segment_of_number? {cs : List Char} {v : Value} (h : Numeral.number? cs = some v) :
    Segment cs := by
  have hc := (Numeral.number?_chars h).2
  refine ⟨.of_plain fun c hm => Numeral.plain_of_isNumeralChar (hc c hm), ?_⟩
  refine Text.trimmed_of_ends ?_ ?_
  · intro c hm
    exact Numeral.isBlank_of_isNumeralChar (hc c (List.mem_of_head? hm))
  · intro c hm
    exact Numeral.isBlank_of_isNumeralChar (hc c (List.mem_of_getLast? hm))

end Criteria
