import Criteria.Proofs.Number.Whole
import Criteria.Value.Rendering

/-! # Strings as numbers

A string in a field of numbers stands for the float that it begins with. Where the whole of it is a
numeral, that float is the number which the numeral is read as, or the nearest one to it if this is
an integer. -/
namespace Criteria
open Decimal

namespace Numeral
variable {cs : List Char} {v : Value} {n : Int}

/-- The float that a number is turned into. -/
def nearest : Value → Option Binary64
  | .int n => some (.ofInt n.toInt)
  | .float x => some x
  | _ => none

/-- An integer numeral has neither a point nor an exponent, and as a float it is the nearest one. -/
theorem span_of_integer? (h : integer? cs = some n) :
    ∃ m : Numeral, span cs = some (m, []) ∧ m.toBinary64 = .ofInt n := by
  rcases of_integer? h with ⟨rfl, rfl⟩ | ⟨negative, digits, hs, hd, hne, hz, rfl⟩
  · exact ⟨⟨false, ['0'], [], 0⟩, rfl, rfl⟩
  · refine ⟨⟨negative, digits, [], 0⟩, ?_, ?_⟩
    · unfold span
      rw [hs]
      simp only [spanMantissa_whole hd hne]
      rfl
    · have hpos := value_pos hd hne hz
      rw [toBinary64, List.append_nil]
      cases negative with
      | true =>
        have hneg : -(value digits : Int) < 0 := by omega
        simp only [if_true, Binary64.ofInt, decide_eq_true hneg, Int.natAbs_neg, Int.natAbs_natCast]
        rfl
      | false =>
        have hneg : ¬ (value digits : Int) < 0 := by omega
        simp only [Bool.false_eq_true, if_false, Binary64.ofInt, decide_eq_false hneg,
          Int.natAbs_natCast]
        rfl

theorem isFinite_ofInt64 (n : Int64) : (Binary64.ofInt n.toInt).isFinite = true := by
  refine Binary64.isFinite_ofDecimal _ ?_
  have hlow := Int64.minValue_le_toInt n
  have hup := Int64.toInt_le n
  have hmin : Int64.minValue.toInt = -2 ^ 63 := by decide
  have hmax : Int64.maxValue.toInt = 2 ^ 63 - 1 := by decide
  omega

theorem not_isAlpha {c : Char} (h : (isDigit c || c == '-' || c == '+' || c == '.') = true) :
    c.isAlpha = false := by
  simp only [Bool.or_eq_true, beq_iff_eq] at h
  rcases h with ((h | rfl) | rfl) | rfl
  · obtain ⟨_, hup⟩ := isDigit_iff.mp h
    have hupper : c.isUpper = false := decide_eq_false fun hc => by
      have : 65 ≤ c.toNat := hc.1
      omega
    have hlower : c.isLower = false := Bool.and_eq_false_imp.mpr fun hc => by
      have : 97 ≤ c.toNat := of_decide_eq_true hc
      omega
    rw [Char.isAlpha, hupper, hlower]
    rfl
  · rfl
  · rfl
  · rfl

/-- The whole of a numeral is what a string begins with. -/
theorem leading?_of_span {m : Numeral} {x : Binary64} (h : span cs = some (m, []))
    (hx : m.toBinary64 = x) (hf : x.isFinite = true)
    (hhead : ∀ c ∈ cs.head?, isNumeralChar c = true ∧ c.isAlpha = false) :
    leading? cs = some x := by
  have htrim : Text.trimLeft cs = cs :=
    Text.trimLeft_eq_self fun c hc => isBlank_of_isNumeralChar (hhead c hc).1
  have hletter : cs.head?.any Char.isAlpha = false := by
    cases hc : cs.head? with
    | none => rfl
    | some c => exact (hhead c hc).2
  unfold leading?
  simp only [htrim, hletter, Bool.false_eq_true, if_false, h, Option.map_some, hx]
  exact Option.filter_eq_some_iff.mpr ⟨rfl, hf⟩

theorem leading?_of_number? (h : number? cs = some v) : leading? cs = nearest v := by
  have hchars := (number?_chars h).2
  unfold number? at h
  split at h
  · cases h
  · rename_i c cs
    split at h
    · rename_i hc
      have hhead : ∀ d ∈ (c :: cs).head?, isNumeralChar d = true ∧ d.isAlpha = false := by
        intro d hd
        cases hd
        exact ⟨hchars c (by simp), not_isAlpha hc⟩
      split at h
      · rename_i n hn
        cases h
        obtain ⟨hi, hin⟩ := Option.filter_eq_some_iff.mp hn
        obtain ⟨m, hspan, hm⟩ := span_of_integer? hi
        rw [← toInt_ofInt hin] at hm
        exact leading?_of_span hspan hm (isFinite_ofInt64 _) hhead
      · split at h
        · rename_i m hspan
          split at h
          · rename_i hf
            cases h
            exact leading?_of_span hspan rfl hf hhead
          · cases h
        · cases h
    · cases h

end Numeral

namespace Value

/-- A string that is a numeral is written, in a field of numbers, as its number is: exactly so if
the number is a float, and as its nearest float if it is an integer, which up to `2 ^ 53` makes no
difference. -/
theorem render_numeral (t : String) :
    (∀ x, Numeral.number? t.toList = some (.float x) →
      render (some .number) .value (.string t) = render (some .number) .value (.float x)) ∧
    (∀ n, Numeral.number? t.toList = some (.int n) →
      render (some .number) .value (.string t) =
        render (some .number) .value (.float (.ofInt n.toInt)) ∧
      (n.toInt.natAbs ≤ 2 ^ 53 →
        render (some .number) .value (.string t) = render (some .number) .value (.int n))) ∧
    ∀ n : Int64, n.toInt.natAbs ≤ 2 ^ 53 →
      render (some .number) .value (.string (String.ofList (intText n))) = intText n := by
  have read : ∀ {s : String} {v x}, Numeral.number? s.toList = some v →
      Numeral.nearest v = some x → render (some .number) .value (.string s) = floatText x := by
    intro s v x hv hx
    have hread := Numeral.leading?_of_number? hv
    rw [hx] at hread
    show asNumber (.string s) = _
    simp only [asNumber, hread]
  have whole : ∀ {s : String} {n : Int64}, Numeral.number? s.toList = some (.int n) →
      n.toInt.natAbs ≤ 2 ^ 53 → render (some .number) .value (.string s) = intText n := by
    intro s n hn hle
    rw [read hn rfl, Binary64.floatText_ofInt hle, intText]
  refine ⟨fun x hx => read hx rfl, fun n hn => ⟨read hn rfl, whole hn⟩, fun n hle => ?_⟩
  refine whole ?_ hle
  rw [String.toList_ofList, Numeral.number?_intText]

theorem render_numeral_signed :
    (Numeral.number? "+12".toList = some (.int 12) ∧ (12 : Int64).toInt.natAbs ≤ 2 ^ 53) ∧
      render (some .number) .value (.string "+12") = render (some .number) .value (.int 12) ∧
      render (some .number) .value (.string (String.ofList (intText 12))) = intText 12 := by
  obtain ⟨_, hint, htext⟩ := render_numeral "+12"
  exact ⟨⟨rfl, by decide⟩, (hint 12 rfl).2 (by decide), htext 12 (by decide)⟩

/-- The first integer that no float is equal to. -/
theorem render_numeral_rounded :
    Numeral.number? "9007199254740993".toList = some (.int 9007199254740993) ∧
      render (some .number) .value (.string "9007199254740993") ≠
        render (some .number) .value (.int 9007199254740993) := by
  refine ⟨rfl, ?_⟩
  show asNumber (.string "9007199254740993") ≠ intText 9007199254740993
  decide +kernel

end Value

end Criteria
