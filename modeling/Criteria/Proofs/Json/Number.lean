import Criteria.Json.Reader
import Criteria.Json.Writer
import Criteria.Proofs.Number.FloatText

/-! # JSON numbers

Integers and finite floats are read back from their texts, and neither is taken for the other: the
text of a float has a fraction or an exponent, that of an integer has none. -/
namespace Criteria.Json
open Decimal Numeral

/-- The text after a number cannot belong to it. -/
def Stops (rest : List Char) : Prop := ∀ c ∈ rest.head?, isNumeralChar c = false

/-- The text of an exponent, if there is one, and its value. -/
inductive Exponent : List Char → Int → Prop
  | absent : Exponent [] 0
  | marked {digits : List Char} (negative : Bool) (hd : ∀ c ∈ digits, isDigit c = true)
      (hne : digits ≠ []) :
      Exponent ('e' :: (if negative then '-' else '+') :: digits)
        (if negative then -(Decimal.value digits : Int) else Decimal.value digits)

/-- The parts of the text of a number without its sign. -/
structure NumberParts where
  whole : List Char
  fraction : List Char
  exponent : List Char
  power : Int
  isDigit_whole : ∀ c ∈ whole, isDigit c = true
  whole_ne_nil : whole ≠ []
  leadingZero : whole.head? = some '0' → whole.length = 1
  isDigit_fraction : ∀ c ∈ fraction, isDigit c = true
  spells : Exponent exponent power

/-! ## Reading the parts -/

theorem ne_of_isNumeralChar {c d : Char} (hc : isNumeralChar c = true)
    (hd : isNumeralChar d = false) : c ≠ d := by
  intro he
  rw [he, hd] at hc
  cases hc

section
variable {rest : List Char}

theorem Stops.isDigit (hr : Stops rest) : ∀ c ∈ rest.head?, isDigit c = false := by
  intro c hc
  have hn := hr c hc
  rw [isNumeralChar, Bool.or_eq_false_iff] at hn
  exact hn.1

theorem Stops.ne {d : Char} (hr : Stops rest) (hd : isNumeralChar d = true) :
    ∀ c ∈ rest.head?, c ≠ d :=
  fun c hc => (ne_of_isNumeralChar hd (hr c hc)).symm

theorem Stops.spanExponent (hr : Stops rest) :
    Numeral.spanExponent rest = some (0, rest) ∧ marksExponent rest = false := by
  cases rest with
  | nil => exact ⟨rfl, rfl⟩
  | cons c cs =>
    have he : c ≠ 'e' := hr.ne rfl c rfl
    have hE : c ≠ 'E' := hr.ne rfl c rfl
    simp [Numeral.spanExponent, marksExponent, he, hE]

variable {exponent : List Char} {power : Int}

theorem Exponent.spanExponent (h : Exponent exponent power) (hr : Stops rest) :
    Numeral.spanExponent (exponent ++ rest) = some (power, rest) ∧
      marksExponent (exponent ++ rest) = !exponent.isEmpty := by
  cases h with
  | absent => exact hr.spanExponent
  | @marked digits negative hd hne =>
    have hspan := spanDigits_append hd hr.isDigit
    refine ⟨?_, rfl⟩
    cases negative with
    | false => simp [Numeral.spanExponent, spanSign, hspan, hne]
    | true => simp [Numeral.spanExponent, spanSign, hspan, hne]

/-- What follows a fraction is neither a digit nor a point. -/
theorem Exponent.head_append (h : Exponent exponent power) (hr : Stops rest) :
    ∀ c ∈ (exponent ++ rest).head?, isDigit c = false ∧ c ≠ '.' := by
  intro c hc
  cases h with
  | absent => exact ⟨hr.isDigit c hc, hr.ne rfl c hc⟩
  | marked negative hd hne =>
    cases hc
    decide

end

/-- The point and the digits after it, nothing without digits. -/
def fractionText (digits : List Char) : List Char :=
  if digits.isEmpty then [] else '.' :: digits

theorem fraction_append {digits rest : List Char} (hd : ∀ c ∈ digits, isDigit c = true)
    (hr : ∀ c ∈ rest.head?, isDigit c = false ∧ c ≠ '.') :
    fraction (fractionText digits ++ rest) = some (digits, rest) := by
  have hspan := spanDigits_append hd fun c hc => (hr c hc).1
  cases digits with
  | nil =>
    cases rest with
    | nil => rfl
    | cons c cs =>
      have hp : c ≠ '.' := (hr c rfl).2
      simp [fractionText, fraction, hp]
  | cons d ds =>
    have htext : fractionText (d :: ds) ++ rest = '.' :: (d :: ds ++ rest) := rfl
    simp only [htext, fraction, hspan]
    rfl

namespace NumberParts
variable (p : NumberParts)

def text : List Char := p.whole ++ (fractionText p.fraction ++ p.exponent)

def numeral (negative : Bool) : Numeral := ⟨negative, p.whole, p.fraction, p.power⟩

/-- Neither a fraction nor an exponent. -/
def isPlain : Bool := p.fraction.isEmpty && p.exponent.isEmpty

theorem head_fraction {rest : List Char} (hr : Stops rest) :
    ∀ c ∈ (fractionText p.fraction ++ (p.exponent ++ rest)).head?, isDigit c = false := by
  intro c hc
  unfold fractionText at hc
  split at hc
  · exact (p.spells.head_append hr c hc).1
  · cases hc
    rfl

theorem head_text {rest : List Char} : ∀ c ∈ (p.text ++ rest).head?, isDigit c = true := by
  rw [text, List.append_assoc]
  exact Binary64.isDigit_head p.whole_ne_nil p.isDigit_whole

theorem number_text (negative : Bool) {rest : List Char} (hr : Stops rest) :
    number ((if negative then '-' :: p.text else p.text) ++ rest) =
      some (ofNumeral (p.numeral negative) p.isPlain, rest) := by
  have hspan : spanDigits (p.text ++ rest) =
      (p.whole, fractionText p.fraction ++ (p.exponent ++ rest)) := by
    rw [text, List.append_assoc, List.append_assoc]
    exact spanDigits_append p.isDigit_whole (p.head_fraction hr)
  have hwhole : (p.whole.isEmpty || (p.whole.head? == some '0' && p.whole.length != 1)) =
      false := by
    simpa [p.whole_ne_nil] using p.leadingZero
  have hfraction := fraction_append p.isDigit_fraction (p.spells.head_append hr)
  obtain ⟨hexponent, hmark⟩ := p.spells.spanExponent hr
  unfold number
  cases negative with
  | true => simp [hspan, hwhole, hfraction, hexponent, hmark, numeral, isPlain]
  | false =>
    have hsign : ∀ ds, p.text ++ rest ≠ '-' :: ds := by
      intro ds he
      have hd : ∀ c ∈ (p.text ++ rest).head?, isDigit c = true := p.head_text
      rw [he] at hd
      cases hd '-' rfl
    simp [hspan, hwhole, hfraction, hexponent, hmark, numeral, isPlain]

end NumberParts

/-- A text whose parts, after its sign, denote the number. -/
def Spells (text : List Char) (j : Json) : Prop :=
  ∃ (p : NumberParts) (negative : Bool), text = (if negative then '-' :: p.text else p.text) ∧
    ofNumeral (p.numeral negative) p.isPlain = j

namespace Spells
variable {text : List Char} {j : Json}

theorem number (h : Spells text j) {rest : List Char} (hr : Stops rest) :
    Json.number (text ++ rest) = some (j, rest) := by
  obtain ⟨p, negative, rfl, rfl⟩ := h
  exact p.number_text negative hr

theorem exists_cons (h : Spells text j) : ∃ c cs, text = c :: cs ∧ isNumeralChar c = true := by
  obtain ⟨p, negative, rfl, -⟩ := h
  cases negative with
  | true => exact ⟨_, _, rfl, rfl⟩
  | false =>
    have hhead : ∀ c ∈ p.text.head?, isDigit c = true :=
      Binary64.isDigit_head p.whole_ne_nil p.isDigit_whole
    have hne : p.text ≠ [] := List.append_ne_nil_of_left_ne_nil p.whole_ne_nil _
    obtain ⟨c, cs, hc⟩ := List.exists_cons_of_ne_nil hne
    rw [hc] at hhead
    exact ⟨c, cs, hc, isNumeralChar_of_isDigit (hhead c rfl)⟩

end Spells

/-! ## Integers -/

/-- Zero has no minus sign, so digits alone are an integer. -/
theorem ofNumeral_ofInt (n : Int64) :
    ofNumeral ⟨decide (n.toInt < 0), ofNat n.toInt.natAbs, [], 0⟩ true = .int n := by
  have hi : (if decide (n.toInt < 0) = true then -(n.toInt.natAbs : Int) else n.toInt.natAbs) =
      n.toInt := by
    simp only [decide_eq_true_eq]
    split <;> omega
  have hz : (decide (n.toInt < 0) && n.toInt == 0) = false := by
    simp only [Bool.and_eq_false_iff, decide_eq_false_iff_not, beq_eq_false_iff_ne]
    omega
  simp only [ofNumeral, value_ofNat, hi, inInt64_toInt, hz, Int64.ofInt_toInt]
  rfl

theorem spells_ofInt (n : Int64) : Spells (Decimal.ofInt n.toInt) (.int n) := by
  have hhead : (ofNat n.toInt.natAbs).head? = some '0' → (ofNat n.toInt.natAbs).length = 1 := by
    intro hz
    rcases Nat.eq_zero_or_pos n.toInt.natAbs with h | h
    · rw [h]
      rfl
    · exact absurd hz (head?_ofNat h)
  refine ⟨⟨ofNat n.toInt.natAbs, [], [], 0, fun _ => isDigit_of_mem_ofNat, ofNat_ne_nil _, hhead,
    nofun, .absent⟩, decide (n.toInt < 0), ?_, ofNumeral_ofInt n⟩
  simp [ofInt, NumberParts.text, fractionText]

/-! ## Floats -/

/-- The parts of a text that is read as a float. -/
def SpellsFloat (text : List Char) (negative : Bool) (x : Binary64) : Prop :=
  ∃ p : NumberParts, p.text = text ∧ p.isPlain = false ∧ (p.numeral negative).toBinary64 = x

open Binary64

theorem scientific_eq (s : Significand) : scientific s = s.digits.take 1 ++
    (fractionText (s.digits.drop 1) ++
      'e' :: (if s.point ≤ 0 then '-' else '+') :: ofNat (s.point - 1).natAbs) := by
  have hf : fractionText (s.digits.drop 1) =
      if s.digits.length ≤ 1 then [] else '.' :: s.digits.drop 1 := by
    simp only [fractionText, List.isEmpty_iff, List.drop_eq_nil_iff]
  have hm : 'e' :: (if s.point ≤ 0 then '-' else '+') :: ofNat (s.point - 1).natAbs =
      (if s.point ≤ 0 then ['e', '-'] else ['e', '+']) ++ ofNat (s.point - 1).natAbs := by
    split
    · rfl
    · rfl
  rw [hf, hm, scientific, List.append_assoc, List.append_assoc]

section
variable {x : Binary64} {negative : Bool} {s : Significand}
  (hd : ∀ c ∈ s.digits, isDigit c = true) (hne : s.digits ≠ []) (hh : s.digits.head? ≠ some '0')
  (hback : ofDecimal negative (Decimal.value s.digits) (s.point - s.digits.length) = x)
include hd hne hback

theorem spellsFloat_leadingZeros (hp : s.point ≤ 0) :
    SpellsFloat ('0' :: '.' :: (zeros (-s.point) ++ s.digits)) negative x := by
  have hall : ∀ c ∈ zeros (-s.point) ++ s.digits, isDigit c = true :=
    List.forall_mem_append.mpr ⟨fun _ => isDigit_zeros, hd⟩
  refine ⟨⟨['0'], zeros (-s.point) ++ s.digits, [], 0, isDigit_zero, List.cons_ne_nil _ _,
    fun _ => rfl, hall, .absent⟩, ?_, ?_, ofDecimal_leadingZeros hback hp⟩
  · simp [NumberParts.text, fractionText, hne]
  · simp [NumberParts.isPlain, hne]

include hh

theorem spellsFloat_whole (hl : s.digits.length ≤ s.point) :
    SpellsFloat (s.digits ++ zeros (s.point - s.digits.length) ++ ['.', '0']) negative x := by
  have hall : ∀ c ∈ s.digits ++ zeros (s.point - s.digits.length), isDigit c = true :=
    List.forall_mem_append.mpr ⟨hd, fun _ => isDigit_zeros⟩
  have hhead : (s.digits ++ zeros (s.point - s.digits.length)).head? ≠ some '0' := by
    rwa [List.head?_append_of_ne_nil _ hne]
  exact ⟨⟨_, ['0'], [], 0, hall, List.append_ne_nil_of_left_ne_nil hne _, fun h => absurd h hhead,
    isDigit_zero, .absent⟩, rfl, rfl, ofDecimal_whole hback hl 1⟩

theorem spellsFloat_split (hp : ¬ s.point ≤ 0) (hl : ¬ s.digits.length ≤ s.point) :
    SpellsFloat (s.digits.take s.point.toNat ++ '.' :: s.digits.drop s.point.toNat) negative x := by
  have htake : s.digits.take s.point.toNat ≠ [] := by
    rw [ne_eq, List.take_eq_nil_iff, not_or]
    exact ⟨by omega, hne⟩
  have hdrop : s.digits.drop s.point.toNat ≠ [] := by
    rw [ne_eq, List.drop_eq_nil_iff]
    omega
  have hhead : (s.digits.take s.point.toNat).head? ≠ some '0' := by
    rwa [List.head?_take, if_neg (by omega)]
  refine ⟨⟨_, _, [], 0, fun c hc => hd c (List.mem_of_mem_take hc), htake,
    fun h => absurd h hhead, fun c hc => hd c (List.mem_of_mem_drop hc), .absent⟩, ?_, ?_,
    ofDecimal_split hback hp hl⟩
  · simp [NumberParts.text, fractionText, hdrop]
  · simp [NumberParts.isPlain, hdrop]

theorem spellsFloat_scientific : SpellsFloat (scientific s) negative x := by
  have hlen : 0 < s.digits.length := List.length_pos_of_ne_nil hne
  have hhead : (s.digits.take 1).head? ≠ some '0' := by
    rwa [List.head?_take, if_neg (by decide)]
  have hspells := Exponent.marked (decide (s.point ≤ 0))
    (fun _ => isDigit_of_mem_ofNat (n := (s.point - 1).natAbs)) (ofNat_ne_nil _)
  have hpower : (if decide (s.point ≤ 0) = true then
      -(Decimal.value (ofNat (s.point - 1).natAbs) : Int)
      else Decimal.value (ofNat (s.point - 1).natAbs)) = s.point - 1 := by
    rw [value_ofNat]
    simp only [decide_eq_true_eq]
    split <;> omega
  rw [hpower] at hspells
  have hscale : s.point - 1 - (s.digits.drop 1).length = s.point - s.digits.length := by
    rw [List.length_drop]
    omega
  refine ⟨⟨s.digits.take 1, s.digits.drop 1, _, s.point - 1,
    fun c hc => hd c (List.mem_of_mem_take hc), ?_, fun h => absurd h hhead,
    fun c hc => hd c (List.mem_of_mem_drop hc), hspells⟩, ?_, ?_, ?_⟩
  · simp [List.take_eq_nil_iff, hne]
  · rw [scientific_eq, NumberParts.text]
    simp only [decide_eq_true_eq]
  · simp [NumberParts.isPlain]
  · show ofDecimal negative (Decimal.value (s.digits.take 1 ++ s.digits.drop 1))
      (s.point - 1 - (s.digits.drop 1).length) = x
    rw [List.take_append_drop, hscale, hback]

theorem spellsFloat_place : SpellsFloat (floatLayout.place s) negative x := by
  unfold Layout.place
  split
  · exact spellsFloat_leadingZeros hd hne hback ‹_›
  · split
    · exact spellsFloat_whole hd hne hh hback ‹_›
    · exact spellsFloat_split hd hne hh hback ‹_› ‹_›

end

theorem spellsFloat_magnitude {x : Binary64} (h : x.isFinite = true) :
    SpellsFloat (floatLayout.magnitude x) x.negative x := by
  unfold Layout.magnitude
  split
  · rename_i hz
    refine ⟨⟨['0'], ['0'], [], 0, isDigit_zero, List.cons_ne_nil _ _, fun _ => rfl, isDigit_zero,
      .absent⟩, rfl, rfl, ?_⟩
    have hi : x.index.val = 0 := eq_of_beq hz
    have := ofIndex_index h
    rwa [hi] at this
  · rename_i hz
    have hz : x.isZero = false := Bool.eq_false_of_not_eq_true hz
    have hd : ∀ c ∈ (x.significand .even).digits, isDigit c = true :=
      fun _ => isDigit_significand .even
    have hne := significand_ne_nil h hz .even
    have hh := head?_significand h hz .even
    have hback := significand_readsBack h .even
    simp only
    split
    · exact spellsFloat_place hd hne hh hback
    · exact spellsFloat_scientific hd hne hh hback

/-- A finite float has a text of its own, zero one for each sign. -/
theorem spells_float {x : Binary64} (h : x.isFinite = true) :
    Spells (floatLayout.text x) (.float x) := by
  obtain ⟨p, htext, hplain, hx⟩ := spellsFloat_magnitude h
  refine ⟨p, x.negative, ?_, ?_⟩
  · rw [Layout.text, ← htext]
  · simp [ofNumeral, hx, hplain, ofFloat, h]

end Criteria.Json
