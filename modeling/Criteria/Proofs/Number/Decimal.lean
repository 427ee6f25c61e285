import Criteria.Operand
import Criteria.Proofs.Number.Numeral

/-! # Decimal digits read back

The digits of a number spell it, and digits that do not begin with a zero are those of the number
they spell. Integers are read from their texts. -/
namespace Criteria
open Decimal

namespace Decimal

theorem isDigit_of_mem_ofNat {n : Nat} {c : Char} (h : c ∈ ofNat n) : isDigit c = true := by
  have := Nat.isDigit_of_mem_toDigits (by decide) (by decide) h
  simp only [Char.isDigit, Bool.and_eq_true, decide_eq_true_eq] at this
  simp only [isDigit, Bool.and_eq_true, decide_eq_true_eq]
  exact this

theorem ofNat_ne_nil (n : Nat) : ofNat n ≠ [] := Nat.toDigits_ne_nil

@[simp] theorem value_ofNat (n : Nat) : value (ofNat n) = n := Nat.ofDigitChars_ten_toDigits

@[simp] theorem value_nil : value [] = 0 := rfl

theorem value_append (cs ds : List Char) :
    value (cs ++ ds) = value cs * 10 ^ ds.length + value ds := by
  unfold value
  rw [Nat.ofDigitChars_append, Nat.ofDigitChars_eq_ofDigitChars_zero, Nat.mul_comm]

@[simp] theorem value_zeros (n : Nat) : value (List.replicate n '0') = 0 := by simp [value]

theorem ofNat_concat {n d : Nat} (hn : 0 < n) (hd : d < 10) :
    ofNat (10 * n + d) = ofNat n ++ [Nat.digitChar d] := by
  unfold ofNat
  rw [← Nat.toDigits_append_toDigits (by decide) hn hd, Nat.toDigits_of_lt_base hd]

theorem exists_digitChar {c : Char} (h : isDigit c = true) : ∃ d, d < 10 ∧ c = Nat.digitChar d := by
  obtain ⟨hl, hu⟩ := Numeral.isDigit_iff.mp h
  refine ⟨c.toNat - 48, by omega, Char.toNat_inj.mp ?_⟩
  rw [Nat.toNat_digitChar_of_lt_ten (by omega)]
  omega

theorem value_concat {cs : List Char} {d : Nat} (hd : d < 10) :
    value (cs ++ [Nat.digitChar d]) = 10 * value cs + d := by
  unfold value
  rw [Nat.ofDigitChars_append, Nat.ofDigitChars_cons_digitChar_of_lt_ten hd, Nat.ofDigitChars_nil]

theorem value_lt {cs : List Char} (h : ∀ c ∈ cs, isDigit c = true) : value cs < 10 ^ cs.length := by
  induction cs using List.reverseRecOn with
  | nil => decide
  | append_singleton cs c ih =>
    obtain ⟨d, hd, rfl⟩ := exists_digitChar (h c (by simp))
    have := ih fun c hc => h c (by simp [hc])
    rw [value_concat hd, List.length_append, List.length_singleton, Nat.pow_succ]
    omega

/-- Digits that do not begin with a zero are positive. -/
theorem value_pos {cs : List Char} (hd : ∀ c ∈ cs, isDigit c = true) (hne : cs ≠ [])
    (hz : cs.head? ≠ some '0') : 0 < value cs := by
  obtain ⟨c, cs, rfl⟩ := List.exists_cons_of_ne_nil hne
  obtain ⟨d, hd10, rfl⟩ := exists_digitChar (hd c (by simp))
  have hd0 : d ≠ 0 := by
    rintro rfl
    exact hz rfl
  rw [← List.singleton_append, value_append]
  have h1 : value ([] ++ [Nat.digitChar d]) = 10 * value [] + d := value_concat hd10
  rw [List.nil_append, value_nil, Nat.mul_zero, Nat.zero_add] at h1
  rw [h1]
  have := Nat.mul_pos (Nat.pos_of_ne_zero hd0) (Nat.pow_pos (n := cs.length) (by decide : 0 < 10))
  omega

theorem ofNat_value {cs : List Char} (hd : ∀ c ∈ cs, isDigit c = true) (hne : cs ≠ [])
    (hz : cs.head? ≠ some '0') : ofNat (value cs) = cs := by
  induction cs using List.reverseRecOn with
  | nil => exact absurd rfl hne
  | append_singleton cs c ih =>
    obtain ⟨d, hd10, rfl⟩ := exists_digitChar (hd c (by simp))
    rw [value_concat hd10]
    rcases eq_or_ne cs [] with rfl | hcs
    · simp [ofNat, Nat.toDigits_of_lt_base hd10]
    · have hz' : cs.head? ≠ some '0' := by
        obtain ⟨a, as, rfl⟩ := List.exists_cons_of_ne_nil hcs
        simpa using hz
      have hd' : ∀ c ∈ cs, isDigit c = true := fun c hc => hd c (by simp [hc])
      rw [ofNat_concat (value_pos hd' hcs hz') hd10, ih hd' hcs hz']

theorem head?_ofNat {n : Nat} (hn : 0 < n) : (ofNat n).head? ≠ some '0' := by
  induction n using Nat.strong_induction_on with
  | _ n ih =>
    unfold ofNat
    by_cases h : n < 10
    · rw [Nat.toDigits_of_lt_base h]
      simp only [List.head?_cons, ne_eq, Option.some.injEq, Nat.digitChar_eq_zero]
      omega
    · rw [Nat.toDigits_of_base_le (by decide) (by omega), List.head?_append]
      have := ih (n / 10) (by omega) (by omega)
      unfold ofNat at this
      cases hh : (Nat.toDigits 10 (n / 10)).head? with
      | none => simp [List.head?_eq_none_iff] at hh
      | some c => simpa [hh] using this

theorem spanDigits_append {ds rest : List Char} (hd : ∀ c ∈ ds, isDigit c = true)
    (hr : ∀ c ∈ rest.head?, isDigit c = false) : spanDigits (ds ++ rest) = (ds, rest) := by
  unfold spanDigits
  rw [List.takeWhile_append_of_pos hd, List.dropWhile_append_of_pos hd]
  cases rest with
  | nil => simp
  | cons c cs => simp [hr c rfl]

theorem spanDigits_self {ds : List Char} (hd : ∀ c ∈ ds, isDigit c = true) :
    spanDigits ds = (ds, []) := by
  have hr : ∀ c ∈ ([] : List Char).head?, isDigit c = false := by simp
  simpa using spanDigits_append hd hr

/-- Digits have no sign before them. -/
theorem spanSign_digit {cs : List Char} (h : ∀ c ∈ cs.head?, isDigit c = true) :
    spanSign cs = (false, cs) := by
  unfold spanSign
  split
  · cases h '-' rfl
  · cases h '+' rfl
  · rfl

end Decimal

namespace Numeral

theorem integer?_ofInt (n : Int) : integer? (ofInt n) = some n := by
  rcases lt_trichotomy n 0 with h | rfl | h
  · have hpos : 0 < n.natAbs := by omega
    have hd := spanDigits_self fun c hc => isDigit_of_mem_ofNat (n := n.natAbs) (c := c) hc
    have hne : ('-' :: ofNat n.natAbs) ≠ ['0'] := by simp
    simp only [integer?, ofInt, if_pos h, if_neg hne, spanSign, hd, value_ofNat, if_true,
      List.isEmpty_nil, Bool.not_true, Bool.or_false]
    rw [if_neg]
    · congr 1
      omega
    · simp [head?_ofNat hpos, ofNat_ne_nil]
  · rfl
  · have hpos : 0 < n.natAbs := by omega
    have hmem : ∀ c ∈ ofNat n.natAbs, isDigit c = true := fun c hc => isDigit_of_mem_ofNat hc
    have hs := spanSign_digit fun c hc => hmem c (List.mem_of_head? hc)
    have hne : ofNat n.natAbs ≠ ['0'] := fun he => head?_ofNat hpos (by rw [he]; rfl)
    have hneg : ¬ n < 0 := by omega
    simp only [integer?, ofInt, if_neg hneg, if_neg hne, hs, spanDigits_self hmem, value_ofNat,
      List.isEmpty_nil, Bool.not_true, Bool.or_false, Bool.false_eq_true, if_false]
    rw [if_neg]
    · congr 1
      omega
    · simp [head?_ofNat hpos, ofNat_ne_nil]

/-- An integer numeral is a single zero, or a sign and digits that do not begin with a zero. -/
theorem of_integer? {cs : List Char} {n : Int} (h : integer? cs = some n) :
    (cs = ['0'] ∧ n = 0) ∨ ∃ negative digits, spanSign cs = (negative, digits) ∧
      (∀ c ∈ digits, isDigit c = true) ∧ digits ≠ [] ∧ digits.head? ≠ some '0' ∧
      n = if negative then -(value digits : Int) else value digits := by
  unfold integer? at h
  split at h
  · rename_i hc
    cases h
    exact .inl ⟨hc, rfl⟩
  · simp only at h
    split at h
    · cases h
    · rename_i hc
      simp only [Bool.or_eq_true, not_or, List.isEmpty_iff, beq_iff_eq, Bool.not_eq_true',
        List.isEmpty_eq_false_iff, ne_eq, not_not] at hc
      obtain ⟨⟨hne, hz⟩, hrest⟩ := hc
      have hd : ∀ c ∈ (spanDigits (spanSign cs).2).1, isDigit c = true :=
        fun c hc => List.mem_takeWhile_imp hc
      have hall : (spanDigits (spanSign cs).2).1 = (spanSign cs).2 := by
        have hsplit : (spanDigits (spanSign cs).2).1 ++ (spanDigits (spanSign cs).2).2 =
            (spanSign cs).2 := List.takeWhile_append_dropWhile
        rwa [hrest, List.append_nil] at hsplit
      rw [hall] at hne hz hd h
      exact .inr ⟨_, _, rfl, hd, hne, hz, (Option.some.inj h).symm⟩

/-- An integer numeral without a plus sign is the text of its number. -/
theorem ofInt_of_integer? {cs : List Char} {n : Int} (h : integer? cs = some n)
    (hp : cs.head? ≠ some '+') : ofInt n = cs := by
  rcases of_integer? h with ⟨rfl, rfl⟩ | ⟨negative, digits, hs, hd, hne, hz, rfl⟩
  · rfl
  · have hpos := value_pos hd hne hz
    have hback := ofNat_value hd hne hz
    unfold spanSign at hs
    split at hs
    · cases hs
      simp only [if_true, ofInt]
      rw [if_pos (by omega)]
      simpa using hback
    · exact absurd rfl hp
    · cases hs
      simp only [Bool.false_eq_true, if_false, ofInt]
      rw [if_neg (by omega)]
      simpa using hback

theorem inInt64_toInt (n : Int64) : inInt64 n.toInt = true := by
  simp only [inInt64, Bool.and_eq_true, decide_eq_true_eq]
  exact ⟨Int64.minValue_le_toInt n, Int64.toInt_le n⟩

theorem toInt_ofInt {n : Int} (h : inInt64 n = true) : (Int64.ofInt n).toInt = n := by
  simp only [inInt64, Bool.and_eq_true, decide_eq_true_eq] at h
  have hmax : Int64.maxValue.toInt = 2 ^ 63 - 1 := by decide
  exact Int64.toInt_ofInt_of_le h.1 (by omega)

theorem number?_intText (n : Int64) : number? (Value.intText n) = some (.int n) := by
  have hi : (integer? (Value.intText n)).filter inInt64 = some n.toInt := by
    rw [Value.intText, integer?_ofInt]
    simp [Option.filter, inInt64_toInt n]
  have hne : Value.intText n ≠ [] := by
    unfold Value.intText ofInt
    split
    · simp
    · exact ofNat_ne_nil _
  obtain ⟨c, cs, hc⟩ := List.exists_cons_of_ne_nil hne
  have hhead : (isDigit c || c == '-' || c == '+' || c == '.') = true := by
    unfold Value.intText ofInt at hc
    split at hc
    · rw [← (List.cons.inj hc).1]
      rfl
    · rw [isDigit_of_mem_ofNat (n := n.toInt.natAbs) (by rw [hc]; simp)]
      rfl
  unfold number?
  rw [hc] at hi ⊢
  simp only [hhead, if_true, hi, Int64.ofInt_toInt]

end Numeral
end Criteria
