import Mathlib
import Criteria.Number.Binary64
import Criteria.Number.Layout

/-! # Rounding depends on the number alone

The place of the nearest magnitude is a matter of the ratio, not of the numerator and denominator
that give it, and a magnitude is the nearest to itself. So a decimal may move digits between its
mantissa and its exponent, and the shortest decimal of a number reads back. -/
namespace Criteria.Binary64

theorem fractionCount_eq : fractionCount = 2 ^ 52 := rfl

theorem fractionCount_pos : 0 < fractionCount := Nat.two_pow_pos 52

/-! ## The unit -/

section
variable {num den : Nat}

theorem scaled_snd_pos (hd : 0 < den) (q : Int) : 0 < (scaled num den q).2 :=
  Nat.mul_pos hd (Nat.two_pow_pos _)

/-- The scaled ratio is the ratio divided by a power of two. -/
theorem scaled_div (hd : 0 < den) (q : Int) :
    ((scaled num den q).1 : ℚ) / (scaled num den q).2 = (num : ℚ) / den / 2 ^ q := by
  have hd' : (den : ℚ) ≠ 0 := by positivity
  unfold scaled
  rcases le_total 0 q with h | h
  · obtain ⟨k, rfl⟩ := Int.eq_ofNat_of_zero_le h
    have hz : (-(k : Int)).toNat = 0 := by omega
    simp only [hz, Int.toNat_natCast, Nat.cast_mul, Nat.pow_eq, Nat.cast_pow, Nat.cast_ofNat,
      pow_zero, mul_one, zpow_natCast]
    rw [div_div]
  · obtain ⟨k, hk⟩ := Int.eq_ofNat_of_zero_le (by omega : 0 ≤ -q)
    obtain rfl : q = -(k : Int) := by omega
    have hz : (-(k : Int)).toNat = 0 := by omega
    simp only [neg_neg, hz, Int.toNat_natCast, Nat.cast_mul, Nat.pow_eq, Nat.cast_pow,
      Nat.cast_ofNat, pow_zero, mul_one, zpow_neg, zpow_natCast]
    field_simp

theorem scaled_lt_iff (hd : 0 < den) (q : Int) (k : Nat) :
    (scaled num den q).1 < k * (scaled num den q).2 ↔ (num : ℚ) / den / 2 ^ q < k := by
  have hs : (0 : ℚ) < (scaled num den q).2 := by exact_mod_cast scaled_snd_pos hd q
  rw [← scaled_div hd, div_lt_iff₀ hs]
  exact_mod_cast Iff.rfl

/-- The size of a ratio is known up to one from the sizes of its parts. -/
theorem log_ratio_bounds (hn : 0 < num) (hd : 0 < den) :
    (num.log2 : Int) - den.log2 - 1 ≤ Int.log 2 ((num : ℚ) / den) ∧
      Int.log 2 ((num : ℚ) / den) < (num.log2 : Int) - den.log2 + 1 := by
  have hn' : (0 : ℚ) < num := by exact_mod_cast hn
  have hd' : (0 : ℚ) < den := by exact_mod_cast hd
  have hr : (0 : ℚ) < (num : ℚ) / den := by positivity
  set e : Int := (num.log2 : Int) - den.log2 with he
  have hnl : (2 : ℚ) ^ num.log2 ≤ num := by exact_mod_cast Nat.log2_self_le hn.ne'
  have hnu : (num : ℚ) < 2 ^ (num.log2 + 1) := by exact_mod_cast Nat.lt_log2_self
  have hdl : (2 : ℚ) ^ den.log2 ≤ den := by exact_mod_cast Nat.log2_self_le hd.ne'
  have hdu : (den : ℚ) < 2 ^ (den.log2 + 1) := by exact_mod_cast Nat.lt_log2_self
  have hlow : (2 : ℚ) ^ (e - 1) ≤ (num : ℚ) / den := by
    rw [le_div_iff₀ hd']
    calc (2 : ℚ) ^ (e - 1) * den ≤ 2 ^ (e - 1) * 2 ^ (den.log2 + 1) := by gcongr
      _ = 2 ^ num.log2 := by
        rw [← zpow_natCast, ← zpow_natCast, ← zpow_add₀ (by norm_num)]
        congr 1
        push_cast
        omega
      _ ≤ num := hnl
  have hup : (num : ℚ) / den < 2 ^ (e + 1) := by
    rw [div_lt_iff₀ hd']
    calc (num : ℚ) < 2 ^ (num.log2 + 1) := hnu
      _ = 2 ^ (e + 1) * 2 ^ den.log2 := by
        rw [← zpow_natCast, ← zpow_natCast, ← zpow_add₀ (by norm_num)]
        congr 1
        push_cast
        omega
      _ ≤ 2 ^ (e + 1) * den := by gcongr
  constructor
  · exact (Int.zpow_le_iff_le_log (by norm_num) hr).mp (by exact_mod_cast hlow)
  · exact (Int.lt_zpow_iff_log_lt (by norm_num) hr).mp (by exact_mod_cast hup)

/-- The exponent of the unit is a matter of the size of the ratio. -/
theorem unitExponent_eq (hn : 0 < num) (hd : 0 < den) :
    unitExponent num den = max (-1074) (Int.log 2 ((num : ℚ) / den) - 52) := by
  have hn' : (0 : ℚ) < num := by exact_mod_cast hn
  have hd' : (0 : ℚ) < den := by exact_mod_cast hd
  have hr : (0 : ℚ) < (num : ℚ) / den := by positivity
  obtain ⟨hlow, hup⟩ := log_ratio_bounds hn hd
  set e : Int := (num.log2 : Int) - den.log2 with he
  have hs : (scaled num den e).1 < (scaled num den e).2 ↔ Int.log 2 ((num : ℚ) / den) < e := by
    rw [← Int.lt_zpow_iff_log_lt (by norm_num) hr]
    have : (scaled num den e).1 < 1 * (scaled num den e).2 ↔ _ := scaled_lt_iff hd e 1
    rw [Nat.one_mul, Nat.cast_one, div_lt_one (by positivity)] at this
    exact_mod_cast this
  simp only [unitExponent, ← he]
  split
  · have := hs.mp ‹_›
    congr 1
    omega
  · have := mt hs.mpr ‹_›
    congr 1
    omega

end

/-! ## The nearest magnitude -/

theorem roundDiv_mul_left {k num den : Nat} (hk : 0 < k) :
    roundDiv (k * num) (k * den) = roundDiv num den := by
  have hl : ∀ {a b : Nat}, k * a < k * b ↔ a < b := Nat.mul_lt_mul_left hk
  simp only [roundDiv, Nat.mul_div_mul_left _ _ hk, Nat.mul_mod_mul_left, Nat.mul_left_comm 2 k, hl]

theorem roundDiv_congr {a b c d : Nat} (hb : 0 < b) (hd : 0 < d) (h : a * d = c * b) :
    roundDiv a b = roundDiv c d := by
  have hab : roundDiv (d * a) (d * b) = roundDiv a b := roundDiv_mul_left hd
  have hcd : roundDiv (b * c) (b * d) = roundDiv c d := roundDiv_mul_left hb
  rw [← hab, ← hcd, Nat.mul_comm d a, h, Nat.mul_comm c b, Nat.mul_comm d b]

theorem roundDiv_exact {d : Nat} (m : Nat) (hd : 0 < d) : roundDiv (m * d) d = m := by
  simp [roundDiv, Nat.mul_div_cancel _ hd, hd]

theorem div_le_roundDiv (num den : Nat) : num / den ≤ roundDiv num den := by
  simp only [roundDiv]
  split
  · exact Nat.le_refl _
  · split <;> omega

theorem roundDiv_le (num den : Nat) : roundDiv num den ≤ num / den + 1 := by
  simp only [roundDiv]
  split
  · exact Nat.le_succ _
  · split <;> omega

theorem nearestIndex_congr {a b c d : Nat} (ha : 0 < a) (hb : 0 < b) (hd : 0 < d)
    (h : a * d = c * b) : nearestIndex a b = nearestIndex c d := by
  have hc : 0 < c := by
    rcases Nat.eq_zero_or_pos c with rfl | hc
    · have := Nat.mul_pos ha hd
      omega
    · exact hc
  have hq : (a : ℚ) / b = (c : ℚ) / d := by
    have hb' : (b : ℚ) ≠ 0 := by positivity
    have hd' : (d : ℚ) ≠ 0 := by positivity
    rw [div_eq_div_iff hb' hd']
    exact_mod_cast h
  have hu : unitExponent a b = unitExponent c d := by
    rw [unitExponent_eq ha hb, unitExponent_eq hc hd, hq]
  simp only [nearestIndex, hu]
  congr 1
  refine roundDiv_congr (scaled_snd_pos hb _) (scaled_snd_pos hd _) ?_
  simp only [scaled]
  linear_combination (Nat.pow 2 (-unitExponent c d).toNat * Nat.pow 2 (unitExponent c d).toNat) * h

/-- A ratio of at least `2 ^ 52` units has at least as many after rounding. -/
theorem le_nearestIndex {num den : Nat} (hn : 0 < num) (hd : 0 < den) {q : Int} (hq : 0 ≤ q + 1074)
    (h : (2 : ℚ) ^ (q + 52) ≤ (num : ℚ) / den) :
    (q + 1074).toNat * fractionCount + fractionCount ≤ nearestIndex num den := by
  have hr : (0 : ℚ) < (num : ℚ) / den := by positivity
  have hlog : q + 52 ≤ Int.log 2 ((num : ℚ) / den) :=
    (Int.zpow_le_iff_le_log (by norm_num) hr).mp (by exact_mod_cast h)
  have hu := unitExponent_eq hn hd
  set u := unitExponent num den with hudef
  have hqu : q ≤ u := by omega
  have hlogu : (2 : ℚ) ^ (u + 52) ≤ (num : ℚ) / den := by
    have := Int.zpow_log_le_self (b := 2) (by norm_num) hr
    have hue : u + 52 = Int.log 2 ((num : ℚ) / den) := by omega
    rw [hue]
    exact_mod_cast this
  have hdiv : fractionCount ≤ roundDiv (scaled num den u).1 (scaled num den u).2 := by
    refine le_trans ?_ (div_le_roundDiv _ _)
    rw [Nat.le_div_iff_mul_le (scaled_snd_pos hd u), ← Nat.not_lt, scaled_lt_iff hd u, not_lt,
      le_div_iff₀ (by positivity), fractionCount_eq]
    rw [add_comm, zpow_add₀ (by norm_num)] at hlogu
    exact_mod_cast hlogu
  have hmono : (q + 1074).toNat * fractionCount ≤ (u + 1074).toNat * fractionCount :=
    Nat.mul_le_mul_right _ (by omega)
  simp only [nearestIndex, ← hudef]
  omega

/-- A ratio below `2 ^ 53` units has at most as many after rounding. -/
theorem nearestIndex_le {num den : Nat} (hn : 0 < num) (hd : 0 < den) {q : Int} (hq : 0 ≤ q + 1074)
    (h : (num : ℚ) / den < 2 ^ (q + 53)) :
    nearestIndex num den ≤ (q + 1074).toNat * fractionCount + 2 * fractionCount := by
  have hr : (0 : ℚ) < (num : ℚ) / den := by positivity
  have hlog : Int.log 2 ((num : ℚ) / den) < q + 53 :=
    (Int.lt_zpow_iff_log_lt (by norm_num) hr).mp (by exact_mod_cast h)
  have hu := unitExponent_eq hn hd
  set u := unitExponent num den with hudef
  have huq : u ≤ q := by omega
  have hlogu : (num : ℚ) / den < 2 ^ (u + 53) := by
    have hlt : Int.log 2 ((num : ℚ) / den) < u + 53 := by omega
    exact_mod_cast (Int.lt_zpow_iff_log_lt (by norm_num) hr).mpr hlt
  have hdiv : roundDiv (scaled num den u).1 (scaled num den u).2 ≤ 2 * fractionCount := by
    refine le_trans (roundDiv_le _ _) (Nat.succ_le_of_lt ?_)
    rw [Nat.div_lt_iff_lt_mul (scaled_snd_pos hd u), scaled_lt_iff hd u,
      div_lt_iff₀ (by positivity), fractionCount_eq]
    rw [add_comm, zpow_add₀ (by norm_num)] at hlogu
    exact_mod_cast hlogu
  have hmono : (u + 1074).toNat * fractionCount ≤ (q + 1074).toNat * fractionCount :=
    Nat.mul_le_mul_right _ (by omega)
  simp only [nearestIndex, ← hudef]
  omega

/-- A ratio far below the least magnitude rounds to zero. -/
theorem nearestIndex_eq_zero {num den : Nat} (hn : 0 < num) (hd : 0 < den)
    (h : (num : ℚ) / den < 2 ^ (-1100 : Int)) : nearestIndex num den = 0 := by
  have hr : (0 : ℚ) < (num : ℚ) / den := by positivity
  have hlog : Int.log 2 ((num : ℚ) / den) < -1100 :=
    (Int.lt_zpow_iff_log_lt (by norm_num) hr).mp (by exact_mod_cast h)
  have hu : unitExponent num den = -1074 := by
    rw [unitExponent_eq hn hd]
    omega
  have hsmall : 2 * (scaled num den (-1074)).1 < (scaled num den (-1074)).2 := by
    have hs : (0 : ℚ) < (scaled num den (-1074)).2 := by exact_mod_cast scaled_snd_pos hd _
    have hlt : ((scaled num den (-1074)).1 : ℚ) / (scaled num den (-1074)).2 < 1 / 2 := by
      rw [scaled_div hd, div_lt_iff₀ (by positivity)]
      refine h.trans_le ?_
      rw [one_div, ← zpow_neg_one, ← zpow_add₀ (by norm_num)]
      exact zpow_le_zpow_right₀ (by norm_num) (by norm_num)
    rw [div_lt_iff₀ hs] at hlt
    have : (2 : ℚ) * (scaled num den (-1074)).1 < (scaled num den (-1074)).2 := by linarith
    exact_mod_cast this
  simp only [nearestIndex, hu]
  have hk : (scaled num den (-1074)).1 / (scaled num den (-1074)).2 = 0 :=
    Nat.div_eq_of_lt (by omega)
  have hm : (scaled num den (-1074)).1 % (scaled num den (-1074)).2 = (scaled num den (-1074)).1 :=
    Nat.mod_eq_of_lt (by omega)
  simp [roundDiv, hk, hm, hsmall]

/-! ## Decimals -/

/-- The ratio of a decimal. -/
def decimalNum (digits : Nat) (exponent : Int) : Nat := digits * Nat.pow 10 exponent.toNat

def decimalDen (exponent : Int) : Nat := Nat.pow 10 (-exponent).toNat

theorem decimalDen_pos (exponent : Int) : 0 < decimalDen exponent := Nat.pow_pos (by decide)

theorem decimalNum_pos {digits : Nat} (h : 0 < digits) (exponent : Int) :
    0 < decimalNum digits exponent := Nat.mul_pos h (Nat.pow_pos (by decide))

theorem ofIndex_of_le {negative : Bool} {index : Nat} (h : infinityIndex ≤ index) :
    ofIndex negative index = ofIndex negative infinityIndex := by
  unfold ofIndex
  rw [dif_neg (by omega), dif_neg (by omega)]

section
variable {digits k : Nat} (h : 0 < digits)
include h

/-- As ten exceeds `2 ^ 3`, a decimal with many digits in all is out of range. -/
theorem infinityIndex_le (hs : 1024 ≤ (digits.log2 : Int) + 3 * k) :
    infinityIndex ≤ nearestIndex (decimalNum digits k) (decimalDen k) := by
  have hl : (2 : ℚ) ^ digits.log2 ≤ digits := by exact_mod_cast Nat.log2_self_le h.ne'
  have hz : (-(k : Int)).toNat = 0 := by omega
  have hden : decimalDen k = 1 := by simp [decimalDen, hz]
  have hratio : (2 : ℚ) ^ ((972 : Int) + 52) ≤ (decimalNum digits k : ℚ) / decimalDen k := by
    rw [hden, Nat.cast_one, div_one]
    simp only [decimalNum, Int.toNat_natCast, Nat.cast_mul, Nat.pow_eq, Nat.cast_pow,
      Nat.cast_ofNat]
    calc (2 : ℚ) ^ ((972 : Int) + 52) ≤ 2 ^ ((digits.log2 : Int) + 3 * k) :=
          zpow_le_zpow_right₀ (by norm_num) (by omega)
      _ = 2 ^ digits.log2 * 8 ^ k := by
          rw [zpow_add₀ (by norm_num), zpow_natCast, zpow_mul, zpow_natCast]
          norm_num
      _ ≤ digits * 10 ^ k := by
          gcongr
          norm_num
  have hle := le_nearestIndex (decimalNum_pos h k) (decimalDen_pos k) (by norm_num) hratio
  simpa [infinityIndex, fractionCount] using hle

theorem nearestIndex_eq_zero_of_small (hs : (digits.log2 : Int) + 3 * -(k : Int) < -1100) :
    nearestIndex digits (decimalDen (-(k : Int))) = 0 := by
  have hu : (digits : ℚ) < 2 ^ (digits.log2 + 1) := by exact_mod_cast Nat.lt_log2_self
  refine nearestIndex_eq_zero h (decimalDen_pos _) ?_
  rw [div_lt_iff₀ (by exact_mod_cast decimalDen_pos _)]
  simp only [decimalDen, neg_neg, Int.toNat_natCast, Nat.pow_eq, Nat.cast_pow, Nat.cast_ofNat]
  calc (digits : ℚ) < 2 ^ (digits.log2 + 1) := hu
    _ ≤ 2 ^ ((-1100 : Int) + 3 * k) := by
        rw [← zpow_natCast]
        exact zpow_le_zpow_right₀ (by norm_num) (by push_cast; omega)
    _ = 2 ^ (-1100 : Int) * 8 ^ k := by
        rw [zpow_add₀ (by norm_num), zpow_mul, zpow_natCast]
        norm_num
    _ ≤ 2 ^ (-1100 : Int) * 10 ^ k := by
        gcongr
        norm_num

/-- The shortcuts of reading give what rounding the ratio gives. -/
theorem ofDecimal_eq {negative : Bool} (exponent : Int) :
    ofDecimal negative digits exponent = ofIndex negative
      (nearestIndex (decimalNum digits exponent) (decimalDen exponent)) := by
  simp only [ofDecimal, if_neg h.ne']
  split
  · rename_i he
    obtain ⟨k, rfl⟩ := Int.eq_ofNat_of_zero_le he
    have hz : (-(k : Int)).toNat = 0 := by omega
    have hden : decimalDen k = 1 := by simp [decimalDen, hz]
    split
    · exact (ofIndex_of_le (infinityIndex_le h ‹_›)).symm
    · rw [hden]
      rfl
  · rename_i he
    obtain ⟨k, hk⟩ := Int.eq_ofNat_of_zero_le (by omega : 0 ≤ -exponent)
    obtain rfl : exponent = -(k : Int) := by omega
    have hz : (-(k : Int)).toNat = 0 := by omega
    have hnum : decimalNum digits (-(k : Int)) = digits := by simp [decimalNum, hz]
    rw [hnum]
    split
    · rw [nearestIndex_eq_zero_of_small h ‹_›]
    · rfl

end

/-- Zeros at the end of the digits may be counted by the exponent instead. -/
theorem ofDecimal_shift {negative : Bool} (digits zeros : Nat) (exponent : Int) :
    ofDecimal negative (digits * 10 ^ zeros) exponent =
      ofDecimal negative digits (exponent + zeros) := by
  rcases Nat.eq_zero_or_pos digits with rfl | h
  · simp [ofDecimal]
  have hpos : 0 < digits * 10 ^ zeros := Nat.mul_pos h (Nat.pow_pos (by decide))
  rw [ofDecimal_eq hpos, ofDecimal_eq h]
  refine congrArg (ofIndex negative) (nearestIndex_congr (decimalNum_pos hpos _) (decimalDen_pos _)
    (decimalDen_pos _) ?_)
  show digits * 10 ^ zeros * 10 ^ exponent.toNat * 10 ^ (-(exponent + zeros)).toNat =
    digits * 10 ^ (exponent + zeros).toNat * 10 ^ (-exponent).toNat
  rw [Nat.mul_assoc, Nat.mul_assoc, Nat.mul_assoc, ← Nat.pow_add, ← Nat.pow_add, ← Nat.pow_add]
  congr 2
  omega

/-! ## Exact decimals -/

/-- A magnitude is the nearest to itself. -/
theorem nearestIndex_binary {m : Nat} {e : Int} (hm : 0 < m) (hlt : m < 2 * fractionCount)
    (he : -1074 ≤ e) (hn : fractionCount ≤ m ∨ e = -1074) :
    nearestIndex (m * 2 ^ e.toNat) (2 ^ (-e).toNat) = (e + 1074).toNat * fractionCount + m := by
  have hnum : 0 < m * 2 ^ e.toNat := Nat.mul_pos hm (Nat.two_pow_pos _)
  have hden : 0 < 2 ^ (-e).toNat := Nat.two_pow_pos _
  have hm' : (0 : ℚ) < m := by exact_mod_cast hm
  have hratio : ((m * 2 ^ e.toNat : Nat) : ℚ) / (2 ^ (-e).toNat : Nat) = m * 2 ^ e := by
    have h := @scaled_div m 1 Nat.one_pos (-e)
    simp only [scaled, neg_neg, Nat.one_mul, Nat.cast_one, div_one, zpow_neg, div_inv_eq_mul] at h
    exact h
  have hpos : (0 : ℚ) < m * 2 ^ e := by positivity
  have hupper : Int.log 2 ((m : ℚ) * 2 ^ e) < 53 + e := by
    rw [← Int.lt_zpow_iff_log_lt (by norm_num) hpos, zpow_add₀ (by norm_num)]
    have : (m : ℚ) < ((2 : Nat) : ℚ) ^ (53 : Int) := by
      have h53 : m < 2 ^ 53 := by rw [fractionCount_eq] at hlt; omega
      exact_mod_cast h53
    exact mul_lt_mul_of_pos_right this (by positivity)
  have hlower : fractionCount ≤ m → 52 + e ≤ Int.log 2 ((m : ℚ) * 2 ^ e) := by
    intro h
    rw [← Int.zpow_le_iff_le_log (by norm_num) hpos, zpow_add₀ (by norm_num)]
    have : ((2 : Nat) : ℚ) ^ (52 : Int) ≤ m := by
      rw [fractionCount_eq] at h
      exact_mod_cast h
    exact mul_le_mul_of_nonneg_right this (by positivity)
  have hunit : unitExponent (m * 2 ^ e.toNat) (2 ^ (-e).toNat) = e := by
    rw [unitExponent_eq hnum hden, hratio]
    rcases hn with h | rfl
    · have := hlower h
      omega
    · omega
  simp only [nearestIndex, hunit, scaled]
  have hround : roundDiv (m * 2 ^ e.toNat * Nat.pow 2 (-e).toNat)
      (2 ^ (-e).toNat * Nat.pow 2 e.toNat) = m := by
    show roundDiv (m * 2 ^ e.toNat * 2 ^ (-e).toNat) (2 ^ (-e).toNat * 2 ^ e.toNat) = m
    rw [Nat.mul_assoc, Nat.mul_comm (2 ^ (-e).toNat)]
    exact roundDiv_exact m (Nat.mul_pos (Nat.two_pow_pos _) hden)
  rw [hround]

variable {x : Binary64}

theorem one_le_block (h : ¬ x.index.val < fractionCount) : 1 ≤ x.index.val / fractionCount :=
  (Nat.one_le_div_iff fractionCount_pos).mpr (Nat.not_lt.mp h)

/-- The place of a magnitude from its mantissa and its exponent. -/
theorem index_eq (x : Binary64) :
    x.index.val = (x.exponent + 1074).toNat * fractionCount + x.mantissa := by
  unfold exponent mantissa
  split
  · simp
  · rename_i h
    have hdiv := Nat.div_add_mod x.index.val fractionCount
    obtain ⟨k, hk⟩ := Nat.exists_eq_add_of_le' (one_le_block h)
    rw [hk] at hdiv ⊢
    have ht : (((k + 1 : Nat) : Int) - 1075 + 1074).toNat = k := by omega
    rw [ht]
    rw [Nat.mul_add, Nat.mul_one, Nat.mul_comm fractionCount k] at hdiv
    omega

theorem mantissa_lt (x : Binary64) : x.mantissa < 2 * fractionCount := by
  unfold mantissa
  have := Nat.mod_lt x.index.val fractionCount_pos
  split <;> omega

theorem exponent_ge (x : Binary64) : -1074 ≤ x.exponent := by
  unfold exponent
  split
  · omega
  · rename_i h
    have hone := one_le_block h
    omega

theorem mantissa_normal (x : Binary64) : fractionCount ≤ x.mantissa ∨ x.exponent = -1074 := by
  unfold mantissa exponent
  split
  · exact .inr rfl
  · exact .inl (by omega)

theorem ofIndex_index (h : x.isFinite = true) : ofIndex x.negative x.index.val = x := by
  have hlt : x.index.val < infinityIndex := of_decide_eq_true h
  unfold ofIndex
  rw [dif_pos hlt]

/-- A finite number is the nearest to its exact decimal. -/
theorem ofDecimal_exact (h : x.isFinite = true) :
    ofDecimal x.negative x.exactDigits x.exactExponent = x := by
  have hindex := index_eq x
  rcases Nat.eq_zero_or_pos x.mantissa with hm | hm
  · have hzero : x.exactDigits = 0 := by
      unfold exactDigits
      rw [hm, Nat.zero_mul, Nat.zero_mul]
      split <;> rfl
    have he : x.index.val = 0 := by
      rcases mantissa_normal x with hn | he
      · rw [hm] at hn
        exact absurd hn (Nat.not_le.mpr fractionCount_pos)
      · rw [hindex, he, hm]
        rfl
    rw [hzero, ofDecimal, if_pos rfl, ← he, ofIndex_index h]
  · have hpos : 0 < x.exactDigits := by
      unfold exactDigits
      split <;> exact Nat.mul_pos hm (Nat.pow_pos (by decide))
    rw [ofDecimal_eq hpos]
    refine (congrArg (ofIndex x.negative) ?_).trans (ofIndex_index h)
    rw [hindex, ← nearestIndex_binary hm (mantissa_lt x) (exponent_ge x) (mantissa_normal x)]
    refine nearestIndex_congr (decimalNum_pos hpos _) (decimalDen_pos _)
      (Nat.pow_pos (by decide)) ?_
    simp only [decimalNum, decimalDen, exactDigits, exactExponent, Nat.pow_eq]
    split
    · rename_i he
      have h1 : (min x.exponent 0).toNat = 0 := by omega
      have h2 : (-min x.exponent 0).toNat = 0 := by omega
      have h3 : (-x.exponent).toNat = 0 := by omega
      rw [h1, h2, h3]
      ring
    · rename_i he
      have h1 : (min x.exponent 0).toNat = 0 := by omega
      have h2 : (-min x.exponent 0).toNat = (-x.exponent).toNat := by omega
      have h3 : x.exponent.toNat = 0 := by omega
      have h10 : 10 ^ (-x.exponent).toNat = 2 ^ (-x.exponent).toNat * 5 ^ (-x.exponent).toNat :=
        Nat.mul_pow 2 5 _
      rw [h1, h2, h3, h10]
      ring

/-! ## Whole numbers -/

/-- A magnitude without a fraction. -/
def IsWhole (x : Binary64) : Prop := 0 ≤ x.exponent ∨ 2 ^ (-x.exponent).toNat ∣ x.mantissa

instance (x : Binary64) : Decidable x.IsWhole := inferInstanceAs (Decidable (_ ∨ _))

/-- Exponent and mantissa from the place of a magnitude. -/
theorem exponent_mantissa_of_index {e : Int} {m : Nat} (he : -1074 ≤ e) (hl : fractionCount ≤ m)
    (hu : m < 2 * fractionCount)
    (h : x.index.val = (e + 1074).toNat * fractionCount + m) : x.exponent = e ∧ x.mantissa = m := by
  obtain ⟨r, rfl⟩ := Nat.exists_eq_add_of_le hl
  have hr : r < fractionCount := by omega
  have hindex : x.index.val = fractionCount * ((e + 1074).toNat + 1) + r := by
    rw [h, Nat.mul_add, Nat.mul_one, Nat.mul_comm fractionCount]
    omega
  have hdiv : x.index.val / fractionCount = (e + 1074).toNat + 1 := by
    rw [hindex, Nat.mul_add_div fractionCount_pos, Nat.div_eq_of_lt hr, Nat.add_zero]
  have hmod : x.index.val % fractionCount = r := by
    rw [hindex, Nat.mul_add_mod, Nat.mod_eq_of_lt hr]
  have hge : ¬ x.index.val < fractionCount := by
    rw [hindex, Nat.mul_add, Nat.mul_one]
    omega
  refine ⟨?_, ?_⟩
  · rw [exponent, if_neg hge, hdiv]
    omega
  · rw [mantissa, if_neg hge, hmod]

section
variable {n : Nat} (hn : 0 < n) (h : n < 2 * fractionCount)
include hn h

theorem log2_le : n.log2 ≤ 52 :=
  Nat.lt_succ_iff.mp ((Nat.log2_lt hn.ne').mpr h)

/-- An integer below `2 ^ 53` is scaled by the power of two that fills the fraction. -/
theorem scaled_bounds : fractionCount ≤ n * 2 ^ (52 - n.log2) ∧
    n * 2 ^ (52 - n.log2) < 2 * fractionCount := by
  have hlog : n.log2 ≤ 52 := log2_le hn h
  have hpow : 2 ^ n.log2 * 2 ^ (52 - n.log2) = fractionCount := by
    rw [← Nat.pow_add, fractionCount_eq]
    congr 1
    omega
  constructor
  · rw [← hpow]
    exact Nat.mul_le_mul_right _ (Nat.log2_self_le hn.ne')
  · rw [← hpow, ← Nat.mul_assoc, ← Nat.pow_succ']
    exact Nat.mul_lt_mul_of_pos_right Nat.lt_log2_self (Nat.two_pow_pos _)

theorem nearestIndex_of_lt : nearestIndex n 1 =
    ((n.log2 : Int) - 52 + 1074).toNat * fractionCount + n * 2 ^ (52 - n.log2) := by
  have hlog : Int.log 2 ((n : ℚ) / (1 : Nat)) = n.log2 := by
    rw [Nat.cast_one, div_one, Int.log_natCast, Nat.log2_eq_log_two]
  have hl52 : n.log2 ≤ 52 := log2_le hn h
  have hunit : unitExponent n 1 = (n.log2 : Int) - 52 := by
    rw [unitExponent_eq hn Nat.one_pos, hlog]
    omega
  have h1 : (-((n.log2 : Int) - 52)).toNat = 52 - n.log2 := by omega
  have h2 : ((n.log2 : Int) - 52).toNat = 0 := by omega
  have hone := roundDiv_exact (n * Nat.pow 2 (52 - n.log2)) Nat.one_pos
  rw [Nat.mul_one] at hone
  simp only [nearestIndex, hunit, scaled, h1, h2]
  exact congrArg _ hone

end

theorem isWhole_of_index_small {n : Nat} (hn : 0 < n) (h : n < fractionCount)
    (hindex : x.index.val = nearestIndex n 1) : x.IsWhole := by
  have h2 : n < 2 * fractionCount := by omega
  have hlog : n.log2 ≤ 52 := log2_le hn h2
  obtain ⟨hlow, hup⟩ := scaled_bounds hn h2
  obtain ⟨he, hm⟩ := exponent_mantissa_of_index (by omega) hlow hup
    (hindex.trans (nearestIndex_of_lt hn h2))
  right
  rw [he, hm]
  have ht : (-((n.log2 : Int) - 52)).toNat = 52 - n.log2 := by omega
  rw [ht]
  exact Dvd.intro_left n rfl

theorem isWhole_of_index_large {n : Nat} (hn : 0 < n) (h : fractionCount ≤ n)
    (hindex : x.index.val = nearestIndex n 1) : x.IsWhole := by
  have hratio : (2 : ℚ) ^ ((0 : Int) + 52) ≤ (n : ℚ) / (1 : Nat) := by
    rw [Nat.cast_one, div_one]
    rw [fractionCount_eq] at h
    exact_mod_cast h
  have hle := le_nearestIndex hn Nat.one_pos (Int.zero_le_ofNat 1074) hratio
  have hdiv : 1075 ≤ x.index.val / fractionCount := by
    rw [Nat.le_div_iff_mul_le fractionCount_pos, hindex]
    refine le_trans ?_ hle
    show 1075 * fractionCount ≤ 1074 * fractionCount + fractionCount
    omega
  have hge : ¬ x.index.val < fractionCount := by
    intro hlt
    rw [Nat.div_eq_of_lt hlt] at hdiv
    omega
  left
  rw [exponent, if_neg hge]
  omega

theorem ofDecimal_natural {negative : Bool} {n : Nat} (hn : 0 < n) :
    ofDecimal negative n 0 = ofIndex negative (nearestIndex n 1) := by
  have hnum : decimalNum n 0 = n := Nat.mul_one n
  rw [ofDecimal_eq hn, hnum]
  rfl

/-- The place of a finite number that an integer is read as. -/
theorem index_of_ofDecimal {negative : Bool} {n : Nat} (hn : 0 < n)
    (h : ofDecimal negative n 0 = x) (hf : x.isFinite = true) :
    x.index.val = nearestIndex n 1 := by
  rw [ofDecimal_natural hn] at h
  have hlt : nearestIndex n 1 < infinityIndex := by
    by_contra hge
    rw [ofIndex_of_le (not_lt.mp hge)] at h
    rw [← h] at hf
    cases hf
  rw [← h, ofIndex, dif_pos hlt]

/-- An integer is read as a whole number. -/
theorem isWhole_of_ofDecimal {negative : Bool} {n : Nat} (h : ofDecimal negative n 0 = x)
    (hf : x.isFinite = true) : x.IsWhole := by
  rcases Nat.eq_zero_or_pos n with rfl | hn
  · have hx : ofIndex negative 0 = x := by rwa [ofDecimal, if_pos rfl] at h
    right
    rw [← hx]
    exact dvd_zero _
  · have hindex := index_of_ofDecimal hn h hf
    rcases Nat.lt_or_ge n fractionCount with hsmall | hbig
    · exact isWhole_of_index_small hn hsmall hindex
    · exact isWhole_of_index_large hn hbig hindex

end Criteria.Binary64
