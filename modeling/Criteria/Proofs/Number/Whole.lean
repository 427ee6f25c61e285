import Criteria.Proofs.Number.FloatText

/-! # Integers as floats

Every integer of 64 bits has a nearest float, and up to `2 ^ 53` no other integer has the same. The
text of a whole float is that of an integer, so that up to there it is the text of the integer that
the float was made of. -/
namespace Criteria
open Decimal

namespace Binary64
variable {x : Binary64} {a b n : Nat}

/-- The number nearest to an integer. -/
def ofInt (n : Int) : Binary64 := ofDecimal (decide (n < 0)) n.natAbs 0

/-! ## Integers below `2 ^ 53` -/

theorem nearestIndex_lt_infinityIndex (hn : 0 < n) (h : n < 2 ^ 64) :
    nearestIndex n 1 < infinityIndex := by
  have hratio : (n : ℚ) / (1 : Nat) < 2 ^ ((11 : Int) + 53) := by
    rw [Nat.cast_one, div_one]
    exact_mod_cast h
  have hle := nearestIndex_le hn Nat.one_pos (by norm_num) hratio
  refine lt_of_le_of_lt hle ?_
  show 1085 * fractionCount + 2 * fractionCount < 2047 * fractionCount
  have := fractionCount_pos
  omega

theorem isFinite_ofDecimal (negative : Bool) (h : n < 2 ^ 64) :
    (ofDecimal negative n 0).isFinite = true := by
  rcases Nat.eq_zero_or_pos n with rfl | hn
  · rw [ofDecimal, if_pos rfl]
    rfl
  · have hlt := nearestIndex_lt_infinityIndex hn h
    rw [ofDecimal_natural hn, ofIndex, dif_pos hlt]
    exact decide_eq_true hlt

theorem negative_ofDecimal (negative : Bool) (digits : Nat) (exponent : Int) :
    (ofDecimal negative digits exponent).negative = negative := by
  have sign : ∀ index, (ofIndex negative index).negative = negative := by
    intro index
    unfold ofIndex
    split <;> rfl
  unfold ofDecimal
  simp only
  split
  · exact sign _
  · split
    · split <;> exact sign _
    · split <;> exact sign _

theorem fractionCount_le_nearestIndex (hn : 0 < n) (h : n < 2 * fractionCount) :
    fractionCount ≤ nearestIndex n 1 := by
  have hlow := (scaled_bounds hn h).1
  rw [nearestIndex_of_lt hn h]
  omega

/-- Up to `2 ^ 53` integers have places of their own. -/
theorem nearestIndex_injective (ha : 0 < a) (ha' : a < 2 * fractionCount) (hb : 0 < b)
    (h : nearestIndex a 1 = nearestIndex b 1) : a = b := by
  have hF : fractionCount = 4503599627370496 := rfl
  have hla : a.log2 ≤ 52 := log2_le ha ha'
  obtain ⟨halow, haup⟩ := scaled_bounds ha ha'
  rw [nearestIndex_of_lt ha ha'] at h
  rcases Nat.lt_or_ge b (2 * fractionCount) with hb' | hb'
  · have hlb : b.log2 ≤ 52 := log2_le hb hb'
    obtain ⟨hblow, hbup⟩ := scaled_bounds hb hb'
    rw [nearestIndex_of_lt hb hb'] at h
    generalize hA : a * 2 ^ (52 - a.log2) = A at *
    generalize hB : b * 2 ^ (52 - b.log2) = B at *
    rw [hF] at *
    have hlog : a.log2 = b.log2 := by omega
    have hAB : A = B := by rw [hlog] at h; omega
    rw [← hA, ← hB, hlog] at hAB
    exact Nat.eq_of_mul_eq_mul_right (Nat.two_pow_pos _) hAB
  · have hratio : (2 : ℚ) ^ ((1 : Int) + 52) ≤ (b : ℚ) / (1 : Nat) := by
      rw [Nat.cast_one, div_one]
      have : 2 ^ 53 ≤ b := by rw [hF] at hb'; omega
      exact_mod_cast this
    have hle := le_nearestIndex hb Nat.one_pos (by norm_num) hratio
    rw [← h] at hle
    generalize a * 2 ^ (52 - a.log2) = A at *
    rw [hF] at *
    have ht : ((1 : Int) + 1074).toNat = 1075 := rfl
    rw [ht] at hle
    omega

/-! ## The shortest decimal of a whole number -/

/-- The exact decimal of a whole number ends with the zeros that its exponent takes away. -/
theorem exactDigits_dvd (h : x.IsWhole) : 10 ^ (-x.exactExponent).toNat ∣ x.exactDigits := by
  unfold exactDigits exactExponent
  split
  · rename_i he
    have hz : (-min x.exponent 0).toNat = 0 := by omega
    rw [hz, Nat.pow_zero]
    exact Nat.one_dvd _
  · rename_i he
    have hz : (-min x.exponent 0).toNat = (-x.exponent).toNat := by omega
    have h10 : 10 ^ (-x.exponent).toNat = 2 ^ (-x.exponent).toNat * 5 ^ (-x.exponent).toNat :=
      Nat.mul_pow 2 5 _
    rw [hz, h10]
    exact Nat.mul_dvd_mul_right (h.resolve_left he) _

theorem exactExponent_nonpos (x : Binary64) : x.exactExponent ≤ 0 := min_le_right _ _

theorem mem_candidates (tie : Tie) (m : Nat) {unit : Nat} (hu : 0 < unit) :
    m ∈ candidates tie (unit * m) unit := by
  have hdiv : unit * m / unit = m := Nat.mul_div_cancel_left m hu
  have hmod : unit * m % unit = 0 := Nat.mul_mod_right unit m
  simp [candidates, hdiv, hmod, hu]

/-- The decimal of a whole number is found before a digit after the point is needed. -/
theorem shorten_nonneg (hf : x.isFinite = true) (hw : x.IsWhole) (tie : Tie) {drop : Nat}
    (hd : (-x.exactExponent).toNat ≤ drop) : 0 ≤ (x.shorten tie drop).2 := by
  have hle := exactExponent_nonpos x
  induction drop with
  | zero =>
    show 0 ≤ x.exactExponent
    omega
  | succ drop ih =>
    unfold shorten
    simp only
    split
    · show 0 ≤ x.exactExponent + (drop + 1 : Nat)
      omega
    · rename_i hnone
      rcases Nat.lt_or_ge drop (-x.exactExponent).toNat with hlt | hge
      · -- here the number without a fraction is among the candidates
        obtain ⟨m, hm⟩ := exactDigits_dvd hw
        have hk : (-x.exactExponent).toNat = drop + 1 := by omega
        rw [hk] at hm
        have hmem : m ∈ candidates tie x.exactDigits (Nat.pow 10 (drop + 1)) := by
          rw [hm]
          exact mem_candidates tie m (Nat.pow_pos (by decide))
        have hback : ofDecimal x.negative m (x.exactExponent + (drop + 1 : Nat)) = x := by
          rw [← ofDecimal_shift, Nat.mul_comm, ← hm]
          exact ofDecimal_exact hf
        exact absurd (beq_iff_eq.mpr hback) (List.find?_eq_none.mp hnone m hmem)
      · exact ih hge

theorem exactDigits_pos (hf : x.isFinite = true) (hz : x.isZero = false) : 0 < x.exactDigits := by
  refine Nat.pos_of_ne_zero fun h0 => ?_
  have hback := ofDecimal_exact hf
  rw [h0, ofDecimal, if_pos rfl] at hback
  rw [← hback] at hz
  cases hz

theorem shortest_nonneg (hf : x.isFinite = true) (hz : x.isZero = false) (hw : x.IsWhole)
    (tie : Tie) : 0 ≤ (x.shortest tie).2 := by
  refine shorten_nonneg hf hw tie ?_
  have hle := Nat.le_of_dvd (exactDigits_pos hf hz) (exactDigits_dvd hw)
  have hlt := value_lt fun c hc => isDigit_of_mem_ofNat (n := x.exactDigits) (c := c) hc
  rw [value_ofNat] at hlt
  have := (Nat.pow_lt_pow_iff_right (by decide : 1 < 10)).mp (lt_of_le_of_lt hle hlt)
  omega

/-- The digits of a whole number are those of an integer that is read as it. -/
theorem exists_magnitude (hf : x.isFinite = true) (hz : x.isZero = false) (hw : x.IsWhole) :
    ∃ m, 0 < m ∧ plain.magnitude x = ofNat m ∧ ofDecimal x.negative m 0 = x := by
  have hd : ∀ c ∈ (x.significand .up).digits, isDigit c = true := fun _ => isDigit_significand .up
  have hne := significand_ne_nil hf hz .up
  have hhead := head?_significand hf hz .up
  have hback := significand_readsBack hf .up
  have hnonneg := shortest_nonneg hf hz hw .up
  have hlen : ((x.significand .up).digits.length : Int) ≤ (x.significand .up).point := by
    obtain ⟨n, hn⟩ := exists_zeros (ofNat (x.shortest .up).1)
    have := congrArg List.length hn
    rw [List.length_append] at this
    simp only [significand] at this ⊢
    omega
  have hplace : plain.magnitude x = (x.significand .up).digits ++
      zeros ((x.significand .up).point - (x.significand .up).digits.length) := by
    have hpos : 0 < (x.significand .up).digits.length := List.length_pos_of_ne_nil hne
    unfold Layout.magnitude
    rw [if_neg (by simp [hz])]
    show plain.place (x.significand .up) = _
    rw [Layout.place, if_neg (by omega), if_pos hlen]
    exact List.append_nil _
  have hall : ∀ c ∈ plain.magnitude x, isDigit c = true := by
    rw [hplace]
    exact List.forall_mem_append.mpr ⟨hd, fun _ => isDigit_zeros⟩
  have hwhole := ofDecimal_whole hback hlen 0
  have hfirst : (plain.magnitude x).head? ≠ some '0' := by
    rw [hplace, List.head?_append_of_ne_nil _ hne]
    exact hhead
  have hcons : plain.magnitude x ≠ [] := by simp [hplace, hne]
  rw [List.replicate_zero, List.append_nil, ← hplace] at hwhole
  exact ⟨_, value_pos hall hcons hfirst, (ofNat_value hall hcons hfirst).symm, hwhole⟩

/-! ## The text of an integer as a float -/

theorem floatText_ofInt_of_lt {n : Int} (hn : n ≠ 0) (h : n.natAbs < 2 * fractionCount) :
    Value.floatText (ofInt n) = Decimal.ofInt n := by
  have hpos : 0 < n.natAbs := Int.natAbs_pos.mpr hn
  have h64 : n.natAbs < 2 ^ 64 := lt_trans h (by decide)
  have hf : (ofInt n).isFinite = true := isFinite_ofDecimal _ h64
  have hindex : (ofInt n).index.val = nearestIndex n.natAbs 1 := index_of_ofDecimal hpos rfl hf
  have hz : (ofInt n).isZero = false := by
    have hle := fractionCount_le_nearestIndex hpos h
    have := fractionCount_pos
    refine beq_false_of_ne ?_
    rw [hindex]
    omega
  obtain ⟨m, hm, htext, hback⟩ := exists_magnitude hf hz (isWhole_of_ofDecimal rfl hf)
  have hsame : n.natAbs = m := by
    have hm' := index_of_ofDecimal hm hback hf
    exact nearestIndex_injective hpos h hm (hindex.symm.trans hm')
  rw [floatText_eq hf, htext, ofInt, negative_ofDecimal, ← hsame, Decimal.ofInt]
  by_cases hneg : n < 0
  · rw [if_pos hneg, if_pos (decide_eq_true hneg)]
  · rw [if_neg hneg, if_neg (by simpa using hneg)]

/-- Up to `2 ^ 53` an integer is written as its nearest float is. -/
theorem floatText_ofInt {n : Int} (h : n.natAbs ≤ 2 ^ 53) :
    Value.floatText (ofInt n) = Decimal.ofInt n := by
  rcases Nat.lt_or_ge n.natAbs (2 * fractionCount) with hlt | hge
  · rcases eq_or_ne n 0 with rfl | hn
    · rfl
    · exact floatText_ofInt_of_lt hn hlt
  · have habs : n.natAbs = 9007199254740992 := by
      have hF : fractionCount = 4503599627370496 := rfl
      rw [hF] at hge
      omega
    rcases Int.natAbs_eq n with hn | hn
    · rw [hn, habs]
      decide +kernel
    · rw [hn, habs]
      decide +kernel

end Binary64
end Criteria
