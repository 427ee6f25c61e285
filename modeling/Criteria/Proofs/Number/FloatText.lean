import Criteria.Number.Layout
import Criteria.Proofs.Number.Decimal
import Criteria.Proofs.Number.Rounding

/-! # The text of a float reads back

The digits that are kept of a number read back to it, wherever the point is put between them. The
text of a whole number may be that of an integer, which is then read in its place. -/
namespace Criteria
open Decimal

/-! ## The shortest decimal -/

namespace Binary64
variable {x : Binary64}

theorem shorten_readsBack (h : x.isFinite = true) (tie : Tie) (drop : Nat) :
    ofDecimal x.negative (x.shorten tie drop).1 (x.shorten tie drop).2 = x := by
  induction drop with
  | zero => exact ofDecimal_exact h
  | succ drop ih =>
    unfold shorten
    simp only
    split
    · rename_i digits hd
      have hr := List.find?_some hd
      exact eq_of_beq hr
    · exact ih

/-- The digits at the end of a text that are zeros, apart from the others. -/
theorem exists_zeros (cs : List Char) :
    ∃ n, cs = (cs.reverse.dropWhile (· == '0')).reverse ++ List.replicate n '0' := by
  refine ⟨(cs.reverse.takeWhile (· == '0')).length, ?_⟩
  have hz : cs.reverse.takeWhile (· == '0') =
      List.replicate (cs.reverse.takeWhile (· == '0')).length '0' := by
    refine List.eq_replicate_iff.mpr ⟨rfl, fun c hc => ?_⟩
    have hb := List.mem_takeWhile_imp hc
    exact eq_of_beq hb
  have hsplit : cs.reverse.takeWhile (· == '0') ++ cs.reverse.dropWhile (· == '0') = cs.reverse :=
    List.takeWhile_append_dropWhile
  rw [hz] at hsplit
  have := congrArg List.reverse hsplit
  rw [List.reverse_append, List.reverse_reverse, List.reverse_replicate] at this
  exact this.symm

theorem isDigit_significand (tie : Tie) {c : Char} (h : c ∈ (x.significand tie).digits) :
    isDigit c = true := by
  obtain ⟨n, hn⟩ := exists_zeros (ofNat (x.shortest tie).1)
  refine isDigit_of_mem_ofNat (n := (x.shortest tie).1) ?_
  rw [hn]
  exact List.mem_append_left _ h

theorem significand_readsBack (h : x.isFinite = true) (tie : Tie) :
    ofDecimal x.negative (value (x.significand tie).digits)
      ((x.significand tie).point - (x.significand tie).digits.length) = x := by
  obtain ⟨n, hn⟩ := exists_zeros (ofNat (x.shortest tie).1)
  have hdigits : (x.shortest tie).1 = value (x.significand tie).digits * 10 ^ n := by
    have := congrArg value hn
    rw [value_ofNat, value_append, value_zeros, List.length_replicate, Nat.add_zero] at this
    exact this
  have hlen : (ofNat (x.shortest tie).1).length = (x.significand tie).digits.length + n := by
    have := congrArg List.length hn
    rw [List.length_append, List.length_replicate] at this
    exact this
  have hpoint : (x.significand tie).point - (x.significand tie).digits.length =
      (x.shortest tie).2 + n := by
    simp only [significand] at hlen ⊢
    rw [hlen]
    push_cast
    omega
  have hback : ofDecimal x.negative (x.shortest tie).1 (x.shortest tie).2 = x :=
    shorten_readsBack h tie _
  rw [hdigits] at hback
  rw [hpoint, ← ofDecimal_shift]
  exact hback

/-- A number other than zero keeps some digits. -/
theorem significand_ne_nil (h : x.isFinite = true) (hz : x.isZero = false) (tie : Tie) :
    (x.significand tie).digits ≠ [] := by
  intro hnil
  have hback := significand_readsBack h tie
  rw [hnil, value_nil, ofDecimal, if_pos rfl] at hback
  rw [← hback] at hz
  cases hz

theorem head?_significand (h : x.isFinite = true) (hz : x.isZero = false) (tie : Tie) :
    (x.significand tie).digits.head? ≠ some '0' := by
  obtain ⟨n, hn⟩ := exists_zeros (ofNat (x.shortest tie).1)
  have hne := significand_ne_nil h hz tie
  have hpos : 0 < (x.shortest tie).1 := by
    refine Nat.pos_of_ne_zero fun h0 => hne ?_
    rw [significand, h0]
    rfl
  have hhead : (ofNat (x.shortest tie).1).head? = (x.significand tie).digits.head? := by
    rw [hn]
    exact List.head?_append_of_ne_nil _ hne
  rw [← hhead]
  exact head?_ofNat hpos

end Binary64

/-! ## Positional numerals -/

namespace Numeral
variable {w f : List Char}

theorem spanMantissa_whole (hw : ∀ c ∈ w, isDigit c = true) (hne : w ≠ []) :
    spanMantissa w = some ((w, []), []) := by
  simp [spanMantissa, spanDigits_self hw, hne]

theorem spanMantissa_point (hw : ∀ c ∈ w, isDigit c = true) (hne : w ≠ [])
    (hf : ∀ c ∈ f, isDigit c = true) : spanMantissa (w ++ '.' :: f) = some ((w, f), []) := by
  have hp : ∀ c ∈ ('.' :: f).head?, isDigit c = false := by
    intro c hc
    cases hc
    rfl
  simp [spanMantissa, spanDigits_append hw hp, spanDigits_self hf, hne]

theorem spanSign_signed (negative : Bool) {cs : List Char}
    (hh : ∀ c ∈ cs.head?, isDigit c = true) :
    spanSign (if negative then '-' :: cs else cs) = (negative, cs) := by
  cases negative with
  | false => exact spanSign_digit hh
  | true => rfl

theorem span_signed (negative : Bool) {cs : List Char} (hh : ∀ c ∈ cs.head?, isDigit c = true)
    (h : spanMantissa cs = some ((w, f), [])) :
    span (if negative then '-' :: cs else cs) = some (⟨negative, w, f, 0⟩, []) := by
  unfold span
  rw [spanSign_signed negative hh]
  simp only [h]
  rfl

/-- Only digits spell an integer. -/
theorem mantissa_of_integer? {cs : List Char} {n : Int} (h : integer? cs = some n)
    (hm : spanMantissa (spanSign cs).2 = some ((w, f), [])) : f = [] := by
  rcases of_integer? h with ⟨rfl, _⟩ | ⟨negative, digits, hs, hd, hne, _⟩
  · cases hm
    rfl
  · rw [hs, spanMantissa_whole hd hne] at hm
    cases hm
    rfl

end Numeral

/-! ## The text of a number -/

namespace Binary64
open Numeral
variable {x : Binary64}

theorem isDigit_zeros {n : Int} {c : Char} (h : c ∈ zeros n) : isDigit c = true := by
  rw [List.eq_of_mem_replicate h]
  rfl

theorem isDigit_zero : ∀ c ∈ ['0'], isDigit c = true := fun _ => isDigit_zeros (n := 1)

theorem isDigit_head {cs rest : List Char} (hne : cs ≠ []) (h : ∀ c ∈ cs, isDigit c = true) :
    ∀ c ∈ (cs ++ rest).head?, isDigit c = true := by
  obtain ⟨d, ds, rfl⟩ := List.exists_cons_of_ne_nil hne
  intro c hc
  cases hc
  exact h _ List.mem_cons_self

/-- An unsigned text that is read as a mantissa, and with the sign as the number. -/
def ReadsBack (negative : Bool) (text : List Char) (x : Binary64) : Prop :=
  ∃ w f, spanMantissa text = some ((w, f), []) ∧ (∀ c ∈ text.head?, isDigit c = true) ∧
    ofDecimal negative (value (w ++ f)) (0 - f.length) = x

section
variable {negative : Bool} {s : Significand}
  (hback : ofDecimal negative (value s.digits) (s.point - s.digits.length) = x)
include hback

theorem ofDecimal_leadingZeros (hp : s.point ≤ 0) :
    ofDecimal negative (value (['0'] ++ (zeros (-s.point) ++ s.digits)))
      (0 - (zeros (-s.point) ++ s.digits).length) = x := by
  have hv : value (['0'] ++ (zeros (-s.point) ++ s.digits)) = value s.digits := by
    rw [value_append, value_append, zeros, value_zeros, Nat.zero_mul, Nat.zero_add]
    exact (congrArg (· + _) (Nat.zero_mul _)).trans (Nat.zero_add _)
  have he : (0 : Int) - (zeros (-s.point) ++ s.digits).length = s.point - s.digits.length := by
    simp only [zeros, List.length_append, List.length_replicate]
    omega
  rw [hv, he, hback]

/-- A whole number may have zeros after the point. -/
theorem ofDecimal_whole (hl : s.digits.length ≤ s.point) (k : Nat) :
    ofDecimal negative
      (value (s.digits ++ zeros (s.point - s.digits.length) ++ List.replicate k '0'))
      (0 - (List.replicate k '0').length) = x := by
  have hv : value (s.digits ++ zeros (s.point - s.digits.length) ++ List.replicate k '0') =
      value s.digits * 10 ^ ((s.point - s.digits.length).toNat + k) := by
    rw [List.append_assoc, zeros, ← List.replicate_add, value_append, value_zeros,
      List.length_replicate, Nat.add_zero]
  have he : (0 : Int) - (List.replicate k '0').length +
      ((s.point - s.digits.length).toNat + k : Nat) = s.point - s.digits.length := by
    rw [List.length_replicate]
    omega
  rw [hv, ofDecimal_shift, he, hback]

theorem ofDecimal_split (hp : ¬ s.point ≤ 0) (hl : ¬ s.digits.length ≤ s.point) :
    ofDecimal negative (value (s.digits.take s.point.toNat ++ s.digits.drop s.point.toNat))
      (0 - (s.digits.drop s.point.toNat).length) = x := by
  have he : (0 : Int) - (s.digits.drop s.point.toNat).length = s.point - s.digits.length := by
    rw [List.length_drop]
    omega
  rw [List.take_append_drop, he, hback]

end

section
variable {negative : Bool} {s : Significand}
  (hd : ∀ c ∈ s.digits, isDigit c = true) (hne : s.digits ≠ [])
  (hback : ofDecimal negative (value s.digits) (s.point - s.digits.length) = x)
include hd hback

theorem readsBack_leadingZeros (hp : s.point ≤ 0) :
    ReadsBack negative ('0' :: '.' :: (zeros (-s.point) ++ s.digits)) x := by
  have hall : ∀ c ∈ zeros (-s.point) ++ s.digits, isDigit c = true :=
    List.forall_mem_append.mpr ⟨fun _ => isDigit_zeros, hd⟩
  refine ⟨['0'], _, spanMantissa_point isDigit_zero (List.cons_ne_nil _ _) hall, ?_,
    ofDecimal_leadingZeros hback hp⟩
  show ∀ c ∈ (['0'] ++ '.' :: (zeros (-s.point) ++ s.digits)).head?, isDigit c = true
  exact isDigit_head (List.cons_ne_nil _ _) isDigit_zero

include hne

theorem readsBack_whole (hl : s.digits.length ≤ s.point) :
    ReadsBack negative (s.digits ++ zeros (s.point - s.digits.length)) x := by
  have hall : ∀ c ∈ s.digits ++ zeros (s.point - s.digits.length), isDigit c = true :=
    List.forall_mem_append.mpr ⟨hd, fun _ => isDigit_zeros⟩
  exact ⟨_, [], spanMantissa_whole hall (by simp [hne]), isDigit_head hne hd,
    ofDecimal_whole hback hl 0⟩

theorem readsBack_split (hp : ¬ s.point ≤ 0) (hl : ¬ s.digits.length ≤ s.point) :
    ReadsBack negative (s.digits.take s.point.toNat ++ '.' :: s.digits.drop s.point.toNat) x := by
  have hpos : 0 < s.digits.length := List.length_pos_of_ne_nil hne
  have htake : s.digits.take s.point.toNat ≠ [] := by
    rw [ne_eq, List.take_eq_nil_iff, not_or]
    exact ⟨by omega, hne⟩
  have hw : ∀ c ∈ s.digits.take s.point.toNat, isDigit c = true := by
    intro c hc
    exact hd c (List.mem_of_mem_take hc)
  have hf : ∀ c ∈ s.digits.drop s.point.toNat, isDigit c = true := by
    intro c hc
    exact hd c (List.mem_of_mem_drop hc)
  exact ⟨_, _, spanMantissa_point hw htake hf, isDigit_head htake hw, ofDecimal_split hback hp hl⟩

/-- The point divides the digits so that they read back. -/
theorem readsBack_place : ReadsBack negative (plain.place s) x := by
  unfold Layout.place
  split
  · exact readsBack_leadingZeros hd hback ‹_›
  · split
    · have hwhole := readsBack_whole hd hne hback ‹_›
      simpa [plain] using hwhole
    · exact readsBack_split hd hne hback ‹_› ‹_›

end

theorem mem_magnitude {c : Char} (h : c ∈ plain.magnitude x) : isDigit c = true ∨ c = '.' := by
  have hd := fun c hc => isDigit_significand (x := x) .up (c := c) hc
  unfold Layout.magnitude at h
  split at h
  · left
    cases List.mem_singleton.mp h
    rfl
  · change c ∈ plain.place (x.significand .up) at h
    unfold Layout.place at h
    split at h
    · simp only [List.cons_append, List.mem_cons, List.mem_append] at h
      rcases h with rfl | rfl | hc | hc
      · exact .inl rfl
      · exact .inr rfl
      · exact .inl (isDigit_zeros hc)
      · exact .inl (hd c hc)
    · split at h
      · simp only [plain, List.append_nil, List.mem_append] at h
        rcases h with hc | hc
        · exact .inl (hd c hc)
        · exact .inl (isDigit_zeros hc)
      · simp only [List.mem_append, List.mem_cons] at h
        rcases h with hc | rfl | hc
        · exact .inl (hd c (List.mem_of_mem_take hc))
        · exact .inr rfl
        · exact .inl (hd c (List.mem_of_mem_drop hc))

theorem readsBack_magnitude (h : x.isFinite = true) :
    ReadsBack x.negative (plain.magnitude x) x := by
  unfold Layout.magnitude
  split
  · rename_i hz
    refine ⟨['0'], [], rfl, ?_, ?_⟩
    · intro c hc
      cases hc
      rfl
    have hi : x.index.val = 0 := eq_of_beq hz
    have := ofIndex_index h
    rwa [hi] at this
  · rename_i hz
    have hz : x.isZero = false := Bool.eq_false_of_not_eq_true hz
    exact readsBack_place (fun _ => isDigit_significand .up) (significand_ne_nil h hz .up)
      (significand_readsBack h .up)

theorem floatText_eq (hf : x.isFinite = true) : Value.floatText x =
    if x.negative then '-' :: plain.magnitude x else plain.magnitude x := by
  rw [Value.floatText, if_pos hf]
  rfl

/-- The text of a finite number is that of an integer, or is read as the number. -/
theorem number?_floatText (h : x.isFinite = true) :
    number? (Value.floatText x) = some (.float x) ∨
      x.IsWhole ∧ ∃ n, number? (Value.floatText x) = some (.int n) ∧
        Value.intText n = Value.floatText x := by
  obtain ⟨w, f, hm, hh, hback⟩ := readsBack_magnitude h
  have hspan := span_signed x.negative hh hm
  have hsign := spanSign_signed x.negative hh
  have htext := floatText_eq h
  have hne : plain.magnitude x ≠ [] := by
    intro hnil
    rw [hnil] at hm
    cases hm
  rw [← htext] at hspan hsign
  obtain ⟨c, cs, hcs⟩ : ∃ c cs, Value.floatText x = c :: cs := by
    rw [htext]
    split
    · exact ⟨_, _, rfl⟩
    · exact List.exists_cons_of_ne_nil hne
  have hc : (isDigit c || c == '-' || c == '+' || c == '.') = true ∧ c ≠ '+' := by
    rw [htext] at hcs
    split at hcs
    · cases hcs
      exact ⟨rfl, by decide⟩
    · have := hh c (by rw [hcs]; rfl)
      refine ⟨by simp [this], ?_⟩
      rintro rfl
      cases this
  cases hi : (integer? (Value.floatText x)).filter inInt64 with
  | none =>
    left
    have hnum : toBinary64 ⟨x.negative, w, f, 0⟩ = x := hback
    unfold number?
    rw [hcs] at hspan hi ⊢
    simp only [hc.1, if_true, hi, hspan, hnum, h]
  | some n =>
    have hread : number? (Value.floatText x) = some (.int (Int64.ofInt n)) := by
      unfold number?
      rw [hcs] at hi ⊢
      simp only [hc.1, if_true, hi]
    obtain ⟨hn, hin⟩ := Option.filter_eq_some_iff.mp hi
    refine .inr ⟨?_, Int64.ofInt n, hread, ?_⟩
    · have hf : f = [] := mantissa_of_integer? hn (by rw [hsign]; exact hm)
      rw [hf] at hback
      exact isWhole_of_ofDecimal hback h
    · rw [Value.intText, toInt_ofInt hin]
      refine ofInt_of_integer? hn ?_
      rw [hcs]
      simpa using hc.2

end Binary64
end Criteria
