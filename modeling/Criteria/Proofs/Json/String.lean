import Criteria.Json.Reader
import Criteria.Json.Writer

/-! # JSON strings

A string that is written is read back up to its closing quote: each character gives one code, and
no code of a character is half of a surrogate pair. -/
namespace Criteria.Json

theorem hexValue?_hexDigit : ∀ n < 16, hexValue? (hexDigit n) = some n := by decide

/-- The four digits of a control character have two zeros in front. -/
theorem hex4?_hexDigits {n : Nat} (h : n < 0x20) :
    hex4? '0' '0' (hexDigit (n / 16)) (hexDigit (n % 16)) = some n := by
  have hz : hexValue? '0' = some 0 := rfl
  have hh := hexValue?_hexDigit (n / 16) (by omega)
  have hl := hexValue?_hexDigit (n % 16) (by omega)
  have hn : 16 * (n / 16) + n % 16 = n := Nat.div_add_mod n 16
  simp [hex4?, hz, hh, hl, hn]

/-- A character that stands as it is gives its own code. -/
theorem codes_plain {c : Char} (hq : c ≠ '"') (hb : c ≠ '\\') (hc : ¬ c.toNat < 0x20)
    (cs : List Char) : codes (c :: cs) = (codes cs).map fun r => (c.toNat :: r.1, r.2) := by
  rw [codes]
  · exact if_neg hc
  · exact hq
  · intro a b d e ds he
    exact absurd he hb
  · intro e ds he
    exact absurd he hb

/-- No letter that means a character is the one before four digits. -/
theorem codes_letter {e c : Char} (he : unescape? e = some c) (cs : List Char) :
    codes ('\\' :: e :: cs) = (codes cs).map fun r => (c.toNat :: r.1, r.2) := by
  have hu : e ≠ 'u' := by
    intro h
    rw [h] at he
    cases he
  rw [codes]
  · rw [he]
    cases codes cs with
    | none => rfl
    | some r => rfl
  · intro a b d f ds h
    exact absurd h hu

theorem codes_hex {a b c d : Char} {n : Nat} (h : hex4? a b c d = some n) (cs : List Char) :
    codes ('\\' :: 'u' :: a :: b :: c :: d :: cs) = (codes cs).map fun r => (n :: r.1, r.2) := by
  rw [codes, h]
  cases codes cs with
  | none => rfl
  | some r => rfl

theorem codes_escape (c : Char) (cs : List Char) :
    codes (escape c ++ cs) = (codes cs).map fun r => (c.toNat :: r.1, r.2) := by
  unfold escape
  split
  · exact codes_letter rfl cs
  · exact codes_letter rfl cs
  · exact codes_letter rfl cs
  · exact codes_letter rfl cs
  · exact codes_letter rfl cs
  · exact codes_letter rfl cs
  · exact codes_letter rfl cs
  · rename_i hq hb _ _ _ _ _
    split
    · rename_i hc
      exact codes_hex (hex4?_hexDigits hc) cs
    · rename_i hc
      exact codes_plain hq hb hc cs

theorem codes_flatMap_escape (cs rest : List Char) :
    codes (cs.flatMap escape ++ '"' :: rest) = some (cs.map Char.toNat, rest) := by
  induction cs with
  | nil => rfl
  | cons c cs ih =>
    rw [List.flatMap_cons, List.append_assoc, codes_escape, ih]
    rfl

/-- The code of a character is no half of a surrogate pair. -/
theorem surrogate_toNat (c : Char) : isHigh c.toNat = false ∧ isLow c.toNat = false := by
  have hv : c.toNat < 0xD800 ∨ 0xDFFF < c.toNat ∧ c.toNat < 0x110000 := c.valid
  simp only [isHigh, isLow, Bool.and_eq_false_iff, decide_eq_false_iff_not]
  omega

theorem characters?_map_toNat : ∀ cs : List Char, characters? (cs.map Char.toNat) = some cs
  | [] => rfl
  | [c] => by
    obtain ⟨hh, hl⟩ := surrogate_toNat c
    simp [characters?, hh, hl]
  | c :: d :: cs => by
    obtain ⟨hh, hl⟩ := surrogate_toNat c
    have ih := characters?_map_toNat (d :: cs)
    rw [List.map_cons] at ih
    simp [characters?, hh, hl, ih]

/-- A written string is read up to its closing quote. -/
theorem stringBody_escape (s : String) (rest : List Char) :
    stringBody (s.toList.flatMap escape ++ '"' :: rest) = some (some s, rest) := by
  simp [stringBody, codes_flatMap_escape, characters?_map_toNat]

end Criteria.Json
