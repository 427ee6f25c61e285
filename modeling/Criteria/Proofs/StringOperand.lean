import Criteria.Proofs.Operand

/-! # String operands

A text is taken for a string by its two ends, which must be the same quote. Its value is what is
left of it without its outermost quotes and parentheses, so that a string may be put together from
several literals. -/
namespace Criteria
open Operand (isQuote)
open Text

/-- A quote, a body and the same quote again; it stands for the body with its escapes resolved. -/
def IsLiteral (q : Char) (cs s : List Char) : Prop :=
  ∃ body, QuoteBody q body ∧ cs = q :: (body ++ [q]) ∧ s = unescape body

/-- One literal, or two with a balanced text between them, which is bared. -/
inductive Composes (q : Char) : List Char → List Char → Prop
  | one {cs s : List Char} : IsLiteral q cs s → Composes q cs s
  | several {first between last a b c : List Char} : IsLiteral q first a → Bared between b →
      IsLiteral q last c → Composes q (first ++ between ++ last) (a ++ b ++ c)

/-- The text is an operand of the kind of strings, with this value. -/
def ReadsString (text s : String) : Prop :=
  ∃ o, Operand.classify text.toList = .ok o ∧ o.kind = .string ∧ o.value = .ok (.string s)

theorem Bared.append {cs ds s t : List Char} (h : Bared cs s) (h' : Bared ds t) :
    Bared (cs ++ ds) (s ++ t) := by
  induction h with
  | nil => exact h'
  | plain hq ho hc hk _ ih => exact .plain hq ho hc hk ih
  | quoted hq hb _ ih =>
    have run := Bared.quoted hq hb ih
    simpa using run
  | nested hi _ ih =>
    have run := Bared.nested hi ih
    simpa using run

theorem IsLiteral.bared {q : Char} {cs s : List Char} (hq : isQuote q = true)
    (h : IsLiteral q cs s) : Bared cs s := by
  obtain ⟨body, hb, rfl, rfl⟩ := h
  have run : Bared (q :: (body ++ [q])) (unescape body ++ []) := .quoted hq hb .nil
  rwa [List.append_nil] at run

/-- The text ends with a literal. -/
def EndsLiteral (q : Char) (cs s : List Char) : Prop :=
  ∃ between last b c, Bared between b ∧ IsLiteral q last c ∧ cs = between ++ last ∧ s = b ++ c

theorem EndsLiteral.behind {q : Char} {w t cs s : List Char} (hw : Bared w t)
    (h : EndsLiteral q cs s) : EndsLiteral q (w ++ cs) (t ++ s) := by
  obtain ⟨between, last, b, c, hb, hc, rfl, rfl⟩ := h
  exact ⟨w ++ between, last, t ++ b, c, hw.append hb, hc, by simp, by simp⟩

/-- A bared text that ends with a quote ends with a literal in that quote. -/
theorem Bared.endsLiteral {q : Char} {cs s : List Char} (hq : isQuote q = true) (h : Bared cs s)
    (hl : cs.getLast? = some q) : EndsLiteral q cs s := by
  -- what stands in front of a rest does not change the last character
  have front : ∀ {w t ds u : List Char}, Bared w t → ds ≠ [] →
      (ds.getLast? = some q → EndsLiteral q ds u) → (w ++ ds).getLast? = some q →
      EndsLiteral q (w ++ ds) (t ++ u) := by
    intro w t ds u hw hne ih hlast
    rw [List.getLast?_append_of_ne_nil w hne] at hlast
    exact (ih hlast).behind hw
  induction h with
  | nil => cases hl
  | @plain c cs s hc ho hp hk h ih =>
    by_cases hnil : cs = []
    · subst hnil
      have : c = q := by simpa using hl
      rw [this, hq] at hc
      cases hc
    · have hw : Bared [c] [c] := .plain hc ho hp hk .nil
      exact front hw hnil ih hl
  | @quoted q' body cs s hq' hb h ih =>
    have he : q' :: (body ++ q' :: cs) = (q' :: (body ++ [q'])) ++ cs := by simp
    have hw : IsLiteral q' (q' :: (body ++ [q'])) (unescape body) := ⟨body, hb, rfl, rfl⟩
    rw [he] at hl ⊢
    by_cases hnil : cs = []
    · subst hnil
      cases h
      have : q' = q := by
        rw [List.append_nil, ← List.cons_append, List.getLast?_concat] at hl
        exact Option.some.inj hl
      subst this
      exact ⟨[], _, [], _, .nil, hw, by simp, by simp⟩
    · exact front (hw.bared hq') hnil ih hl
  | @nested inner cs s hi h ih =>
    have he : '(' :: (inner ++ ')' :: cs) = ('(' :: (inner ++ [')'])) ++ cs := by simp
    have hw : Bared ('(' :: (inner ++ [')'])) (inner ++ []) := .nested hi .nil
    rw [List.append_nil] at hw
    rw [he] at hl ⊢
    by_cases hnil : cs = []
    · subst hnil
      rw [List.append_nil, ← List.cons_append, List.getLast?_concat] at hl
      cases hl
      cases hq
    · exact front hw hnil ih hl

/-- A bared text between two quotes is put together from literals. -/
theorem composes_iff {q : Char} (hq : isQuote q = true) {cs s : List Char} : Composes q cs s ↔
    Bared cs s ∧ ∃ rest, cs = q :: rest ∧ rest.getLast? = some q := by
  constructor
  · intro h
    cases h with
    | one h =>
      have hb := h.bared hq
      obtain ⟨body, _, rfl, _⟩ := h
      exact ⟨hb, body ++ [q], rfl, List.getLast?_concat⟩
    | @several _ between _ _ _ _ hf hb hl =>
      have h := ((hf.bared hq).append hb).append (hl.bared hq)
      obtain ⟨body, _, rfl, _⟩ := hf
      obtain ⟨body', _, rfl, _⟩ := hl
      have hcut : q :: (body ++ [q]) ++ between ++ q :: (body' ++ [q]) =
          q :: ((body ++ q :: (between ++ q :: body')) ++ [q]) := by simp
      exact ⟨h, _, hcut, List.getLast?_concat⟩
  · intro h
    obtain ⟨hb, rest, rfl, hlast⟩ := h
    cases hb with
    | plain hc => rw [hq] at hc; cases hc
    | nested => cases hq
    | @quoted _ body cs s _ hbody h =>
      have first : IsLiteral q (q :: (body ++ [q])) (unescape body) := ⟨body, hbody, rfl, rfl⟩
      have he : q :: (body ++ q :: cs) = (q :: (body ++ [q])) ++ cs := by simp
      rw [he]
      by_cases hnil : cs = []
      · subst hnil
        cases h
        rw [List.append_nil, List.append_nil]
        exact .one first
      · have hcs : cs.getLast? = some q := by
          rw [List.getLast?_append_of_ne_nil body (List.cons_ne_nil q cs)] at hlast
          rwa [← List.getLast?_append_of_ne_nil [q] hnil]
        obtain ⟨between, last, b, c, hb, hc, rfl, rfl⟩ := h.endsLiteral hq hcs
        rw [← List.append_assoc, ← List.append_assoc]
        exact .several first hb hc

/-! ## Operands -/

theorem kindOf_eq_string_iff {text : List Char} : Operand.kindOf text = .string ↔
    ∃ q rest, trim text = q :: rest ∧ isQuote q = true ∧ rest.getLast? = some q :=
  kindOfTrimmed_eq_string_iff.trans isQuoted_iff

theorem readsString_iff_bared {text s : String} : ReadsString text s ↔
    Operand.kindOf text.toList = .string ∧ Bared (trim text.toList) s.toList := by
  constructor
  · intro h
    obtain ⟨o, ho, hk, hv⟩ := h
    obtain ⟨rfl, _, _⟩ := classify_eq_ok_iff.mp ho
    have hk : Operand.kindOf text.toList = .string := hk
    rw [hk] at hv
    exact ⟨hk, (value_string_iff (ne_nil_of_string hk)).mp hv⟩
  · intro h
    obtain ⟨hk, hb⟩ := h
    refine ⟨⟨trim text.toList, .string⟩, ?_, rfl, (value_string_iff (ne_nil_of_string hk)).mpr hb⟩
    exact classify_eq_ok_iff.mpr ⟨by rw [hk], by rw [hk]; decide, by rw [hk]; nofun⟩

/-- A text that begins with a quote is a string, a call or a variable. -/
theorem kindOfTrimmed_of_quote {q : Char} (hq : isQuote q = true) (rest : List Char) :
    Operand.kindOfTrimmed (q :: rest) ≠ .null ∧ Operand.kindOfTrimmed (q :: rest) ≠ .number := by
  constructor
  · intro h
    simp only [Operand.kindOfTrimmed, List.isEmpty_cons, lower_ne_null hq, Bool.or_false,
      Bool.false_eq_true, if_false] at h
    split at h
    · cases h
    · split at h
      · cases h
      · split at h <;> cases h
  · intro h
    obtain ⟨v, hv⟩ := number?_of_kindOfTrimmed h
    have hchar := (Numeral.number?_chars hv).2 q (by simp)
    rw [(Numeral.plain_of_isNumeralChar hchar).1] at hq
    cases hq

/-- The texts with a string for their value begin and end with a literal in the same quote. A text
that begins with a quote in any other way has no value. -/
theorem Operand.readsString_iff (text : String) :
    (∀ s, ReadsString text s ↔
      ∃ q, isQuote q = true ∧ Composes q (trim text.toList) s.toList) ∧
    ∀ q ∈ (trim text.toList).head?, isQuote q = true → ∀ o v, classify text.toList = .ok o →
      o.value = .ok v → ∃ s, v = .string s ∧ ReadsString text s := by
  refine ⟨fun s => ?_, ?_⟩
  · rw [readsString_iff_bared, kindOf_eq_string_iff]
    constructor
    · intro h
      obtain ⟨⟨q, rest, ht, hq, hlast⟩, hb⟩ := h
      exact ⟨q, hq, (composes_iff hq).mpr ⟨hb, rest, ht, hlast⟩⟩
    · intro h
      obtain ⟨q, hq, hs⟩ := h
      obtain ⟨hb, rest, ht, hlast⟩ := (composes_iff hq).mp hs
      exact ⟨⟨q, rest, ht, hq, hlast⟩, hb⟩
  · intro q hhead hq o v ho hv
    obtain ⟨rest, ht⟩ := List.head?_eq_some_iff.mp hhead
    obtain ⟨rfl, hcall, hplain⟩ := classify_eq_ok_iff.mp ho
    obtain ⟨hnull, hnumber⟩ := kindOfTrimmed_of_quote hq rest
    rw [← ht] at hnull hnumber
    cases hk : kindOf text.toList with
    | null => exact absurd hk hnull
    | number => exact absurd hk hnumber
    | call => exact absurd hk hcall
    | «variable» =>
      have := hplain hk q hhead
      rw [hq] at this
      cases this
    | string =>
      have hv' := hv
      rw [hk] at hv'
      obtain ⟨body, _, rfl⟩ := map_eq_ok hv'
      exact ⟨_, rfl, _, ho, hk, hv⟩

theorem Operand.readsString_escaped :
    (isQuote '"' = true ∧ classify " \"a\\\"b\" ".toList = .ok ⟨"\"a\\\"b\"".toList, .string⟩ ∧
      Operand.value ⟨"\"a\\\"b\"".toList, .string⟩ = .ok (.string "a\"b")) ∧
    ReadsString " \"a\\\"b\" " "a\"b" ∧ ∃ s, Value.string "a\"b" = .string s ∧
      ReadsString " \"a\\\"b\" " s := by
  have hbody : QuoteBody '"' "a\\\"b".toList :=
    .plain (by decide) (by decide) (.escaped (.plain (by decide) (by decide) .nil))
  obtain ⟨hiff, hvalue⟩ := readsString_iff " \"a\\\"b\" "
  refine ⟨⟨rfl, rfl, rfl⟩, (hiff _).mpr ⟨'"', rfl, .one ⟨_, hbody, rfl, rfl⟩⟩, ?_⟩
  exact hvalue '"' rfl rfl _ _ rfl rfl

/-- Three literals in a row are read as one string, and are no literal. -/
theorem Operand.literals_joined : ReadsString "'x'y'z'" "xyz" ∧
    ¬ ∃ q s, isQuote q = true ∧ IsLiteral q (trim "'x'y'z'".toList) s := by
  refine ⟨⟨_, rfl, rfl, rfl⟩, ?_⟩
  intro h
  obtain ⟨q, s, _, body, hb, he, _⟩ := h
  have he : ['\'', 'x', '\'', 'y', '\'', 'z', '\''] = q :: (body ++ [q]) := he
  obtain ⟨rfl, hrest⟩ := List.cons.inj he
  have hbody : body = ['x', '\'', 'y', '\'', 'z'] := by
    have := congrArg List.dropLast hrest
    rwa [List.dropLast_concat, eq_comm] at this
  subst hbody
  cases hb with
  | plain _ _ hb =>
    cases hb with
    | plain hq => exact hq rfl

end Criteria
