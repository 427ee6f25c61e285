import Criteria.Condition.Reader
import Criteria.Proofs.Number.Numeral
import Criteria.Proofs.Text.Escapes

/-! # How operands are read

The texts that name a field, and the texts that stand for a constant: null, numbers and quoted
strings. -/
namespace Criteria
open Operand (isQuote)
open Text

/-- The value of an item of a list: a constant, not the name of a field. -/
def IsItem (text : List Char) (value : Value) : Prop :=
  ∃ o, Operand.classify text = .ok o ∧ o.isVariable = false ∧ o.value = .ok value

/-- A text that is read as a constant wherever an operand may stand. -/
structure ReadsAs (text : List Char) (v : Value) : Prop where
  segment : Segment text
  ne_nil : text ≠ []
  item : IsItem text v

/-- The name of a field that is written as it is: it reads as a variable, is not the beginning of a
quoted string, and is not cut at its commas. -/
structure PlainName (name : String) : Prop where
  trimmed : Trimmed name.toList
  kind : Operand.kindOf name.toList = .variable
  unquoted : ∀ c ∈ name.toList.head?, isQuote c = false
  single : argumentSplitter.split false name = .ok [name]

/-- A number that stands for a field. -/
structure NumericName (name : String) : Prop where
  trimmed : Trimmed name.toList
  kind : Operand.kindOf name.toList = .number

/-! ## Kinds -/

theorem Operand.isVariable_iff {o : Operand} : o.isVariable = true ↔ o.kind = .variable := by
  simp [isVariable]

/-- A text that is no call has its kind, unless it would name a field and opens a quote. -/
theorem classify_eq_ok_iff {text : List Char} {o : Operand} : Operand.classify text = .ok o ↔
    o = ⟨trim text, Operand.kindOf text⟩ ∧ Operand.kindOf text ≠ .call ∧
      (Operand.kindOf text = .variable → ∀ c ∈ (trim text).head?, isQuote c = false) := by
  have hhead : (∀ c ∈ (trim text).head?, isQuote c = false) ↔
      (trim text).head?.any isQuote = false := by
    cases (trim text).head? <;> simp
  rw [hhead, eq_comm (a := o)]
  unfold Operand.classify Operand.kindOf
  simp only
  split
  · rename_i hk
    simp [hk]
  · rename_i hk
    cases (trim text).head?.any isQuote <;> simp [hk]
  · rename_i hc hv
    exact ⟨fun h => ⟨Except.ok.inj h, hc, fun hx => absurd hx hv⟩, fun h => congrArg _ h.1⟩

theorem classify_eq {text : List Char} {kind : Operand.Kind} (ht : Trimmed text)
    (hk : Operand.kindOfTrimmed text = kind) (hc : kind ≠ .call)
    (hv : kind = .variable → ∀ c ∈ text.head?, isQuote c = false) :
    Operand.classify text = .ok ⟨text, kind⟩ := by
  have hkind : Operand.kindOf text = kind := by rw [Operand.kindOf, ht, hk]
  refine classify_eq_ok_iff.mpr ⟨by rw [ht, hkind], hkind ▸ hc, ?_⟩
  rwa [ht, hkind]

theorem toLower_ne {c : Char} (h : Numeral.isNumeralChar c = true) : c.toLower ≠ 'n' := by
  simp only [Numeral.isNumeralChar, Bool.or_eq_true, decide_eq_true_eq] at h
  rcases h with h | h
  · obtain ⟨_, hu⟩ := Numeral.isDigit_iff.mp h
    have hc : c.toLower = c := by
      unfold Char.toLower
      rw [dif_neg]
      rintro ⟨ha, _⟩
      have : 65 ≤ c.toNat := ha
      omega
    rw [hc]
    rintro rfl
    simp at hu
  · simp only [List.mem_cons, List.not_mem_nil, or_false] at h
    rcases h with rfl | rfl | rfl | rfl | rfl <;> decide

theorem kindOfTrimmed_number {text : List Char} {v : Value} (h : Numeral.number? text = some v) :
    Operand.kindOfTrimmed text = .number := by
  obtain ⟨hne, hc⟩ := Numeral.number?_chars h
  obtain ⟨c, cs, rfl⟩ := List.exists_cons_of_ne_nil hne
  have hhead := hc c (by simp)
  have hn : (lower (c :: cs) == "null".toList) = false := by
    refine beq_false_of_ne fun he => ?_
    exact toLower_ne hhead (List.cons.inj he).1
  have hq : Operand.isQuoted (c :: cs) = false := by
    simp [Operand.isQuoted, (Numeral.plain_of_isNumeralChar hhead).1]
  have hl : ((c :: cs).getLast? == some ')') = false := by
    refine beq_false_of_ne fun he => ?_
    have := hc ')' (List.mem_of_getLast? he)
    cases this
  simp only [Operand.kindOfTrimmed, List.isEmpty_cons, hn, hq, hl, h]
  rfl

theorem number?_of_kindOfTrimmed {text : List Char} (h : Operand.kindOfTrimmed text = .number) :
    ∃ v, Numeral.number? text = some v := by
  unfold Operand.kindOfTrimmed at h
  split at h
  · cases h
  · split at h
    · cases h
    · split at h
      · cases h
      · split at h
        · rename_i hs
          exact Option.isSome_iff_exists.mp hs
        · cases h

/-! ## Constants -/

theorem classify_numeral {text : List Char} {v : Value} (h : Numeral.number? text = some v) :
    Operand.classify text = .ok ⟨text, .number⟩ :=
  classify_eq (segment_of_number? h).trimmed (kindOfTrimmed_number h) (by decide) nofun

theorem value_numeral {text : List Char} {v : Value} (h : Numeral.number? text = some v) :
    Operand.value ⟨text, .number⟩ = .ok v := by
  simp [Operand.value, h]

theorem readsAs_number {text : List Char} {v : Value} (h : Numeral.number? text = some v) :
    ReadsAs text v :=
  ⟨segment_of_number? h, (Numeral.number?_chars h).1, _, classify_numeral h, rfl, value_numeral h⟩

theorem classify_quote (cs : List Char) :
    Operand.classify (quote cs) = .ok ⟨quote cs, .string⟩ :=
  classify_eq (segment_quote cs).trimmed (kindOfTrimmed_quote cs) (by decide) nofun

/-- The value of a string is what is left of it without its outermost quotes and parentheses. -/
theorem value_string_iff {raw : List Char} {s : String} (hne : raw ≠ []) :
    Operand.value ⟨raw, .string⟩ = .ok (.string s) ↔ Bared raw s.toList := by
  rw [← unquote_eq_ok_iff hne]
  show (Operand.unquote raw).map _ = _ ↔ _
  constructor
  · intro h
    obtain ⟨cs, hcs, hs⟩ := map_eq_ok h
    cases hs
    rwa [String.toList_ofList]
  · intro h
    rw [h, Except.map, String.ofList_toList]

/-- A string that is balanced has one body, the commas in it notwithstanding. -/
theorem exists_body {text : List Char} (hb : Balanced false text)
    (hk : Operand.kindOf text = .string) :
    ∃ body, argumentSplitter.pieces true (trim text) = .ok [body] ∧
      Operand.value ⟨trim text, .string⟩ = .ok (.string (String.ofList body)) := by
  have hne : trim text ≠ [] := ne_nil_of_string hk
  obtain ⟨body, hbody⟩ := hb.trim.exists_bared
  refine ⟨body, ?_, (value_string_iff hne).mpr (by rwa [String.toList_ofList])⟩
  exact (Splitter.pieces_clean_eq_singleton_iff hne).mpr hbody.shows

theorem value_quote (cs : List Char) :
    Operand.value ⟨quote cs, .string⟩ = .ok (.string (String.ofList cs)) := by
  simp [Operand.value, unquote_quote, Except.map]

theorem readsAs_quote (cs : List Char) : ReadsAs (quote cs) (.string (String.ofList cs)) :=
  ⟨segment_quote cs, quote_ne_nil cs, _, classify_quote cs, rfl, value_quote cs⟩

theorem readsAs_null : ReadsAs Value.null.literal .null := by
  have hb : Balanced false ['n', 'u', 'l', 'l'] := .of_plain (by simp [isQuote])
  exact ⟨⟨hb, rfl⟩, by simp [Value.literal], _, rfl, rfl, rfl⟩

/-! ## Names -/

theorem PlainName.ne_nil_and_balanced {name : String} (h : PlainName name) :
    name.toList ≠ [] ∧ Balanced false name.toList := by
  obtain ⟨ps, hp, he⟩ := map_eq_ok h.single
  have hps : ps = [name.toList] := by
    have := congrArg (List.map String.toList) he
    simpa using this
  rw [hps] at hp
  exact pieces_eq_self_iff.mp hp

theorem PlainName.segment {name : String} (h : PlainName name) : Segment name.toList :=
  ⟨h.ne_nil_and_balanced.2, h.trimmed⟩

theorem PlainName.classify {name : String} (h : PlainName name) :
    Operand.classify name.toList = .ok ⟨name.toList, .variable⟩ := by
  have hk := h.kind
  unfold Operand.kindOf at hk
  rw [h.trimmed] at hk
  exact classify_eq h.trimmed hk (by decide) fun _ => h.unquoted

theorem NumericName.number? {name : String} (h : NumericName name) :
    ∃ v, Numeral.number? name.toList = some v := by
  have hk := h.kind
  unfold Operand.kindOf at hk
  rw [h.trimmed] at hk
  exact number?_of_kindOfTrimmed hk

theorem NumericName.readsAs {name : String} (h : NumericName name) :
    ∃ v, ReadsAs name.toList v := by
  obtain ⟨v, hv⟩ := h.number?
  exact ⟨v, readsAs_number hv⟩

theorem NumericName.classify {name : String} (h : NumericName name) :
    Operand.classify name.toList = .ok ⟨name.toList, .number⟩ := by
  obtain ⟨v, hv⟩ := h.number?
  exact classify_numeral hv

theorem PlainName.name : PlainName "name" where
  trimmed := rfl
  kind := rfl
  unquoted := by simp [Operand.isQuote]
  single := rfl

theorem NumericName.twelve : NumericName "12" := ⟨rfl, rfl⟩

end Criteria
