import Criteria.Proofs.Json.Number
import Criteria.Proofs.Json.String

/-! # JSON text reads back

A value that denotes something is read back from its text. The text after it is kept as it is, so
the items of an array and the members of an object are read one after another. -/
namespace Criteria.Json
open Decimal Numeral Text

/-- All of the value denotes something that has a text of its own. -/
inductive Written : Json → Prop
  | null : Written .null
  | bool (b : Bool) : Written (.bool b)
  | int (n : Int64) : Written (.int n)
  | float {x : Binary64} (h : x.isFinite = true) : Written (.float x)
  | string (s : String) : Written (.string s)
  | array {items : List Json} (h : ∀ j ∈ items, j.Written) : Written (.array items)
  | object {members : List (String × Json)} (h : ∀ m ∈ members, m.2.Written) :
      Written (.object members)

/-- The text of the value is read as the value, whatever follows it. -/
def ReadsBack (j : Json) : Prop :=
  ∀ n rest, j.write.length ≤ n → Stops rest → value (n + 1) (j.write ++ rest) = some (j, rest)

/-! ## The start of a text -/

theorem skip_cons {c : Char} (h : isSpace c = false) (cs : List Char) : skip (c :: cs) = c :: cs :=
  List.dropWhile_cons_of_neg (by simp [h])

theorem isSpace_of_isNumeralChar {c : Char} (h : isNumeralChar c = true) : isSpace c = false := by
  have h1 : c ≠ ' ' := ne_of_isNumeralChar h rfl
  have h2 : c ≠ '\t' := ne_of_isNumeralChar h rfl
  have h3 : c ≠ '\n' := ne_of_isNumeralChar h rfl
  have h4 : c ≠ '\r' := ne_of_isNumeralChar h rfl
  simp [isSpace, h1, h2, h3, h4]

/-- What begins as a number is no string, no word and not nested. -/
theorem value_number {c : Char} (h : isNumeralChar c = true) (n : Nat) (cs : List Char) :
    value (n + 1) (c :: cs) = number (c :: cs) := by
  have h1 : c ≠ '[' := ne_of_isNumeralChar h rfl
  have h2 : c ≠ '\x7b' := ne_of_isNumeralChar h rfl
  have h3 : c ≠ '"' := ne_of_isNumeralChar h rfl
  have h4 : 'n' ≠ c := (ne_of_isNumeralChar h rfl).symm
  have h5 : 't' ≠ c := (ne_of_isNumeralChar h rfl).symm
  have h6 : 'f' ≠ c := (ne_of_isNumeralChar h rfl).symm
  rw [value, skip_cons (isSpace_of_isNumeralChar h)]
  simp [scalar, afterWord?, h1, h2, h3, h4, h5, h6, List.isPrefixOf]

theorem Spells.readsBack {j : Json} (h : Spells j.write j) : j.ReadsBack := by
  intro n rest hn hr
  obtain ⟨c, cs, hc, hs⟩ := h.exists_cons
  have hnumber := h.number hr
  rw [hc, List.cons_append] at hnumber ⊢
  rw [value_number hs, hnumber]

/-- No value begins like the end of an array. -/
theorem Written.exists_cons {j : Json} (h : j.Written) :
    ∃ c cs, j.write = c :: cs ∧ isSpace c = false ∧ c ≠ ']' := by
  cases h with
  | null => exact ⟨_, _, rfl, rfl, by decide⟩
  | bool b =>
    cases b with
    | false => exact ⟨_, _, rfl, rfl, by decide⟩
    | true => exact ⟨_, _, rfl, rfl, by decide⟩
  | int n =>
    obtain ⟨c, cs, hc, hs⟩ := (spells_ofInt n).exists_cons
    exact ⟨c, cs, hc, isSpace_of_isNumeralChar hs, ne_of_isNumeralChar hs rfl⟩
  | float h =>
    obtain ⟨c, cs, hc, hs⟩ := (spells_float h).exists_cons
    exact ⟨c, cs, hc, isSpace_of_isNumeralChar hs, ne_of_isNumeralChar hs rfl⟩
  | string s => exact ⟨_, _, rfl, rfl, by decide⟩
  | array h => exact ⟨_, _, rfl, rfl, by decide⟩
  | object h => exact ⟨_, _, rfl, rfl, by decide⟩

/-! ## Arrays -/

theorem stops_cons {c : Char} (h : Numeral.isNumeralChar c = false) (cs : List Char) :
    Stops (c :: cs) := by
  intro d hd
  cases hd
  exact h

/-- One item takes one step, and its text holds at least the steps that the rest needs. -/
theorem items_write {js : List Json} (hne : js ≠ []) (h : ∀ j ∈ js, j.ReadsBack) (n : Nat)
    (rest : List Char) (hn : (joinWith ',' (writeAll js)).length ≤ n) :
    items (n + 2) (joinWith ',' (writeAll js) ++ ']' :: rest) = some (js, rest) := by
  induction js generalizing n with
  | nil => exact absurd rfl hne
  | cons j js ih =>
    have hj := h j List.mem_cons_self
    cases js with
    | nil =>
      simp only [writeAll, joinWith] at hn ⊢
      rw [items, hj n _ hn (stops_cons rfl _)]
      rfl
    | cons k js =>
      have ih := ih (List.cons_ne_nil _ _) (fun j hj => h j (List.mem_cons_of_mem _ hj))
      simp only [writeAll, joinWith, List.length_append, List.length_cons, List.append_assoc,
        List.cons_append] at hn ih ⊢
      obtain ⟨m, rfl⟩ := Nat.exists_eq_add_one_of_ne_zero (by omega : n ≠ 0)
      rw [items, hj (m + 1) _ (by omega) (stops_cons rfl _)]
      simp [skip_cons, isSpace, ih m (by omega)]

theorem value_items {c : Char} (hs : isSpace c = false) (hb : c ≠ ']') (n : Nat) (cs : List Char) :
    value (n + 1) ('[' :: c :: cs) = (items n (c :: cs)).map fun r => (.array r.1, r.2) := by
  rw [value, skip_cons rfl]
  simp only
  rw [skip_cons hs]
  simp [hb]

theorem readsBack_array {js : List Json} (hw : ∀ j ∈ js, j.Written) (h : ∀ j ∈ js, j.ReadsBack) :
    (Json.array js).ReadsBack := by
  intro n rest hn hr
  cases js with
  | nil => rfl
  | cons j js =>
    obtain ⟨c, cs, hc, hs, hb⟩ := (hw j List.mem_cons_self).exists_cons
    obtain ⟨ds, hds⟩ : ∃ ds, joinWith ',' (writeAll (j :: js)) = c :: ds := by
      cases js with
      | nil => exact ⟨cs, hc⟩
      | cons k js => exact ⟨_, by rw [writeAll, writeAll, joinWith, hc, List.cons_append]⟩
    simp only [write, List.length_cons, List.length_append, List.length_nil] at hn
    obtain ⟨m, rfl⟩ := Nat.exists_eq_add_of_le' (by omega : 2 ≤ n)
    have hitems := items_write (List.cons_ne_nil _ _) h m rest (by omega)
    simp only [write, hds, List.cons_append, List.append_assoc, List.nil_append] at hitems ⊢
    rw [value_items hs hb, hitems]
    rfl

/-! ## Objects -/

/-- A member is read up to what follows it. -/
theorem members_cons {key : String} {j : Json} (h : j.ReadsBack) {n : Nat}
    (hn : j.write.length ≤ n) {tail : List Char} (ht : Stops tail) :
    members (n + 2) (writeString key ++ ':' :: j.write ++ tail) =
      match skip tail with
      | ',' :: rest => (members (n + 1) rest).map fun r => ((some key, j) :: r.1, r.2)
      | '\x7d' :: rest => some ([(some key, j)], rest)
      | _ => none := by
  have hkey := stringBody_escape key (':' :: (j.write ++ tail))
  simp only [writeString, List.cons_append, List.append_assoc, List.nil_append]
  rw [members, skip_cons rfl]
  simp only [hkey, Option.bind_eq_bind, Option.bind_some]
  rw [skip_cons rfl]
  simp only [h n tail hn ht, Option.bind_some]
  rfl

theorem members_write {ms : List (String × Json)} (hne : ms ≠ []) (h : ∀ m ∈ ms, m.2.ReadsBack)
    (n : Nat) (rest : List Char) (hn : (joinWith ',' (writeMembers ms)).length ≤ n) :
    members (n + 2) (joinWith ',' (writeMembers ms) ++ '\x7d' :: rest) =
      some (ms.map fun m => (some m.1, m.2), rest) := by
  induction ms generalizing n with
  | nil => exact absurd rfl hne
  | cons m ms ih =>
    obtain ⟨key, j⟩ := m
    have hj : j.ReadsBack := h (key, j) List.mem_cons_self
    cases ms with
    | nil =>
      simp only [writeMembers, joinWith, List.length_append, List.length_cons] at hn ⊢
      rw [members_cons hj (by omega) (stops_cons rfl _)]
      rfl
    | cons k ms =>
      have ih := ih (List.cons_ne_nil _ _) (fun m hm => h m (List.mem_cons_of_mem _ hm))
      simp only [writeMembers, joinWith, List.length_append, List.length_cons] at hn ih ⊢
      obtain ⟨m, rfl⟩ := Nat.exists_eq_add_one_of_ne_zero (by omega : n ≠ 0)
      rw [List.append_assoc, List.cons_append, members_cons hj (by omega) (stops_cons rfl _),
        skip_cons rfl]
      simp only
      rw [ih m (by omega)]
      rfl

theorem ofMembers_map (ms : List (String × Json)) :
    ofMembers (ms.map fun m => (some m.1, m.2)) = .object ms := by
  have hkeys : (ms.map fun m => (some m.1, m.2)).mapM
      (fun m => m.1.map fun key => (key, m.2)) = some ms := by
    induction ms with
    | nil => rfl
    | cons m ms ih => simp [ih]
  rw [ofMembers, hkeys]

theorem value_members (n : Nat) (cs : List Char) :
    value (n + 1) ('\x7b' :: '"' :: cs) =
      (members n ('"' :: cs)).map fun r => (ofMembers r.1, r.2) := by
  rw [value, skip_cons rfl]
  simp only
  rw [skip_cons rfl]
  rfl

theorem readsBack_object {ms : List (String × Json)} (h : ∀ m ∈ ms, m.2.ReadsBack) :
    (Json.object ms).ReadsBack := by
  intro n rest hn hr
  cases ms with
  | nil => rfl
  | cons m ms =>
    obtain ⟨ds, hds⟩ : ∃ ds, joinWith ',' (writeMembers (m :: ms)) = '"' :: ds := by
      cases ms with
      | nil => exact ⟨_, rfl⟩
      | cons k ms => exact ⟨_, rfl⟩
    simp only [write, List.length_cons, List.length_append, List.length_nil] at hn
    obtain ⟨l, rfl⟩ := Nat.exists_eq_add_of_le' (by omega : 2 ≤ n)
    have hmembers := members_write (List.cons_ne_nil _ _) h l rest (by omega)
    simp only [write, hds, List.cons_append, List.append_assoc, List.nil_append] at hmembers ⊢
    rw [value_members, hmembers, Option.map_some, ofMembers_map]

/-! ## Values -/

theorem readsBack_string (s : String) : (Json.string s).ReadsBack := by
  intro n rest hn hr
  have hbody := stringBody_escape s rest
  simp only [write, writeString, List.cons_append, List.append_assoc, List.nil_append]
  rw [value, skip_cons rfl]
  simp only [hbody]
  rfl

theorem Written.readsBack {j : Json} (h : j.Written) : j.ReadsBack := by
  induction h with
  | null => exact fun n rest hn hr => rfl
  | bool b =>
    cases b with
    | false => exact fun n rest hn hr => rfl
    | true => exact fun n rest hn hr => rfl
  | int n => exact Spells.readsBack (j := .int n) (spells_ofInt n)
  | float h => exact Spells.readsBack (j := .float _) (spells_float h)
  | string s => exact readsBack_string s
  | array h ih => exact readsBack_array h ih
  | object h ih => exact readsBack_object ih

/-- A value is read back from its text. -/
theorem Written.ofText?_toText {j : Json} (h : j.Written) : ofText? j.toText = some j := by
  have hv := h.readsBack j.write.length [] (Nat.le_refl _) nofun
  rw [List.append_nil] at hv
  rw [ofText?, toText, String.toList_ofList, read?, hv]
  rfl

end Criteria.Json
