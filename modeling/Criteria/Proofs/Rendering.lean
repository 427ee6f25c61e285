import Criteria.Proofs.Calendar
import Criteria.Proofs.Number.FloatText
import Criteria.Proofs.Operand
import Criteria.Value.Rendering

/-! # Written constants read back

A constant is written as null, as a numeral or as a quoted string, whatever the type of its field.
What is read in its place is written with the same text: a type changes the text only once. -/
namespace Criteria
open Text

theorem exists_forall₂ {α β : Type} {R : α → β → Prop} {xs : List α}
    (h : ∀ x ∈ xs, ∃ y, R x y) : ∃ ys, List.Forall₂ R xs ys := by
  induction xs with
  | nil => exact ⟨[], .nil⟩
  | cons x xs ih =>
    obtain ⟨y, hy⟩ := h x (by simp)
    obtain ⟨ys, hys⟩ := ih fun z hz => h z (by simp [hz])
    exact ⟨y :: ys, .cons hy hys⟩

theorem map_eq_of_forall₂ {α β : Type} {f : α → β} {xs ys : List α}
    (h : List.Forall₂ (fun x y => f y = f x) xs ys) : ys.map f = xs.map f := by
  induction h with
  | nil => rfl
  | cons hxy _ ih => rw [List.map_cons, List.map_cons, hxy, ih]

/-- The forms of a written constant. -/
inductive Spells : List Char → Value → Prop
  | null : Spells Value.null.literal .null
  | number {text : List Char} {v : Value} : Numeral.number? text = some v → Spells text v
  | string (cs : List Char) : Spells (quote cs) (.string (String.ofList cs))

namespace Value

/-- The constants that are read. -/
def IsScalar : Value → Prop
  | .null | .int _ | .string _ => True
  | .float x => x.isFinite = true
  | .bool _ | .array _ => False

/-- The constants that are read back from their literals: a whole float is read as an integer. -/
def IsExact : Value → Prop
  | .null | .int _ | .string _ => True
  | .float x => x.isFinite = true ∧ ¬ x.IsWhole
  | .bool _ | .array _ => False

theorem IsExact.isScalar {v : Value} (h : v.IsExact) : v.IsScalar := by
  cases v with
  | float x => exact h.1
  | _ => exact h

theorem IsScalar.items? {v : Value} (h : v.IsScalar) : v.items? = none := by
  cases v with
  | array items => exact h.elim
  | _ => rfl

end Value

theorem Numeral.number?_scalar {text : List Char} {v : Value} (h : number? text = some v) :
    v.IsScalar ∧ v ≠ .null ∧ v.string? = none := by
  unfold number? at h
  split at h
  · cases h
  · split at h
    · split at h
      · cases h
        exact ⟨trivial, nofun, rfl⟩
      · split at h
        · split at h
          · rename_i hf
            cases h
            exact ⟨hf, nofun, rfl⟩
          · cases h
        · cases h
    · cases h

namespace Spells
variable {text : List Char} {v : Value}

theorem readsAs (h : Spells text v) : ReadsAs text v := by
  cases h with
  | null => exact readsAs_null
  | number h => exact readsAs_number h
  | string cs => exact readsAs_quote cs

theorem isScalar (h : Spells text v) : v.IsScalar := by
  cases h with
  | null => trivial
  | number h => exact (Numeral.number?_scalar h).1
  | string cs => trivial

/-- Null alone is written as null. -/
theorem null_iff (h : Spells text v) : v = .null ↔ text = Value.null.literal := by
  cases h with
  | null => simp
  | number h =>
    refine iff_of_false (Numeral.number?_scalar h).2.1 ?_
    rintro rfl
    cases h
  | string cs =>
    refine iff_of_false nofun fun he => ?_
    have := (List.cons.inj he).1
    revert this
    decide

end Spells

/-! ## Literals -/

namespace Value

theorem spells_one : Spells ['1'] (.int 1) := .number (Numeral.number?_intText 1)

theorem spells_zero : Spells ['0'] (.int 0) := .number (Numeral.number?_intText 0)

/-- The literal of a constant that is no string spells one with that literal. -/
theorem literal_spells {v : Value} (hs : v.string? = none) (ha : v.items? = none) :
    ∃ w, Spells v.literal w ∧ w.literal = v.literal ∧ w.string? = none ∧
      (v.IsScalar → v ≠ .null → w ≠ .null) := by
  cases v with
  | null => exact ⟨.null, .null, rfl, rfl, fun _ h => h⟩
  | int n => exact ⟨.int n, .number (Numeral.number?_intText n), rfl, rfl, fun _ h => h⟩
  | float x =>
    by_cases hf : x.isFinite = true
    · rcases Binary64.number?_floatText hf with h | ⟨_, n, h, ht⟩
      · exact ⟨.float x, .number h, rfl, rfl, fun _ h => h⟩
      · exact ⟨.int n, .number h, ht, rfl, fun _ _ => by simp⟩
    · have hn : (Value.float x).literal = Value.null.literal := by
        simp only [literal, floatText, if_neg hf]
      rw [hn]
      exact ⟨.null, .null, rfl, rfl, fun h => absurd h hf⟩
  | bool b =>
    cases b with
    | false => exact ⟨.int 0, spells_zero, rfl, rfl, False.elim⟩
    | true => exact ⟨.int 1, spells_one, rfl, rfl, False.elim⟩
  | string s => cases hs
  | array items => cases ha

theorem string_spells (s : String) : Spells (quote s.toList) (.string s) := by
  have := Spells.string s.toList
  rwa [String.ofList_toList] at this

/-- An exact constant is read back from its literal. -/
theorem IsExact.spells {v : Value} (h : v.IsExact) : Spells v.literal v := by
  cases v with
  | null => exact .null
  | int n => exact .number (Numeral.number?_intText n)
  | float x =>
    rcases Binary64.number?_floatText h.1 with hx | ⟨hw, _⟩
    · exact .number hx
    · exact absurd hw h.2
  | string s => exact string_spells s
  | bool b => exact h.elim
  | array items => exact h.elim

/-! ## Moments -/

end Value

open Calendar in
/-- The text of a moment in a field of a date or time type, if it has what the type asks for. -/
def Calendar.Moment.textAs (date time : Bool) (m : Moment) : Option (List Char) :=
  match m, date, time with
  | .dateTime d _, true, false => some d.text
  | .date d, true, false => some d.text
  | .dateTime _ t, false, true => some t.text
  | .clock t, false, true => some t.text
  | .dateTime d t, true, true => some (d.text ++ 'T' :: t.text)
  | .date d, true, true => some (d.text ++ 'T' :: Clock.midnight.text)
  | _, _, _ => none

namespace Calendar
variable {date time : Bool} {body : List Char}

theorem trim_dateTime (d : Date) (t : Clock) :
    trim (d.text ++ 'T' :: t.text) = d.text ++ 'T' :: t.text := by
  refine trimmed_of_not_blank fun c hc => ?_
  rcases List.mem_append.mp hc with hc | hc
  · exact Date.not_blank hc
  · rcases List.mem_cons.mp hc with rfl | hc
    · rfl
    · exact Clock.not_blank hc

theorem Clock.exists_midnight : Clock.midnight.Exists := ⟨by decide, by decide, by decide, by decide⟩

/-- The text of a moment in some type means a moment with the same text in that type. -/
theorem Moment.textAs_ofText {m : Moment} (hm : m.Exists) (h : m.textAs date time = some body) :
    (Moment.ofText? (trim body)).bind (textAs date time) = some body := by
  have onlyDate : ∀ {d : Date}, d.Exists →
      (Moment.ofText? (trim d.text)).bind (textAs true false) = some d.text := by
    intro d hd
    have ht : trim d.text = d.text := trimmed_of_not_blank fun _ => Date.not_blank
    rw [ht, Date.ofText?_text hd]
    rfl
  have onlyTime : ∀ {t : Clock}, t.Exists →
      (Moment.ofText? (trim t.text)).bind (textAs false true) = some t.text := by
    intro t ht
    have htrim : trim t.text = t.text := trimmed_of_not_blank fun _ => Clock.not_blank
    rw [htrim, Clock.ofText?_text ht]
    exact congrArg some Clock.text_written
  have both : ∀ {d : Date} {t : Clock}, d.Exists → t.Exists →
      (Moment.ofText? (trim (d.text ++ 'T' :: t.text))).bind (textAs true true) =
        some (d.text ++ 'T' :: t.text) := by
    intro d t hd ht
    rw [trim_dateTime, Moment.ofText?_dateTime hd ht, ← Clock.text_written (t := t)]
    rfl
  unfold textAs at h
  split at h
  · cases h
    exact onlyDate hm.1
  · cases h
    exact onlyDate hm
  · cases h
    exact onlyTime hm.2
  · cases h
    exact onlyTime hm
  · cases h
    exact both hm.1 hm.2
  · cases h
    exact both hm Clock.exists_midnight
  · cases h

end Calendar

namespace Value
open Calendar
variable {date time : Bool}

theorem asMoment_eq (date time : Bool) (v : Value) :
    v.asMoment date time = quote ((v.moment?.bind (Moment.textAs date time)).getD v.bare) := by
  unfold asMoment Moment.textAs
  cases v.moment? with
  | none => rfl
  | some m => cases m <;> cases date <;> cases time <;> rfl

theorem moment?_string (cs : List Char) :
    (Value.string (String.ofList cs)).moment? = Moment.ofText? (trim cs) := by
  simp [moment?]

theorem moment_exists {v : Value} {m : Moment} (h : v.moment? = some m) : m.Exists := by
  cases v with
  | int n =>
    obtain ⟨d, t, rfl, hd, ht⟩ := Moment.exists_ofMillis h
    exact ⟨hd, ht⟩
  | string s => exact Moment.exists_ofText h
  | _ => cases h

/-- A numeral, a truth value and null mean no moment. -/
theorem moment?_bare {v : Value} (hs : v.string? = none) (ha : v.items? = none) :
    Moment.ofText? (trim v.bare) = none := by
  have signed : ∀ {negative : Prop} [Decidable negative] {cs : List Char},
      (∀ c ∈ cs, Decimal.isDigit c = true ∨ c = '.') →
      Moment.ofText? (trim (if negative then '-' :: cs else cs)) = none := by
    intro negative _ cs hcs
    have hplain : ∀ c ∈ cs, isBlank c = false ∧ c ≠ ':' ∧ c ≠ '-' := by
      intro c hc
      rcases hcs c hc with hd | rfl
      · refine ⟨not_blank_of_isDigit hd, ?_, ?_⟩
        all_goals
          rintro rfl
          cases hd
      · exact ⟨rfl, by decide, by decide⟩
    have ht : Trimmed (if negative then '-' :: cs else cs) := by
      refine trimmed_of_not_blank fun c hc => ?_
      split at hc
      · rcases List.mem_cons.mp hc with rfl | hc
        · rfl
        · exact (hplain c hc).1
      · exact (hplain c hc).1
    rw [ht]
    split
    · refine Moment.ofText?_eq_none ?_ fun hm => (hplain _ hm).2.2 rfl
      intro hm
      rcases List.mem_cons.mp hm with he | hm
      · cases he
      · exact (hplain _ hm).2.1 rfl
    · exact Moment.ofText?_eq_none (fun hm => (hplain _ hm).2.1 rfl)
        fun hm => (hplain _ (List.mem_of_mem_tail hm)).2.2 rfl
  cases v with
  | null => rfl
  | int n => exact signed fun c hc => .inl (Decimal.isDigit_of_mem_ofNat hc)
  | float x =>
    simp only [bare, floatText]
    split
    · exact signed fun c hc => Binary64.mem_magnitude hc
    · rfl
  | bool b => cases b <;> rfl
  | string s => cases hs
  | array items => cases ha

/-- A value of a date or time type is written in the same way once it has been read. -/
theorem asMoment_stable (date time : Bool) {v : Value} (ha : v.items? = none) :
    ∃ body, v.asMoment date time = quote body ∧
      (Value.string (String.ofList body)).asMoment date time = quote body := by
  refine ⟨_, asMoment_eq date time v, ?_⟩
  rw [asMoment_eq, moment?_string]
  cases hb : v.moment?.bind (Moment.textAs date time) with
  | some body =>
    obtain ⟨m, hm, hbody⟩ := Option.bind_eq_some_iff.mp hb
    rw [Option.getD_some, Moment.textAs_ofText (moment_exists hm) hbody, Option.getD_some]
  | none =>
    rw [Option.getD_none]
    have hnone : (Moment.ofText? (trim v.bare)).bind (Moment.textAs date time) = none := by
      cases hs : v.string? with
      | none => rw [moment?_bare hs ha, Option.bind_none]
      | some s =>
        cases v <;> cases hs
        exact hb
    rw [hnone]
    simp [bare]

/-! ## Written constants -/

theorem render_eq {type : Option InputType} {v : Value} (hn : v ≠ .null) (ha : v.items? = none) :
    v.render type .value = typed type v := by
  cases v with
  | null => exact absurd rfl hn
  | array items => cases ha
  | _ => rfl

/-- What `w`, read for the written constant `v`, has in common with it. -/
structure Stable (type : Option InputType) (v w : Value) : Prop where
  spells : Spells (v.render type .value) w
  render : w.render type .value = v.render type .value
  ne_null : v.IsScalar → v ≠ .null → w ≠ .null

section
variable {type : Option InputType} {v : Value}

theorem stable_null : Stable type .null .null := ⟨.null, rfl, fun _ h => h⟩

theorem stable_quote {body : List Char} (hn : v ≠ .null) (ha : v.items? = none)
    (hv : typed type v = quote body) (hw : typed type (.string (String.ofList body)) = quote body) :
    Stable type v (.string (String.ofList body)) := by
  have hr := (render_eq hn ha).trans hv
  exact ⟨hr ▸ .string body, hw.trans hr.symm, nofun⟩

theorem stable_literal (hs : v.string? = none) (ha : v.items? = none)
    (ht : ∀ w : Value, w.string? = none → w.items? = none → w.render type .value = w.literal) :
    ∃ w, Stable type v w := by
  obtain ⟨w, hw, he, hws, hn⟩ := literal_spells hs ha
  have hr := ht v hs ha
  exact ⟨w, hr ▸ hw, ((ht w hws hw.isScalar.items?).trans he).trans hr.symm, hn⟩

theorem stable_moment {date time : Bool} (hn : v ≠ .null) (ha : v.items? = none)
    (ht : ∀ w, typed type w = asMoment date time w) : ∃ w, Stable type v w := by
  obtain ⟨body, hv, hw⟩ := asMoment_stable date time ha
  exact ⟨_, stable_quote hn ha ((ht v).trans hv) ((ht _).trans hw)⟩

theorem stable_number (hn : v ≠ .null) (ha : v.items? = none) : ∃ w, Stable (some .number) v w := by
  have ht : ∀ w : Value, w.string? = none → w.items? = none →
      w.render (some .number) .value = w.literal := by
    intro w hs hi
    cases w with
    | string s => cases hs
    | array items => cases hi
    | _ => rfl
  cases hs : v.string? with
  | none => exact stable_literal hs ha ht
  | some s =>
    obtain rfl : v = .string s := by
      cases v <;> cases hs
      rfl
    cases hl : Numeral.leading? s.toList with
    | none =>
      have hv : typed (some .number) (.string s) = quote s.toList := by simp [typed, asNumber, hl]
      exact ⟨_, stable_quote hn ha hv (by rw [String.ofList_toList, hv])⟩
    | some x =>
      -- the string is written as the number that it begins with
      have hf : x.isFinite = true := by
        unfold Numeral.leading? at hl
        simp only at hl
        split at hl
        · cases hl
        · exact (Option.filter_eq_some_iff.mp hl).2
      have hv : (Value.string s).render (some .number) .value = (Value.float x).literal := by
        simp [render, typed, asNumber, hl, literal]
      obtain ⟨w, hw, he, hws, hwn⟩ := literal_spells (v := .float x) rfl rfl
      refine ⟨w, hv ▸ hw, ?_, fun _ _ => hwn hf (by simp)⟩
      rw [ht w hws hw.isScalar.items?, he, hv]

theorem stable_boolean (hn : v ≠ .null) (ha : v.items? = none) :
    ∃ w, Stable (some .boolean) v w := by
  have hr : v.render (some .boolean) .value = typed (some .boolean) v := render_eq hn ha
  cases hb : v.isTrue with
  | false =>
    have hv : typed (some .boolean) v = ['0'] := by simp [typed, asBoolean, hb]
    rw [hv] at hr
    exact ⟨.int 0, hr ▸ spells_zero, hr.symm ▸ rfl, fun _ _ => by simp⟩
  | true =>
    have hv : typed (some .boolean) v = ['1'] := by simp [typed, asBoolean, hb]
    rw [hv] at hr
    exact ⟨.int 1, hr ▸ spells_one, hr.symm ▸ rfl, fun _ _ => by simp⟩

/-- Whatever its type, a written constant is read as one that is written with the same text. -/
theorem exists_stable (type : Option InputType) (ha : v.items? = none) : ∃ w, Stable type v w := by
  by_cases hn : v = .null
  · subst hn
    exact ⟨.null, stable_null⟩
  cases type with
  | none =>
    cases hs : v.string? with
    | none =>
      refine stable_literal hs ha fun w _ hi => ?_
      cases w with
      | array items => cases hi
      | _ => rfl
    | some s =>
      obtain rfl : v = .string s := by
        cases v <;> cases hs
        rfl
      exact ⟨_, stable_quote hn ha rfl (by rw [String.ofList_toList]; rfl)⟩
  | some type =>
    cases type with
    | string =>
      have hv : typed (some .string) v = quote v.bare := rfl
      exact ⟨_, stable_quote hn ha hv (by simp [typed, quoted, bare])⟩
    | number => exact stable_number hn ha
    | boolean => exact stable_boolean hn ha
    | date => exact stable_moment hn ha fun _ => rfl
    | time => exact stable_moment hn ha fun _ => rfl
    | dateTime => exact stable_moment hn ha fun _ => rfl

end

/-- What is written for a constant is read as null, as a number or as a string and never as the name
of a field, and the constant that is read is written in the same way again. -/
theorem render_stable (type : Option InputType) {v : Value} (ha : v.items? = none) :
    ∃ o w, Operand.classify (v.render type .value) = .ok o ∧
      (o.kind = .null ∨ o.kind = .number ∨ o.kind = .string) ∧
      o.value = .ok w ∧ w.render type .value = v.render type .value := by
  obtain ⟨w, hw⟩ := exists_stable type ha
  obtain ⟨o, hcl, hvar, hval⟩ := hw.spells.readsAs.item
  refine ⟨o, w, hcl, ?_, hval, hw.render⟩
  have hcall : o.kind ≠ .call := by
    obtain ⟨rfl, hcall, _⟩ := classify_eq_ok_iff.mp hcl
    exact hcall
  cases hk : o.kind with
  | null => exact .inl rfl
  | number => exact .inr (.inl rfl)
  | string => exact .inr (.inr rfl)
  | call => exact absurd hk hcall
  | «variable» => simp [Operand.isVariable, hk] at hvar

/-- A leap second ends before the next minute begins, and a long year keeps its sign. -/
theorem render_stable_leapSecond :
    (Value.string "+12345-6-7 23:59:60.995").items? = none ∧
    (Value.string "+12345-6-7 23:59:60.995").render (some .dateTime) .value =
      "'+12345-06-07T23:59:60.99'".toList ∧
    ∃ o w, Operand.classify
        ((Value.string "+12345-6-7 23:59:60.995").render (some .dateTime) .value) = .ok o ∧
      (o.kind = .null ∨ o.kind = .number ∨ o.kind = .string) ∧
      o.value = .ok w ∧ w.render (some .dateTime) .value =
        (Value.string "+12345-6-7 23:59:60.995").render (some .dateTime) .value :=
  ⟨rfl, by decide +kernel, render_stable (some .dateTime) rfl⟩

theorem render_bool_ne_null (type : Option InputType) (b : Bool) :
    (Value.bool b).render type .value ≠ Value.null.literal := by
  rcases type with _ | type
  · cases b <;> decide
  · cases type <;> cases b <;> decide

/-- Of the constants null alone is written as null, if every float is a finite number. -/
theorem exists_spells_null_iff (type : Option InputType) {v : Value} (ha : v.items? = none)
    (hf : ∀ x, v = .float x → x.isFinite = true) :
    ∃ w, Spells (v.render type .value) w ∧ (w = .null ↔ v = .null) := by
  obtain ⟨w, hw⟩ := exists_stable type ha
  refine ⟨w, hw.spells, fun he => ?_, ?_⟩
  · cases v with
    | null => rfl
    | int n => exact absurd he (hw.ne_null trivial nofun)
    | float x => exact absurd he (hw.ne_null (hf x rfl) nofun)
    | string s => exact absurd he (hw.ne_null trivial nofun)
    | bool b => exact absurd (hw.spells.null_iff.mp he) (render_bool_ne_null type b)
    | array items => cases ha
  · rintro rfl
    exact hw.spells.null_iff.mpr rfl

theorem exists_stables (type : Option InputType) {vs : List Value}
    (h : ∀ v ∈ vs, v.items? = none) : ∃ ws, List.Forall₂ (Stable type) vs ws :=
  exists_forall₂ fun v hv => exists_stable type (h v hv)

/-- Stable constants are read one by one, and written as before. -/
theorem stables_render {type : Option InputType} {vs ws : List Value}
    (h : List.Forall₂ (Stable type) vs ws) :
    List.Forall₂ ReadsAs (vs.map (render type .value)) ws ∧
      ws.map (render type .value) = vs.map (render type .value) ∧
      ∀ w ∈ ws, w.items? = none := by
  induction h with
  | nil => exact ⟨.nil, rfl, by simp⟩
  | cons hs _ ih =>
    obtain ⟨hr, ht, hi⟩ := ih
    refine ⟨.cons hs.spells.readsAs hr, by simp [hs.render, ht], ?_⟩
    intro w hw
    rcases List.mem_cons.mp hw with rfl | hw
    · exact hs.spells.isScalar.items?
    · exact hi w hw

/-- An exact constant is read back from its literal. -/
theorem IsExact.render_spells (h : v.IsExact) : Spells (v.render none .value) v := by
  have hs := h.spells
  cases v with
  | array items => exact h.elim
  | _ => exact hs

end Value

/-! ## Arrays -/

namespace Value

mutual

/-- The constants that stand between the commas of a written value: an empty array is written as
null. -/
def atoms : Value → List Value
  | .array [] => [.null]
  | .array (v :: vs) => (atomsAll (v :: vs)).flatten
  | v => [v]

def atomsAll : List Value → List (List Value)
  | [] => []
  | v :: vs => v.atoms :: atomsAll vs

end

theorem atoms_of_constant {v : Value} (h : v.items? = none) : v.atoms = [v] := by
  cases v with
  | array items => cases h
  | _ => rfl

theorem atoms_ne_nil : ∀ v : Value, v.atoms ≠ []
  | .array [] => by simp [atoms]
  | .array (v :: vs) => by simp [atoms, atomsAll, atoms_ne_nil v]
  | .null => by simp [atoms]
  | .int _ => by simp [atoms]
  | .float _ => by simp [atoms]
  | .bool _ => by simp [atoms]
  | .string _ => by simp [atoms]

mutual

theorem items?_of_mem_atoms : ∀ {v a : Value}, a ∈ v.atoms → a.items? = none
  | .array [], a, h => by
    obtain rfl : a = .null := by simpa [atoms] using h
    rfl
  | .array (v :: vs), a, h => by
    rw [atoms] at h
    obtain ⟨as, has, ha⟩ := List.mem_flatten.mp h
    exact items?_of_mem_atomsAll has ha
  | .null, a, h => by
    obtain rfl : a = .null := by simpa [atoms] using h
    rfl
  | .int n, a, h => by
    obtain rfl : a = .int n := by simpa [atoms] using h
    rfl
  | .float x, a, h => by
    obtain rfl : a = .float x := by simpa [atoms] using h
    rfl
  | .bool b, a, h => by
    obtain rfl : a = .bool b := by simpa [atoms] using h
    rfl
  | .string s, a, h => by
    obtain rfl : a = .string s := by simpa [atoms] using h
    rfl

theorem items?_of_mem_atomsAll : ∀ {vs : List Value} {as : List Value} {a : Value},
    as ∈ atomsAll vs → a ∈ as → a.items? = none
  | [], _, _, h, _ => by simp [atomsAll] at h
  | v :: vs, as, a, h, ha => by
    rw [atomsAll] at h
    rcases List.mem_cons.mp h with rfl | h
    · exact items?_of_mem_atoms ha
    · exact items?_of_mem_atomsAll h ha

end

theorem atomsAll_eq (vs : List Value) : atomsAll vs = vs.map atoms := by
  induction vs with
  | nil => rfl
  | cons v vs ih => rw [atomsAll, ih, List.map_cons]

theorem ne_nil_of_mem_atomsAll {vs : List Value} {as : List Value} (h : as ∈ atomsAll vs) :
    as ≠ [] := by
  rw [atomsAll_eq] at h
  obtain ⟨v, _, rfl⟩ := List.mem_map.mp h
  exact atoms_ne_nil v

/-- The atoms of an item are atoms of the array. -/
theorem mem_atoms_array {items : List Value} {v a : Value} (hv : v ∈ items) (ha : a ∈ v.atoms) :
    a ∈ (Value.array items).atoms := by
  cases items with
  | nil => cases hv
  | cons w ws =>
    rw [atoms, atomsAll_eq]
    exact List.mem_flatten.mpr ⟨v.atoms, List.mem_map_of_mem hv, ha⟩

mutual

/-- A value is written as its atoms between commas. -/
theorem render_atoms (type : Option InputType) (source : Source) : ∀ v : Value,
    v.render type source = joinWith ',' (v.atoms.map (render type source))
  | .array [] => by simp [render, atoms, joinWith]
  | .array (v :: vs) => by
    have hne : ∀ xs ∈ (atomsAll (v :: vs)).map (List.map (render type source)), xs ≠ [] := by
      intro xs hxs
      obtain ⟨as, has, rfl⟩ := List.mem_map.mp hxs
      simpa using ne_nil_of_mem_atomsAll has
    rw [render, renderAll_atoms type source (v :: vs), atoms, List.map_flatten,
      ← joinWith_flatten ',' hne, List.map_map]
    rfl
  | .null => rfl
  | .int _ => rfl
  | .float _ => rfl
  | .bool _ => rfl
  | .string _ => rfl

theorem renderAll_atoms (type : Option InputType) (source : Source) : ∀ vs : List Value,
    renderAll type source vs =
      (atomsAll vs).map fun as => joinWith ',' (as.map (render type source))
  | [] => rfl
  | v :: vs => by
    rw [renderAll, atomsAll, List.map_cons, ← render_atoms type source v,
      renderAll_atoms type source vs]

end

/-- The texts of the constants in a value. -/
def texts (type : Option InputType) (v : Value) : List (List Char) :=
  v.atoms.map (render type .value)

theorem texts_ne_nil (type : Option InputType) (v : Value) : v.texts type ≠ [] := by
  simpa [texts] using atoms_ne_nil v

theorem render_eq_texts (type : Option InputType) (v : Value) :
    v.render type .value = joinWith ',' (v.texts type) :=
  render_atoms type .value v

theorem exists_spells_of_mem_texts {type : Option InputType} {v : Value} {t : List Char}
    (h : t ∈ v.texts type) : ∃ w, Spells t w := by
  obtain ⟨a, ha, rfl⟩ := List.mem_map.mp h
  obtain ⟨w, hw⟩ := exists_stable type (items?_of_mem_atoms ha)
  exact ⟨w, hw.spells⟩

end Value
end Criteria
