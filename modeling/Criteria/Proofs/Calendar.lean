import Criteria.Calendar
import Criteria.Proofs.Number.Decimal

/-! # Moments read back

The text of a date reads as that date, and the text of a time of day as a time with the same text:
what stands below the hundredths of a second is lost the first time. -/
namespace Criteria
open Decimal (isDigit padded ofNat value)

namespace Decimal
variable {width n : Nat}

theorem length_padded (hn : n < 10 ^ width) (hw : 0 < width) : (padded width n).length = width := by
  have : (ofNat n).length ≤ width := Nat.length_toDigits_le_iff (by decide) hw |>.mpr hn
  rw [padded, List.length_append, List.length_replicate]
  omega

theorem isDigit_padded {c : Char} (h : c ∈ padded width n) : isDigit c = true := by
  rcases List.mem_append.mp h with hc | hc
  · rw [List.eq_of_mem_replicate hc]
    rfl
  · exact isDigit_of_mem_ofNat hc

@[simp] theorem value_padded (width n : Nat) : value (padded width n) = n := by
  rw [padded, value_append, value_zeros, Nat.zero_mul, Nat.zero_add, value_ofNat]

theorem padded_ne_nil (width n : Nat) : padded width n ≠ [] := by
  simp [padded, ofNat_ne_nil]

theorem head?_padded (width n : Nat) (rest : List Char) :
    ∀ c ∈ (padded width n ++ rest).head?, isDigit c = true := by
  obtain ⟨d, ds, hd⟩ := List.exists_cons_of_ne_nil (padded_ne_nil width n)
  intro c hc
  rw [hd] at hc
  cases hc
  have hmem : d ∈ padded width n := by
    rw [hd]
    exact List.mem_cons_self
  exact isDigit_padded hmem

theorem takeWhile_padded (rest : List Char) :
    (padded width n ++ rest).takeWhile isDigit = padded width n ++ rest.takeWhile isDigit :=
  List.takeWhile_append_of_pos fun _ hc => isDigit_padded hc

end Decimal

open Decimal

theorem trimLeft_padded {width n : Nat} (rest : List Char) :
    Text.trimLeft (padded width n ++ rest) = padded width n ++ rest := by
  refine Text.trimLeft_eq_self fun c hc => ?_
  exact Numeral.isBlank_of_isNumeralChar (Numeral.isNumeralChar_of_isDigit (head?_padded width n rest c hc))

namespace Calendar

/-! ## Existing dates and times -/

/-- The month and the day exist, and the year is in range. -/
def Date.Exists (d : Date) : Prop := Date.of? d.year d.month d.day = some d

structure Clock.Exists (t : Clock) : Prop where
  hour : t.hour ≤ 23
  minute : t.minute ≤ 59
  second : t.second ≤ 60
  nanosecond : t.nanosecond < 10 ^ 9

def Moment.Exists : Moment → Prop
  | .dateTime d t => d.Exists ∧ t.Exists
  | .date d => d.Exists
  | .clock t => t.Exists

theorem Date.exists_of {year : Int} {month day : Nat} {d : Date}
    (h : Date.of? year month day = some d) : d.Exists := by
  have hd : d = ⟨year, month, day⟩ := by
    unfold Date.of? at h
    split at h
    · exact (Option.some.inj h).symm
    · cases h
  subst hd
  exact h

theorem Clock.exists_of {hour minute second nanosecond : Nat} {t : Clock}
    (h : Clock.of? hour minute second nanosecond = some t) (hn : nanosecond < 10 ^ 9) :
    t.Exists := by
  unfold Clock.of? at h
  split at h
  · rename_i hc
    cases h
    exact ⟨hc.1, hc.2.1, hc.2.2, hn⟩
  · cases h

theorem Date.Exists.bounds {d : Date} (h : d.Exists) : d.month < 10 ^ 2 ∧ d.day < 10 ^ 2 := by
  unfold Date.Exists Date.of? at h
  split at h
  · rename_i hc
    obtain ⟨_, _, _, hm, _, hd⟩ := hc
    have : daysInMonth d.year d.month ≤ 31 := by
      unfold daysInMonth
      split
      · split <;> omega
      · split <;> omega
    omega
  · cases h

theorem Clock.Exists.hundredths {t : Clock} (h : t.Exists) : t.hundredths < 10 ^ 2 := by
  have := h.nanosecond
  unfold Clock.hundredths
  split <;> omega

theorem fraction_lt {cs rest : List Char} {n : Nat} (h : fraction cs = some (n, rest)) :
    n < 10 ^ 9 := by
  unfold fraction at h
  split at h
  · rename_i cs
    simp only at h
    split at h
    · cases h
    · cases h
      have hall : ∀ c ∈ (cs.takeWhile isDigit).take 9, isDigit c = true :=
        fun c hc => List.mem_takeWhile_imp (List.mem_of_mem_take hc)
      have hlen : ((cs.takeWhile isDigit).take 9).length ≤ 9 := List.length_take_le _ _
      have hpow : 10 ^ ((cs.takeWhile isDigit).take 9).length *
          10 ^ (9 - ((cs.takeWhile isDigit).take 9).length) = 10 ^ 9 := by
        rw [← Nat.pow_add]
        congr 1
        omega
      rw [← hpow]
      exact Nat.mul_lt_mul_of_pos_right (value_lt hall) (Nat.pow_pos (by decide))
  · cases h
    decide

theorem clockWith_exists {field : List Char → Option (Nat × List Char)} {cs rest : List Char}
    {t : Clock} (h : clockWith field cs = some (t, rest)) : t.Exists := by
  simp only [clockWith, Option.bind_eq_bind, Option.bind_eq_some_iff, Option.pure_def,
    Option.some.injEq, Prod.mk.injEq] at h
  obtain ⟨_, _, _, _, _, _, _, _, _, _, f, hf, t', ht, rfl, _⟩ := h
  exact Clock.exists_of ht (fraction_lt hf)

theorem shortClock_exists {cs rest : List Char} {t : Clock}
    (h : shortClock cs = some (t, rest)) : t.Exists := by
  simp only [shortClock, Option.bind_eq_bind, Option.bind_eq_some_iff, Option.pure_def,
    Option.some.injEq, Prod.mk.injEq] at h
  obtain ⟨_, _, _, _, _, _, t', ht, rfl, _⟩ := h
  exact Clock.exists_of ht (by decide)

theorem dateOnly_exists {cs rest : List Char} {d : Date} (h : dateOnly cs = some (d, rest)) :
    d.Exists := by
  simp only [dateOnly, Option.bind_eq_bind, Option.bind_eq_some_iff, Option.pure_def,
    Option.some.injEq, Prod.mk.injEq] at h
  obtain ⟨_, _, _, _, _, _, _, _, _, _, d', hd, rfl, _⟩ := h
  exact Date.exists_of hd

theorem whole_eq_some {α : Type} {x : Option (α × List Char)} {a : α} (h : whole x = some a) :
    x = some (a, []) := by
  unfold whole at h
  split at h
  · cases h
    rfl
  · cases h

theorem zoned_exists {cs : List Char} {m : Moment} (h : zoned cs = some m) : m.Exists := by
  simp only [zoned, Option.bind_eq_bind, Option.bind_eq_some_iff] at h
  obtain ⟨_, _, _, _, _, _, _, _, _, _, _, _, t, ht, _, _, h⟩ := h
  split at h
  · obtain ⟨d, hd, h⟩ := Option.bind_eq_some_iff.mp h
    cases h
    exact ⟨Date.exists_of hd, clockWith_exists ht⟩
  · cases h

theorem local?_exists {parting : List Char → Option (List Char)}
    {time : List Char → Option (Clock × List Char)} {cs : List Char} {m : Moment}
    (ht : ∀ cs t rest, time cs = some (t, rest) → t.Exists)
    (h : local? parting time cs = some m) : m.Exists := by
  simp only [local?, Option.bind_eq_bind, Option.bind_eq_some_iff] at h
  obtain ⟨d, hd, _, _, t, h, he⟩ := h
  cases he
  exact ⟨dateOnly_exists hd, ht _ _ _ (whole_eq_some h)⟩

/-- What is read exists. -/
theorem Moment.exists_ofText {cs : List Char} {m : Moment} (h : Moment.ofText? cs = some m) :
    m.Exists := by
  obtain ⟨form, hform, h⟩ := List.exists_of_findSome?_eq_some h
  have hlong : ∀ cs t rest, longClock cs = some (t, rest) → t.Exists := fun _ _ _ =>
    clockWith_exists
  have hshort : ∀ cs t rest, shortClock cs = some (t, rest) → t.Exists := fun _ _ _ =>
    shortClock_exists
  simp only [forms, List.mem_cons, List.not_mem_nil, or_false] at hform
  rcases hform with rfl | rfl | rfl | rfl | rfl | rfl | rfl | rfl
  · exact zoned_exists h
  · exact local?_exists hlong h
  · exact local?_exists hlong h
  · exact local?_exists hshort h
  · exact local?_exists hshort h
  · obtain ⟨d, hd, rfl⟩ := Option.map_eq_some_iff.mp h
    exact dateOnly_exists (whole_eq_some hd)
  · obtain ⟨t, ht, rfl⟩ := Option.map_eq_some_iff.mp h
    exact hlong _ _ _ (whole_eq_some ht)
  · obtain ⟨t, ht, rfl⟩ := Option.map_eq_some_iff.mp h
    exact hshort _ _ _ (whole_eq_some ht)

/-- What is counted is a date and a time that exist. -/
theorem Moment.exists_ofMillis {millis : Int} {m : Moment}
    (h : Moment.ofMillis? millis = some m) : ∃ d t, m = .dateTime d t ∧ d.Exists ∧ t.Exists := by
  obtain ⟨d, hd, rfl⟩ := Option.map_eq_some_iff.mp h
  have hms := Int.emod_lt_of_pos millis (by decide : (0 : Int) < 86400000)
  refine ⟨d, _, rfl, Date.exists_of hd, ?_⟩
  constructor <;> simp only <;> omega

/-! ## Texts of dates and times -/

theorem exactly_padded {width n : Nat} (hn : n < 10 ^ width) (hw : 0 < width) (rest : List Char) :
    exactly width (padded width n ++ rest) = some (n, rest) := by
  have hlen := length_padded hn hw
  have htake : ((padded width n ++ rest).takeWhile isDigit).take width = padded width n := by
    rw [takeWhile_padded, List.take_append_of_le_length hlen.ge, List.take_of_length_le hlen.le]
  simp only [exactly, htake, hlen, if_true, value_padded]
  rw [List.drop_append_of_le_length hlen.ge, List.drop_of_length_le hlen.le, List.nil_append]

theorem upTo_padded {width n : Nat} (hn : n < 10 ^ width) (hw : 0 < width) (rest : List Char) :
    upTo width (padded width n ++ rest) = some (n, rest) := by
  have hlen := length_padded hn hw
  have htake : ((padded width n ++ rest).takeWhile isDigit).take width = padded width n := by
    rw [takeWhile_padded, List.take_append_of_le_length hlen.ge, List.take_of_length_le hlen.le]
  have hne : (padded width n).isEmpty = false := by simp [padded_ne_nil]
  simp only [upTo, trimLeft_padded, htake, hne, value_padded, Bool.false_eq_true, if_false]
  rw [List.drop_append_of_le_length le_rfl, List.drop_of_length_le le_rfl, List.nil_append]

/-- Reads two digits, whatever follows them. -/
def ReadsTwo (field : List Char → Option (Nat × List Char)) : Prop :=
  ∀ n < 10 ^ 2, ∀ rest, field (padded 2 n ++ rest) = some (n, rest)

theorem readsTwo_exactly : ReadsTwo (exactly 2) := by
  intro n hn rest
  exact exactly_padded hn Nat.two_pos rest

theorem readsTwo_upTo : ReadsTwo (upTo 2) := by
  intro n hn rest
  exact upTo_padded hn Nat.two_pos rest

/-- The time that the text of a time says. -/
def Clock.written (t : Clock) : Clock := { t with nanosecond := t.hundredths * 10000000 }

theorem Clock.text_written {t : Clock} : t.written.text = t.text := by
  have hh : t.written.hundredths = t.hundredths := by
    simp only [Clock.written, Clock.hundredths]
    split
    · rfl
    · exact Nat.mul_div_cancel _ (Nat.succ_pos _)
  rw [Clock.text, hh]
  rfl

theorem clockWith_text {field : List Char → Option (Nat × List Char)} (hf : ReadsTwo field)
    {t : Clock} (h : t.Exists) : clockWith field t.text = some (t.written, []) := by
  have hc := h.hundredths
  obtain ⟨hh, hm, hs, _⟩ := h
  have hd : spanDigits (padded 2 t.hundredths) = (padded 2 t.hundredths, []) :=
    spanDigits_self fun _ => isDigit_padded
  have hlen : (padded 2 t.hundredths).length = 2 := length_padded hc Nat.two_pos
  have hne : (padded 2 t.hundredths).isEmpty = false := by simp [padded_ne_nil]
  have hfraction : fraction ('.' :: padded 2 t.hundredths) =
      some (t.hundredths * 10000000, []) := by
    have ht : (padded 2 t.hundredths).take 9 = padded 2 t.hundredths :=
      List.take_of_length_le (by omega)
    simp only [fraction, hd, hne, ht, hlen, value_padded, Bool.false_eq_true, if_false]
  have hof : Clock.of? t.hour t.minute t.second (t.hundredths * 10000000) = some t.written :=
    if_pos ⟨hh, hm, hs⟩
  simp only [clockWith, Clock.text, List.append_assoc, List.cons_append]
  rw [hf _ (by omega)]
  simp only [Option.bind_eq_bind, Option.bind_some, expect, if_true]
  rw [hf _ (by omega)]
  simp only [Option.bind_some, if_true]
  rw [hf _ (by omega)]
  simp only [Option.bind_some, hfraction, hof]
  rfl

theorem anyYear_yearText (year : Int) {rest : List Char}
    (hr : ∀ c ∈ rest.head?, isDigit c = false) :
    anyYear (yearText year ++ rest) = some (year, rest) := by
  have hne : (padded 4 year.natAbs).isEmpty = false := by simp [padded_ne_nil]
  have hspan : spanDigits (padded 4 year.natAbs ++ rest) = (padded 4 year.natAbs, rest) :=
    spanDigits_append (fun _ => isDigit_padded) hr
  unfold yearText
  split
  · rename_i hy
    have hup := upTo_padded (n := year.natAbs) (by omega) (Nat.succ_pos 3) rest
    have hhead := head?_padded 4 year.natAbs rest
    unfold anyYear
    rw [trimLeft_padded]
    simp only
    split
    · rename_i heq
      cases hhead '-' (by rw [heq]; rfl)
    · rename_i heq
      cases hhead '+' (by rw [heq]; rfl)
    · rw [hup]
      simp only [Option.map_some, Option.some.injEq, Prod.mk.injEq, and_true]
      omega
  · rename_i hy
    split
    · have ht : Text.trimLeft ('-' :: padded 4 year.natAbs ++ rest) =
          '-' :: (padded 4 year.natAbs ++ rest) := rfl
      simp only [anyYear, ht, hspan, hne, value_padded, Bool.false_eq_true, if_false, if_true,
        Option.some.injEq, Prod.mk.injEq, and_true]
      omega
    · have ht : Text.trimLeft ('+' :: padded 4 year.natAbs ++ rest) =
          '+' :: (padded 4 year.natAbs ++ rest) := rfl
      simp only [anyYear, ht, hspan, hne, value_padded, Bool.false_eq_true, if_false,
        Option.some.injEq, Prod.mk.injEq, and_true]
      omega

theorem dateOnly_text {d : Date} (h : d.Exists) (rest : List Char) :
    dateOnly (d.text ++ rest) = some (d, rest) := by
  obtain ⟨hm, hd⟩ := h.bounds
  have hr : ∀ cs : List Char, ∀ c ∈ ('-' :: cs).head?, isDigit c = false := by
    intro cs c hc
    cases hc
    rfl
  simp only [dateOnly, Date.text, List.append_assoc, List.cons_append]
  rw [anyYear_yearText d.year (hr _)]
  simp only [Option.bind_eq_bind, Option.bind_some, expect, if_true]
  rw [readsTwo_upTo _ hm]
  simp only [Option.bind_some, if_true]
  rw [readsTwo_upTo _ hd]
  have he : Date.of? d.year d.month d.day = some d := h
  simp only [Option.bind_some, he]
  rfl

theorem not_blank_of_isDigit {c : Char} (h : isDigit c = true) : Text.isBlank c = false :=
  Numeral.isBlank_of_isNumeralChar (Numeral.isNumeralChar_of_isDigit h)

theorem Date.not_blank {d : Date} {c : Char} (h : c ∈ d.text) : Text.isBlank c = false := by
  have hdigits : ∀ {width n : Nat}, c ∈ padded width n → Text.isBlank c = false :=
    fun hc => not_blank_of_isDigit (isDigit_padded hc)
  simp only [Date.text, yearText, List.mem_append, List.mem_cons] at h
  rcases h with (hy | rfl | hm) | rfl | hd
  · split at hy
    · exact hdigits hy
    · rcases List.mem_cons.mp hy with rfl | hy
      · split <;> rfl
      · exact hdigits hy
  · rfl
  · exact hdigits hm
  · rfl
  · exact hdigits hd

theorem Clock.not_blank {t : Clock} {c : Char} (h : c ∈ t.text) : Text.isBlank c = false := by
  have hdigits : ∀ {width n : Nat}, c ∈ padded width n → Text.isBlank c = false :=
    fun hc => not_blank_of_isDigit (isDigit_padded hc)
  simp only [Clock.text, List.mem_append, List.mem_cons] at h
  rcases h with ((hc | rfl | hc) | rfl | hc) | rfl | hc
  all_goals first | rfl | exact hdigits hc

/-- A date without a zone is not read in the form that has one. -/
theorem zoned_text {d : Date} (h : d.Exists) (rest : List Char)
    (hr : ∀ cs, expectOneOf ['T', 't', ' '] rest = some cs →
      ∃ t, clockWith (exactly 2) cs = some (t, [])) : zoned (d.text ++ rest) = none := by
  obtain ⟨hm, hd⟩ := h.bounds
  have hstop : ∀ c : Char, isDigit c = false → ∀ cs, exactly 4 (c :: cs) = none := by
    intro c hc cs
    simp [exactly, hc]
  have hzone : zone [] = none := rfl
  unfold Date.text yearText
  split
  · rename_i hy
    simp only [zoned, List.append_assoc, List.cons_append]
    rw [exactly_padded (by omega : d.year.natAbs < 10 ^ 4) (Nat.succ_pos 3)]
    simp only [Option.bind_eq_bind, Option.bind_some, expect, if_true]
    rw [readsTwo_exactly _ hm]
    simp only [Option.bind_some, if_true]
    rw [readsTwo_exactly _ hd]
    simp only [Option.bind_some]
    cases he : expectOneOf ['T', 't', ' '] rest with
    | none => rfl
    | some cs =>
      obtain ⟨t, ht⟩ := hr cs he
      simp only [Option.bind_some, ht, hzone, Option.bind_none]
  · simp only [zoned, List.cons_append, Option.bind_eq_bind]
    rw [hstop _ (by split <;> rfl), Option.bind_none]

/-- The text of a date is read as that date. -/
theorem Date.ofText?_text {d : Date} (h : d.Exists) : Moment.ofText? d.text = some (.date d) := by
  have hd := dateOnly_text h []
  have hz := zoned_text h [] nofun
  rw [List.append_nil] at hd hz
  have hlocal : ∀ parting time, (parting [] = none ∨ parting [] = some [] ∧ time [] = none) →
      local? parting time d.text = none := by
    rintro parting time (hp | ⟨hp, ht⟩)
    · simp [local?, hd, hp]
    · simp [local?, hd, hp, ht, whole]
  have h1 := hlocal (expect 'T') longClock (.inl rfl)
  have h2 := hlocal blanks longClock (.inr ⟨rfl, rfl⟩)
  have h3 := hlocal (expect 'T') shortClock (.inl rfl)
  have h4 := hlocal blanks shortClock (.inr ⟨rfl, rfl⟩)
  simp [Moment.ofText?, forms, hz, h1, h2, h3, h4, hd, whole]

/-- The text of a time is read as a time with that text. -/
theorem Clock.ofText?_text {t : Clock} (h : t.Exists) :
    Moment.ofText? t.text = some (.clock t.written) := by
  have hlong : longClock t.text = some (t.written, []) := clockWith_text readsTwo_upTo h
  obtain ⟨rest, hrest⟩ : ∃ rest, t.text = padded 2 t.hour ++ ':' :: rest :=
    ⟨_, by rw [Clock.text, List.append_assoc, List.append_assoc]; rfl⟩
  have hhour : t.hour < 10 ^ 2 := by
    have := h.hour
    omega
  have hlength := length_padded hhour Nat.two_pos
  have htake : (t.text.takeWhile isDigit).take 4 = padded 2 t.hour := by
    have hc : (':' :: rest).takeWhile isDigit = [] := rfl
    rw [hrest, takeWhile_padded, hc, List.append_nil]
    exact List.take_of_length_le (by omega)
  have hz : zoned t.text = none := by
    have he : exactly 4 t.text = none := by simp [exactly, htake, hlength]
    simp [zoned, he]
  have hdate : dateOnly t.text = none := by
    have hspan : upTo 4 t.text = some (t.hour, ':' :: rest) := by
      have hl : Text.trimLeft t.text = t.text := by rw [hrest, trimLeft_padded]
      simp only [upTo, hl, htake, value_padded]
      rw [if_neg (by simp [padded_ne_nil]), hrest, List.drop_left]
    have hyear : anyYear t.text = some ((t.hour : Int), ':' :: rest) := by
      have hhead := head?_padded 2 t.hour (':' :: rest)
      have hl : Text.trimLeft t.text = t.text := by rw [hrest, trimLeft_padded]
      rw [← hrest] at hhead
      unfold anyYear
      rw [hl]
      simp only
      split
      · rename_i heq
        cases hhead '-' (by rw [heq]; rfl)
      · rename_i heq
        cases hhead '+' (by rw [heq]; rfl)
      · rw [hspan]
        rfl
    simp [dateOnly, hyear, expect]
  simp [Moment.ofText?, forms, local?, hz, hdate, hlong, whole]

/-- The text of a date and a time is read as that date and a time with that text. -/
theorem Moment.ofText?_dateTime {d : Date} {t : Clock} (hd : d.Exists) (ht : t.Exists) :
    Moment.ofText? (d.text ++ 'T' :: t.text) = some (.dateTime d t.written) := by
  have hz := zoned_text hd ('T' :: t.text) fun cs hcs => by
    cases hcs
    exact ⟨_, clockWith_text readsTwo_exactly ht⟩
  have hlong : longClock t.text = some (t.written, []) := clockWith_text readsTwo_upTo ht
  have hl : local? (expect 'T') longClock (d.text ++ 'T' :: t.text) =
      some (.dateTime d t.written) := by
    simp [local?, dateOnly_text hd, expect, hlong, whole]
  simp [Moment.ofText?, forms, hz, hl]

/-! ## Texts that are no moments -/

theorem mem_of_expect {c : Char} {cs rest : List Char} (h : expect c cs = some rest) : c ∈ cs := by
  unfold expect at h
  split at h
  · cases h
  · split at h
    · rename_i he
      simp [he]
    · cases h

theorem mem_tail_of_drop {c : Char} {cs : List Char} {k : Nat} (hk : 0 < k) (h : c ∈ cs.drop k) :
    c ∈ cs.tail := by
  obtain ⟨k, rfl⟩ := Nat.exists_eq_add_of_lt hk
  rw [Nat.zero_add, Nat.add_comm, ← List.drop_drop] at h
  exact List.drop_one ▸ List.mem_of_mem_drop h

/-- What is read after blanks takes at least one character. -/
theorem mem_tail_of_trimLeft {c : Char} {cs : List Char} {k : Nat} (hk : 0 < k)
    (h : c ∈ (Text.trimLeft cs).drop k) : c ∈ cs.tail := by
  have hs : Text.trimLeft cs = cs.drop (cs.length - (Text.trimLeft cs).length) :=
    List.suffix_iff_eq_drop.mp (List.dropWhile_suffix _)
  rw [hs, List.drop_drop] at h
  exact mem_tail_of_drop (by omega) h

theorem mem_tail_of_upTo {c : Char} {width : Nat} {cs : List Char} {r : Nat × List Char}
    (h : upTo width cs = some r) (hc : c ∈ r.2) : c ∈ cs.tail := by
  simp only [upTo] at h
  split at h
  · cases h
  · rename_i hne
    cases h
    refine mem_tail_of_trimLeft (List.length_pos_of_ne_nil ?_) hc
    simpa using hne

theorem mem_tail_of_anyYear {c : Char} {cs : List Char} {r : Int × List Char}
    (h : anyYear cs = some r) (hc : c ∈ r.2) : c ∈ cs.tail := by
  have signed : ∀ (negative : Bool) {d : Char} {rest : List Char}, Text.trimLeft cs = d :: rest →
      (if (spanDigits rest).1.isEmpty then none
        else some (if negative then -(value (spanDigits rest).1 : Int)
          else value (spanDigits rest).1, (spanDigits rest).2)) = some r → c ∈ cs.tail := by
    intro negative d rest ht hr
    split at hr
    · cases hr
    · cases hr
      refine mem_tail_of_trimLeft Nat.one_pos ?_
      rw [ht]
      exact (List.dropWhile_suffix _).subset hc
  unfold anyYear at h
  simp only at h
  split at h
  · rename_i ht
    exact signed true ht h
  · rename_i ht
    exact signed false ht h
  · obtain ⟨s, hs, rfl⟩ := Option.map_eq_some_iff.mp h
    have := mem_tail_of_upTo hs hc
    rw [← List.drop_one] at this
    exact mem_tail_of_trimLeft Nat.one_pos this

/-- A date holds a minus sign past the first character, a time holds a colon. -/
theorem Moment.ofText?_eq_none {cs : List Char} (hc : ':' ∉ cs) (hm : '-' ∉ cs.tail) :
    Moment.ofText? cs = none := by
  have hdate : dateOnly cs = none := by
    by_contra hne
    obtain ⟨d, hd⟩ := Option.ne_none_iff_exists'.mp hne
    simp only [dateOnly, Option.bind_eq_bind, Option.bind_eq_some_iff] at hd
    obtain ⟨y, hy, _, he, _⟩ := hd
    exact hm (mem_tail_of_anyYear hy (mem_of_expect he))
  have hzoned : zoned cs = none := by
    by_contra hne
    obtain ⟨m, hz⟩ := Option.ne_none_iff_exists'.mp hne
    simp only [zoned, Option.bind_eq_bind, Option.bind_eq_some_iff] at hz
    obtain ⟨y, hy, _, he, _⟩ := hz
    unfold exactly at hy
    simp only at hy
    split at hy
    · cases hy
      exact hm (mem_tail_of_drop (Nat.succ_pos 3) (mem_of_expect he))
    · cases hy
  have htime : longClock cs = none ∧ shortClock cs = none := by
    constructor
    all_goals
      by_contra hne
      obtain ⟨t, ht⟩ := Option.ne_none_iff_exists'.mp hne
      simp only [longClock, clockWith, shortClock, Option.bind_eq_bind,
        Option.bind_eq_some_iff] at ht
      obtain ⟨h, hh, _, he, _⟩ := ht
      exact hc (List.mem_of_mem_tail (mem_tail_of_upTo hh (mem_of_expect he)))
  simp [Moment.ofText?, forms, local?, hzoned, hdate, htime.1, htime.2, whole]

end Calendar
end Criteria
