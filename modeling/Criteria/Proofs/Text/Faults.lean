import Criteria.Proofs.Text.Marks

/-! # Why a split fails

A reading goes on from state to state, across cuts, until the text ends or a closing character has
nothing to close. So what it fails at is decided by the text up to there, and the depth at the end
is at most one for each character. -/
namespace Criteria.Text

theorem byteCount_append (cs ds : List Char) : byteCount (cs ++ ds) = byteCount cs + byteCount ds := by
  induction cs with
  | nil => simp [byteCount]
  | cons c cs ih => rw [List.cons_append, byteCount, byteCount, ih, Nat.add_assoc]

theorem byteCount_eq (text : String) : byteCount text.toList = text.utf8ByteSize := by
  have h : ∀ cs : List Char, byteCount cs = String.utf8Len cs := by
    intro cs
    induction cs with
    | nil => rfl
    | cons c cs ih => rw [byteCount, ih, String.utf8Len_cons, Nat.add_comm]
  rw [h, ← String.utf8ByteSize_ofList, String.ofList_toList]

/-- The offset of a stray character counts the bytes of the text before it. -/
theorem Fault.error_stray (before after : List Char) (found : Char) :
    (Fault.stray found after).error (before ++ found :: after) =
      .unexpectedClose (String.ofList (before ++ found :: after)) found (byteCount before) := by
  rw [Fault.error, byteCount_append, Nat.add_sub_cancel]

namespace Splitter
variable {sp : Splitter} {clean : Bool} {q r : Nesting} {cs : List Char} {f : Fault}

/-! ## Reading on to a fault -/

/-- Reading the text leads from one state to another, cuts and all. -/
inductive Reaches (sp : Splitter) : Nesting → List Char → Nesting → Prop
  | nil {q : Nesting} : Reaches sp q [] q
  | cut {q r : Nesting} {c : Char} {cs : List Char} :
      sp.step q c = .cut → Reaches sp .top cs r → Reaches sp q (c :: cs) r
  | take {q next r : Nesting} {c : Char} {mark : Bool} {cs : List Char} :
      sp.step q c = .take mark next → Reaches sp next cs r → Reaches sp q (c :: cs) r

/-- A character opens at most one delimiter. -/
theorem Reaches.depth_le (h : sp.Reaches q cs r) : r.stack.length ≤ q.stack.length + cs.length := by
  induction h with
  | nil => simp
  | cut _ _ ih =>
    simp only [Nesting.top, List.length_nil] at ih
    simp only [List.length_cons]
    omega
  | take hstep _ ih =>
    have := (of_step_take hstep).2
    simp only [List.length_cons]
    omega

/-- What comes after a text fails in the same way with the text in front of it. -/
theorem Reaches.marked_error_iff (h : sp.Reaches q cs r) (rest : List Char) :
    sp.marked q (cs ++ rest) = .error f ↔ sp.marked r rest = .error f := by
  induction h with
  | nil => rfl
  | cut hstep _ ih => simp only [← ih, List.cons_append, marked, hstep, map_eq_error_iff]
  | take hstep _ ih => simp only [← ih, List.cons_append, marked, hstep, map_eq_error_iff]

/-- A reading that goes through ends outside all delimiters. -/
theorem reaches_of_marked {s : Marked × List Marked} (hq : q.Settled)
    (h : sp.marked q cs = .ok s) : sp.Reaches q cs .top := by
  induction cs generalizing q s with
  | nil =>
    simp only [marked] at h
    split at h
    · rename_i he
      rw [hq (by simpa using he)]
      exact .nil
    · cases h
  | cons c cs ih =>
    simp only [marked] at h
    split at h
    · cases h
    · rename_i hstep
      obtain ⟨t, ht, _⟩ := map_eq_ok h
      exact .cut hstep (ih (fun _ => rfl) ht)
    · rename_i mark next hstep
      obtain ⟨t, ht, _⟩ := map_eq_ok h
      exact .take hstep (ih (of_step_take hstep).1 ht)

/-- The state and the rest of the text at which a reading fails. -/
def FailsAt (sp : Splitter) (r : Nesting) : List Char → Fault → Prop
  | [], .open depth => r.stack ≠ [] ∧ depth = r.stack.length
  | c :: cs, .stray found rest => c = found ∧ cs = rest ∧ sp.step r c = .stray
  | _, _ => False

theorem exists_reaches_of_error (h : sp.marked q cs = .error f) :
    ∃ before rest r, cs = before ++ rest ∧ sp.Reaches q before r ∧ sp.FailsAt r rest f := by
  induction cs generalizing q with
  | nil =>
    simp only [marked] at h
    split at h
    · cases h
    · rename_i hne
      cases h
      exact ⟨[], [], q, rfl, .nil, by simpa using hne, rfl⟩
  | cons c cs ih =>
    simp only [marked] at h
    split at h
    · rename_i hstep
      cases h
      exact ⟨[], c :: cs, q, rfl, .nil, rfl, rfl, hstep⟩
    · rename_i hstep
      obtain ⟨before, rest, r, rfl, hr, hf⟩ := ih (map_eq_error_iff.mp h)
      exact ⟨c :: before, rest, r, rfl, .cut hstep hr, hf⟩
    · rename_i mark next hstep
      obtain ⟨before, rest, r, rfl, hr, hf⟩ := ih (map_eq_error_iff.mp h)
      exact ⟨c :: before, rest, r, rfl, .take hstep hr, hf⟩

theorem of_marked_stray {found : Char} {after : List Char}
    (h : sp.marked q cs = .error (.stray found after)) : ∃ before r,
      cs = before ++ found :: after ∧ sp.Reaches q before r ∧ sp.step r found = .stray := by
  obtain ⟨before, rest, r, rfl, hr, hf⟩ := exists_reaches_of_error h
  cases rest with
  | nil => exact hf.elim
  | cons c rest =>
    obtain ⟨rfl, rfl, hstep⟩ := hf
    exact ⟨before, r, rfl, hr, hstep⟩

theorem of_marked_open {depth : Nat} (h : sp.marked q cs = .error (.open depth)) :
    ∃ r, sp.Reaches q cs r ∧ r.stack ≠ [] ∧ depth = r.stack.length := by
  obtain ⟨before, rest, r, rfl, hr, hf⟩ := exists_reaches_of_error h
  cases rest with
  | nil => exact ⟨r, by rwa [List.append_nil], hf⟩
  | cons c rest => exact hf.elim

/-! ## What the errors say -/

/-- A closing character that has nothing to close after the text in front of it. -/
structure StrayAfter (sp : Splitter) (clean : Bool) (before : String) (found : Char) : Prop where
  closing : ∃ d ∈ sp.delimiters, d.opening ≠ d.closing ∧ d.closing = found
  separator : found ≠ sp.separator
  opening : ∀ d ∈ sp.delimiters, d.opening ≠ found
  accepted : ∃ parts, sp.split clean before = .ok parts
  decided : ∀ after, sp.split clean (before ++ String.singleton found ++ after) =
    .error (.unexpectedClose (before ++ String.singleton found ++ after) found before.utf8ByteSize)

/-- A text that ends inside delimiters, with no stray character up to there. -/
structure LeftOpen (sp : Splitter) (clean : Bool) (text : String) (depth : Nat) : Prop where
  pos : 1 ≤ depth
  le_length : depth ≤ text.length
  no_stray : ∀ before after, text = before ++ after → ∀ input found offset,
    sp.split clean before ≠ .error (.unexpectedClose input found offset)

theorem of_error_unexpectedClose {cs : List Char} {input : String} {found : Char} {offset : Nat}
    (h : f.error cs = .unexpectedClose input found offset) : ∃ after, f = .stray found after := by
  cases f with
  | «open» depth => cases h
  | stray c after =>
    cases h
    exact ⟨after, rfl⟩

theorem split_stray {before : String} {found : Char} (hr : sp.Reaches .top before.toList r)
    (hstep : sp.step r found = .stray) (clean : Bool) (after : String) :
    sp.split clean (before ++ String.singleton found ++ after) =
      .error (.unexpectedClose (before ++ String.singleton found ++ after) found
        before.utf8ByteSize) := by
  have htext : (before ++ String.singleton found ++ after).toList =
      before.toList ++ found :: after.toList := by simp
  refine split_eq_error_iff.mpr ⟨.stray found after.toList, ?_, ?_⟩
  · rw [htext]
    refine (hr.marked_error_iff _).mpr ?_
    simp only [marked, hstep]
  · rw [htext, Fault.error_stray, ← htext, String.ofList_toList, byteCount_eq]

theorem strayAfter_of_step {before : String} {found : Char} (hr : sp.Reaches .top before.toList r)
    (hstep : sp.step r found = .stray) (clean : Bool) : sp.StrayAfter clean before found := by
  obtain ⟨hq, hsep, hopen, hclose⟩ := of_step_stray hstep
  refine ⟨?_, hsep, ?_, ?_, split_stray hr hstep clean⟩
  · simpa [closes, Delimiter.isQuote] using hclose
  · simpa [opening?] using hopen
  · cases hs : sp.split clean before with
    | ok parts => exact ⟨parts, rfl⟩
    | error e =>
      obtain ⟨f, hf, _⟩ := split_eq_error_iff.mp hs
      rw [← List.append_nil before.toList, hr.marked_error_iff] at hf
      simp [marked, hq] at hf

theorem exists_strayAfter {text input : String} {found : Char} {offset : Nat}
    (h : sp.split clean text = .error (.unexpectedClose input found offset)) :
    ∃ before after, text = before ++ String.singleton found ++ after ∧ input = text ∧
      offset = before.utf8ByteSize ∧ sp.StrayAfter clean before found := by
  obtain ⟨f, hf, he⟩ := split_eq_error_iff.mp h
  obtain ⟨after, rfl⟩ := of_error_unexpectedClose he
  obtain ⟨before, r, htext, hr, hstep⟩ := of_marked_stray hf
  have htext : text = String.ofList before ++ String.singleton found ++ String.ofList after := by
    rw [← String.toList_inj, htext]
    simp
  have hr : sp.Reaches .top (String.ofList before).toList r := by rwa [String.toList_ofList]
  have hs := split_stray hr hstep clean (String.ofList after)
  rw [← htext, h] at hs
  cases hs
  exact ⟨_, _, htext, rfl, rfl, strayAfter_of_step hr hstep clean⟩

theorem leftOpen_of_split {text input : String} {depth : Nat}
    (h : sp.split clean text = .error (.unbalanced input depth)) :
    input = text ∧ sp.LeftOpen clean text depth := by
  obtain ⟨f, hf, he⟩ := split_eq_error_iff.mp h
  cases f with
  | stray c after => cases he
  | «open» n =>
    cases he
    obtain ⟨r, hr, hne, rfl⟩ := of_marked_open hf
    refine ⟨String.ofList_toList, List.length_pos_iff.mpr hne, ?_, ?_⟩
    · have := hr.depth_le
      rwa [Nesting.top, List.length_nil, Nat.zero_add, String.length_toList] at this
    · intro before after htext input found offset hstray
      obtain ⟨b, a, rfl, _, _, hb⟩ := exists_strayAfter hstray
      have := hb.decided (a ++ after)
      rw [← String.append_assoc, ← htext, h] at this
      cases this

/-- What the errors of a split say is true of the text. -/
theorem split_error_points (sp : Splitter) (clean : Bool) (text : String) :
    (∀ input found offset, sp.split clean text = .error (.unexpectedClose input found offset) →
      ∃ before after, text = before ++ String.singleton found ++ after ∧ input = text ∧
        offset = before.utf8ByteSize ∧ sp.StrayAfter clean before found) ∧
    ∀ input depth, sp.split clean text = .error (.unbalanced input depth) →
      input = text ∧ sp.LeftOpen clean text depth :=
  ⟨fun _ _ _ => exists_strayAfter, fun _ _ => leftOpen_of_split⟩

theorem split_error_points_tangled :
    (∃ before after, "é'\\'',(,)é)]x" = before ++ String.singleton ']' ++ after ∧
      "é'\\'',(,)é)]x" = "é'\\'',(,)é)]x" ∧ 13 = before.utf8ByteSize ∧
      tangled.StrayAfter true before ']') ∧
    "é((]'" = "é((]'" ∧ tangled.LeftOpen false "é((]'" 3 :=
  ⟨(split_error_points tangled true _).1 _ _ _ rfl, (split_error_points tangled false _).2 _ _ rfl⟩

end Splitter
end Criteria.Text
