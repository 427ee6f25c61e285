import Criteria.Proofs.Text.Marks

/-! # Raw and clean splits

The raw split takes a text apart at separators and loses nothing: its parts join to the text, and
a list of parts that stand alone is what is read from their join. The clean split has the same
parts without their marks, and fails where the raw split does. -/
namespace Criteria.Text.Splitter
variable {sp : Splitter} {text part : String} {parts : List String} {ms : List Marked}

/-! ## The raw split -/

theorem split_raw_eq_ok_iff_pieces :
    sp.split false text = .ok parts ↔
      sp.pieces false text.toList = .ok (parts.map String.toList) := by
  constructor
  · intro h
    obtain ⟨ps, hps, rfl⟩ := map_eq_ok h
    simpa using hps
  · intro h
    simp [split, h, Except.map]

/-- The raw split of a text: the parts that join to it, each of which closes what it opens. -/
theorem split_raw_eq_ok_iff :
    sp.split false text = .ok parts ↔ (∀ part ∈ parts, sp.Passes .top part.toList .top) ∧
      parts ≠ [""] ∧ (String.singleton sp.separator).intercalate parts = text := by
  have hempty : parts.map String.toList ≠ [[]] ↔ parts ≠ [""] := by
    simp [List.map_eq_singleton_iff]
  rw [split_raw_eq_ok_iff_pieces, pieces_eq_ok_iff_passes, List.forall_mem_map, hempty,
    joinWith_eq_intercalate, ← String.toList_inj, String.toList_intercalate,
    String.toList_singleton]

/-- What closes what it opens is empty or its own only part. -/
theorem passes_iff_alone :
    sp.Passes .top part.toList .top ↔ part = "" ∨ sp.split false part = .ok [part] := by
  by_cases he : part = ""
  · subst he
    exact iff_of_true (.nil sp .top) (.inl rfl)
  · rw [split_raw_eq_ok_iff]
    simp [he]

/-- The raw split takes a text apart without loss, and undoes the joining of parts that stand
alone. -/
theorem split_raw_lossless (sp : Splitter) :
    (∀ text parts, text ≠ "" → sp.split false text = .ok parts →
      parts ≠ [] ∧ (String.singleton sp.separator).intercalate parts = text ∧
        ∀ part ∈ parts, part ≠ "" → sp.split false part = .ok [part]) ∧
    ∀ parts, parts ≠ [] → parts ≠ [""] →
      (∀ part ∈ parts, part = "" ∨ sp.split false part = .ok [part]) →
      sp.split false ((String.singleton sp.separator).intercalate parts) = .ok parts := by
  constructor
  · intro text parts hne h
    obtain ⟨hparts, _, hjoin⟩ := split_raw_eq_ok_iff.mp h
    refine ⟨?_, hjoin, fun part hpart => (passes_iff_alone.mp (hparts part hpart)).resolve_left⟩
    rintro rfl
    exact hne hjoin.symm
  · intro parts _ he h
    exact split_raw_eq_ok_iff.mpr ⟨fun part hpart => passes_iff_alone.mpr (h part hpart), he, rfl⟩

theorem split_raw_lossless_tangled :
    (["a(,),b)", "'\\','", ""] ≠ [] ∧
      (String.singleton ',').intercalate ["a(,),b)", "'\\','", ""] = "a(,),b),'\\','," ∧
      ∀ part ∈ ["a(,),b)", "'\\','", ""], part ≠ "" → tangled.split false part = .ok [part]) ∧
    tangled.split false "(,]),,é" = .ok ["(,])", "", "é"] := by
  refine ⟨(split_raw_lossless tangled).1 _ _ (by decide) rfl, ?_⟩
  refine (split_raw_lossless tangled).2 ["(,])", "", "é"] (by decide) (by decide) ?_
  intro part hpart
  fin_cases hpart
  · exact .inr rfl
  · exact .inl rfl
  · exact .inr rfl

/-! ## The clean split -/

/-- What cleaning makes of a raw part. -/
structure Cleans (sp : Splitter) (raw clean : String) : Prop where
  empty : raw = "" → clean = ""
  alone : raw ≠ "" → sp.split true raw = .ok [clean]
  sublist : clean.toList.Sublist raw.toList

theorem Pieces.cleans (h : sp.Pieces text.toList ms) {m : Marked} (hm : m ∈ ms) :
    sp.Cleans (String.ofList m.raw) (String.ofList (m.shown true)) where
  empty he := by
    rw [String.ofList_eq_empty_iff, Marked.raw_eq_nil_iff] at he
    rw [he, Marked.shown]
  alone hne := (split_eq_ok_iff true hne).mpr ⟨[m], by simpa using h.alone hm, rfl⟩
  sublist := by simpa using m.shown_sublist

/-- The clean split fails where the raw split does and in the same way, and its parts are those of
the raw split, each cleaned by itself. -/
theorem split_clean_agrees (sp : Splitter) (text : String) :
    (∀ e, sp.split true text = .error e ↔ sp.split false text = .error e) ∧
    ∀ raw clean, sp.split false text = .ok raw → sp.split true text = .ok clean →
      List.Forall₂ sp.Cleans raw clean := by
  refine ⟨fun e => split_eq_error_iff.trans split_eq_error_iff.symm, ?_⟩
  intro raw clean hraw hclean
  by_cases hne : text = ""
  · subst hne
    rw [split_empty] at hraw hclean
    cases hraw
    cases hclean
    exact .nil
  · obtain ⟨ms, hms, rfl⟩ := (split_eq_ok_iff false hne).mp hraw
    have hparts := (split_eq_ok_iff true hne).mpr ⟨ms, hms, rfl⟩
    rw [hparts] at hclean
    cases hclean
    rw [List.forall₂_map_left_iff, List.forall₂_map_right_iff, List.forall₂_same]
    exact fun m hm => hms.cleans hm

theorem split_clean_agrees_tangled :
    (tangled.split true "x'(" = .error (.unbalanced "x'(" 1) ↔
      tangled.split false "x'(" = .error (.unbalanced "x'(" 1)) ∧
    List.Forall₂ tangled.Cleans ["a(,),(b])", "'\\','", ""] ["a)(b]", "',", ""] :=
  ⟨(split_clean_agrees tangled _).1 _,
    (split_clean_agrees tangled "a(,),(b]),'\\',',").2 _ _ rfl rfl⟩

end Criteria.Text.Splitter
