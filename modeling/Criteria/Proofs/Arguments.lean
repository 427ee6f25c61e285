import Criteria.Proofs.Text.Marks
import Criteria.Proofs.Text.Trimming

/-! # How argument lists are read

A balanced text leaves the reading where it found it. The other way round, a text that is passed
without a cut is balanced, so that the pieces of a list are exactly the balanced texts that join to
it. -/
namespace Criteria
open Operand (isQuote)
open Text

/-- The delimiters of a quoted run. -/
def quoteMark (q : Char) : Delimiter := ⟨q, q, some '\\'⟩

def parenthesis : Delimiter := ⟨'(', ')', none⟩

/-! ## One step -/

section
variable {q c : Char} {outer : List Delimiter}

theorem topStep_quote (hq : isQuote q = true) :
    argumentSplitter.step .top q = .take true ⟨[quoteMark q], false⟩ := by
  rcases isQuote_iff.mp hq with rfl | rfl <;> rfl

theorem topStep_plain (hq : isQuote c = false) (ho : c ≠ '(') (hc : c ≠ ')') (hk : c ≠ ',') :
    argumentSplitter.step .top c = .take false .top := by
  simp only [isQuote, Bool.or_eq_false_iff, beq_eq_false_iff_ne] at hq
  simp [Splitter.step, Nesting.top, Splitter.topStep, Splitter.opening?, Splitter.closes,
    argumentSplitter, Delimiter.isQuote, hk, Ne.symm hq.1, Ne.symm hq.2, Ne.symm ho, Ne.symm hc]

theorem nestedStep_quote (hq : isQuote q = true) :
    argumentSplitter.step ⟨parenthesis :: outer, false⟩ q =
      .take false ⟨quoteMark q :: parenthesis :: outer, false⟩ := by
  rcases isQuote_iff.mp hq with rfl | rfl <;> rfl

theorem nestedStep_plain (hq : isQuote c = false) (ho : c ≠ '(') (hc : c ≠ ')') :
    argumentSplitter.step ⟨parenthesis :: outer, false⟩ c =
      .take false ⟨parenthesis :: outer, false⟩ := by
  simp only [isQuote, Bool.or_eq_false_iff, beq_eq_false_iff_ne] at hq
  simp [Splitter.step, Splitter.innerStep, Splitter.opening?, parenthesis, argumentSplitter,
    Delimiter.isQuote, hc, Ne.symm hq.1, Ne.symm hq.2, Ne.symm ho]

theorem quoteStep_close (hq : isQuote q = true) :
    argumentSplitter.step ⟨quoteMark q :: outer, false⟩ q = .take outer.isEmpty ⟨outer, false⟩ := by
  rcases isQuote_iff.mp hq with rfl | rfl <;> rfl

theorem quoteStep_plain (hc : c ≠ q) (hb : c ≠ '\\') :
    argumentSplitter.step ⟨quoteMark q :: outer, false⟩ c =
      .take false ⟨quoteMark q :: outer, false⟩ := by
  simp [Splitter.step, Splitter.innerStep, quoteMark, Delimiter.isQuote, hc, Ne.symm hb]

end

/-! ## Balanced texts are passed -/

/-- The body of a quoted run and the quote that closes it. Only the escapes and the quote of an
outermost run are marks. -/
theorem shows_quoteBody {q : Char} {body : List Char} (outer : List Delimiter)
    (hq : isQuote q = true) (hb : QuoteBody q body) :
    argumentSplitter.Shows ⟨quoteMark q :: outer, false⟩ (body ++ [q])
      (if outer.isEmpty then unescape body else body ++ [q]) ⟨outer, false⟩ := by
  induction hb with
  | nil => exact .cons (quoteStep_close hq) (.nil _ _)
  | plain hc hs _ ih =>
    have run := Splitter.Shows.cons (quoteStep_plain hc hs) ih
    rw [unescape_plain hs]
    cases outer <;> exact run
  | @escaped c cs _ ih =>
    have he : argumentSplitter.step ⟨quoteMark q :: outer, false⟩ '\\' =
        .take outer.isEmpty ⟨quoteMark q :: outer, true⟩ := rfl
    have hc : argumentSplitter.step ⟨quoteMark q :: outer, true⟩ c =
        .take false ⟨quoteMark q :: outer, false⟩ := rfl
    have run := Splitter.Shows.cons he (.cons hc ih)
    cases outer <;> exact run

/-- In parentheses a balanced text leaves the reading where it found it, and has no marks. -/
theorem shows_nested {commas : Bool} {cs : List Char} (h : Balanced commas cs)
    (outer : List Delimiter) : argumentSplitter.Shows ⟨parenthesis :: outer, false⟩ cs cs
      ⟨parenthesis :: outer, false⟩ := by
  induction h generalizing outer with
  | nil => exact .nil _ _
  | plain hq ho hc _ _ ih => exact .cons (nestedStep_plain hq ho hc) (ih outer)
  | quoted hq hb _ ih =>
    have run := (shows_quoteBody (parenthesis :: outer) hq hb).append (ih outer)
    simpa using Splitter.Shows.cons (nestedStep_quote hq) run
  | nested _ _ ihi ih =>
    have enter : argumentSplitter.step ⟨parenthesis :: outer, false⟩ '(' =
        .take false ⟨parenthesis :: parenthesis :: outer, false⟩ := rfl
    have close : argumentSplitter.step ⟨parenthesis :: parenthesis :: outer, false⟩ ')' =
        .take false ⟨parenthesis :: outer, false⟩ := rfl
    exact .cons enter ((ihi (parenthesis :: outer)).append (.cons close (ih outer)))

/-- Outside all delimiters a text that is balanced without commas leaves the reading where it found
it, and is shown bare. -/
theorem Bared.shows {cs s : List Char} (h : Bared cs s) :
    argumentSplitter.Shows .top cs s .top := by
  induction h with
  | nil => exact .nil _ _
  | plain hq ho hc hk _ ih => exact .cons (topStep_plain hq ho hc hk) ih
  | quoted hq hb _ ih =>
    have run := (shows_quoteBody [] hq hb).append ih
    simpa using Splitter.Shows.cons (topStep_quote hq) run
  | nested hi _ ih =>
    have enter : argumentSplitter.step .top '(' = .take true ⟨[parenthesis], false⟩ := rfl
    have close : argumentSplitter.step ⟨[parenthesis], false⟩ ')' = .take true .top := rfl
    exact .cons enter ((shows_nested hi []).append (.cons close ih))

/-! ## What is passed is balanced -/

/-- A reading that comes out of quotes passes the quote that closes them. -/
theorem quoteBody_of_passes {q : Char} {outer : List Delimiter} {cs : List Char}
    (hq : isQuote q = true)
    (h : argumentSplitter.Passes ⟨quoteMark q :: outer, false⟩ cs .top) :
    ∃ body rest, QuoteBody q body ∧ cs = body ++ q :: rest ∧
      argumentSplitter.Passes ⟨outer, false⟩ rest .top := by
  induction hn : cs.length using Nat.strong_induction_on generalizing cs with
  | _ n ih =>
  cases cs with
  | nil => cases Splitter.of_passes_nil h
  | cons c cs =>
    obtain ⟨mark, next, step, hcs⟩ := Splitter.of_passes_cons h
    by_cases hc : c = q
    · subst hc
      rw [quoteStep_close hq] at step
      cases step
      exact ⟨[], cs, .nil, rfl, hcs⟩
    · by_cases hb : c = '\\'
      · -- the character after a backslash is literal, so two are passed at once
        subst hb
        cases step
        cases cs with
        | nil => cases Splitter.of_passes_nil hcs
        | cons d cs =>
          obtain ⟨mark, next, step, hcs⟩ := Splitter.of_passes_cons hcs
          cases step
          obtain ⟨body, rest, hbody, rfl, hrest⟩ := ih cs.length (by simp at hn; omega) hcs rfl
          exact ⟨_, rest, .escaped hbody, rfl, hrest⟩
      · rw [quoteStep_plain hc hb] at step
        cases step
        obtain ⟨body, rest, hbody, rfl, hrest⟩ := ih cs.length (by simp at hn; omega) hcs rfl
        exact ⟨_, rest, .plain hc hb hbody, rfl, hrest⟩

/-- A reading that comes out of parentheses passes the one that closes them. -/
theorem balanced_of_passes_nested {outer : List Delimiter} {cs : List Char}
    (h : argumentSplitter.Passes ⟨parenthesis :: outer, false⟩ cs .top) :
    ∃ inner rest, Balanced true inner ∧ cs = inner ++ ')' :: rest ∧
      argumentSplitter.Passes ⟨outer, false⟩ rest .top := by
  induction hn : cs.length using Nat.strong_induction_on generalizing cs outer with
  | _ n ih =>
  cases cs with
  | nil => cases Splitter.of_passes_nil h
  | cons c cs =>
    obtain ⟨mark, next, step, hcs⟩ := Splitter.of_passes_cons h
    by_cases hc : c = ')'
    · subst hc
      cases step
      exact ⟨[], cs, .nil, rfl, hcs⟩
    by_cases hq : isQuote c = true
    · rw [nestedStep_quote hq] at step
      cases step
      obtain ⟨body, rest, hbody, rfl, hrest⟩ := quoteBody_of_passes hq hcs
      obtain ⟨inner, rest', hi, rfl, hrest'⟩ := ih rest.length (by simp at hn; omega) hrest rfl
      exact ⟨_, rest', .quoted hq hbody hi, by simp, hrest'⟩
    by_cases ho : c = '('
    · subst ho
      cases step
      obtain ⟨inner, rest, hi, rfl, hrest⟩ := ih cs.length (by simp at hn; omega) hcs rfl
      obtain ⟨inner', rest', hi', rfl, hrest'⟩ := ih rest.length (by simp at hn; omega) hrest rfl
      exact ⟨_, rest', .nested hi hi', by simp, hrest'⟩
    have hq : isQuote c = false := by simpa using hq
    rw [nestedStep_plain hq ho hc] at step
    cases step
    obtain ⟨inner, rest, hi, rfl, hrest⟩ := ih cs.length (by simp at hn; omega) hcs rfl
    exact ⟨_, rest, .plain hq ho hc (fun _ => rfl) hi, rfl, hrest⟩

/-- A reading that stays in one segment, and closes what it opens, passes a balanced text. -/
theorem balanced_of_passes {cs : List Char} (h : argumentSplitter.Passes .top cs .top) :
    Balanced false cs := by
  induction hn : cs.length using Nat.strong_induction_on generalizing cs with
  | _ n ih =>
  cases cs with
  | nil => exact .nil
  | cons c cs =>
    obtain ⟨mark, next, step, hcs⟩ := Splitter.of_passes_cons h
    by_cases hk : c = ','
    · subst hk
      cases step
    by_cases hc : c = ')'
    · subst hc
      cases step
    by_cases hq : isQuote c = true
    · rw [topStep_quote hq] at step
      cases step
      obtain ⟨body, rest, hb, rfl, hrest⟩ := quoteBody_of_passes hq hcs
      exact .quoted hq hb (ih rest.length (by simp at hn; omega) hrest rfl)
    by_cases ho : c = '('
    · subst ho
      cases step
      obtain ⟨inner, rest, hi, rfl, hrest⟩ := balanced_of_passes_nested hcs
      exact .nested hi (ih rest.length (by simp at hn; omega) hrest rfl)
    have hq : isQuote c = false := by simpa using hq
    rw [topStep_plain hq ho hc hk] at step
    cases step
    exact .plain hq ho hc (fun he => absurd he hk) (ih cs.length (by simp at hn; omega) hcs rfl)

theorem passes_top_iff {cs : List Char} :
    argumentSplitter.Passes .top cs .top ↔ Balanced false cs := by
  refine ⟨balanced_of_passes, fun h => ?_⟩
  obtain ⟨s, hs⟩ := h.exists_bared
  exact hs.shows.passes

/-- The clean reading of a text outside all delimiters. -/
theorem shows_top_iff {cs s : List Char} : argumentSplitter.Shows .top cs s .top ↔ Bared cs s := by
  refine ⟨fun h => ?_, Bared.shows⟩
  obtain ⟨t, ht⟩ := (balanced_of_passes h.passes).exists_bared
  rwa [h.unique ht.shows]

/-- The pieces of a text: the balanced texts that join to it. The empty text has none. -/
theorem pieces_eq_ok_iff {cs : List Char} {ps : List (List Char)} :
    argumentSplitter.pieces false cs = .ok ps ↔
      (∀ p ∈ ps, Balanced false p) ∧ ps ≠ [[]] ∧ joinWith ',' ps = cs := by
  refine Splitter.pieces_eq_ok_iff_passes.trans ?_
  simp only [passes_top_iff]
  rfl

/-! ## Segments -/

/-- A text that stands alone between commas, without blanks around it. -/
structure Segment (cs : List Char) : Prop where
  balanced : Balanced false cs
  trimmed : Trimmed cs

/-- The segments of a text are its pieces between the commas outside quotes and parentheses, each
trimmed. The empty text has no pieces. -/
def Segments (cs : List Char) (segments : List (List Char)) : Prop :=
  ∃ pieces : List (List Char), (∀ p ∈ pieces, Balanced false p) ∧ pieces ≠ [[]] ∧
    joinWith ',' pieces = cs ∧ pieces.map trim = segments

theorem splitArguments_eq_ok_iff {cs : List Char} {segments : List (List Char)} :
    splitArguments cs = .ok segments ↔ Segments cs segments := by
  unfold splitArguments
  constructor
  · intro h
    split at h
    · rename_i ps hp
      obtain ⟨hb, hne, hj⟩ := pieces_eq_ok_iff.mp hp
      exact ⟨ps, hb, hne, hj, Except.ok.inj h⟩
    · cases h
  · rintro ⟨ps, hb, hne, hj, rfl⟩
    rw [pieces_eq_ok_iff.mpr ⟨hb, hne, hj⟩]

theorem Segments.segment {cs : List Char} {segments : List (List Char)} (h : Segments cs segments) :
    ∀ s ∈ segments, Segment s := by
  obtain ⟨ps, hb, _, _, rfl⟩ := h
  intro s hs
  obtain ⟨p, hp, rfl⟩ := List.mem_map.mp hs
  exact ⟨(hb p hp).trim, trimmed_trim p⟩

theorem Balanced.pieces {cs : List Char} (h : Balanced true cs) :
    ∃ p ps, (∀ x ∈ p :: ps, Balanced false x) ∧ joinWith ',' (p :: ps) = cs := by
  have front : ∀ {w rest : List Char}, Balanced false w →
      (∃ p ps, (∀ x ∈ p :: ps, Balanced false x) ∧ joinWith ',' (p :: ps) = rest) →
      ∃ p ps, (∀ x ∈ p :: ps, Balanced false x) ∧ joinWith ',' (p :: ps) = w ++ rest := by
    rintro w _ hw ⟨p, ps, hb, rfl⟩
    refine ⟨w ++ p, ps, ?_, joinWith_front w p ps⟩
    intro x hx
    rcases List.mem_cons.mp hx with rfl | hx
    · exact hw.append (hb p (by simp))
    · exact hb x (by simp [hx])
  generalize hk : true = k at h
  induction h with
  | nil => exact ⟨[], [], fun x hx => by simp at hx; exact hx ▸ .nil, rfl⟩
  | @plain _ c cs hq ho hc _ _ ih =>
    by_cases hcomma : c = ','
    · subst hcomma
      obtain ⟨p, ps, hb, rfl⟩ := ih hk
      refine ⟨[], p :: ps, ?_, rfl⟩
      intro x hx
      rcases List.mem_cons.mp hx with rfl | hx
      · exact .nil
      · exact hb x hx
    · have hw : Balanced false [c] := .plain hq ho hc (fun he => absurd he hcomma) .nil
      exact front hw (ih hk)
  | @quoted _ q body cs hq hb _ ih =>
    have he : q :: (body ++ q :: cs) = (q :: (body ++ [q])) ++ cs := by simp
    rw [he]
    exact front (.quoted hq hb .nil) (ih hk)
  | @nested _ inner cs hi _ _ ih =>
    have he : '(' :: (inner ++ ')' :: cs) = ('(' :: (inner ++ [')'])) ++ cs := by simp
    rw [he]
    exact front (.nested hi .nil) (ih hk)

/-- The texts with segments are the balanced ones. -/
theorem balanced_iff_segments {cs : List Char} :
    Balanced true cs ↔ ∃ segments, Segments cs segments := by
  constructor
  · intro h
    obtain ⟨p, ps, hb, hj⟩ := h.pieces
    by_cases he : p :: ps = [[]]
    · rw [he] at hj
      exact ⟨[], [], by simp, by simp, hj, rfl⟩
    · exact ⟨_, p :: ps, hb, he, hj, rfl⟩
  · rintro ⟨_, ps, hb, _, rfl, _⟩
    exact .joined fun p hp => (hb p hp).allow

/-- A text is its own only piece if it is balanced without commas and not empty. -/
theorem pieces_eq_self_iff {cs : List Char} :
    argumentSplitter.pieces false cs = .ok [cs] ↔ cs ≠ [] ∧ Balanced false cs := by
  rw [pieces_eq_ok_iff]
  simp [joinWith, and_comm]

end Criteria
