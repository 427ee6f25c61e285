import Mathlib
import Criteria.Text.Basic
import Criteria.Text.Delimited

/-! # Readings with their marks

The raw and the clean split are two views of one reading, which keeps with every character whether
it is a mark. A text that is accepted is cut into pieces, each of which closes what it opens; and
such pieces, joined in any order and number, are read as the same pieces again. -/
namespace Criteria

theorem exists_of_isOk {α ε : Type} {x : Except ε α} (h : x.isOk = true) : ∃ a, x = .ok a := by
  cases x with
  | error e => cases h
  | ok a => exact ⟨a, rfl⟩

theorem map_eq_ok {α β ε : Type} {f : α → β} {x : Except ε α} {b : β} (h : x.map f = .ok b) :
    ∃ a, x = .ok a ∧ f a = b := by
  cases x with
  | error e => cases h
  | ok a => exact ⟨a, rfl, Except.ok.inj h⟩

theorem map_eq_error_iff {α β ε : Type} {f : α → β} {x : Except ε α} {e : ε} :
    x.map f = .error e ↔ x = .error e := by
  cases x <;> simp [Except.map]

namespace Text

/-! ## Joined texts -/

theorem joinWith_front {sep : Char} (w p : List Char) (ps : List (List Char)) :
    joinWith sep ((w ++ p) :: ps) = w ++ joinWith sep (p :: ps) := by
  cases ps <;> simp [joinWith]

theorem joinWith_eq_intercalate (sep : Char) (ps : List (List Char)) :
    joinWith sep ps = [sep].intercalate ps := by
  fun_induction joinWith sep ps with
  | case1 => rfl
  | case2 cs => simp
  | case3 cs ds rest ih => simp [ih]

theorem joinWith_eq_nil_iff {sep : Char} {ps : List (List Char)} :
    joinWith sep ps = [] ↔ ps = [] ∨ ps = [[]] := by
  rcases ps with _ | ⟨p, _ | ⟨q, ps⟩⟩ <;> simp [joinWith]

/-- A joined text has what its parts have, and the separators between them. -/
theorem countP_joinWith {p : Char → Bool} {sep : Char} (h : p sep = true) (ps : List (List Char)) :
    (joinWith sep ps).countP p = (ps.map (List.countP p)).sum + (ps.length - 1) := by
  fun_induction joinWith sep ps with
  | case1 => rfl
  | case2 cs => simp
  | case3 cs ds rest ih =>
    simp only [List.countP_append, List.countP_cons_of_pos h, ih, List.map_cons, List.sum_cons,
      List.length_cons]
    omega

theorem length_joinWith (sep : Char) (ps : List (List Char)) :
    (joinWith sep ps).length = (ps.map List.length).sum + (ps.length - 1) := by
  simpa using countP_joinWith (p := fun _ => true) rfl ps

theorem count_joinWith (sep : Char) (ps : List (List Char)) :
    (joinWith sep ps).count sep = (ps.map (List.count sep)).sum + (ps.length - 1) :=
  countP_joinWith (p := (· == sep)) (beq_self_eq_true sep) ps

theorem joinWith_append (sep : Char) {xs ys : List (List Char)} (hx : xs ≠ []) (hy : ys ≠ []) :
    joinWith sep (xs ++ ys) = joinWith sep xs ++ sep :: joinWith sep ys := by
  fun_induction joinWith sep xs with
  | case1 => exact absurd rfl hx
  | case2 cs =>
    obtain ⟨y, ys, rfl⟩ := List.exists_cons_of_ne_nil hy
    rfl
  | case3 cs ds rest ih =>
    have := ih (List.cons_ne_nil _ _)
    rw [List.cons_append] at this
    simp only [List.cons_append, joinWith, this, List.append_assoc]

theorem joinWith_flatten (sep : Char) {xss : List (List (List Char))} (h : ∀ xs ∈ xss, xs ≠ []) :
    joinWith sep (xss.map (joinWith sep)) = joinWith sep xss.flatten := by
  induction xss with
  | nil => rfl
  | cons xs xss ih =>
    have ih := ih fun ys hy => h ys (by simp [hy])
    rcases xss with _ | ⟨ys, xss⟩
    · simp [joinWith]
    · have hne : (ys :: xss).flatten ≠ [] := by simp [h ys (by simp)]
      rw [List.flatten_cons, joinWith_append sep (h xs (by simp)) hne, ← ih]
      rfl

/-! ## Marked texts -/

/-- The characters of a text, each with a flag that says whether it is a mark. -/
abbrev Marked := List (Char × Bool)

namespace Marked

/-- What is written of a marked text. A clean reading leaves out the marks. -/
def shown (clean : Bool) : Marked → List Char
  | [] => []
  | (c, mark) :: m => if mark && clean then shown clean m else c :: shown clean m

/-- The text itself. -/
abbrev raw (m : Marked) : List Char := shown false m

@[simp] theorem raw_nil : raw [] = [] := rfl

@[simp] theorem raw_cons (c : Char) (mark : Bool) (m : Marked) :
    raw ((c, mark) :: m) = c :: raw m := by simp [raw, shown]

theorem raw_eq_nil_iff {m : Marked} : m.raw = [] ↔ m = [] := by
  rcases m with _ | ⟨⟨c, mark⟩, m⟩ <;> simp

theorem shown_sublist (m : Marked) : (m.shown true).Sublist m.raw := by
  induction m with
  | nil => exact .slnil
  | cons p m ih =>
    obtain ⟨c, mark⟩ := p
    rw [raw_cons]
    cases mark with
    | false => exact ih.cons_cons c
    | true => exact ih.cons c

end Marked

/-! ## One step -/

/-- Where no delimiter is open, no character is taken literally. -/
def Nesting.Settled (q : Nesting) : Prop := q.stack = [] → q = .top

namespace Splitter
variable {sp : Splitter} {q r next : Nesting} {c : Char} {mark clean : Bool}

theorem innerStep_spec (sp : Splitter) (d : Delimiter) (outer : List Delimiter) (c : Char) :
    ∃ mark next, sp.innerStep d outer c = .take mark next ∧ next.Settled ∧
      next.stack.length ≤ outer.length + 2 := by
  unfold innerStep
  split
  · exact ⟨_, _, rfl, nofun, by simp⟩
  · split
    · refine ⟨_, _, rfl, fun h => ?_, by simp⟩
      simp only at h
      rw [h, Nesting.top]
    · split
      · exact ⟨_, _, rfl, nofun, by simp⟩
      · split
        · exact ⟨_, _, rfl, nofun, by simp⟩
        · exact ⟨_, _, rfl, nofun, by simp⟩

/-- What a step can do. It cuts and strays outside all delimiters only, and opens at most one. -/
theorem step_spec (sp : Splitter) (q : Nesting) (c : Char) :
    match sp.step q c with
    | .cut => q.stack = [] ∧ c = sp.separator
    | .stray => q.stack = [] ∧ c ≠ sp.separator ∧ sp.opening? c = none ∧ sp.closes c = true
    | .take _ next => next.Settled ∧ next.stack.length ≤ q.stack.length + 1 := by
  unfold step
  cases hq : q.stack with
  | nil =>
    simp only [topStep]
    by_cases hc : c = sp.separator
    · simp [hc]
    · cases ho : sp.opening? c with
      | some d => simp [hc, Nesting.Settled]
      | none => cases hs : sp.closes c <;> simp [hc, Nesting.Settled, Nesting.top]
  | cons d outer =>
    simp only
    cases q.literal with
    | true => simp [Nesting.Settled]
    | false =>
      obtain ⟨mark, next, he, hs, hl⟩ := sp.innerStep_spec d outer c
      simp only [Bool.false_eq_true, if_false, he, List.length_cons]
      exact ⟨hs, hl⟩

theorem of_step_cut (h : sp.step q c = .cut) : q.stack = [] ∧ c = sp.separator := by
  have := sp.step_spec q c
  rwa [h] at this

theorem of_step_stray (h : sp.step q c = .stray) :
    q.stack = [] ∧ c ≠ sp.separator ∧ sp.opening? c = none ∧ sp.closes c = true := by
  have := sp.step_spec q c
  rwa [h] at this

theorem of_step_take (h : sp.step q c = .take mark next) :
    next.Settled ∧ next.stack.length ≤ q.stack.length + 1 := by
  have := sp.step_spec q c
  rwa [h] at this

@[simp] theorem step_top_separator (sp : Splitter) : sp.step .top sp.separator = .cut := by
  simp [step, Nesting.top, topStep]

/-! ## One reading for both views -/

/-- The segments of a text from a state on, with their marks. -/
def marked (sp : Splitter) (q : Nesting) : List Char → Except Fault (Marked × List Marked)
  | [] => if q.stack.isEmpty then .ok ([], []) else .error (.open q.stack.length)
  | c :: cs =>
    match sp.step q c with
    | .stray => .error (.stray c cs)
    | .cut => (sp.marked .top cs).map fun r => ([], r.1 :: r.2)
    | .take mark next => (sp.marked next cs).map fun r => ((c, mark) :: r.1, r.2)

/-- Raw or clean, the segments are a view of the same reading. -/
theorem segments_eq_marked (sp : Splitter) (clean : Bool) (q : Nesting) (cs : List Char) :
    sp.segments clean q cs =
      (sp.marked q cs).map fun r => (r.1.shown clean, r.2.map (Marked.shown clean)) := by
  induction cs generalizing q with
  | nil =>
    simp only [segments, marked]
    split <;> rfl
  | cons c cs ih =>
    simp only [segments, marked]
    cases sp.step q c with
    | stray => rfl
    | cut =>
      simp only [ih]
      cases sp.marked .top cs <;> rfl
    | take mark next =>
      simp only [ih]
      cases sp.marked next cs <;> rfl

theorem pieces_eq_marked (sp : Splitter) (clean : Bool) {cs : List Char} (hne : cs ≠ []) :
    sp.pieces clean cs =
      match sp.marked .top cs with
      | .ok r => .ok ((r.1 :: r.2).map (Marked.shown clean))
      | .error f => .error (f.error cs) := by
  have he : cs.isEmpty = false := by simpa using hne
  simp only [pieces, he, Bool.false_eq_true, if_false, segments_eq_marked]
  cases sp.marked .top cs <;> rfl

/-! ## Pieces -/

/-- Reading the marked text leads from one state to another without a cut. -/
inductive Reads (sp : Splitter) : Nesting → Marked → Nesting → Prop
  | nil {q : Nesting} : Reads sp q [] q
  | cons {q next r : Nesting} {c : Char} {mark : Bool} {m : Marked} :
      sp.step q c = .take mark next → Reads sp next m r → Reads sp q ((c, mark) :: m) r

theorem Reads.marked_append {m : Marked} (h : sp.Reads q m r) (rest : List Char) :
    sp.marked q (m.raw ++ rest) = (sp.marked r rest).map fun s => (m ++ s.1, s.2) := by
  induction h with
  | @nil q => cases hr : sp.marked q rest <;> simp [hr, Except.map]
  | @cons q next r c mark m hstep _ ih =>
    rw [Marked.raw_cons, List.cons_append]
    simp only [marked, hstep, ih]
    cases sp.marked r rest <;> rfl

/-- The pieces of a text: each closes what it opens, and joined they are the text. -/
structure Pieces (sp : Splitter) (cs : List Char) (ms : List Marked) : Prop where
  ne_nil : ms ≠ []
  whole : ∀ m ∈ ms, sp.Reads .top m .top
  joined : joinWith sp.separator (ms.map Marked.raw) = cs

theorem marked_joinWith {m : Marked} {ms : List Marked}
    (h : ∀ x ∈ m :: ms, sp.Reads .top x .top) :
    sp.marked .top (joinWith sp.separator ((m :: ms).map Marked.raw)) = .ok (m, ms) := by
  induction ms generalizing m with
  | nil =>
    have hm := (h m (by simp)).marked_append []
    rw [List.append_nil] at hm
    have hend : sp.marked .top [] = .ok ([], []) := rfl
    rw [List.map_singleton, joinWith, hm, hend]
    simp [Except.map]
  | cons n ms ih =>
    have hrest := ih fun x hx => h x (List.mem_cons_of_mem _ hx)
    rw [List.map_cons] at hrest
    rw [List.map_cons, List.map_cons, joinWith, (h m (by simp)).marked_append]
    simp [marked, hrest, Except.map]

theorem reads_of_marked {cs : List Char} {s : Marked × List Marked} (hq : q.Settled)
    (h : sp.marked q cs = .ok s) : sp.Reads q s.1 .top ∧ (∀ x ∈ s.2, sp.Reads .top x .top) ∧
      joinWith sp.separator ((s.1 :: s.2).map Marked.raw) = cs := by
  induction cs generalizing q s with
  | nil =>
    simp only [marked] at h
    split at h
    · rename_i he
      cases h
      rw [hq (by simpa using he)]
      exact ⟨.nil, by simp, rfl⟩
    · cases h
  | cons c cs ih =>
    simp only [marked] at h
    split at h
    · cases h
    · rename_i hstep
      obtain ⟨hs, rfl⟩ := of_step_cut hstep
      obtain ⟨t, ht, rfl⟩ := map_eq_ok h
      obtain ⟨hr, hw, hj⟩ := ih (fun _ => rfl) ht
      rw [hq hs]
      refine ⟨.nil, ?_, by simp [joinWith, ← hj]⟩
      intro x hx
      rcases List.mem_cons.mp hx with rfl | hx
      · exact hr
      · exact hw x hx
    · rename_i mark next hstep
      obtain ⟨t, ht, rfl⟩ := map_eq_ok h
      obtain ⟨hr, hw, hj⟩ := ih (of_step_take hstep).1 ht
      refine ⟨.cons hstep hr, hw, ?_⟩
      rw [List.map_cons, Marked.raw_cons, ← hj, List.map_cons]
      exact joinWith_front [c] _ _

theorem marked_eq_ok_iff {cs : List Char} {s : Marked × List Marked} :
    sp.marked .top cs = .ok s ↔ sp.Pieces cs (s.1 :: s.2) := by
  constructor
  · intro h
    obtain ⟨hr, hw, hj⟩ := reads_of_marked (fun _ => rfl) h
    refine ⟨List.cons_ne_nil _ _, ?_, hj⟩
    intro x hx
    rcases List.mem_cons.mp hx with rfl | hx
    · exact hr
    · exact hw x hx
  · rintro ⟨_, hw, rfl⟩
    exact marked_joinWith hw

/-- The split of a text that is not empty shows its pieces. -/
theorem pieces_eq_ok_iff_pieces (clean : Bool) {cs : List Char} {ps : List (List Char)}
    (hne : cs ≠ []) :
    sp.pieces clean cs = .ok ps ↔ ∃ ms, sp.Pieces cs ms ∧ ms.map (Marked.shown clean) = ps := by
  rw [pieces_eq_marked sp clean hne]
  constructor
  · intro h
    cases hm : sp.marked .top cs with
    | error f => simp [hm] at h
    | ok s =>
      simp only [hm, Except.ok.injEq] at h
      exact ⟨_, marked_eq_ok_iff.mp hm, h⟩
  · rintro ⟨ms, hp, rfl⟩
    obtain ⟨m, ms, rfl⟩ := List.exists_cons_of_ne_nil hp.ne_nil
    have hm : sp.marked .top cs = .ok (m, ms) := marked_eq_ok_iff.mpr hp
    simp [hm]

/-! ## Readings without a cut -/

/-- Reading the text leads from one state to another without a cut. -/
def Passes (sp : Splitter) (q : Nesting) (cs : List Char) (r : Nesting) : Prop :=
  ∃ m : Marked, sp.Reads q m r ∧ m.raw = cs

theorem Passes.nil (sp : Splitter) (q : Nesting) : sp.Passes q [] q := ⟨[], .nil, rfl⟩

theorem of_passes_nil (h : sp.Passes q [] r) : q = r := by
  obtain ⟨m, hm, hraw⟩ := h
  rw [Marked.raw_eq_nil_iff] at hraw
  subst hraw
  cases hm
  rfl

theorem of_passes_cons {cs : List Char} (h : sp.Passes q (c :: cs) r) :
    ∃ mark next, sp.step q c = .take mark next ∧ sp.Passes next cs r := by
  obtain ⟨m, hm, hraw⟩ := h
  cases hm with
  | nil => cases hraw
  | @cons _ next _ _ mark m hstep hm =>
    rw [Marked.raw_cons] at hraw
    cases hraw
    exact ⟨mark, next, hstep, m, hm, rfl⟩

/-- A text is read in one way only. -/
theorem Reads.unique {m m' : Marked} {r' : Nesting} (h : sp.Reads q m r) (h' : sp.Reads q m' r')
    (hraw : m.raw = m'.raw) : m = m' := by
  induction h generalizing m' with
  | nil => exact (Marked.raw_eq_nil_iff.mp hraw.symm).symm
  | cons hstep _ ih =>
    cases h' with
    | nil => simp at hraw
    | cons hstep' h' =>
      rw [Marked.raw_cons, Marked.raw_cons] at hraw
      obtain ⟨rfl, hrest⟩ := List.cons.inj hraw
      rw [hstep] at hstep'
      cases hstep'
      rw [ih h' hrest]

/-- Reading the text leads from one state to another without a cut, and this is what a clean reading
writes of it. -/
def Shows (sp : Splitter) (q : Nesting) (cs shown : List Char) (r : Nesting) : Prop :=
  ∃ m : Marked, sp.Reads q m r ∧ m.raw = cs ∧ m.shown true = shown

section
variable {cs ds shown shown' : List Char} {s : Nesting}

theorem Shows.nil (sp : Splitter) (q : Nesting) : sp.Shows q [] [] q := ⟨[], .nil, rfl, rfl⟩

theorem Shows.cons (hstep : sp.step q c = .take mark next) (h : sp.Shows next cs shown r) :
    sp.Shows q (c :: cs) (if mark then shown else c :: shown) r := by
  obtain ⟨m, hm, rfl, rfl⟩ := h
  exact ⟨_, .cons hstep hm, Marked.raw_cons c mark m, by simp [Marked.shown]⟩

theorem Shows.passes (h : sp.Shows q cs shown r) : sp.Passes q cs r := by
  obtain ⟨m, hm, hraw, _⟩ := h
  exact ⟨m, hm, hraw⟩

theorem Shows.append (h : sp.Shows q cs shown r) (h' : sp.Shows r ds shown' s) :
    sp.Shows q (cs ++ ds) (shown ++ shown') s := by
  obtain ⟨m, hm, rfl, rfl⟩ := h
  induction hm with
  | nil => exact h'
  | @cons q next r c mark m hstep _ ih =>
    have := Shows.cons hstep (ih h')
    rw [Marked.raw_cons, List.cons_append]
    cases mark <;> exact this

/-- What a clean reading writes is decided by the text. -/
theorem Shows.unique {r' : Nesting} (h : sp.Shows q cs shown r) (h' : sp.Shows q cs shown' r') :
    shown = shown' := by
  obtain ⟨m, hm, rfl, rfl⟩ := h
  obtain ⟨m', hm', hraw, rfl⟩ := h'
  rw [hm.unique hm' hraw.symm]

end

/-! ## Raw and clean pieces -/

/-- A clean split gives one piece if the reading closes what it opens without a cut. -/
theorem pieces_clean_eq_singleton_iff {cs shown : List Char} (hne : cs ≠ []) :
    sp.pieces true cs = .ok [shown] ↔ sp.Shows .top cs shown .top := by
  rw [pieces_eq_ok_iff_pieces true hne]
  constructor
  · intro h
    obtain ⟨ms, hp, hs⟩ := h
    obtain ⟨m, rfl, hm⟩ := List.map_eq_singleton_iff.mp hs
    exact ⟨m, hp.whole m (by simp), hp.joined, hm⟩
  · intro h
    obtain ⟨m, hm, rfl, rfl⟩ := h
    exact ⟨[m], ⟨List.cons_ne_nil _ _, by simpa using hm, rfl⟩, rfl⟩

/-- The raw split of a text: the parts that join to it, each of which closes what it opens. The
empty text has none. -/
theorem pieces_eq_ok_iff_passes {cs : List Char} {ps : List (List Char)} :
    sp.pieces false cs = .ok ps ↔
      (∀ p ∈ ps, sp.Passes .top p .top) ∧ ps ≠ [[]] ∧ joinWith sp.separator ps = cs := by
  by_cases hne : cs = []
  · subst hne
    rw [joinWith_eq_nil_iff]
    constructor
    · intro h
      cases h
      simp
    · rintro ⟨_, hps, rfl | rfl⟩
      · rfl
      · exact absurd rfl hps
  rw [pieces_eq_ok_iff_pieces false hne]
  constructor
  · rintro ⟨ms, hp, rfl⟩
    refine ⟨?_, ?_, hp.joined⟩
    · intro p hpm
      obtain ⟨m, hm, rfl⟩ := List.mem_map.mp hpm
      exact ⟨m, hp.whole m hm, rfl⟩
    · intro he
      exact hne (hp.joined.symm.trans (joinWith_eq_nil_iff.mpr (.inr he)))
  · rintro ⟨hps, _, rfl⟩
    choose! f hf using hps
    have hraw : (ps.map f).map Marked.raw = ps := by
      rw [List.map_map]
      exact (List.map_congr_left fun p hp => (hf p hp).2).trans (List.map_id _)
    refine ⟨ps.map f, ⟨?_, ?_, by rw [hraw]⟩, hraw⟩
    · intro hnil
      exact hne (joinWith_eq_nil_iff.mpr (.inl (List.map_eq_nil_iff.mp hnil)))
    · intro m hm
      obtain ⟨p, hp, rfl⟩ := List.mem_map.mp hm
      exact (hf p hp).1

/-- A split fails, raw or clean, where the reading does. -/
theorem pieces_eq_error_iff (clean : Bool) {cs : List Char} {e : SplitError} :
    sp.pieces clean cs = .error e ↔ ∃ f, sp.marked .top cs = .error f ∧ f.error cs = e := by
  by_cases hne : cs = []
  · subst hne
    simp [pieces, marked, Nesting.top]
  · rw [pieces_eq_marked sp clean hne]
    cases sp.marked .top cs <;> simp

/-- A piece is the only piece of its own text. -/
theorem Pieces.alone {cs : List Char} {ms : List Marked} (h : sp.Pieces cs ms) {m : Marked}
    (hm : m ∈ ms) : sp.Pieces m.raw [m] :=
  ⟨List.cons_ne_nil _ _, by simpa using h.whole m hm, rfl⟩

/-! ## Splits -/

theorem split_empty (sp : Splitter) (clean : Bool) : sp.split clean "" = .ok [] := rfl

theorem split_eq_ok_iff (clean : Bool) {text : String} {parts : List String} (hne : text ≠ "") :
    sp.split clean text = .ok parts ↔
      ∃ ms, sp.Pieces text.toList ms ∧ ms.map (fun m => String.ofList (m.shown clean)) = parts := by
  have hne : text.toList ≠ [] := fun he => hne (String.toList_eq_nil_iff.mp he)
  constructor
  · intro h
    obtain ⟨ps, hps, rfl⟩ := map_eq_ok h
    obtain ⟨ms, hms, rfl⟩ := (pieces_eq_ok_iff_pieces clean hne).mp hps
    exact ⟨ms, hms, by simp⟩
  · rintro ⟨ms, hms, rfl⟩
    have hps := (pieces_eq_ok_iff_pieces clean hne).mpr ⟨ms, hms, rfl⟩
    simp [split, hps, Except.map]

theorem split_eq_error_iff {text : String} {e : SplitError} :
    sp.split clean text = .error e ↔
      ∃ f, sp.marked .top text.toList = .error f ∧ f.error text.toList = e := by
  rw [← pieces_eq_error_iff clean]
  exact map_eq_error_iff

/-- A splitter in which one character opens two delimiters and escapes stand in for the
separator. -/
def tangled : Splitter :=
  ⟨',', [⟨'(', ')', some ','⟩, ⟨'(', ']', none⟩, ⟨'\'', '\'', some '\\'⟩]⟩

end Splitter
end Text
end Criteria
