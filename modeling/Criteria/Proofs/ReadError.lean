import Criteria.Proofs.Condition
import Criteria.Proofs.Text.Faults

/-! # What the errors of the reader say

Whatever text an error carries is a part of the text that is read, and what the error says about it
is true. Delimiters that are left open are an error of the whole text only: the arguments of a call
are taken from between the parentheses of a segment, so that they open nothing they do not close. -/
namespace Criteria
open Operand (isQuote)
open Text

/-- The number of arguments without which a verb means nothing. -/
def Verb.least (verb : Verb) : Nat :=
  if verb.connective?.isSome = true ∨ verb = .complement then 1 else 2

namespace ReadError

/-- The texts that an error carries. -/
def texts : ReadError → List String
  | .empty => []
  | .split (.unbalanced input _) => [input]
  | .split (.unexpectedClose input _ _) => [input]
  | .unknownVerb name => [name]
  | .tooFew name _ _ => [name]
  | .wrongOperand operand _ => [operand]
  | .malformedString operand => [operand]
  | .malformedTerm term => [term]

/-- What an error says about the texts that it carries. -/
def Holds : ReadError → Prop
  | .split (.unexpectedClose input found offset) => ∃ before after,
      input = before ++ String.singleton found ++ after ∧ offset = before.utf8ByteSize
  | .unknownVerb name => Head.ofName? name.toList = none
  | .tooFew name least got => ∃ head, Head.ofName? name.toList = some head ∧
      least = head.verb.least ∧ got < least
  | .malformedString operand => ∃ q ∈ operand.toList.head?, isQuote q = true ∧
      operand.toList.getLast? ≠ some q
  | _ => True

/-- Delimiters are left open. -/
def LeavesOpen (e : ReadError) : Prop := ∃ input depth, e = .split (.unbalanced input depth)

/-- An error about a part of the text. -/
structure Within (text : List Char) (e : ReadError) : Prop where
  carries : ∀ s ∈ e.texts, s.toList <:+: text
  holds : e.Holds
  closed : ¬ e.LeavesOpen

variable {text part : List Char} {e : ReadError}

theorem Within.mono (h : part <:+: text) (he : e.Within part) : e.Within text :=
  ⟨fun s hs => (he.carries s hs).trans h, he.holds, he.closed⟩

theorem within_wrongOperand (h : part <:+: text) (role : Role) :
    (wrongOperand (String.ofList part) role).Within text :=
  ⟨by simpa [texts] using h, trivial, nofun⟩

end ReadError

open ReadError

/-! ## Results that are errors -/

theorem bind_eq_error_iff {α β ε : Type} {x : Except ε α} {f : α → Except ε β} {e : ε} :
    (x >>= f) = .error e ↔ x = .error e ∨ ∃ a, x = .ok a ∧ f a = .error e := by
  cases x <;> simp [bind, Except.bind]

theorem exists_of_mapM_error {α β ε : Type} {f : α → Except ε β} {xs : List α} {e : ε}
    (h : xs.mapM f = .error e) : ∃ x ∈ xs, f x = .error e := by
  induction xs with
  | nil => cases h
  | cons x xs ih =>
    rw [List.mapM_cons, bind_eq_error_iff] at h
    rcases h with hx | ⟨y, _, h⟩
    · exact ⟨x, by simp, hx⟩
    · rcases bind_eq_error_iff.mp h with hxs | ⟨ys, _, h⟩
      · obtain ⟨x', hx', he⟩ := ih hxs
        exact ⟨x', List.mem_cons_of_mem x hx', he⟩
      · cases h

/-! ## Parts of a text -/

theorem isInfix_joinWith {sep : Char} {ps : List (List Char)} {p : List Char} (h : p ∈ ps) :
    p <:+: joinWith sep ps := by
  fun_induction joinWith sep ps with
  | case1 => cases h
  | case2 cs => rw [List.mem_singleton.mp h]
  | case3 cs ds rest ih =>
    rcases List.mem_cons.mp h with rfl | h
    · exact (List.prefix_append _ _).isInfix
    · have behind : joinWith sep (ds :: rest) <:+ cs ++ sep :: joinWith sep (ds :: rest) :=
        (List.suffix_cons sep _).trans (List.suffix_append cs _)
      exact (ih h).trans behind.isInfix

theorem Segments.isInfix {text s : List Char} {segments : List (List Char)}
    (h : Segments text segments) (hs : s ∈ segments) : s <:+: text := by
  obtain ⟨ps, _, _, rfl, rfl⟩ := h
  obtain ⟨p, hp, rfl⟩ := List.mem_map.mp hs
  exact (isInfix_trim p).trans (isInfix_joinWith hp)

/-! ## Errors of a split -/

section
variable {cs body name text : List Char} {e : ReadError}

theorem splitArguments_eq_error_iff : splitArguments cs = .error e ↔
    ∃ f, argumentSplitter.marked .top cs = .error f ∧ e = .split (f.error cs) := by
  unfold splitArguments
  cases hp : argumentSplitter.pieces false cs with
  | ok ps =>
    constructor
    · intro h
      cases h
    · intro h
      obtain ⟨f, hf, _⟩ := h
      have := (Splitter.pieces_eq_error_iff false).mpr ⟨f, hf, rfl⟩
      rw [hp] at this
      cases this
  | error se =>
    obtain ⟨f, hf, rfl⟩ := (Splitter.pieces_eq_error_iff false).mp hp
    constructor
    · intro h
      exact ⟨f, hf, (Except.error.inj h).symm⟩
    · intro h
      obtain ⟨f', hf', rfl⟩ := h
      rw [hf] at hf'
      cases hf'
      rfl

theorem carries_of_splitArguments (h : splitArguments cs = .error e) :
    (∀ s ∈ e.texts, s.toList = cs) ∧ e.Holds := by
  obtain ⟨f, hf, rfl⟩ := splitArguments_eq_error_iff.mp h
  cases f with
  | «open» depth => exact ⟨by simp [Fault.error, texts], trivial⟩
  | stray found after =>
    obtain ⟨before, _, rfl, _, _⟩ := Splitter.of_marked_stray hf
    rw [Fault.error_stray]
    refine ⟨by simp [texts], String.ofList before, String.ofList after, ?_, ?_⟩
    · rw [← String.toList_inj]
      simp
    · rw [← byteCount_eq, String.toList_ofList]

/-- The reading of a balanced text, cuts and all, ends where it began. -/
theorem Balanced.reaches (h : Balanced true cs) : argumentSplitter.Reaches .top cs .top := by
  cases hm : argumentSplitter.marked .top cs with
  | ok s => exact Splitter.reaches_of_marked (fun _ => rfl) hm
  | error f =>
    obtain ⟨segments, hs⟩ := balanced_iff_segments.mp h
    have := splitArguments_eq_error_iff.mpr ⟨f, hm, rfl⟩
    rw [splitArguments_eq_ok_iff.mpr hs] at this
    cases this

/-- Where a list in parentheses is split in vain, it has a closing parenthesis too many. -/
theorem stray_of_enclosed (h : Balanced false ('(' :: (body ++ [')'])))
    (he : splitArguments body = .error e) :
    ∃ after, argumentSplitter.marked .top body = .error (.stray ')' after) := by
  generalize hb : body ++ [')'] = rest at h
  cases h with
  | plain _ ho => exact absurd rfl ho
  | quoted hq => cases hq
  | @nested _ inner after hi _ =>
    rcases List.eq_nil_or_concat after with rfl | ⟨after, c, rfl⟩
    · have hbody : body = inner := by simpa using hb
      obtain ⟨segments, hs⟩ := balanced_iff_segments.mp (hbody ▸ hi)
      rw [splitArguments_eq_ok_iff.mpr hs] at he
      cases he
    · have hb : body ++ [')'] = (inner ++ ')' :: after) ++ [c] := by simpa using hb
      have hbody : body = inner ++ ')' :: after := (List.append_inj' hb rfl).1
      refine ⟨after, ?_⟩
      rw [hbody, hi.reaches.marked_error_iff]
      rfl

theorem Balanced.drop_unmarked (h : Balanced false (name ++ cs)) (hn : ∀ c ∈ name, Unmarked c) :
    Balanced false cs := by
  induction name with
  | nil => exact h
  | cons c name ih =>
    obtain ⟨hq, ho, _, _⟩ := hn c (by simp)
    exact ih (h.tail hq ho) fun d hd => hn d (List.mem_cons_of_mem c hd)

/-- The errors in the argument list of a call are errors about a part of the call. -/
theorem within_of_splitArguments {head : Head}
    (hs : Segment (name ++ '(' :: (body ++ [')']))) (hn : Head.ofName? name = some head)
    (he : splitArguments body = .error e) : e.Within body := by
  obtain ⟨hcarries, hholds⟩ := carries_of_splitArguments he
  refine ⟨fun s hs => ⟨[], [], by simp [hcarries s hs]⟩, hholds, ?_⟩
  intro hopen
  obtain ⟨input, depth, rfl⟩ := hopen
  have henclosed := hs.balanced.drop_unmarked (Head.ofName?_unmarked hn)
  obtain ⟨after, hm⟩ := stray_of_enclosed henclosed he
  obtain ⟨f, hf, herr⟩ := splitArguments_eq_error_iff.mp he
  rw [hm] at hf
  cases hf
  cases herr

end

/-! ## Errors of operands -/

section
variable {left right item text : List Char} {items : List (List Char)} {verb : Verb} {e : ReadError}

/-- The operand of a balanced text has a value. -/
theorem exists_value {o : Operand} (hb : Balanced false item)
    (h : Operand.classify item = .ok o) : ∃ v, o.value = .ok v := by
  obtain ⟨rfl, hcall, _⟩ := classify_eq_ok_iff.mp h
  cases hk : Operand.kindOf item with
  | null => exact ⟨.null, rfl⟩
  | «variable» => exact ⟨_, rfl⟩
  | call => exact absurd hk hcall
  | number =>
    obtain ⟨v, hv⟩ := number?_of_kindOfTrimmed hk
    exact ⟨v, value_numeral hv⟩
  | string =>
    obtain ⟨body, _, hbody⟩ := exists_body hb hk
    exact ⟨_, hbody⟩

/-- A text that opens a quote and is no string ends in another way. -/
theorem getLast?_ne_quote {q : Char} {rest : List Char} (hb : Balanced false (q :: rest))
    (hq : isQuote q = true) (hk : Operand.kindOfTrimmed (q :: rest) ≠ .string) :
    (q :: rest).getLast? ≠ some q := by
  intro hlast
  by_cases hnil : rest = []
  · -- a quote alone is not balanced
    subst hnil
    generalize hcs : [q] = cs at hb
    cases hb with
    | nil => cases hcs
    | plain hc =>
      cases hcs
      rw [hq] at hc
      cases hc
    | quoted => simp at hcs
    | nested => simp at hcs
  · refine hk (kindOfTrimmed_eq_string_iff.mpr (isQuoted_iff.mpr ⟨q, rest, rfl, hq, ?_⟩))
    rwa [← List.getLast?_append_of_ne_nil [q] hnil]

theorem within_of_classify (hb : Balanced false item) (hi : item <:+: text)
    (h : Operand.classify item = .error e) : e.Within text := by
  have hpart : trim item <:+: text := (isInfix_trim item).trans hi
  unfold Operand.classify at h
  simp only at h
  split at h
  · cases h
    exact within_wrongOperand hpart .value
  · rename_i hk
    split at h
    · rename_i hq
      cases h
      refine ⟨by simpa [texts] using hpart, ?_, nofun⟩
      show ∃ q ∈ (String.ofList (trim item)).toList.head?, _
      rw [String.toList_ofList]
      cases ht : trim item with
      | nil =>
        rw [ht] at hq
        cases hq
      | cons q rest =>
        rw [ht] at hq hk
        exact ⟨q, rfl, hq, getLast?_ne_quote (ht ▸ hb.trim) hq (by rw [hk]; decide)⟩
    · cases h
  · cases h

theorem isInfix_raw {o : Operand} (hi : item <:+: text) (h : Operand.classify item = .ok o) :
    o.raw <:+: text := by
  obtain ⟨rfl, _, _⟩ := classify_eq_ok_iff.mp h
  exact (isInfix_trim item).trans hi

theorem within_of_ofRoles {r : Condition.Roles} {v : Value} (hi : r.other.raw <:+: text)
    (h : Condition.ofRoles verb r v = .error e) : e.Within text := by
  unfold Condition.ofRoles at h
  simp only at h
  split at h
  · cases h
  · cases h
  · cases h
    exact within_wrongOperand hi .value
  · cases h
  · cases h

theorem error_of_roles {l r : Operand} (h : Condition.roles l r = .error e) :
    e = .wrongOperand r.text .field := by
  unfold Condition.roles at h
  split at h
  · cases h
  · split at h
    · cases h
    · split at h
      · split at h
        · exact (Except.error.inj h).symm
        · cases h
      · cases h

theorem other_of_roles {l r : Operand} {ro : Condition.Roles} (h : Condition.roles l r = .ok ro) :
    ro.other = l ∨ ro.other = r := by
  rcases Condition.roles_cases h with ⟨_, rfl⟩ | ⟨_, _, rfl⟩ | ⟨_, _, _, _, rfl⟩ | ⟨_, _, _, rfl⟩
  · exact .inr rfl
  · exact .inl rfl
  · exact .inr rfl
  · exact .inl rfl

theorem within_of_ofArguments (hl : Balanced false left) (hr : Balanced false right)
    (hli : left <:+: text) (hri : right <:+: text)
    (h : Condition.ofArguments verb left right = .error e) : e.Within text := by
  rcases bind_eq_error_iff.mp h with hc | ⟨l, hcl, h⟩
  · exact within_of_classify hl hli hc
  rcases bind_eq_error_iff.mp h with hc | ⟨r, hcr, h⟩
  · exact within_of_classify hr hri hc
  rcases bind_eq_error_iff.mp h with hro | ⟨ro, hro, h⟩
  · rw [error_of_roles hro]
    exact within_wrongOperand (isInfix_raw hri hcr) .field
  obtain ⟨item, hb, hi, hco⟩ : ∃ item, Balanced false item ∧ item <:+: text ∧
      Operand.classify item = .ok ro.other := by
    rcases other_of_roles hro with ho | ho
    · exact ⟨left, hl, hli, ho ▸ hcl⟩
    · exact ⟨right, hr, hri, ho ▸ hcr⟩
  rcases bind_eq_error_iff.mp h with hv | ⟨v, _, h⟩
  · obtain ⟨v, hok⟩ := exists_value hb hco
    rw [hok] at hv
    cases hv
  · exact within_of_ofRoles (isInfix_raw hi hco) h

theorem within_of_itemValue (hb : Balanced false item) (hi : item <:+: text)
    (h : Condition.itemValue item = .error e) : e.Within text := by
  rcases bind_eq_error_iff.mp h with hc | ⟨o, hco, h⟩
  · exact within_of_classify hb hi hc
  · split at h
    · cases h
      exact within_wrongOperand (isInfix_raw hi hco) .value
    · obtain ⟨v, hv⟩ := exists_value hb hco
      rw [hv] at h
      cases h

theorem within_of_membership (hb : ∀ x ∈ left :: items, Balanced false x)
    (hi : ∀ x ∈ left :: items, x <:+: text)
    (h : Condition.membership left items = .error e) : e.Within text := by
  rcases bind_eq_error_iff.mp h with hc | ⟨f, hf, h⟩
  · exact within_of_classify (hb left (by simp)) (hi left (by simp)) hc
  · split at h
    · rw [itemValues_eq_mapM] at h
      rcases bind_eq_error_iff.mp h with hv | ⟨vs, _, h⟩
      · obtain ⟨item, hmem, hv⟩ := exists_of_mapM_error hv
        have hmem := List.mem_cons_of_mem left hmem
        exact within_of_itemValue (hb item hmem) (hi item hmem) hv
      · cases h
    · cases h
      exact within_wrongOperand (isInfix_raw (hi left (by simp)) hf) .field

end

/-! ## Errors of calls -/

/-- A call whose name and arguments are parts of the text. -/
structure Call.IsPart (text : List Char) (c : Call) : Prop where
  name : c.name <:+: text
  head : ∃ head, Head.ofName? c.name = some head ∧ head.verb = c.verb
  segment : ∀ a ∈ c.args, Segment a
  args : ∀ a ∈ c.args, a <:+: text

namespace Call
variable {text term : List Char} {c : Call} {k : Connective} {e : ReadError}

theorem IsPart.within_tooFew (hc : c.IsPart text) (h : c.args.length < c.verb.least) :
    (c.tooFew c.verb.least).Within text := by
  obtain ⟨head, hn, hv⟩ := hc.head
  refine ⟨by simpa [tooFew, texts] using hc.name, ?_, nofun⟩
  exact ⟨head, by rwa [String.toList_ofList], by rw [hv], h⟩

theorem IsPart.within_ofOperands (hc : c.IsPart text) (hj : c.verb.connective? = none)
    (hn : c.verb ≠ .complement) (h : c.ofOperands = .error e) : e.Within text := by
  have hleast : c.verb.least = 2 := by simp [Verb.least, hj, hn]
  have few : c.args.length < 2 → (c.tooFew 2).Within text := fun hlen =>
    hleast ▸ hc.within_tooFew (hleast ▸ hlen)
  have hb : ∀ a ∈ c.args, Balanced false a := fun a ha => (hc.segment a ha).balanced
  have hi := hc.args
  obtain ⟨name, verb, connective, args⟩ := c
  by_cases hv : verb = .isIn
  · subst hv
    rcases args with _ | ⟨left, _ | ⟨item, items⟩⟩
    · cases h
      exact few (by simp)
    · cases h
      exact few (by simp)
    · exact within_of_membership hb hi (map_eq_error_iff.mp h)
  · rcases args with _ | ⟨left, _ | ⟨right, _ | ⟨other, others⟩⟩⟩
    · have he : e = tooFew ⟨name, verb, connective, []⟩ 2 := by cases verb <;> cases h <;> rfl
      exact he ▸ few (by simp)
    · have he : e = tooFew ⟨name, verb, connective, [left]⟩ 2 := by cases verb <;> cases h <;> rfl
      exact he ▸ few (by simp)
    · rw [ofOperands_pair hv] at h
      exact within_of_ofArguments (hb left (by simp)) (hb right (by simp)) (hi left (by simp))
        (hi right (by simp)) (map_eq_error_iff.mp h)
    · rw [ofOperands_fanOut hv, fanOut_eq] at h
      obtain ⟨r, hr, hre⟩ := exists_of_mapM_error (map_eq_error_iff.mp (map_eq_error_iff.mp h))
      have hr := List.mem_cons_of_mem left hr
      exact within_of_ofArguments (hb left (by simp)) (hb r hr) (hi left (by simp)) (hi r hr) hre

theorem IsPart.within_node (hc : c.IsPart text)
    (ih : ∀ a ∈ c.args, ∀ e, readNode c.connective a = .error e → e.Within text)
    (h : c.node = .error e) : e.Within text := by
  have all : readAll c.connective c.args = .error e → e.Within text := by
    intro h
    obtain ⟨a, ha, he⟩ := exists_of_mapM_error h
    exact ih a ha e he
  have few : c.verb.least = 1 → c.args = [] → (c.tooFew 1).Within text := by
    intro hleast hnil
    exact hleast ▸ hc.within_tooFew (by simp [hleast, hnil])
  unfold node at h
  split at h
  · rename_i hj
    split at h
    · rename_i hempty
      cases h
      exact few (by simp [Verb.least, hj]) (by simpa using hempty)
    · exact all (map_eq_error_iff.mp h)
  · rename_i hj
    split at h
    · rename_i hv
      split at h
      · rename_i hargs
        cases h
        exact few (by simp [Verb.least, hv]) hargs
      · rename_i a hargs
        exact ih a (by simp [hargs]) e (map_eq_error_iff.mp h)
      · exact all (map_eq_error_iff.mp h)
    · rename_i hv
      exact hc.within_ofOperands (by simpa using hj) hv h

theorem isPart_of_ofTerm (ht : Segment term) (h : ofTerm k term = .ok c) : c.IsPart term := by
  obtain ⟨name, body, head, rfl, hs, hn, hname, hv, _⟩ := (ofTerm_eq_ok_iff ht).mp h
  have hs := splitArguments_eq_ok_iff.mp hs
  have left : name <:+: name ++ '(' :: (body ++ [')']) := (List.prefix_append _ _).isInfix
  have right : body <:+: name ++ '(' :: (body ++ [')']) := ⟨name ++ ['('], [')'], by simp⟩
  refine ⟨hname ▸ (isInfix_trim name).trans left, ⟨head, ?_, hv.symm⟩, hs.segment, ?_⟩
  · rw [hname, Head.ofName?_trim, hn]
  · intro a ha
    exact (hs.isInfix ha).trans right

theorem within_of_ofTerm (ht : Segment term) (h : ofTerm k term = .error e) : e.Within term := by
  have malformed : (malformedTerm (String.ofList term)).Within term :=
    ⟨by simp [texts], trivial, nofun⟩
  unfold ofTerm at h
  split at h
  · cases h
    split
    · exact ⟨by simp [texts], trivial, nofun⟩
    · exact malformed
  · rename_i name body rest hp
    split at h
    · rename_i hrest
      have hterm := parts?_segment ht hp (List.isEmpty_iff.mp hrest)
      simp only at h
      split at h
      · rename_i hn
        cases h
        have left : name <:+: term := by
          rw [hterm]
          exact (List.prefix_append _ _).isInfix
        refine ⟨by simpa [texts] using (isInfix_trim name).trans left, ?_, nofun⟩
        show Head.ofName? (String.ofList (trim name)).toList = none
        rwa [String.toList_ofList]
      · rename_i head hn
        rw [Head.ofName?_trim] at hn
        have right : body <:+: term := ⟨name ++ ['('], [')'], by simp [hterm]⟩
        have he := within_of_splitArguments (hterm ▸ ht) hn (map_eq_error_iff.mp h)
        exact he.mono right
    · cases h
      exact malformed

end Call

/-! ## Errors of propositions -/

section
variable {text term : List Char} {k : Connective} {e : ReadError}

theorem within_of_readTerm (ht : Segment term) (h : readTerm k term = .error e) :
    e.Within term := by
  induction hlen : term.length using Nat.strong_induction_on generalizing k term e with
  | _ len ih =>
  rw [readTerm_eq_node] at h
  rcases bind_eq_error_iff.mp h with hc | ⟨c, hc, h⟩
  · exact Call.within_of_ofTerm ht hc
  · have hpart := Call.isPart_of_ofTerm ht hc
    refine hpart.within_node (fun a ha e' he => ?_) h
    have hs := hpart.segment a ha
    have h1 := Call.totalLength_args hc
    have h2 := length_le_totalLength ha
    rw [readNode_segment _ hs] at he
    exact (ih a.length (by omega) hs he rfl).mono (hpart.args a ha)

/-- An error of a proposition is one of splitting the whole text, or one about a part of it. -/
theorem readNode_error_cases (h : readNode k text = .error e) :
    splitArguments text = .error e ∨ e.Within text := by
  rw [readNode_eq] at h
  cases hs : splitArguments text with
  | error e' =>
    rw [hs] at h
    have he : e' = e := Except.error.inj h
    exact .inl (congrArg Except.error he)
  | ok segments =>
    rw [hs] at h
    have hs := splitArguments_eq_ok_iff.mp hs
    have term : ∀ s ∈ segments, ∀ e, readTerm k s = .error e → e.Within text := fun s hmem e he =>
      (within_of_readTerm (hs.segment s hmem) he).mono (hs.isInfix hmem)
    refine .inr ?_
    rcases segments with _ | ⟨s, _ | ⟨s', rest⟩⟩
    · cases h
      exact ⟨by simp [texts], trivial, nofun⟩
    · exact term s (by simp) e h
    · obtain ⟨t, ht, he⟩ := exists_of_mapM_error (map_eq_error_iff.mp h)
      rw [readNode_segment k (hs.segment t ht)] at he
      exact term t ht e he

end

/-- Errors are truthful: the texts they carry are parts of the text that is read, and what they say
of these is so. Delimiters are left open by the text as a whole, never by a list of arguments. -/
theorem Group.ofText_error_holds {text : String} {k : Connective} {e : ReadError}
    (h : ofText text k = .error e) :
    (∀ s ∈ e.texts, s.toList <:+: text.toList) ∧ e.Holds ∧
      ∀ input depth, e = .split (.unbalanced input depth) →
        input = text ∧ argumentSplitter.split false text = .error (.unbalanced text depth) := by
  rcases readNode_error_cases (map_eq_error_iff.mp h) with hs | he
  · obtain ⟨hcarries, hholds⟩ := carries_of_splitArguments hs
    refine ⟨fun s hmem => (hcarries s hmem) ▸ List.infix_rfl, hholds, ?_⟩
    intro input depth he
    subst he
    have hinput : input = text := String.toList_inj.mp (hcarries input (by simp [texts]))
    subst hinput
    obtain ⟨f, hf, herr⟩ := splitArguments_eq_error_iff.mp hs
    exact ⟨rfl, Splitter.split_eq_error_iff.mpr ⟨f, hf, (ReadError.split.inj herr).symm⟩⟩
  · exact ⟨he.carries, he.holds, fun input depth hopen => absurd ⟨input, depth, hopen⟩ he.closed⟩

theorem Group.ofText_error_malformed :
    ofText " Eq( 'x'y ,1)" .and = .error (.malformedString "'x'y") ∧
      (∀ s ∈ (malformedString "'x'y").texts, s.toList <:+: " Eq( 'x'y ,1)".toList) ∧
      (malformedString "'x'y").Holds ∧ ∀ input depth, malformedString "'x'y" =
        .split (.unbalanced input depth) → input = " Eq( 'x'y ,1)" ∧
          argumentSplitter.split false " Eq( 'x'y ,1)" =
            .error (.unbalanced " Eq( 'x'y ,1)" depth) := by
  have hnode : readNode .and " Eq( 'x'y ,1)".toList = .error (.malformedString "'x'y") :=
    Eq.trans (readNode_eq_node .and rfl) rfl
  have h : ofText " Eq( 'x'y ,1)" .and = .error (.malformedString "'x'y") :=
    congrArg (Except.map _) hnode
  exact ⟨h, ofText_error_holds h⟩

end Criteria
