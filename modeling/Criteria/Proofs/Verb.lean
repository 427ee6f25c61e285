import Mathlib
import Criteria.Verb
import Criteria.Proofs.Text.Trimming

/-! # Names of calls

The words that are written resolve to what they are written for, and every spelling of a verb in
front of an ending to that verb and the connective of the ending. No name that resolves holds a
character that means something to the argument splitter. -/
namespace Criteria
open Operand (isQuote)
open Text

/-- A character that means nothing to the argument splitter. -/
def Unmarked (c : Char) : Prop := isQuote c = false ∧ c ≠ '(' ∧ c ≠ ')' ∧ c ≠ ','

instance : DecidablePred Unmarked := fun c =>
  inferInstanceAs (Decidable (isQuote c = false ∧ c ≠ '(' ∧ c ≠ ')' ∧ c ≠ ','))

theorem unmarked_of_isBlank {c : Char} (h : isBlank c = true) : Unmarked c := by
  obtain ⟨hq, ho, hc⟩ := isQuote_of_isBlank h
  refine ⟨hq, ho, hc, fun hk => ?_⟩
  subst hk
  cases h

theorem unmarked_of_toLower {c : Char} (h : Unmarked c.toLower) : Unmarked c := by
  obtain ⟨hq, ho, hc, hk⟩ := h
  refine ⟨?_, fun he => ho (by rw [he]; rfl), fun he => hc (by rw [he]; rfl),
    fun he => hk (by rw [he]; rfl)⟩
  by_contra hx
  rcases isQuote_iff.mp (by simpa using hx) with rfl | rfl
  · cases hq
  · cases hq

theorem toLower_of_isBlank {c : Char} (h : isBlank c = true) : c.toLower = c := by
  unfold Char.toLower
  rw [dif_neg]
  intro hc
  have hl : 65 ≤ c.toNat := hc.1
  have hu : c.toNat ≤ 90 := hc.2
  simp [isBlank, blankRanges] at h
  omega

/-! ## The characters of a name -/

theorem Verb.ofAlias?_characters {name : String} {verb : Verb}
    (h : Verb.ofAlias? name = some verb) :
    ∀ c ∈ name.toList, isBlank c = false ∧ Unmarked c := by
  have hall : name.toList.all (fun c => decide (isBlank c = false ∧ Unmarked c)) = true := by
    unfold Verb.ofAlias? at h
    split at h <;> first | rfl | cases h
  simpa using hall

theorem beforeEnding?_eq {ending cs stem : List Char} (h : beforeEnding? ending cs = some stem) :
    cs = stem ++ ending := by
  unfold beforeEnding? at h
  split at h
  · rename_i hs
    obtain ⟨rest, rfl⟩ := List.isSuffixOf_iff_suffix.mp hs
    simpa [eq_comm] using h
  · cases h

theorem Head.endings_characters :
    ∀ e ∈ Head.endings, ∀ c ∈ e.1.toList, isBlank c = false ∧ Unmarked c := by
  have hall : Head.endings.all (fun e => e.1.toList.all fun c =>
      decide (isBlank c = false ∧ Unmarked c)) = true := rfl
  simpa using hall

theorem Head.withEnding?_unmarked {name : List Char} {ending : String × Connective} {head : Head}
    (he : ending ∈ Head.endings) (h : Head.withEnding? name ending = some head) :
    ∀ c ∈ name, Unmarked c := by
  obtain ⟨stem, hs, h⟩ := Option.bind_eq_some_iff.mp h
  obtain ⟨verb, hv, _⟩ := Option.bind_eq_some_iff.mp h
  have hstem := Verb.ofAlias?_characters hv
  rw [String.toList_ofList] at hstem
  rw [beforeEnding?_eq hs]
  intro c hc
  rcases List.mem_append.mp hc with hc | hc
  · exact (hstem c hc).2
  · exact (Head.endings_characters ending he c hc).2

theorem Head.ofName?_unmarked {name : List Char} {head : Head}
    (h : Head.ofName? name = some head) : ∀ c ∈ name, Unmarked c := by
  have hlower : ∀ c ∈ lower (trim name), Unmarked c := by
    simp only [Head.ofName?] at h
    split at h
    · rename_i hv
      have hchars := Verb.ofAlias?_characters hv
      rw [String.toList_ofList] at hchars
      exact fun c hc => (hchars c hc).2
    · obtain ⟨ending, he, h⟩ := List.exists_of_findSome?_eq_some h
      exact Head.withEnding?_unmarked he h
  intro c hc
  cases hb : isBlank c with
  | true => exact unmarked_of_isBlank hb
  | false => exact unmarked_of_toLower (hlower _ (List.mem_map_of_mem (mem_trim hc hb)))

theorem Head.ofName?_trim (name : List Char) : Head.ofName? (trim name) = Head.ofName? name := by
  simp only [Head.ofName?, trim_trim]

/-- A name that means a connective takes no ending, so the call joins by that connective. -/
theorem Head.connective_of_verb {name : List Char} {head : Head}
    (h : Head.ofName? name = some head) (hv : head.verb.connective?.isSome = true) :
    head.connective = head.verb.connective? := by
  simp only [Head.ofName?] at h
  split at h
  · cases h
    rfl
  · obtain ⟨ending, _, h⟩ := List.exists_of_findSome?_eq_some h
    obtain ⟨stem, _, h⟩ := Option.bind_eq_some_iff.mp h
    obtain ⟨verb, _, h⟩ := Option.bind_eq_some_iff.mp h
    split at h
    · cases h
    · rename_i hn
      cases h
      exact absurd hv hn

/-! ## Spellings -/

/-- The texts that spell a verb without an ending, in any ASCII case. -/
def Verb.Spells (verb : Verb) (name : String) : Prop :=
  Verb.ofAlias? (String.ofList (lower name.toList)) = some verb

/-- The endings of a name that spell a connective, in any ASCII case. -/
def Connective.Ends (c : Connective) (ending : String) : Prop :=
  (String.ofList (lower ending.toList), c) ∈ Head.endings

instance (verb : Verb) (name : String) : Decidable (verb.Spells name) :=
  inferInstanceAs (Decidable (_ = _))

instance (c : Connective) (ending : String) : Decidable (c.Ends ending) :=
  inferInstanceAs (Decidable (_ ∈ _))

theorem trim_of_lower {cs : List Char} (h : ∀ c ∈ lower cs, isBlank c = false) : trim cs = cs := by
  refine trimmed_of_not_blank fun c hc => ?_
  by_contra hb
  have hb : isBlank c = true := by simpa using hb
  have := h c.toLower (List.mem_map_of_mem hc)
  rw [toLower_of_isBlank hb, hb] at this
  cases this

theorem Verb.Spells.ofName? {verb : Verb} {name : String} (h : verb.Spells name) :
    Head.ofName? name.toList = some ⟨verb, verb.connective?⟩ := by
  have hchars := Verb.ofAlias?_characters h
  rw [String.toList_ofList] at hchars
  have htrim : trim name.toList = name.toList := trim_of_lower fun c hc => (hchars c hc).1
  have hname : Verb.ofAlias? (String.ofList (lower name.toList)) = some verb := h
  simp only [Head.ofName?, htrim, hname]

/-- What an alias with an ending resolves to: no other alias and no other ending makes the same
name. -/
theorem Head.find_ending {stem : String} {verb : Verb} (h : Verb.ofAlias? stem = some verb)
    (hv : verb.connective? = none) : ∀ e ∈ Head.endings,
      Verb.ofAlias? (String.ofList (stem.toList ++ e.1.toList)) = none ∧
        Head.endings.findSome? (Head.withEnding? (stem.toList ++ e.1.toList)) =
          some ⟨verb, some e.2⟩ := by
  unfold Verb.ofAlias? at h
  split at h <;> cases h <;> first | decide +kernel | cases hv

theorem Verb.Spells.ofName?_ends {verb : Verb} {c : Connective} {name ending : String}
    (h : verb.Spells name) (hv : verb.connective? = none) (he : c.Ends ending) :
    Head.ofName? (name ++ ending).toList = some ⟨verb, some c⟩ := by
  have hchars := Verb.ofAlias?_characters h
  have hending := Head.endings_characters _ he
  obtain ⟨hnone, hfind⟩ := Head.find_ending h hv _ he
  rw [String.toList_ofList] at hchars hending
  rw [String.toList_ofList, String.toList_ofList] at hnone hfind
  have hlower : lower (name ++ ending).toList = lower name.toList ++ lower ending.toList := by
    simp [lower]
  have htrim : trim (name ++ ending).toList = (name ++ ending).toList := by
    refine trim_of_lower fun c hc => ?_
    rw [hlower] at hc
    rcases List.mem_append.mp hc with hc | hc
    · exact (hchars c hc).1
    · exact (hending c hc).1
  simp only [Head.ofName?, htrim, hlower, hnone, hfind]

theorem Verb.spells_word (verb : Verb) : verb.Spells verb.word := by
  cases verb <;> rfl

/-- The verb that has the name of a connective. -/
def Connective.verb : Connective → Verb
  | .and => .conjunction
  | .or => .disjunction
  | .xor => .exclusive

theorem Connective.call_eq (c : Connective) (members : List (List Char)) :
    c.call members = c.verb.call members := by
  cases c <;> rfl

@[simp] theorem Connective.connective?_verb (c : Connective) : c.verb.connective? = some c := by
  cases c <;> rfl

theorem Connective.spells_name (c : Connective) : c.verb.Spells c.name := by
  cases c <;> rfl

end Criteria
