import Mathlib
import Criteria.Operand

/-! # Balanced texts

The texts in which quotes and parentheses are closed in order, given by the way they are built, and
how the argument splitter reads them: a balanced text leaves the reading where it found it, and a
text that the splitter accepts is made of balanced pieces. -/
namespace Criteria
open Operand (isQuote)

theorem isQuote_iff {c : Char} : isQuote c = true ↔ c = '\'' ∨ c = '"' := by simp [isQuote]

/-- What may stand between two quotes `q`. A backslash makes the character after it literal. -/
inductive QuoteBody (q : Char) : List Char → Prop
  | nil : QuoteBody q []
  | plain {c : Char} {cs : List Char} : c ≠ q → c ≠ '\\' → QuoteBody q cs → QuoteBody q (c :: cs)
  | escaped {c : Char} {cs : List Char} : QuoteBody q cs → QuoteBody q ('\\' :: c :: cs)

/-- The body of a quoted run with its escapes resolved. -/
def unescape : List Char → List Char
  | [] => []
  | '\\' :: c :: cs => c :: unescape cs
  | c :: cs => c :: unescape cs

theorem unescape_plain {c : Char} (h : c ≠ '\\') (cs : List Char) :
    unescape (c :: cs) = c :: unescape cs := by
  rw [unescape]
  rintro d ds rfl
  exact absurd rfl h

/-- Ordinary characters, quoted runs and balanced texts in parentheses, one after the other. The
flag says whether commas count as ordinary; in parentheses they always do. -/
inductive Balanced : Bool → List Char → Prop
  | nil {commas : Bool} : Balanced commas []
  | plain {commas : Bool} {c : Char} {cs : List Char} : isQuote c = false → c ≠ '(' → c ≠ ')' →
      (c = ',' → commas = true) → Balanced commas cs → Balanced commas (c :: cs)
  | quoted {commas : Bool} {q : Char} {body cs : List Char} : isQuote q = true → QuoteBody q body →
      Balanced commas cs → Balanced commas (q :: (body ++ q :: cs))
  | nested {commas : Bool} {inner cs : List Char} : Balanced true inner → Balanced commas cs →
      Balanced commas ('(' :: (inner ++ ')' :: cs))

/-- A text that is balanced without commas, and what is left of it without its outermost quotes and
parentheses: a quoted run loses its escapes with its quotes, and what stands in parentheses stays as
it is. -/
inductive Bared : List Char → List Char → Prop
  | nil : Bared [] []
  | plain {c : Char} {cs s : List Char} : isQuote c = false → c ≠ '(' → c ≠ ')' → c ≠ ',' →
      Bared cs s → Bared (c :: cs) (c :: s)
  | quoted {q : Char} {body cs s : List Char} : isQuote q = true → QuoteBody q body →
      Bared cs s → Bared (q :: (body ++ q :: cs)) (unescape body ++ s)
  | nested {inner cs s : List Char} : Balanced true inner → Bared cs s →
      Bared ('(' :: (inner ++ ')' :: cs)) (inner ++ s)

namespace Balanced
variable {commas : Bool} {cs ds : List Char}

theorem exists_bared (h : Balanced false cs) : ∃ s, Bared cs s := by
  generalize hk : false = k at h
  induction h with
  | nil => exact ⟨_, .nil⟩
  | plain hq ho hc hcomma _ ih =>
    obtain ⟨s, hs⟩ := ih hk
    exact ⟨_, .plain hq ho hc (fun he => by simpa [← hk] using hcomma he) hs⟩
  | quoted hq hb _ ih =>
    obtain ⟨s, hs⟩ := ih hk
    exact ⟨_, .quoted hq hb hs⟩
  | nested hi _ _ ih =>
    obtain ⟨s, hs⟩ := ih hk
    exact ⟨_, .nested hi hs⟩

/-- What is balanced without commas at the top is balanced with them. -/
theorem allow (h : Balanced commas cs) : Balanced true cs := by
  induction h with
  | nil => exact .nil
  | plain hq ho hc _ _ ih => exact .plain hq ho hc (fun _ => rfl) ih
  | quoted hq hb _ ih => exact .quoted hq hb ih
  | nested hi _ _ ih => exact .nested hi ih

theorem append (hc : Balanced commas cs) (hd : Balanced commas ds) :
    Balanced commas (cs ++ ds) := by
  induction hc with
  | nil => exact hd
  | plain hq ho hc hk _ ih => exact .plain hq ho hc hk (ih hd)
  | quoted hq hb _ ih =>
    rw [List.cons_append, List.append_assoc]
    exact .quoted hq hb (ih hd)
  | nested hi _ _ ih =>
    rw [List.cons_append, List.append_assoc]
    exact .nested hi (ih hd)

theorem joined {ps : List (List Char)} (h : ∀ p ∈ ps, Balanced true p) :
    Balanced true (Text.joinWith ',' ps) := by
  fun_induction Text.joinWith ',' ps with
  | case1 => exact .nil
  | case2 cs => exact h cs (by simp)
  | case3 cs ds rest ih =>
    have hr := ih fun p hp => h p (List.mem_cons_of_mem _ hp)
    exact (h cs (by simp)).append (.plain rfl (by decide) (by decide) (fun _ => rfl) hr)

/-- A character that is neither a quote nor a parenthesis can be dropped at the front. -/
theorem tail {c : Char} (h : Balanced commas (c :: cs)) (hq : isQuote c = false) (ho : c ≠ '(') :
    Balanced commas cs := by
  cases h with
  | plain _ _ _ _ h => exact h
  | quoted hq' => rw [hq] at hq'; cases hq'
  | nested => exact absurd rfl ho

/-- The end of a text that begins with an enclosed part. -/
private theorem end_enclosed (o c : Char) (body : List Char) {cs : List Char} (h : cs ≠ []) :
    (o :: (body ++ c :: cs)).getLast? = cs.getLast? ∧
      (o :: (body ++ c :: cs)).dropLast = o :: (body ++ c :: cs.dropLast) := by
  have he : o :: (body ++ c :: cs) = (o :: (body ++ [c])) ++ cs := by simp
  rw [he, List.getLast?_append_of_ne_nil _ h, List.dropLast_append_of_ne_nil h]
  exact ⟨rfl, by simp⟩

private theorem getLast?_enclosed (o c : Char) (body : List Char) :
    (o :: (body ++ [c])).getLast? = some c := by
  rw [show o :: (body ++ [c]) = (o :: body) ++ [c] from rfl]
  exact List.getLast?_concat

/-- A character that is neither a quote nor a parenthesis can be dropped at the back. -/
theorem dropLast (h : Balanced commas cs)
    (hl : ∀ c ∈ cs.getLast?, isQuote c = false ∧ c ≠ ')') : Balanced commas cs.dropLast := by
  induction h with
  | nil => exact .nil
  | @plain _ c cs hq ho hc hk h ih =>
    cases cs with
    | nil => exact .nil
    | cons d ds => exact .plain hq ho hc hk (ih (by simpa using hl))
  | @quoted _ q body cs hq hb h ih =>
    rcases eq_or_ne cs [] with rfl | hne
    · have := (hl q (getLast?_enclosed q q body)).1
      rw [hq] at this
      cases this
    · obtain ⟨hg, hd⟩ := end_enclosed q q body hne
      rw [hd]
      exact .quoted hq hb (ih (hg ▸ hl))
  | @nested _ inner cs hi h _ ih =>
    rcases eq_or_ne cs [] with rfl | hne
    · exact absurd rfl (hl ')' (getLast?_enclosed '(' ')' inner)).2
    · obtain ⟨hg, hd⟩ := end_enclosed '(' ')' inner hne
      rw [hd]
      exact .nested hi (ih (hg ▸ hl))

/-- A text of characters without a meaning of their own is balanced. -/
theorem of_plain (h : ∀ c ∈ cs, isQuote c = false ∧ c ≠ '(' ∧ c ≠ ')' ∧ c ≠ ',') :
    Balanced false cs := by
  induction cs with
  | nil => exact .nil
  | cons c cs ih =>
    obtain ⟨hq, ho, hc, hk⟩ := h c (by simp)
    exact .plain hq ho hc (fun he => absurd he hk) (ih fun d hd => h d (List.mem_cons_of_mem _ hd))

end Balanced
end Criteria
