import Criteria.Group.Reader
import Criteria.Proofs.Arguments
import Criteria.Proofs.Text.Slots
import Criteria.Proofs.Verb

/-! # How calls are read

A term is cut at its first opening and its last closing parenthesis. In a segment these two belong
together, so that the term is a call exactly if the text between them is balanced. -/
namespace Criteria
open Text

/-! ## Results -/

theorem bind_eq_ok_iff {α β ε : Type} {x : Except ε α} {f : α → Except ε β} {b : β} :
    (x >>= f) = .ok b ↔ ∃ a, x = .ok a ∧ f a = .ok b := by
  cases x <;> simp [bind, Except.bind]

theorem mapM_cons_eq_ok {α β ε : Type} {f : α → Except ε β} {x : α} {xs : List α} {ys : List β} :
    (x :: xs).mapM f = .ok ys ↔ ∃ y zs, f x = .ok y ∧ xs.mapM f = .ok zs ∧ ys = y :: zs := by
  rw [List.mapM_cons]
  cases f x with
  | error e => simp [bind, Except.bind]
  | ok y =>
    cases xs.mapM f with
    | error e => simp [bind, Except.bind]
    | ok zs => simp [bind, Except.bind, pure, Except.pure, eq_comm]

theorem mapM_eq_ok_iff {α β ε : Type} {f : α → Except ε β} {xs : List α} {ys : List β} :
    xs.mapM f = .ok ys ↔ xs.length = ys.length ∧ ∀ p ∈ xs.zip ys, f p.1 = .ok p.2 := by
  induction xs generalizing ys with
  | nil => cases ys <;> simp [pure, Except.pure]
  | cons x xs ih =>
    rw [mapM_cons_eq_ok]
    constructor
    · rintro ⟨y, zs, hy, hz, rfl⟩
      obtain ⟨hl, he⟩ := ih.mp hz
      refine ⟨by simp [hl], ?_⟩
      intro p hp
      rcases List.mem_cons.mp hp with rfl | hp
      · exact hy
      · exact he p hp
    · rintro ⟨hl, he⟩
      cases ys with
      | nil => simp at hl
      | cons y zs =>
        have hz := ih.mpr ⟨by simpa using hl, fun p hp => he p (List.mem_cons_of_mem _ hp)⟩
        exact ⟨y, zs, he (x, y) (List.mem_cons_self ..), hz, rfl⟩

theorem exists_mem_zip {α β : Type} {xs : List α} {ys : List β} (hl : xs.length = ys.length)
    {y : β} (hy : y ∈ ys) : ∃ x ∈ xs, (x, y) ∈ xs.zip ys := by
  obtain ⟨i, hi, rfl⟩ := List.getElem_of_mem hy
  have hi' : i < xs.length := hl ▸ hi
  refine ⟨xs[i], List.getElem_mem hi', ?_⟩
  rw [← List.getElem_zip]
  exact List.getElem_mem (by simp [hi, hi'])

theorem map_map {α β γ ε : Type} (f : α → β) (g : β → γ) (x : Except ε α) :
    (x.map f).map g = x.map fun a => g (f a) := by
  cases x <;> rfl

theorem mapM_forall₂ {α β γ ε : Type} {f : α → Except ε γ} {g : β → Except ε γ} {xs : List α}
    {ys : List β} (h : List.Forall₂ (fun x y => f x = g y) xs ys) : xs.mapM f = ys.mapM g := by
  induction h with
  | nil => rfl
  | cons hxy _ ih => rw [List.mapM_cons, List.mapM_cons, hxy, ih]

theorem mapM_congr {α β ε : Type} {f g : α → Except ε β} {xs : List α}
    (h : ∀ x ∈ xs, f x = g x) : xs.mapM f = xs.mapM g :=
  mapM_forall₂ (List.forall₂_same.mpr h)

theorem mapM_except_map {α β γ ε : Type} (f : α → Except ε β) (g : β → γ) (xs : List α) :
    (xs.mapM fun x => (f x).map g) = (xs.mapM f).map (List.map g) := by
  induction xs with
  | nil => rfl
  | cons x xs ih =>
    rw [List.mapM_cons, List.mapM_cons, ih]
    cases f x with
    | error e => rfl
    | ok y => cases xs.mapM f <;> rfl

/-! ## The two parentheses of a term -/

theorem cutLast_concat (sep : Char) (cs : List Char) :
    cutLast sep (cs ++ [sep]) = some (cs, []) := by
  simp [cutLast, cutFirst]

theorem Balanced.getLast?_ne_opening {commas : Bool} {cs : List Char} (h : Balanced commas cs) :
    cs.getLast? ≠ some '(' := by
  have enclosed : ∀ {o c : Char} {body cs : List Char}, c ≠ '(' → cs.getLast? ≠ some '(' →
      (o :: (body ++ c :: cs)).getLast? ≠ some '(' := by
    intro o c body cs hc hcs
    have he : o :: (body ++ c :: cs) = (o :: body) ++ (c :: cs) := rfl
    rw [he, List.getLast?_append_of_ne_nil _ (List.cons_ne_nil c cs)]
    cases cs with
    | nil => simpa using hc
    | cons d ds => simpa using hcs
  induction h with
  | nil => simp
  | @plain _ c cs _ ho _ _ _ ih =>
    cases cs with
    | nil => simpa using ho
    | cons d ds => simpa using ih
  | quoted hq _ _ ih =>
    refine enclosed ?_ ih
    rintro rfl
    cases hq
  | nested _ _ _ ih => exact enclosed (by decide) ih

/-- The parts of a segment with nothing after its arguments. -/
theorem parts?_segment {term name body rest : List Char} (ht : Segment term)
    (hp : Call.parts? term = some (name, body, rest)) (hr : trim rest = []) :
    term = name ++ '(' :: (body ++ [')']) := by
  rw [Call.parts?_eq] at hp
  obtain ⟨⟨before, inside⟩, hfirst, hq⟩ := Option.map_eq_some_iff.mp hp
  obtain ⟨hname, hq⟩ := Prod.mk.inj hq
  have he : term = name ++ '(' :: inside := hname ▸ cutFirst_eq hfirst
  have hcut := Slots.cutBack_joined (some ')') inside
  simp only [hq] at hcut
  have hnil : rest = [] := by
    have ht := ht.trimmed
    rw [he, hcut, ← List.cons_append, ← List.append_assoc] at ht
    exact Trimmed.suffix_eq_nil _ ht hr
  rw [hnil, List.append_nil] at hcut
  by_cases hm : ')' ∈ inside
  · rw [Slots.gap_found hm] at hcut
    rw [he, hcut]
  · have hgap : Slots.gap (some ')') inside = [] := by simp [Slots.gap, hm]
    have hbody : body = [] := by rw [← Slots.cutBack_whole hgap, hq]
    rw [hgap, hbody, List.append_nil] at hcut
    exact absurd (by rw [he, hcut]; simp) ht.balanced.getLast?_ne_opening

/-- All that a call says of its term. -/
theorem Call.ofTerm_spec {k : Connective} {term : List Char} {call : Call}
    (h : ofTerm k term = .ok call) : ∃ name body rest head,
      parts? term = some (name, body, rest) ∧ trim rest = [] ∧
      splitArguments body = .ok call.args ∧ Head.ofName? name = some head ∧
      call.name = trim name ∧ call.verb = head.verb ∧
      call.connective = head.connective.getD k := by
  unfold ofTerm at h
  split at h
  · cases h
  · rename_i name body rest hp
    split at h
    · rename_i hr
      simp only at h
      split at h
      · cases h
      · rename_i head hh
        obtain ⟨args, ha, rfl⟩ := map_eq_ok h
        have hhead : Head.ofName? name = some head := Head.ofName?_trim name ▸ hh
        exact ⟨name, body, rest, head, hp, List.isEmpty_iff.mp hr, ha, hhead, rfl, rfl, rfl⟩
    · cases h

/-- The text between the parentheses of a call is a list of segments, and the name before them
resolves; a name that gives no connective leaves the one that is handed down. -/
theorem ofTerm_eq_ok_iff {k : Connective} {term : List Char} {call : Call} (ht : Segment term) :
    Call.ofTerm k term = .ok call ↔ ∃ name body head, term = name ++ '(' :: (body ++ [')']) ∧
      splitArguments body = .ok call.args ∧ Head.ofName? name = some head ∧
      call.name = trim name ∧ call.verb = head.verb ∧
      call.connective = head.connective.getD k := by
  constructor
  · intro h
    obtain ⟨name, body, rest, head, hp, hr, hcall⟩ := Call.ofTerm_spec h
    exact ⟨name, body, head, parts?_segment ht hp hr, hcall⟩
  · rintro ⟨name, body, head, rfl, ha, hh, hn, hv, hc⟩
    have hparen : '(' ∉ name := fun hm => (Head.ofName?_unmarked hh _ hm).2.1 rfl
    have hp : Call.parts? (name ++ '(' :: (body ++ [')'])) = some (name, body, []) := by
      rw [Call.parts?_eq, cutFirst_append _ hparen]
      simp [Slots.cutBack, cutLast_concat]
    have hr : (trim []).isEmpty = true := rfl
    simp only [Call.ofTerm, hp, hr, if_true, Head.ofName?_trim, hh, ha]
    rw [Except.map, ← hn, ← hv, ← hc]

/-! ## The node of a call -/

namespace Call

/-- The node that a call makes. -/
def node (call : Call) : Except ReadError Node :=
  if call.verb.connective?.isSome then
    if call.args.isEmpty then .error (call.tooFew 1)
    else (readAll call.connective call.args).map (.group call.connective false)
  else if call.verb = .complement then
    match call.args with
    | [] => .error (call.tooFew 1)
    | [arg] => (readNode call.connective arg).map (.negation call.connective)
    | args => (readAll call.connective args).map (.group call.connective true)
  else call.ofOperands

theorem node_join {call : Call} (hv : call.verb.connective?.isSome = true) (hne : call.args ≠ []) :
    call.node = (readAll call.connective call.args).map (.group call.connective false) := by
  have he : call.args.isEmpty = false := by simpa using hne
  simp only [node, hv, he, if_true, Bool.false_eq_true, if_false]

theorem node_complement {call : Call} {arg : List Char} (hv : call.verb = .complement)
    (ha : call.args = [arg]) :
    call.node = (readNode call.connective arg).map (.negation call.connective) := by
  simp [node, hv, ha, Verb.connective?]

theorem node_complementAll {call : Call} (hv : call.verb = .complement)
    (h2 : 2 ≤ call.args.length) :
    call.node = (readAll call.connective call.args).map (.group call.connective true) := by
  obtain ⟨name, verb, c, args⟩ := call
  subst hv
  rcases args with _ | ⟨a, _ | ⟨b, rest⟩⟩
  · simp at h2
  · simp at h2
  · rfl

theorem node_operands {call : Call} (hv : call.verb.connective? = none)
    (hc : call.verb ≠ .complement) : call.node = call.ofOperands := by
  simp only [node, hv, Option.isSome_none, Bool.false_eq_true, if_false, if_neg hc]

end Call

theorem readTerm_eq_node (k : Connective) (term : List Char) :
    readTerm k term = Call.ofTerm k term >>= Call.node := by
  rw [readTerm_eq]
  cases Call.ofTerm k term <;> rfl

theorem readTerm_of_call {k : Connective} {term : List Char} {call : Call}
    (h : Call.ofTerm k term = .ok call) : readTerm k term = call.node := by
  rw [readTerm_eq_node, h]
  rfl

/-! ## The node of a text -/

section
variable {k c : Connective} {text term name : List Char} {n : Node} {ns : List Node}

theorem readNode_eq_node (k : Connective) (h : splitArguments text = .ok [term]) :
    readNode k text = Call.ofTerm k term >>= Call.node := by
  rw [readNode_eq, h]
  exact readTerm_eq_node k term

/-- A text of one segment is read as the node of its call. -/
theorem readNode_of_call {call : Call} (hs : splitArguments text = .ok [term])
    (hc : Call.ofTerm k term = .ok call) (hn : call.node = .ok n) : readNode k text = .ok n := by
  rw [readNode_eq_node k hs, hc]
  exact hn

theorem readNode_of_negation {arg : List Char} (h : readNode c arg = .ok n)
    (hs : splitArguments text = .ok [term])
    (hc : Call.ofTerm k term = .ok ⟨name, .complement, c, [arg]⟩) :
    readNode k text = .ok (n.negation c) := by
  refine readNode_of_call hs hc ?_
  rw [Call.node_complement rfl rfl, h]
  rfl

theorem readNode_of_join {verb : Verb} {args : List (List Char)} (h : readAll c args = .ok ns)
    (hs : splitArguments text = .ok [term]) (hc : Call.ofTerm k term = .ok ⟨name, verb, c, args⟩)
    (hv : verb.connective?.isSome = true) (hne : args ≠ []) :
    readNode k text = .ok (.group c false ns) := by
  refine readNode_of_call hs hc ?_
  rw [Call.node_join hv hne, h]
  rfl

theorem readNode_of_list {t₁ t₂ : List Char} {ts : List (List Char)}
    (h : readAll k (t₁ :: t₂ :: ts) = .ok ns) (hs : splitArguments text = .ok (t₁ :: t₂ :: ts)) :
    readNode k text = .ok (.group k false ns) := by
  rw [readNode_eq, hs]
  show (readAll k (t₁ :: t₂ :: ts)).map (Node.group k false) = _
  rw [h]
  rfl

theorem readAll_cons {texts : List (List Char)} (h : readNode k text = .ok n)
    (hs : readAll k texts = .ok ns) : readAll k (text :: texts) = .ok (n :: ns) :=
  mapM_cons_eq_ok.mpr ⟨n, ns, h, hs, rfl⟩

end

end Criteria
