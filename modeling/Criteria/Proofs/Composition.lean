import Criteria.Proofs.CallText
import Criteria.Proofs.Text.Splitting

/-! # Propositions made of texts

A list, a connective and a negation read as their texts do, one after the other, and the first error
among these is the error of the whole. A comparison of one operand with several is the group of its
comparisons with each. -/
namespace Criteria
open Text

/-- The text `name(texts)`, the texts parted by commas. -/
def callOf (name : String) (texts : List String) : String :=
  name ++ "(" ++ ",".intercalate texts ++ ")"

/-- A text that is its own only argument. -/
abbrev Alone (text : String) : Prop := argumentSplitter.split false text = .ok [text]

/-- The texts that are balanced without commas stand alone, and so does the empty text. -/
theorem balanced_iff_alone {text : String} :
    Balanced false text.toList ↔ text = "" ∨ Alone text :=
  passes_top_iff.symm.trans Splitter.passes_iff_alone

theorem not_alone_empty : ¬ Alone "" := by
  intro h
  rw [Alone, Splitter.split_empty] at h
  cases h

theorem balanced_of_mem_toList {texts : List String} (h : ∀ x ∈ texts, x = "" ∨ Alone x) :
    ∀ a ∈ texts.map String.toList, Balanced false a := by
  rw [List.forall_mem_map]
  exact fun x hx => balanced_iff_alone.mpr (h x hx)

theorem toList_intercalate (texts : List String) :
    (",".intercalate texts).toList = joinWith ',' (texts.map String.toList) := by
  simp [joinWith_eq_intercalate]

theorem toList_callOf (name : String) (texts : List String) :
    (callOf name texts).toList = callText name (texts.map String.toList) := by
  simp [callOf, callText, joinWith_eq_intercalate]

/-! ## Operands -/

section
variable {k c : Connective} {name : String} {verb : Verb} {given : Option Connective}
  {left right : List Char} {rights : List (List Char)}

theorem readNode_compare (k : Connective) (hn : Head.ofName? name.toList = some ⟨verb, given⟩)
    (hv : verb.Compares) (hl : Balanced false left) (hr : Balanced false right) :
    readNode k (callText name [left, right]) =
      (Condition.ofArguments verb (trim left) (trim right)).map .condition := by
  rw [readNode_callText k hn (by simp [hl, hr]) (by simp), Call.node_operands hv.1 hv.2.1]
  exact ofOperands_pair hv.2.2

/-- A comparison with two or more operands fans out to a group. -/
theorem readNode_fanOut (k : Connective) (hn : Head.ofName? name.toList = some ⟨verb, given⟩)
    (hv : verb.Compares) (hl : Balanced false left) (hr : ∀ r ∈ rights, Balanced false r)
    (h2 : 2 ≤ rights.length) : readNode k (callText name (left :: rights)) =
      (Call.fanOut verb (trim left) (rights.map trim)).map (.group (given.getD k) false) := by
  obtain ⟨r₁, r₂, rest, rfl⟩ := exists_cons_cons h2
  rw [readNode_callText k hn (List.forall_mem_cons.mpr ⟨hl, hr⟩) (by simp),
    Call.node_operands hv.1 hv.2.1]
  exact ofOperands_fanOut hv.2.2

/-- The comparisons with one operand each are read as what the fan-out has for members. -/
theorem readAll_compare (k : Connective) (hn : Head.ofName? name.toList = some ⟨verb, given⟩)
    (hv : verb.Compares) (hl : Balanced false left) (hr : ∀ r ∈ rights, Balanced false r) :
    readAll k (rights.map fun r => callText name [left, r]) =
      Call.fanOut verb (trim left) (rights.map trim) := by
  rw [readAll, Call.fanOut, List.mapM_map, List.mapM_map]
  exact mapM_congr fun r hr' => readNode_compare k hn hv hl (hr r hr')

/-- A connective joins the comparisons with one operand each to the group of the fan-out. -/
theorem readNode_each (k c : Connective) (hn : Head.ofName? name.toList = some ⟨verb, given⟩)
    (hv : verb.Compares) (hl : Balanced false left) (hr : ∀ r ∈ rights, Balanced false r)
    (h2 : 2 ≤ rights.length) :
    readNode k (callText c.name (rights.map fun r => callText name [left, r])) =
      (Call.fanOut verb (trim left) (rights.map trim)).map (.group c false) := by
  have hb : ∀ a ∈ rights.map (fun r => callText name [left, r]), Balanced false a := by
    rw [List.forall_mem_map]
    intro r hmem
    exact balanced_callText hn (by simp [hl, hr r hmem])
  obtain ⟨r₁, r₂, rest, rfl⟩ := exists_cons_cons h2
  rw [readNode_join k (by simpa using c.spells_name.ofName?) (by simp) hb (by simp) (by simp),
    readAll_compare c hn hv hl hr]

end

/-! ## Trees -/

namespace Group

theorem ofNode_negation (k : Connective) (n : Node) :
    ofNode k (n.negation k) = (ofNode k n).negate := by
  cases n <;> rfl

theorem negate_negate (g : Group) : g.negate.negate = g := by
  simp [negate]

/-- A group that is read stays as it is. -/
theorem read_of_group {k c : Connective} {cs : List Char} {x : Except ReadError (List Node)}
    (h : readNode k cs = x.map (.group c false)) : read k cs = x.map fun ns => ⟨c, false, ns⟩ := by
  rw [read, h, map_map]
  rfl

/-! ## Lists, connectives and negations -/

section
variable {texts : List String}

theorem map_toList_ne (h : ∀ x ∈ texts, Alone x) : texts.map String.toList ≠ [[]] := by
  intro he
  obtain ⟨x, rfl, hx⟩ := List.map_eq_singleton_iff.mp he
  exact not_alone_empty (String.toList_eq_nil_iff.mp hx ▸ h x (by simp))

theorem alone_callOf {name : String} {head : Head} (hn : Head.ofName? name.toList = some head)
    (h : ∀ x ∈ texts, x = "" ∨ Alone x) : Alone (callOf name texts) := by
  have hb := balanced_callText hn (balanced_of_mem_toList h)
  rw [← toList_callOf] at hb
  refine (balanced_iff_alone.mp hb).resolve_left fun he => ?_
  simp [callOf] at he

/-- The negation of a list is read as the list is, and turned over. -/
theorem ofText_not (hne : texts ≠ []) (h : ∀ x ∈ texts, Alone x) (c : Connective) :
    ofText (callOf "not" texts) c = (ofText (",".intercalate texts) c).map negate := by
  have hname : Head.ofName? "not".toList = some ⟨.complement, none⟩ := rfl
  have hb := balanced_of_mem_toList fun x hx => .inr (h x hx)
  rw [ofText, ofText, read, read, toList_callOf, toList_intercalate,
    readNode_complement c hname hb (by simpa using hne) (map_toList_ne h), map_map, map_map]
  simp only [ofNode_negation]

theorem ofText_not_not (hne : texts ≠ []) (h : ∀ x ∈ texts, Alone x) (c : Connective) :
    ofText (callOf "not" [callOf "not" texts]) c = ofText (",".intercalate texts) c := by
  have hname : Head.ofName? "not".toList = some ⟨.complement, none⟩ := rfl
  have hnot : ∀ x ∈ [callOf "not" texts], Alone x := by
    simpa using alone_callOf hname fun x hx => .inr (h x hx)
  rw [ofText_not (List.cons_ne_nil _ _) hnot, String.intercalate_singleton, ofText_not hne h,
    map_map]
  simp only [negate_negate]
  cases ofText (",".intercalate texts) c <;> rfl

end

/-- Lists, connectives and negations of texts that stand alone are read text by text, and a double
negation is read as if it were not there. -/
theorem ofText_composed (texts : List String) (hne : texts ≠ []) (h : ∀ x ∈ texts, Alone x)
    (c : Connective) :
    (2 ≤ texts.length → ofText (",".intercalate texts) c =
      (readAll c (texts.map String.toList)).map fun ns => ⟨c, false, ns⟩) ∧
    (∀ d, ofText (callOf c.name texts) d =
      (readAll c (texts.map String.toList)).map fun ns => ⟨c, false, ns⟩) ∧
    ofText (callOf "not" texts) c = (ofText (",".intercalate texts) c).map negate ∧
    ofText (callOf "not" [callOf "not" texts]) c = ofText (",".intercalate texts) c := by
  have hb := balanced_of_mem_toList fun x hx => .inr (h x hx)
  refine ⟨fun h2 => ?_, fun d => ?_, ofText_not hne h c, ofText_not_not hne h c⟩
  · refine read_of_group ?_
    rw [toList_intercalate]
    exact readNode_list c hb (by simpa using h2)
  · refine read_of_group ?_
    rw [toList_callOf]
    exact readNode_join d (by simpa using c.spells_name.ofName?) (by simp) hb (by simpa using hne)
      (map_toList_ne h)

theorem ofText_composed_quoted :
    (["eq(a,'),')", " in(b,1) "] ≠ [] ∧ ∀ x ∈ ["eq(a,'),')", " in(b,1) "], Alone x) ∧
    ofText "eq(a,'),'), in(b,1) " .and = .ok ⟨.and, false,
      [.condition (.constant "a" .equal (.string "),")), .condition (.isIn "b" [.int 1])]⟩ ∧
    ofText "and(eq(a,'),'), in(b,1) )" .or = ofText "eq(a,'),'), in(b,1) " .and ∧
    ofText "not(eq(a,'),'), in(b,1) )" .and =
      (ofText "eq(a,'),'), in(b,1) " .and).map negate ∧
    ofText "not(not(eq(a,'),'), in(b,1) ))" .and = ofText "eq(a,'),'), in(b,1) " .and := by
  have h : ∀ x ∈ ["eq(a,'),')", " in(b,1) "], Alone x := by
    intro x hx
    fin_cases hx <;> rfl
  obtain ⟨hlist, hjoin, hnot, hnotnot⟩ := ofText_composed _ (List.cons_ne_nil _ _) h .and
  have hlist := hlist (Nat.le_refl 2)
  have hequal : readNode .and "eq(a,'),')".toList =
      .ok (.condition (.constant "a" .equal (.string "),"))) := readNode_of_call rfl rfl rfl
  have hin : readNode .and " in(b,1) ".toList = .ok (.condition (.isIn "b" [.int 1])) :=
    readNode_of_call rfl rfl rfl
  refine ⟨⟨List.cons_ne_nil _ _, h⟩, hlist.trans ?_, (hjoin .or).trans hlist.symm, hnot, hnotnot⟩
  exact congrArg (Except.map _) (readAll_cons hequal (readAll_cons hin rfl))

/-! ## Fan-out -/

/-- A comparison of one operand with several, whose name ends in a connective, is read as the group
of the comparisons with each, and as without the ending below that connective. -/
theorem ofText_fanOut {verb : Verb} (hv : verb.Compares) {name : String} (hname : verb.Spells name)
    {c : Connective} {ending : String} (he : c.Ends ending) {left : String} {rights : List String}
    (h2 : 2 ≤ rights.length) (h : ∀ x ∈ left :: rights, x = "" ∨ Alone x) (d : Connective) :
    ofText (callOf (name ++ ending) (left :: rights)) d =
      ofText (callOf c.name (rights.map fun right => callOf name [left, right])) d ∧
    ofText (callOf (name ++ ending) (left :: rights)) d =
      ofText (callOf name (left :: rights)) c := by
  have hl : Balanced false left.toList := balanced_iff_alone.mpr (h left (by simp))
  have hr : ∀ r ∈ rights.map String.toList, Balanced false r :=
    balanced_of_mem_toList fun x hx => h x (List.mem_cons_of_mem _ hx)
  have h2 : 2 ≤ (rights.map String.toList).length := by simpa using h2
  have hplain : Head.ofName? name.toList = some ⟨verb, none⟩ := hv.1 ▸ hname.ofName?
  have ended := readNode_fanOut d (hname.ofName?_ends hv.1 he) hv hl hr h2
  have plain := readNode_fanOut c hplain hv hl hr h2
  have each := readNode_each d c hplain hv hl hr h2
  rw [List.map_map] at each
  simp only [ofText, toList_callOf, List.map_map, List.map_cons, Function.comp_def, List.map_nil]
    at ended plain each ⊢
  rw [read_of_group ended, read_of_group plain, read_of_group each]
  exact ⟨rfl, rfl⟩

theorem ofText_fanOut_equal :
    (Verb.equal.Compares ∧ Verb.equal.Spells "Eq" ∧ Connective.or.Ends "|" ∧
      2 ≤ ["b", "", "'),'"].length ∧ ∀ x ∈ ["a", "b", "", "'),'"], x = "" ∨ Alone x) ∧
    ofText "Eq|(a,b,,'),')" .and = .ok ⟨.or, false, [.condition (.againstField "a" .equal "b"),
      .condition (.isNull "a"), .condition (.constant "a" .equal (.string "),"))]⟩ ∧
    ofText "Eq|(a,b,,'),')" .and = ofText "or(Eq(a,b),Eq(a,),Eq(a,'),'))" .and ∧
    ofText "Eq|(a,b,,'),')" .and = ofText "Eq(a,b,,'),')" .or := by
  have hv : Verb.equal.Compares := ⟨rfl, nofun, nofun⟩
  have hname : Verb.equal.Spells "Eq" := by decide
  have hend : Connective.or.Ends "|" := by decide
  have h2 : 2 ≤ ["b", "", "'),'"].length := Nat.le_succ 2
  have h : ∀ x ∈ ["a", "b", "", "'),'"], x = "" ∨ Alone x := by
    intro x hx
    fin_cases hx
    · exact .inr rfl
    · exact .inr rfl
    · exact .inl rfl
    · exact .inr rfl
  have hread : readNode .and "Eq|(a,b,,'),')".toList = .ok (.group .or false
      [.condition (.againstField "a" .equal "b"), .condition (.isNull "a"),
        .condition (.constant "a" .equal (.string "),"))]) := readNode_of_call rfl rfl rfl
  exact ⟨⟨hv, hname, hend, h2, h⟩, congrArg (Except.map _) hread,
    ofText_fanOut hv hname hend h2 h .and⟩

end Group

end Criteria
