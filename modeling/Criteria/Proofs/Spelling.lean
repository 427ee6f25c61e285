import Criteria.Proofs.Composition

/-! # Spelling

Two texts that write one tree of calls, with other aliases and other blanks, are read alike. Only
what the reader says where it refuses a text may depend on how the text is spelt. -/
namespace Criteria
open Text

/-- A call and its arguments, or the text of an operand. A name that means nothing gives no head. -/
inductive CallTree where
  | operand (text : String)
  | call (head : Option Head) (args : List CallTree)

/-- A text with blanks before and after it. -/
def Padded (inner text : String) : Prop :=
  ∃ before after : String, (∀ c ∈ before.toList, isBlank c = true) ∧
    (∀ c ∈ after.toList, isBlank c = true) ∧ text = before ++ inner ++ after

/-- The names with a given meaning. One that means nothing is still not cut apart by the reader. -/
def Names (head : Option Head) (name : String) : Prop :=
  Head.ofName? name.toList = head ∧ (head = none → ∀ c ∈ name.toList, Unmarked c)

/-- The texts that write a tree. -/
inductive Writes : CallTree → String → Prop
  | operand {x text : String} : Trimmed x.toList → x = "" ∨ Alone x → Padded x text →
      Writes (.operand x) text
  | call {head : Option Head} {args : List CallTree} {name text : String} {texts : List String} :
      Names head name → args.length = texts.length → (∀ p ∈ args.zip texts, Writes p.1 p.2) →
      Padded (callOf name texts) text → Writes (.call head args) text

/-- The texts that write one tree or more, parted by commas. -/
def WritesList (trees : List CallTree) (text : String) : Prop :=
  trees ≠ [] ∧ ∃ texts : List String, trees.length = texts.length ∧
    (∀ p ∈ trees.zip texts, Writes p.1 p.2) ∧ ",".intercalate texts = text

/-! ## Results without their errors -/

theorem toOption_eq_some_iff {α ε : Type} {x : Except ε α} {a : α} :
    x.toOption = some a ↔ x = .ok a := by
  cases x <;> simp [Except.toOption]

theorem toOption_map {α β ε : Type} (f : α → β) (x : Except ε α) :
    (x.map f).toOption = x.toOption.map f := by
  cases x <;> rfl

theorem toOption_bind {α β ε : Type} (x : Except ε α) (f : α → Except ε β) :
    (x >>= f).toOption = x.toOption.bind fun a => (f a).toOption := by
  cases x <;> rfl

theorem toOption_mapM {α β γ ε : Type} {f : α → Except ε γ} {g : β → Except ε γ} {xs : List α}
    {ys : List β} (h : List.Forall₂ (fun x y => (f x).toOption = (g y).toOption) xs ys) :
    (xs.mapM f).toOption = (ys.mapM g).toOption := by
  induction h with
  | nil => rfl
  | cons hxy _ ih => simp only [List.mapM_cons, toOption_bind, hxy, ih]

theorem forall₂_pairs {α β γ : Type} {R : α → β → Prop} {S : α → γ → Prop} {T : β → γ → Prop}
    (h : ∀ x y z, R x y → S x z → T y z) {xs : List α} {ys : List β} {zs : List γ}
    (hy : List.Forall₂ R xs ys) (hz : List.Forall₂ S xs zs) : List.Forall₂ T ys zs := by
  induction hy generalizing zs with
  | nil => cases hz; exact .nil
  | cons hxy _ ih =>
    cases hz with
    | cons hxz hz => exact .cons (h _ _ _ hxy hxz) (ih hz)

/-! ## Blanks around a text -/

namespace Padded
variable {inner text : String}

theorem refl (text : String) : Padded text text := ⟨"", "", nofun, nofun, by simp⟩

theorem trim_eq (h : Padded inner text) : trim text.toList = trim inner.toList := by
  obtain ⟨before, after, hb, ha, rfl⟩ := h
  have front : ∀ cs, trimLeft (before.toList ++ cs) = trimLeft cs := fun cs =>
    List.dropWhile_append_of_pos hb
  have back : ∀ cs, trimRight (cs ++ after.toList) = trimRight cs := by
    intro cs
    unfold trimRight
    rw [List.reverse_append, List.dropWhile_append_of_pos (by simpa using ha)]
  have none : trimLeft after.toList = [] := List.dropWhile_eq_nil_iff.mpr ha
  rw [String.toList_append, String.toList_append, List.append_assoc, trim, front, trim]
  by_cases he : trimLeft inner.toList = []
  · have : trimLeft (inner.toList ++ after.toList) = [] := by
      rw [trimLeft] at he none ⊢
      rw [List.dropWhile_append, he, none]
      rfl
    rw [this, he]
  · have : trimLeft (inner.toList ++ after.toList) = trimLeft inner.toList ++ after.toList := by
      unfold trimLeft at he ⊢
      rw [List.dropWhile_append, if_neg (by simpa using he)]
    rw [this, back]

theorem balanced (h : Padded inner text) (hi : Balanced false inner.toList) :
    Balanced false text.toList := by
  obtain ⟨before, after, hb, ha, rfl⟩ := h
  have blank : ∀ {s : String}, (∀ c ∈ s.toList, isBlank c = true) → Balanced false s.toList :=
    fun hs => .of_plain fun c hc => unmarked_of_isBlank (hs c hc)
  rw [String.toList_append, String.toList_append]
  exact ((blank hb).append hi).append (blank ha)

end Padded

theorem Names.unmarked {head : Option Head} {name : String} (h : Names head name) :
    ∀ c ∈ name.toList, Unmarked c := by
  obtain ⟨hn, hnone⟩ := h
  cases head with
  | none => exact hnone rfl
  | some head => exact Head.ofName?_unmarked hn

/-! ## Texts that are read alike -/

/-- As propositions and as operands two texts give the same, or both give nothing. -/
structure SameReading (a b : List Char) : Prop where
  left : Balanced false a
  right : Balanced false b
  node : ∀ k, (readNode k a).toOption = (readNode k b).toOption
  operand : (Operand.classify a).toOption = (Operand.classify b).toOption

theorem classify_trim (text : List Char) :
    Operand.classify (trim text) = Operand.classify text := by
  simp only [Operand.classify, trim_trim]

theorem alike_of_trim_eq {a b : List Char} (ha : Balanced false a) (hb : Balanced false b)
    (h : trim a = trim b) : SameReading a b where
  left := ha
  right := hb
  node k := by rw [← readNode_trim k ha, h, readNode_trim k hb]
  operand := by rw [← classify_trim a, h, classify_trim]

theorem SameReading.trans {a b c : List Char} (h : SameReading a b) (h' : SameReading b c) :
    SameReading a c :=
  ⟨h.left, h'.right, fun k => (h.node k).trans (h'.node k), h.operand.trans h'.operand⟩

theorem alike_trim {a : List Char} (ha : Balanced false a) : SameReading a (trim a) :=
  alike_of_trim_eq ha ha.trim (trim_trim a).symm

theorem trim_alike {a : List Char} (ha : Balanced false a) : SameReading (trim a) a :=
  alike_of_trim_eq ha.trim ha (trim_trim a)

theorem SameReading.trim {a b : List Char} (h : SameReading a b) : SameReading (trim a) (trim b) :=
  (trim_alike h.left).trans (h.trans (alike_trim h.right))

theorem SameReading.symm {a b : List Char} (h : SameReading a b) : SameReading b a :=
  ⟨h.right, h.left, fun k => (h.node k).symm, h.operand.symm⟩

theorem balanced_of_alike {as bs : List (List Char)} (h : List.Forall₂ SameReading as bs) :
    ∀ a ∈ as, Balanced false a :=
  ((List.forall₂_and_left _ _).mp (h.imp fun _ _ hab => ⟨hab.left, hab⟩)).1

theorem alike_symm {as bs : List (List Char)} (h : List.Forall₂ SameReading as bs) :
    List.Forall₂ SameReading bs as :=
  List.Forall₂.flip (h.imp fun _ _ hab => hab.symm)

theorem readAll_alike {k : Connective} {as bs : List (List Char)}
    (h : List.Forall₂ SameReading as bs) : (readAll k as).toOption = (readAll k bs).toOption :=
  toOption_mapM (h.imp fun _ _ hab => hab.node k)

/-! ## Calls on arguments that are read alike -/

section
variable {k c : Connective} {verb : Verb} {l l' r r' : List Char} {args args' : List (List Char)}

theorem toOption_ofArguments (verb : Verb) (hl : SameReading l l') (hr : SameReading r r') :
    (Condition.ofArguments verb l r).toOption = (Condition.ofArguments verb l' r').toOption := by
  simp only [Condition.ofArguments, toOption_bind, hl.operand, hr.operand]

theorem toOption_membership (hl : SameReading l l') (h : List.Forall₂ SameReading args args') :
    (Condition.membership l args).toOption = (Condition.membership l' args').toOption := by
  have items : (Condition.itemValues args).toOption = (Condition.itemValues args').toOption := by
    simp only [itemValues_eq_mapM]
    refine toOption_mapM (h.imp fun x y hxy => ?_)
    simp only [Condition.itemValue, toOption_bind, hxy.operand]
  simp only [Condition.membership, toOption_bind, hl.operand]
  congr 1
  funext f
  split
  · simp only [toOption_bind, items]
  · rfl

theorem toOption_ofOperands {name name' : List Char} (h : List.Forall₂ SameReading args args') :
    (Call.ofOperands ⟨name, verb, c, args⟩).toOption =
      (Call.ofOperands ⟨name', verb, c, args'⟩).toOption := by
  by_cases hv : verb = .isIn
  · subst hv
    rcases h with _ | ⟨hl, _ | ⟨hr, hs⟩⟩
    · rfl
    · rfl
    · simp only [Call.ofOperands, toOption_map, toOption_membership hl (.cons hr hs)]
  · rcases h with _ | ⟨hl, _ | ⟨hr, _ | ⟨hs, ht⟩⟩⟩
    · cases verb <;> rfl
    · cases verb <;> rfl
    · rw [ofOperands_pair hv, ofOperands_pair hv, toOption_map, toOption_map,
        toOption_ofArguments verb hl hr]
    · have fan := toOption_mapM ((List.Forall₂.cons hr (.cons hs ht)).imp fun x y hxy =>
        toOption_ofArguments verb hl hxy)
      rw [ofOperands_fanOut hv, ofOperands_fanOut hv, fanOut_eq, fanOut_eq]
      simp only [toOption_map, fan]

theorem toOption_node {name name' : List Char} (h : List.Forall₂ SameReading args args') :
    (Call.node ⟨name, verb, c, args⟩).toOption =
      (Call.node ⟨name', verb, c, args'⟩).toOption := by
  have all : (readAll c args).toOption = (readAll c args').toOption := readAll_alike h
  by_cases hj : verb.connective?.isSome = true
  · rcases h with _ | ⟨hl, hr⟩
    · simp only [Call.node, hj, if_true]
      rfl
    · rw [Call.node_join hj (by simp), Call.node_join hj (by simp), toOption_map, toOption_map, all]
  · by_cases hv : verb = .complement
    · subst hv
      rcases h with _ | ⟨hl, _ | ⟨hr, hs⟩⟩
      · rfl
      · show ((readNode c _).map _).toOption = ((readNode c _).map _).toOption
        rw [toOption_map, toOption_map, hl.node c]
      · show ((readAll c _).map _).toOption = ((readAll c _).map _).toOption
        rw [toOption_map, toOption_map, all]
    · have hj : verb.connective? = none := by simpa using hj
      rw [Call.node_operands hj hv, Call.node_operands hj hv]
      exact toOption_ofOperands h

/-! ## Calls with and without a meaning -/

theorem readNode_nameless {name : String} (hn : Names none name)
    (h : ∀ a ∈ args, Balanced false a) : (readNode k (callText name args)).toOption = none := by
  have hb := balanced_callText_of_unmarked hn.unmarked h
  rw [readNode_balanced k hb, readTerm_eq_node, toOption_bind]
  cases hc : Call.ofTerm k (trim (callText name args)) with
  | error e => rfl
  | ok call =>
    obtain ⟨name', body, head, he, _, hh, _⟩ :=
      (ofTerm_eq_ok_iff ⟨hb.trim, trimmed_trim _⟩).mp hc
    have hleft : '(' ∉ trimLeft name.toList := fun hm =>
      (hn.unmarked _ ((List.dropWhile_sublist _).mem hm)).2.1 rfl
    have hright : '(' ∉ name' := fun hm => (Head.ofName?_unmarked hh _ hm).2.1 rfl
    rw [trim_callText] at he
    have hcut := congrArg (cutFirst '(') he
    rw [cutFirst_append _ hleft, cutFirst_append _ hright] at hcut
    have hsame : trimLeft name.toList = name' := (Prod.mk.inj (Option.some.inj hcut)).1
    rw [← hsame, ← Head.ofName?_trim, trim_trimLeft, Head.ofName?_trim, hn.1] at hh
    cases hh

/-- A call with one argument that is no proposition is none itself. -/
theorem toOption_node_single {name x : List Char} (hx : ∀ c, (readNode c x).toOption = none) :
    (Call.node ⟨name, verb, c, [x]⟩).toOption = none := by
  by_cases hj : verb.connective?.isSome = true
  · have all : (readAll c [x]).toOption = none := by
      rw [readAll, List.mapM_cons, toOption_bind, hx]
      rfl
    rw [Call.node_join hj (by simp), toOption_map, all]
    rfl
  · by_cases hv : verb = .complement
    · subst hv
      show ((readNode c x).map _).toOption = none
      rw [toOption_map, hx]
      rfl
    · rw [Call.node_operands (by simpa using hj) hv]
      cases verb <;> rfl

theorem readNode_single {name : String} {head : Head} {x : List Char}
    (hn : Head.ofName? name.toList = some head) (hb : Balanced false x)
    (hx : ∀ c, (readNode c x).toOption = none) :
    (readNode k (callText name [x])).toOption = none := by
  by_cases he : x = []
  · -- nothing stands between the parentheses, so the call has no arguments
    subst he
    have hnil : callText name [[]] = callText name [] := rfl
    rw [hnil, readNode_callText k hn (by simp) (by simp)]
    obtain ⟨verb, given⟩ := head
    cases verb <;> rfl
  · rw [readNode_callText k hn (by simpa using hb) (by simpa using he)]
    exact toOption_node_single fun c => by rw [readNode_trim c hb, hx c]

theorem readNode_nil : (readNode k []).toOption = none := by
  rw [readNode_eq]
  rfl

theorem toOption_callText {name name' : String} {head : Head}
    (hn : Head.ofName? name.toList = some head) (hn' : Head.ofName? name'.toList = some head)
    (h : List.Forall₂ SameReading args args') :
    (readNode k (callText name args)).toOption = (readNode k (callText name' args')).toOption := by
  by_cases hone : args = [[]] ∨ args' = [[]]
  · obtain ⟨x, y, rfl, rfl, hxy, hx⟩ : ∃ x y, args = [x] ∧ args' = [y] ∧ SameReading x y ∧
        ∀ c, (readNode c x).toOption = none := by
      rcases hone with rfl | rfl
      · rcases h with _ | ⟨hxy, _ | _⟩
        exact ⟨_, _, rfl, rfl, hxy, fun c => readNode_nil⟩
      · rcases h with _ | ⟨hxy, _ | _⟩
        exact ⟨_, _, rfl, rfl, hxy, fun c => (hxy.node c).trans readNode_nil⟩
    have hy : ∀ c, (readNode c y).toOption = none := fun c => (hxy.node c).symm.trans (hx c)
    rw [readNode_single hn hxy.left hx, readNode_single hn' hxy.right hy]
  · obtain ⟨hl, hr⟩ := not_or.mp hone
    have htrim : List.Forall₂ SameReading (args.map Text.trim) (args'.map Text.trim) := by
      rw [List.forall₂_map_left_iff, List.forall₂_map_right_iff]
      exact h.imp fun _ _ hab => hab.trim
    rw [readNode_callText k hn (balanced_of_alike h) hl,
      readNode_callText k hn' (balanced_of_alike (alike_symm h)) hr]
    exact toOption_node htrim

theorem kindOfTrimmed_concat (cs : List Char) :
    Operand.kindOfTrimmed (cs ++ [')']) = .call := by
  have hnull : (lower (cs ++ [')']) == "null".toList) = false := by
    refine beq_false_of_ne fun he => ?_
    have hlast := congrArg List.getLast? he
    rw [lower, List.map_append, List.map_singleton, List.getLast?_concat] at hlast
    cases hlast
  have hquoted : Operand.isQuoted (cs ++ [')']) = false := by
    cases cs with
    | nil => rfl
    | cons q cs =>
      rw [List.cons_append, Operand.isQuoted, List.getLast?_concat]
      by_contra h
      simp only [Bool.not_eq_false, Bool.and_eq_true, beq_iff_eq, Option.some.injEq] at h
      obtain ⟨hq, rfl⟩ := h
      cases hq
  have hempty : (cs ++ [')']).isEmpty = false := by simp
  simp only [Operand.kindOfTrimmed, hempty, hnull, hquoted, List.getLast?_concat]
  rfl

/-- A call is no operand. -/
theorem classify_callText (name : String) (args : List (List Char)) :
    (Operand.classify (callText name args)).toOption = none := by
  have hkind : Operand.kindOf (callText name args) = .call := by
    rw [Operand.kindOf, trim_callText, ← List.cons_append, ← List.append_assoc]
    exact kindOfTrimmed_concat _
  cases hc : Operand.classify (callText name args) with
  | error e => rfl
  | ok o => exact absurd hkind (classify_eq_ok_iff.mp hc).2.1

theorem alike_callText {head : Option Head} {name name' : String} (hn : Names head name)
    (hn' : Names head name') (h : List.Forall₂ SameReading args args') :
    SameReading (callText name args) (callText name' args') where
  left := balanced_callText_of_unmarked hn.unmarked (balanced_of_alike h)
  right := balanced_callText_of_unmarked hn'.unmarked (balanced_of_alike (alike_symm h))
  node k := by
    cases head with
    | none =>
      rw [readNode_nameless hn (balanced_of_alike h),
        readNode_nameless hn' (balanced_of_alike (alike_symm h))]
    | some head => exact toOption_callText hn.1 hn'.1 h
  operand := by rw [classify_callText, classify_callText]

end

/-! ## Trees -/

theorem Padded.alike {a b x y : String} (ha : Padded x a) (hb : Padded y b)
    (h : SameReading x.toList y.toList) : SameReading a.toList b.toList :=
  (alike_of_trim_eq (ha.balanced h.left) h.left ha.trim_eq).trans
    (h.trans (alike_of_trim_eq h.right (hb.balanced h.right) hb.trim_eq.symm))

/-- All texts of a tree are read alike. -/
theorem Writes.alike {tree : CallTree} {a b : String} (ha : Writes tree a) (hb : Writes tree b) :
    SameReading a.toList b.toList := by
  induction ha generalizing b with
  | operand _ halone hpad =>
    cases hb with
    | operand _ _ hpad' =>
      have hx := balanced_iff_alone.mpr halone
      exact hpad.alike hpad' (alike_of_trim_eq hx hx rfl)
  | @call head args name text texts hn hl _ hpad ih =>
    cases hb with
    | @call _ _ name' _ texts' hn' hl' hw' hpad' =>
      refine hpad.alike hpad' ?_
      have left : List.Forall₂ (fun t a => ∀ b, Writes t b → SameReading a.toList b.toList)
          args texts := List.forall₂_iff_zip.mpr ⟨hl, fun hp _ => ih _ hp⟩
      have right : List.Forall₂ Writes args texts' :=
        List.forall₂_iff_zip.mpr ⟨hl', fun hp => hw' _ hp⟩
      rw [toList_callOf, toList_callOf]
      refine alike_callText hn hn' ?_
      rw [List.forall₂_map_left_iff, List.forall₂_map_right_iff]
      exact forall₂_pairs (fun _ _ _ hx hy => hx _ hy) left right

theorem readNode_alike {k : Connective} {as bs : List (List Char)}
    (h : List.Forall₂ SameReading as bs) (hne : as ≠ []) :
    (readNode k (joinWith ',' as)).toOption = (readNode k (joinWith ',' bs)).toOption := by
  have left := balanced_of_alike h
  have right := balanced_of_alike (alike_symm h)
  by_cases h2 : 2 ≤ as.length
  · rw [readNode_list k left h2, readNode_list k right (h.length_eq ▸ h2), toOption_map,
      toOption_map, readAll_alike h]
  · rcases h with _ | ⟨hab, _ | _⟩
    · exact absurd rfl hne
    · exact hab.node k
    · simp at h2

/-- Spelling does not matter: of two texts of the same trees, one is read exactly if the other is,
and as the same tree. -/
theorem Group.ofText_spelling {trees : List CallTree} {a b : String} (ha : WritesList trees a)
    (hb : WritesList trees b) (k : Connective) (t : Group) :
    ofText a k = .ok t ↔ ofText b k = .ok t := by
  obtain ⟨hne, as, hla, hwa, rfl⟩ := ha
  obtain ⟨_, bs, hlb, hwb, rfl⟩ := hb
  have left : List.Forall₂ Writes trees as := List.forall₂_iff_zip.mpr ⟨hla, fun hp => hwa _ hp⟩
  have right : List.Forall₂ Writes trees bs := List.forall₂_iff_zip.mpr ⟨hlb, fun hp => hwb _ hp⟩
  have alike : List.Forall₂ SameReading (as.map String.toList) (bs.map String.toList) := by
    rw [List.forall₂_map_left_iff, List.forall₂_map_right_iff]
    exact forall₂_pairs (fun _ _ _ hx hy => hx.alike hy) left right
  have hcons : as.map String.toList ≠ [] := by
    intro he
    rw [List.map_eq_nil_iff.mp he] at hla
    exact hne (List.length_eq_zero_iff.mp hla)
  rw [← toOption_eq_some_iff, ← toOption_eq_some_iff, ofText, ofText, read, read, toOption_map,
    toOption_map, toList_intercalate, toList_intercalate, readNode_alike alike hcons]

theorem Group.ofText_spelling_equals :
    (WritesList [.call (some ⟨.equal, some .or⟩) [.operand "a", .operand "'x y'", .operand ""]]
        "eq|(a,'x y',)" ∧
      WritesList [.call (some ⟨.equal, some .or⟩) [.operand "a", .operand "'x y'", .operand ""]]
        " EQUALSor ( a\t,'x y' ,\n) ") ∧
    ofText "eq|(a,'x y',)" .and = .ok ⟨.or, false,
      [.condition ⟨"a", .equal, .string "x y", .value⟩, .condition (.isNull "a")]⟩ ∧
    (ofText "eq|(a,'x y',)" .and = .ok ⟨.or, false,
        [.condition ⟨"a", .equal, .string "x y", .value⟩, .condition (.isNull "a")]⟩ ↔
      ofText " EQUALSor ( a\t,'x y' ,\n) " .and = .ok ⟨.or, false,
        [.condition ⟨"a", .equal, .string "x y", .value⟩, .condition (.isNull "a")]⟩) := by
  have write : ∀ {name a s e text : String}, Head.ofName? name.toList = some ⟨.equal, some .or⟩ →
      Padded "a" a → Padded "'x y'" s → Padded "" e → Padded (callOf name [a, s, e]) text →
      WritesList [.call (some ⟨.equal, some .or⟩) [.operand "a", .operand "'x y'", .operand ""]]
        text := by
    intro name a s e text hn ha hs he hp
    have args : ∀ p ∈ [CallTree.operand "a", .operand "'x y'", .operand ""].zip [a, s, e],
        Writes p.1 p.2 := by
      intro p hp
      fin_cases hp
      · exact .operand rfl (.inr rfl) ha
      · exact .operand rfl (.inr rfl) hs
      · exact .operand rfl (.inl rfl) he
    exact ⟨by simp, [text], rfl, by simpa using .call ⟨hn, nofun⟩ rfl args hp, rfl⟩
  have blank : ∀ {s : String}, s.toList.all isBlank = true → ∀ c ∈ s.toList, isBlank c = true :=
    List.all_eq_true.mp
  have hname : Padded "a" " a\t" := ⟨" ", "\t", blank rfl, blank rfl, by rfl⟩
  have hstring : Padded "'x y'" "'x y' " := ⟨"", " ", blank rfl, blank rfl, by rfl⟩
  have hempty : Padded "" "\n" := ⟨"\n", "", blank rfl, blank rfl, by rfl⟩
  have hcall : Padded (callOf "EQUALSor " [" a\t", "'x y' ", "\n"])
      " EQUALSor ( a\t,'x y' ,\n) " := ⟨" ", " ", blank rfl, blank rfl, by rfl⟩
  have hplain : Padded (callOf "eq|" ["a", "'x y'", ""]) "eq|(a,'x y',)" :=
    ⟨"", "", nofun, nofun, by rfl⟩
  have short : Head.ofName? "eq|".toList = some ⟨.equal, some .or⟩ := rfl
  have long : Head.ofName? "EQUALSor ".toList = some ⟨.equal, some .or⟩ := rfl
  have plain := write short (.refl "a") (.refl "'x y'") (.refl "") hplain
  have spelt := write long hname hstring hempty hcall
  have hread : readNode .and "eq|(a,'x y',)".toList = .ok (.group .or false
      [.condition ⟨"a", .equal, .string "x y", .value⟩, .condition (.isNull "a")]) :=
    readNode_of_call rfl rfl rfl
  exact ⟨⟨plain, spelt⟩, congrArg (Except.map _) hread, ofText_spelling plain spelt .and _⟩

end Criteria
