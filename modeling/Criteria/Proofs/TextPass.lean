import Criteria.Proofs.WellFormed

/-! # A pass through text

The tree of a proposition is written and read again. Groups of one member and double negations
vanish, but the conditions come back one for one, in their order. -/
namespace Criteria
open Text

/-- What comes back for a value: a float whose text is that of an integer comes back as the
integer, any other constant as itself, and a list item by item. -/
inductive Value.ComesBack : Value → Value → Prop
  | whole {x : Binary64} {n : Int64} : floatText x = intText n → ComesBack (.float x) (.int n)
  | same {v : Value} : v.items? = none → (∀ x n, v = .float x → floatText x ≠ intText n) →
      ComesBack v v
  | list {vs ws : List Value} : List.Forall₂ ComesBack vs ws → ComesBack (.array vs) (.array ws)

/-- What comes back for a condition has the same field, operator and source. -/
structure Condition.ComesBack (c d : Condition) : Prop where
  field : d.field = c.field
  operator : d.operator = c.operator
  source : d.source = c.source
  value : c.value.ComesBack d.value

/-- A float that is read as itself has not the text of an integer. -/
theorem Value.floatText_ne_intText {x : Binary64}
    (h : Numeral.number? (floatText x) = some (.float x)) (n : Int64) :
    floatText x ≠ intText n := by
  intro he
  rw [he, Numeral.number?_intText] at h
  cases h

theorem Value.IsScalar.exists_comesBack {v : Value} (h : v.IsScalar) :
    ∃ w, v.ComesBack w ∧ Spells (v.render none .value) w ∧ (v ≠ .null → w ≠ .null) := by
  have unchanged : ∀ {v : Value}, v.IsExact → (∀ x n, v = .float x → floatText x ≠ intText n) →
      ∃ w, v.ComesBack w ∧ Spells (v.render none .value) w ∧ (v ≠ .null → w ≠ .null) := by
    intro v hv hne
    exact ⟨v, .same hv.isScalar.items? hne, hv.render_spells, id⟩
  cases v with
  | null => exact unchanged trivial nofun
  | int n => exact unchanged trivial nofun
  | string s => exact unchanged trivial nofun
  | float x =>
    rcases Binary64.number?_floatText h with hx | ⟨_, n, hn, ht⟩
    · refine ⟨.float x, .same rfl ?_, .number hx, id⟩
      intro y n he
      cases he
      exact floatText_ne_intText hx n
    · exact ⟨.int n, .whole ht.symm, .number hn, nofun⟩
  | bool b => exact h.elim
  | array items => exact h.elim

theorem Condition.Rewrites.comesBack {c d : Condition} (h : Rewrites Value.ComesBack c d) :
    c.ComesBack d := by
  cases h with
  | same hv =>
    refine ⟨rfl, rfl, rfl, .same ?_ ?_⟩
    · rcases hv with hv | ⟨s, hv⟩ <;> rw [hv] <;> rfl
    · intro x n he
      rcases hv with hv | ⟨s, hv⟩ <;> rw [hv] at he <;> cases he
  | comparison _ hv => exact ⟨rfl, rfl, rfl, hv⟩
  | isIn hv => exact ⟨rfl, rfl, rfl, .list hv⟩

theorem Condition.Regular.read_comesBack {c : Condition} (h : c.Regular Value.IsScalar)
    (k : Connective) :
    ∃ d, readNode k (c.write .untyped) = .ok (.condition d) ∧ c.ComesBack d := by
  obtain ⟨d, hd, hr⟩ := Regular.read (R := Value.ComesBack) h k .untyped (fun v hv => hv.items?)
    fun v hv => hv.exists_comesBack
  exact ⟨d, hd, hr.comesBack⟩

/-- What was read from some text is written as a text that is read again, and its conditions come
back in their order: none is lost, doubled or moved. -/
theorem Group.exists_same_leaves {text : String} {d : Connective} {t : Group}
    (h : Group.ofText text d = .ok t) (k : Connective) :
    ∃ t', Group.ofText (t.toText .untyped) k = .ok t' ∧
      List.Forall₂ Condition.ComesBack t.leaves t'.leaves := by
  have hs := sound_of_ofText h
  have regular : ∀ c ∈ t.leaves, c.Regular Value.IsScalar := by
    intro c hc
    rw [leaves_eq] at hc
    exact hs.regular c hc
  have single : ∀ c ∈ t.leaves, ∀ k, ∃ m, readNode k (c.write .untyped) = .ok m ∧
      ∃ d, m.conditions = [d] ∧ c.ComesBack d := by
    intro c hc k
    obtain ⟨d, hd, hcd⟩ := (regular c hc).read_comesBack k
    exact ⟨_, hd, d, rfl, hcd⟩
  obtain ⟨t', ht', hr⟩ := exists_runs .untyped
    (R := fun c run => ∃ d, run = [d] ∧ c.ComesBack d) hs.populated
    (fun c hc => (regular c hc).legible) single k
  exact ⟨t', ht', hr.forall₂⟩

theorem Group.exists_same_leaves_whole : ∃ t,
    Group.ofText "not(not(in(name,1.0,'x'))),and(eqor(1e2,null,-0.0))" .xor = .ok t ∧
      t.leaves = [.isIn "name" [.float (.ofDecimal false 10 (-1)), .string "x"], .isNull "1e2",
        .constant "-0.0" .equal (.float (.ofDecimal false 1 2))] ∧
      ∃ t', Group.ofText (t.toText .untyped) .and = .ok t' ∧
        List.Forall₂ Condition.ComesBack t.leaves t'.leaves := by
  have hin : readNode .xor "in(name,1.0,'x')".toList = .ok (.condition
      (.isIn "name" [.float (.ofDecimal false 10 (-1)), .string "x"])) :=
    readNode_of_call rfl rfl rfl
  have hnot : readNode .xor "not(in(name,1.0,'x'))".toList = .ok (.group .xor true
      [.condition (.isIn "name" [.float (.ofDecimal false 10 (-1)), .string "x"])]) :=
    readNode_of_negation hin rfl rfl
  have hnotnot : readNode .xor "not(not(in(name,1.0,'x')))".toList = .ok (.group .xor false
      [.condition (.isIn "name" [.float (.ofDecimal false 10 (-1)), .string "x"])]) :=
    readNode_of_negation hnot rfl rfl
  have hequal : readNode .and "eqor(1e2,null,-0.0)".toList = .ok (.group .or false
      [.condition (.isNull "1e2"),
        .condition (.constant "-0.0" .equal (.float (.ofDecimal false 1 2)))]) :=
    readNode_of_call rfl rfl rfl
  have hand : readNode .xor "and(eqor(1e2,null,-0.0))".toList = .ok (.group .and false
      [.group .or false [.condition (.isNull "1e2"),
        .condition (.constant "-0.0" .equal (.float (.ofDecimal false 1 2)))]]) :=
    readNode_of_join (readAll_cons hequal rfl) rfl rfl rfl nofun
  have hread : Group.ofText "not(not(in(name,1.0,'x'))),and(eqor(1e2,null,-0.0))" .xor = .ok _ :=
    congrArg (Except.map _) (readNode_of_list (readAll_cons hnotnot (readAll_cons hand rfl)) rfl)
  exact ⟨_, hread, leaves_eq _, Group.exists_same_leaves hread .and⟩

end Criteria
