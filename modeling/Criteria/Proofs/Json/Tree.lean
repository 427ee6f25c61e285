import Criteria.Group.Json
import Criteria.Proofs.Json.Text
import Criteria.Proofs.Leaves

/-! # Trees survive JSON

A tree whose floats are finite is read back from its JSON text as it was written, unless the text
nests deeper than a reader accepts. -/
namespace Criteria

/-! ## Depth -/

namespace Json

mutual

/-- How many arrays and objects stand in each other. -/
def depth : Json → Nat
  | .array items => depthAll items + 1
  | .object members => depthMembers members + 1
  | _ => 0

def depthAll : List Json → Nat
  | [] => 0
  | j :: js => max j.depth (depthAll js)

def depthMembers : List (String × Json) → Nat
  | [] => 0
  | (_, j) :: ms => max j.depth (depthMembers ms)

end

theorem depthAll_le_iff {js : List Json} {n : Nat} :
    depthAll js ≤ n ↔ ∀ j ∈ js, j.depth ≤ n := by
  induction js with
  | nil => simp [depthAll]
  | cons j js ih => simp [depthAll, ih]

theorem depthMembers_le_iff {ms : List (String × Json)} {n : Nat} :
    depthMembers ms ≤ n ↔ ∀ m ∈ ms, m.2.depth ≤ n := by
  induction ms with
  | nil => simp [depthMembers]
  | cons m ms ih => simp [depthMembers, ih]

theorem allWithin_iff {js : List Json} {n : Nat} :
    allWithin js n = true ↔ ∀ j ∈ js, j.within n = true := by
  induction js with
  | nil => simp [allWithin]
  | cons j js ih => simp [allWithin, ih]

theorem membersWithin_iff {ms : List (String × Json)} {n : Nat} :
    membersWithin ms n = true ↔ ∀ m ∈ ms, m.2.within n = true := by
  induction ms with
  | nil => simp [membersWithin]
  | cons m ms ih => simp [membersWithin, ih]

/-- What is written nests as deep as its depth says. -/
theorem Written.within {j : Json} (h : j.Written) {n : Nat} (hd : j.depth ≤ n) :
    j.within n = true := by
  induction h generalizing n with
  | null => simp [Json.within]
  | bool b => simp [Json.within]
  | int i => simp [Json.within]
  | float h => simp [Json.within]
  | string s => simp [Json.within]
  | @array items h ih =>
    obtain ⟨n, rfl⟩ := Nat.exists_eq_add_one_of_ne_zero (n := n) (by simp [depth] at hd; omega)
    rw [Json.within, allWithin_iff]
    rw [depth, Nat.add_le_add_iff_right, depthAll_le_iff] at hd
    exact fun j hj => ih j hj (hd j hj)
  | @object members h ih =>
    obtain ⟨n, rfl⟩ := Nat.exists_eq_add_one_of_ne_zero (n := n) (by simp [depth] at hd; omega)
    rw [Json.within, membersWithin_iff]
    rw [depth, Nat.add_le_add_iff_right, depthMembers_le_iff] at hd
    exact fun m hm => ih m hm (hd m hm)

end Json

/-! ## Values -/

namespace Value

/-- Every float in the value is a finite number. -/
inductive IsFinite : Value → Prop
  | null : IsFinite .null
  | int (n : Int64) : IsFinite (.int n)
  | float {x : Binary64} (h : x.isFinite = true) : IsFinite (.float x)
  | bool (b : Bool) : IsFinite (.bool b)
  | string (s : String) : IsFinite (.string s)
  | array {items : List Value} (h : ∀ v ∈ items, v.IsFinite) : IsFinite (.array items)

theorem toJsons_eq (vs : List Value) : toJsons vs = vs.map toJson := by
  induction vs with
  | nil => rfl
  | cons v vs ih => rw [toJsons, ih, List.map_cons]

theorem ofJsons?_map {vs : List Value} (h : ∀ v ∈ vs, ofJson? v.toJson = some v) :
    ofJsons? (vs.map toJson) = some vs := by
  induction vs with
  | nil => rfl
  | cons v vs ih =>
    rw [List.map_cons, ofJsons?, h v List.mem_cons_self,
      ih fun w hw => h w (List.mem_cons_of_mem _ hw)]
    rfl

namespace IsFinite
variable {v : Value}

theorem written (h : v.IsFinite) : v.toJson.Written := by
  induction h with
  | null => exact .null
  | int n => exact .int n
  | float h =>
    rw [toJson, if_pos h]
    exact .float h
  | bool b => exact .bool b
  | string s => exact .string s
  | array h ih =>
    rw [toJson, toJsons_eq]
    refine .array fun j hj => ?_
    obtain ⟨w, hw, rfl⟩ := List.mem_map.mp hj
    exact ih w hw

theorem ofJson?_toJson (h : v.IsFinite) : ofJson? v.toJson = some v := by
  induction h with
  | null => rfl
  | int n => rfl
  | float h =>
    rw [toJson, if_pos h]
    rfl
  | bool b => rfl
  | string s => rfl
  | array h ih =>
    rw [toJson, toJsons_eq, ofJson?, ofJsons?_map ih]
    rfl

end IsFinite
end Value

/-! ## Conditions -/

theorem Connective.ofName?_name (c : Connective) : ofName? c.name = some c := by
  cases c <;> rfl

theorem Operator.ofName?_name (o : Operator) : ofName? o.name = some o := by
  cases o <;> decide

theorem Source.ofName?_name (s : Source) : ofName? s.name = some s := by
  cases s <;> rfl

namespace Condition

theorem written (c : Condition) (h : c.value.IsFinite) : c.toJson.Written := by
  refine .object fun m hm => ?_
  simp only [List.mem_cons, List.not_mem_nil, or_false] at hm
  rcases hm with rfl | rfl | rfl | rfl
  · exact .string _
  · exact .string _
  · exact h.written
  · exact .string _

theorem fields?_toJson (c : Condition) : c.toJson.fields? jsonKeys =
    some [some (.string c.field), some (.string c.operator.name), some c.value.toJson,
      some (.string c.source.name)] := by
  simp [toJson, Json.fields?, jsonKeys, Json.named]

theorem ofJson?_toJson (c : Condition) (h : c.value.IsFinite) : ofJson? c.toJson = some c := by
  rw [ofJson?, fields?_toJson]
  simp [Json.word?, Json.readOr, Operator.ofName?_name, Source.ofName?_name, h.ofJson?_toJson]

end Condition

/-! ## Groups -/

namespace Node
variable {k : Connective} {negated : Bool}

theorem toJsons_eq (ns : List Node) : toJsons ns = ns.map toJson := by
  induction ns with
  | nil => rfl
  | cons n ns ih => rw [toJsons, ih, List.map_cons]

theorem written {n : Node} (h : n.All fun c => c.value.IsFinite) : n.toJson.Written := by
  induction n using induct with
  | condition c => exact c.written (h c (mem_conditions_condition.mpr rfl))
  | group k negated members ih =>
    refine .object fun m hm => ?_
    simp only [List.mem_cons, List.not_mem_nil, or_false] at hm
    rcases hm with rfl | rfl | rfl
    · exact .string _
    · exact .bool _
    · rw [toJsons_eq]
      refine .array fun j hj => ?_
      obtain ⟨m, hm, rfl⟩ := List.mem_map.mp hj
      exact ih m hm (all_group.mp h m hm)

theorem groupFields?_groupJson (members : List Json) :
    groupFields? (groupJson k negated members) = some (k, negated, members) := by
  have hfields : (groupJson k negated members).fields? Group.jsonKeys =
      some [some (.string k.name), some (.bool negated), some (.array members)] := by
    simp [groupJson, Json.fields?, Group.jsonKeys, Json.named]
  rw [groupFields?, hfields]
  simp [Json.word?, Json.readOr, Json.bool?, Connective.ofName?_name]

/-- The record of a condition has no field of a group, so it is not taken for one. -/
theorem groupFields?_condition (c : Condition) : groupFields? c.toJson = none := by
  have hfields : c.toJson.fields? Group.jsonKeys = some [none, none, none] := by
    simp [Condition.toJson, Json.fields?, Group.jsonKeys, Json.named]
  rw [groupFields?, hfields]
  rfl

theorem mapM_ofJson? {levels : Nat} {ns : List Node}
    (h : ∀ n ∈ ns, ofJson? levels n.toJson = some n) :
    (toJsons ns).mapM (ofJson? levels) = some ns := by
  rw [toJsons_eq]
  induction ns with
  | nil => rfl
  | cons n ns ih =>
    rw [List.map_cons, List.mapM_cons, h n List.mem_cons_self,
      ih fun m hm => h m (List.mem_cons_of_mem _ hm)]
    rfl

/-- A group is two levels deep around its members. -/
theorem depth_of_mem {b : Bool} {members : List Node} {m : Node} (h : m ∈ members) :
    m.toJson.depth + 2 ≤ (group k b members).toJson.depth := by
  have hall : m.toJson.depth ≤ Json.depthAll (toJsons members) := by
    rw [toJsons_eq]
    exact Json.depthAll_le_iff.mp (Nat.le_refl _) _ (List.mem_map_of_mem h)
  simp only [toJson, groupJson, Json.depth, Json.depthMembers]
  omega

theorem ofJson?_toJson {n : Node} {levels : Nat} (h : n.All fun c => c.value.IsFinite)
    (hd : n.toJson.depth ≤ levels) : ofJson? levels n.toJson = some n := by
  induction n using induct generalizing levels with
  | condition c =>
    have hc := c.ofJson?_toJson (h c (mem_conditions_condition.mpr rfl))
    cases levels with
    | zero => rw [toJson, ofJson?, hc, Option.map_some]
    | succ levels => rw [toJson, ofJson?, groupFields?_condition, hc, Option.map_some]
  | group k negated members ih =>
    cases levels with
    | zero => simp [toJson, groupJson, Json.depth] at hd
    | succ levels =>
      have hmembers : (toJsons members).mapM (ofJson? levels) = some members := by
        refine mapM_ofJson? fun m hm => ih m hm (all_group.mp h m hm) ?_
        have := depth_of_mem (k := k) (b := negated) hm
        omega
      rw [toJson, ofJson?, groupFields?_groupJson]
      simp only [hmembers]

end Node

namespace Group
variable {t : Group}

theorem only_toJson (t : Group) : t.toJson.only jsonKeys = t.toJson := by
  simp [toJson, toNode, Node.toJson, Node.groupJson, Json.only, jsonKeys]

/-- A group whose floats are finite is read back from its JSON text, as long as the text nests no
deeper than a reader accepts. -/
theorem ofJsonText?_toJsonText (hf : ∀ c ∈ t.leaves, c.value.IsFinite)
    (hd : t.toJson.depth ≤ 127) : ofJsonText? t.toJsonText = some t := by
  rw [leaves_eq] at hf
  have hall : t.toNode.All fun c => c.value.IsFinite := hf
  have hw : t.toJson.Written := Node.written hall
  have hwithin : t.toJson.within Json.maxLevels = true := hw.within hd
  have hmembers : (Node.toJsons t.members).mapM (Node.ofJson? Json.maxLevels) = some t.members := by
    refine Node.mapM_ofJson? fun m hm => Node.ofJson?_toJson (Node.all_group.mp hall m hm) ?_
    have hm' := Node.depth_of_mem (k := t.connective) (b := t.negated) hm
    exact Nat.le_trans (Nat.le_of_add_right_le hm') hd
  have hread : ofJson? t.toJson = some t := by
    simp [ofJson?, toJson, toNode, Node.toJson, Node.groupFields?_groupJson, hmembers]
  simp [ofJsonText?, toJsonText, hw.ofText?_toText, only_toJson, hwithin, hread]

theorem ofJsonText?_toJsonText_whole : ∃ t : Group,
    t = ⟨.xor, true,
      [.group .or false [],
      .condition (.constant "a\"\n\u0001" .isIn (.array [.array [], .int 0,
        .float (.ofBits 0x8000000000000000), .float (.ofBits 0x4341C37937E08000)])),
      .condition (.againstField "b" .notBetween "\\é")]⟩ ∧
    ofJsonText? t.toJsonText = some t := by
  refine ⟨_, rfl, ofJsonText?_toJsonText ?_ (by decide)⟩
  intro c hc
  rw [leaves_eq] at hc
  rcases List.mem_cons.mp hc with rfl | hc
  · refine .array fun v hv => ?_
    simp only [List.mem_cons, List.not_mem_nil, or_false] at hv
    rcases hv with rfl | rfl | rfl | rfl
    · exact .array nofun
    · exact .int 0
    · exact .float (by decide)
    · exact .float (by decide)
  · cases List.mem_singleton.mp hc
    exact .string _

end Group
end Criteria
