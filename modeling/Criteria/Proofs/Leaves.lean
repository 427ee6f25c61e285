import Criteria.Group.Leaves
import Criteria.Proofs.GroupText

/-! # The conditions of a tree in their order

A walk visits the conditions of a tree in the order of the recursion. Where each condition is read
from its text as a node with some run of conditions, a whole tree is read as one with these runs in
the same order: groups that vanish, are negated or take another connective move none of them. -/
namespace Criteria
open Text

/-! ## Walks -/

theorem Node.allConditions_append (ms ns : List Node) :
    allConditions (ms ++ ns) = allConditions ms ++ allConditions ns := by
  induction ms with
  | nil => rfl
  | cons m ms ih => rw [List.cons_append, allConditions, allConditions, ih, List.append_assoc]

/-- One step of a walk takes the first of the conditions that are left. -/
theorem Walk.allConditions_next? (w : Walk) : Node.allConditions w.pending =
    match w.next? with
    | none => []
    | some (c, v) => c :: Node.allConditions v.pending := by
  fun_induction next? w with
  | case1 => rfl
  | case2 c rest => rfl
  | case3 k negated members rest ih =>
    rw [← ih, Node.allConditions_append]
    rfl

theorem Walk.toList_eq (w : Walk) : w.toList = Node.allConditions w.pending := by
  fun_induction toList w with
  | case1 w h => rw [allConditions_next?, h]
  | case2 w c v h ih => rw [allConditions_next?, h, ih]

theorem Group.leaves_eq (g : Group) : g.leaves = g.conditions := Walk.toList_eq _

namespace Walk

/-- One call of a walk: the next condition, if there is one left, and the walk after the call. -/
def pull : Walk → Option Condition × Walk
  | ⟨[]⟩ => (none, ⟨[]⟩)
  | ⟨.condition c :: rest⟩ => (some c, ⟨rest⟩)
  | ⟨.group _ _ members :: rest⟩ => pull ⟨members ++ rest⟩
termination_by w => Node.sizeAll w.pending
decreasing_by simp [Node.sizeAll, Node.size, Node.sizeAll_append]

/-- The walk after a number of calls. -/
def after (w : Walk) : Nat → Walk
  | 0 => w
  | n + 1 => w.pull.2.after n

theorem after_succ (w : Walk) (n : Nat) : w.after (n + 1) = (w.after n).pull.2 := by
  induction n generalizing w with
  | zero => rfl
  | succ n ih => exact ih w.pull.2

theorem next?_eq_pull (w : Walk) : w.next? = w.pull.1.map fun c => (c, w.pull.2) := by
  fun_induction pull w with
  | case1 => rw [next?, Option.map_none]
  | case2 c rest => rw [next?, Option.map_some]
  | case3 k negated members rest ih => rw [next?, ih]

/-- A call takes the first of the conditions that are left and leaves the others, also where it
opens groups that have none. -/
theorem pull_spec (w : Walk) : w.pull.1 = (Node.allConditions w.pending).head? ∧
    Node.allConditions w.pull.2.pending = (Node.allConditions w.pending).tail := by
  fun_induction pull w with
  | case1 => exact ⟨rfl, rfl⟩
  | case2 c rest => exact ⟨rfl, rfl⟩
  | case3 k negated members rest ih =>
    rw [Node.allConditions_append] at ih
    exact ih

theorem pull_after (w : Walk) (n : Nat) :
    (w.after n).pull.1 = (Node.allConditions w.pending)[n]? := by
  induction n generalizing w with
  | zero => rw [after, w.pull_spec.1, List.head?_eq_getElem?]
  | succ n ih => rw [after, ih, w.pull_spec.2, List.getElem?_tail]

end Walk

theorem Node.allConditions_eq (ns : List Node) : allConditions ns = ns.flatMap conditions := by
  induction ns with
  | nil => rfl
  | cons n ns ih => rw [allConditions, ih, List.flatMap_cons]

/-- The leaves of a group are those of its members, one member after the other. The calls of a walk
yield them in this order, each of them once, and every call after the last yields none. -/
theorem Group.leaves_in_order (g : Group) : g.leaves = g.members.flatMap Node.conditions ∧
    ∀ n, (g.walk.after n).pull.1 = g.leaves[n]? ∧
      (g.walk.after n).next? = g.leaves[n]?.map fun c => (c, g.walk.after (n + 1)) := by
  rw [leaves_eq, conditions]
  refine ⟨Node.allConditions_eq g.members, fun n => ?_⟩
  have hpull := g.walk.pull_after n
  refine ⟨hpull, ?_⟩
  rw [Walk.next?_eq_pull, hpull, Walk.after_succ]
  rfl

/-! ## Runs -/

/-- The second list is cut into runs, one for each member of the first list and in the same
order. -/
inductive Runs {α β : Type} (R : α → List β → Prop) : List α → List β → Prop
  | nil : Runs R [] []
  | cons {x : α} {run : List β} {xs : List α} {ys : List β} : R x run → Runs R xs ys →
      Runs R (x :: xs) (run ++ ys)

namespace Runs
variable {α β : Type} {R : α → List β → Prop} {xs xs' : List α} {ys ys' : List β}

theorem single {x : α} {run : List β} (h : R x run) : Runs R [x] run := by
  have := Runs.cons h .nil
  rwa [List.append_nil] at this

theorem append (h : Runs R xs ys) (h' : Runs R xs' ys') : Runs R (xs ++ xs') (ys ++ ys') := by
  induction h with
  | nil => exact h'
  | cons hx _ ih =>
    rw [List.append_assoc]
    exact .cons hx ih

theorem mono {S : α → List β → Prop} (h : Runs R xs ys) (hS : ∀ x run, R x run → S x run) :
    Runs S xs ys := by
  induction h with
  | nil => exact .nil
  | cons hx _ ih => exact .cons (hS _ _ hx) ih

/-- What every run has for its members, the whole list has. -/
theorem forall_mem {P : β → Prop} (h : Runs R xs ys) (hP : ∀ x run, R x run → ∀ y ∈ run, P y) :
    ∀ y ∈ ys, P y := by
  induction h with
  | nil => simp
  | cons hx _ ih =>
    intro y hy
    rcases List.mem_append.mp hy with hy | hy
    · exact hP _ _ hx y hy
    · exact ih y hy

/-- Runs of one member each pair the lists off. -/
theorem forall₂ {S : α → β → Prop} (h : Runs (fun x run => ∃ y, run = [y] ∧ S x y) xs ys) :
    List.Forall₂ S xs ys := by
  induction h with
  | nil => exact .nil
  | cons hx _ ih =>
    obtain ⟨y, rfl, hs⟩ := hx
    exact .cons hs ih

end Runs

/-! ## Reading a tree condition by condition -/

namespace Node

/-- Every group of the tree has a member. -/
inductive Populated : Node → Prop
  | condition (c : Condition) : Populated (.condition c)
  | group {k : Connective} {negated : Bool} {members : List Node} : members ≠ [] →
      (∀ m ∈ members, m.Populated) → Populated (.group k negated members)

theorem conditions_negation (k : Connective) (n : Node) :
    (n.negation k).conditions = n.conditions := by
  cases n with
  | condition c => simp [negation, conditions, allConditions]
  | group c negated members => rfl

theorem allConditions_map (ds : List Condition) : allConditions (ds.map .condition) = ds := by
  induction ds with
  | nil => rfl
  | cons d ds ih =>
    rw [List.map_cons, allConditions, ih]
    rfl

theorem runs_allConditions {R : Condition → List Condition → Prop} {ms ns : List Node}
    (h : List.Forall₂ (fun m n => Runs R m.conditions n.conditions) ms ns) :
    Runs R (allConditions ms) (allConditions ns) := by
  induction h with
  | nil => exact .nil
  | cons hmn _ ih => exact hmn.append ih

/-- If each condition is read as a node with a run of conditions, so is the tree. -/
theorem Populated.exists_runs {types : FieldTypes} {R : Condition → List Condition → Prop}
    {n : Node} (hn : n.Populated) (hl : n.All Condition.Legible)
    (h : ∀ c ∈ n.conditions, ∀ k, ∃ m, readNode k (c.write types) = .ok m ∧ R c m.conditions)
    (k : Connective) :
    ∃ m, readNode k (n.write types) = .ok m ∧ Runs R n.conditions m.conditions := by
  induction hn generalizing k with
  | condition c =>
    obtain ⟨m, hm, hr⟩ := h c (mem_conditions_condition.mpr rfl) k
    exact ⟨m, hm, .single hr⟩
  | @group c negated members hne _ ih =>
    have hl := all_group.mp hl
    have member : ∀ m ∈ members, ∀ k, ∃ n, readNode k (m.write types) = .ok n ∧
        Runs R m.conditions n.conditions := by
      intro m hm
      exact ih m hm (hl m hm) fun d hd => h d (mem_conditions_group.mpr ⟨m, hm, hd⟩)
    by_cases h1 : members.length = 1
    · -- the group of one member vanishes
      obtain ⟨m, rfl⟩ := List.length_eq_one_iff.mp h1
      obtain ⟨n, hn, hr⟩ := member m (List.mem_singleton.mpr rfl) k
      refine ⟨_, read_one c negated (hl m (List.mem_singleton.mpr rfl)) hn, ?_⟩
      have hc : (Node.group c negated [m]).conditions = m.conditions := by
        simp [conditions, allConditions]
      rw [hc]
      cases negated with
      | false => exact hr
      | true => rwa [if_pos rfl, conditions_negation]
    · have h2 : 2 ≤ members.length := by
        have := List.length_pos_of_ne_nil hne
        omega
      obtain ⟨ns, hns, hr⟩ := read_group k c negated h2 hl fun m hm => member m hm c
      exact ⟨_, hns, runs_allConditions hr⟩

end Node

theorem Group.conditions_ofNode (k : Connective) (n : Node) :
    (Group.ofNode k n).conditions = n.conditions := by
  cases n with
  | condition c => simp [ofNode, conditions, Node.conditions, Node.allConditions]
  | group c negated members => rfl

/-- If each condition of a tree is read as a node with a run of conditions, the tree is read as one
with these runs for its leaves. -/
theorem Group.exists_runs (types : FieldTypes) {R : Condition → List Condition → Prop} {t : Group}
    (ht : t.toNode.Populated) (hl : ∀ c ∈ t.leaves, c.Legible)
    (h : ∀ c ∈ t.leaves, ∀ k, ∃ m, readNode k (c.write types) = .ok m ∧ R c m.conditions)
    (d : Connective) :
    ∃ t', Group.ofText (t.toText types) d = .ok t' ∧ Runs R t.leaves t'.leaves := by
  rw [leaves_eq] at hl h ⊢
  obtain ⟨m, hm, hr⟩ := ht.exists_runs hl h d
  refine ⟨_, ofText_of_readNode hm, ?_⟩
  rwa [leaves_eq, conditions_ofNode]

end Criteria
