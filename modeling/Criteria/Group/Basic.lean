import Criteria.Condition.Basic

/-! # Groups

A tree of conditions: its inner nodes join their members by a connective, and may be negated. -/
namespace Criteria

inductive Node where
  | condition (c : Condition)
  | group (connective : Connective) (negated : Bool) (members : List Node)
deriving Repr, Inhabited

/-- The root of a tree. -/
structure Group where
  connective : Connective
  negated : Bool
  members : List Node
deriving Repr, Inhabited

namespace Node

mutual

/-- Equality, floats compared as numbers. -/
def same : Node → Node → Bool
  | .condition c, .condition d => c.same d
  | .group c n ms, .group d k ns => c == d && n == k && sameAll ms ns
  | _, _ => false

def sameAll : List Node → List Node → Bool
  | [], [] => true
  | m :: ms, n :: ns => m.same n && sameAll ms ns
  | _, _ => false

end

mutual

/-- The conditions of a tree, from left to right. -/
def conditions : Node → List Condition
  | .condition c => [c]
  | .group _ _ members => allConditions members

def allConditions : List Node → List Condition
  | [] => []
  | n :: ns => n.conditions ++ allConditions ns

end

mutual

/-- The number of nodes. -/
def size : Node → Nat
  | .condition _ => 1
  | .group _ _ members => sizeAll members + 1

def sizeAll : List Node → Nat
  | [] => 0
  | n :: ns => n.size + sizeAll ns

end

theorem sizeAll_append (ms ns : List Node) : sizeAll (ms ++ ns) = sizeAll ms + sizeAll ns := by
  induction ms with
  | nil => simp [sizeAll]
  | cons m ms ih => simp only [List.cons_append, sizeAll, ih]; omega

end Node

namespace Group

def empty (connective : Connective) : Group := ⟨connective, false, []⟩

/-- Groups are a conjunction unless they say otherwise. -/
def default : Group := empty .and

def toNode (g : Group) : Node := .group g.connective g.negated g.members

/-- A condition alone becomes a group of one. -/
def ofNode (connective : Connective) : Node → Group
  | .group c negated members => ⟨c, negated, members⟩
  | .condition c => ⟨connective, false, [.condition c]⟩

def negate (g : Group) : Group := { g with negated := !g.negated }

/-- The group with one more member at the end. -/
def push (g : Group) (member : Node) : Group := { g with members := g.members ++ [member] }

def same (g h : Group) : Bool := g.toNode.same h.toNode

/-- The conditions of a group by recursion on the tree. -/
def conditions (g : Group) : List Condition := Node.allConditions g.members

end Group
end Criteria
