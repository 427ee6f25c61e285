import Criteria.Group.Basic

/-! # Walking the conditions of a group

A walk keeps the nodes that are still to be visited, the next one first. It yields one condition at
a time and opens the groups it meets on the way. -/
namespace Criteria

structure Walk where
  pending : List Node

namespace Walk

/-- The next condition and the walk after it. -/
def next? : Walk → Option (Condition × Walk)
  | ⟨[]⟩ => none
  | ⟨.condition c :: rest⟩ => some (c, ⟨rest⟩)
  | ⟨.group _ _ members :: rest⟩ => next? ⟨members ++ rest⟩
termination_by w => Node.sizeAll w.pending
decreasing_by simp [Node.sizeAll, Node.size, Node.sizeAll_append]

theorem size_next? {w v : Walk} {c : Condition} (h : w.next? = some (c, v)) :
    Node.sizeAll v.pending < Node.sizeAll w.pending := by
  fun_induction next? w with
  | case1 => cases h
  | case2 d rest =>
    cases h
    simp [Node.sizeAll, Node.size]
  | case3 k n members rest ih =>
    have := ih h
    simp only [Node.sizeAll_append] at this
    simp only [Node.sizeAll, Node.size]
    omega

/-- The conditions that are left. -/
def toList (w : Walk) : List Condition :=
  match _ : w.next? with
  | none => []
  | some (c, v) => c :: v.toList
termination_by Node.sizeAll w.pending
decreasing_by exact size_next? ‹_›

end Walk

/-- A walk through all members of a group. -/
def Group.walk (g : Group) : Walk := ⟨g.members⟩

/-- The conditions of a group in the order of a walk. -/
def Group.leaves (g : Group) : List Condition := g.walk.toList

end Criteria
