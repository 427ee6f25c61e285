import Mathlib
import Criteria.Text.Slots

/-! # How slots are filled

A split cuts its text from both ends towards the middle. After every step the slots that are filled,
the separators beside them and the text that is left join to the whole text, and before the last
step one slot is free. A split from the other ends is the split of the text read backwards. -/
namespace Criteria.Text

/-! ## The first separator -/

section
variable {sep : Char} {cs a b : List Char}

theorem cutFirst_append {cs : List Char} (ds : List Char) (h : sep ∉ cs) :
    cutFirst sep (cs ++ sep :: ds) = some (cs, ds) := by
  induction cs with
  | nil => simp [cutFirst]
  | cons c cs ih =>
    obtain ⟨hc, hcs⟩ := List.ne_and_not_mem_of_not_mem_cons h
    simp [cutFirst, Ne.symm hc, ih hcs]

theorem not_mem_of_cutFirst (h : cutFirst sep cs = some (a, b)) : sep ∉ a := by
  induction cs generalizing a with
  | nil => cases h
  | cons c cs ih =>
    simp only [cutFirst] at h
    split at h
    · cases h
      exact List.not_mem_nil
    · rename_i hc
      obtain ⟨p, hp, he⟩ := Option.map_eq_some_iff.mp h
      obtain ⟨rfl, rfl⟩ := Prod.mk.inj he
      exact List.not_mem_cons_of_ne_of_not_mem (Ne.symm hc) (ih hp)

end

namespace Slots
variable {s : Slots} {sep : Option Char} {n k step : Nat} {cs : List Char}

/-! ## One cut -/

/-- The separator, if the text has it. -/
def gap (sep : Option Char) (cs : List Char) : List Char := sep.toList.filter (· ∈ cs)

theorem gap_found {c : Char} (h : c ∈ cs) : gap (some c) cs = [c] := by simp [gap, h]

theorem gap_reverse (sep : Option Char) (cs : List Char) : gap sep cs.reverse = gap sep cs := by
  simp [gap]

theorem reverse_gap (sep : Option Char) (cs : List Char) : (gap sep cs).reverse = gap sep cs := by
  cases sep with
  | none => rfl
  | some c => by_cases h : c ∈ cs <;> simp [gap, h]

/-- What is cut off a text: a part without the separator, and the rest behind the separator. A part
that has no separator behind it is the whole text. -/
structure CutsOff (sep : Option Char) (cs part rest : List Char) : Prop where
  joined : cs = part ++ gap sep cs ++ rest
  free : ∀ c ∈ sep, c ∉ part
  whole : gap sep cs = [] → rest = []

theorem cutFront_cutsOff (sep : Option Char) (cs : List Char) :
    CutsOff sep cs (cutFront sep cs).1 (cutFront sep cs).2 := by
  unfold cutFront
  cases sep with
  | none => exact ⟨by simp [gap], nofun, fun _ => rfl⟩
  | some c =>
    rw [Option.bind_some]
    cases hc : cutFirst c cs with
    | none =>
      have hm := cutFirst_eq_none_iff.mp hc
      refine ⟨by simp [gap, hm], fun d hd => ?_, fun _ => rfl⟩
      cases hd
      exact hm
    | some p =>
      have he := cutFirst_eq hc
      have hg : gap (some c) cs = [c] := gap_found (by rw [he]; simp)
      refine ⟨by rw [hg]; simpa using he, fun d hd => ?_, by rw [hg]; nofun⟩
      cases hd
      exact not_mem_of_cutFirst hc

theorem cutBack_eq (sep : Option Char) (cs : List Char) : cutBack sep cs =
    ((cutFront sep cs.reverse).2.reverse, (cutFront sep cs.reverse).1.reverse) := by
  unfold cutBack cutFront
  cases sep with
  | none => simp
  | some c => cases h : cutFirst c cs.reverse <;> simp [cutLast, h]

/-- A cut at the back is one at the front of the text read backwards. -/
theorem cutBack_cutsOff (sep : Option Char) (cs : List Char) :
    CutsOff sep cs.reverse (cutBack sep cs).2.reverse (cutBack sep cs).1.reverse := by
  simpa [cutBack_eq] using cutFront_cutsOff sep cs.reverse

theorem cutBack_joined (sep : Option Char) (cs : List Char) :
    cs = (cutBack sep cs).1 ++ gap sep cs ++ (cutBack sep cs).2 := by
  have h := congrArg List.reverse (cutBack_cutsOff sep cs).joined
  simpa [gap_reverse, reverse_gap] using h

theorem cutBack_whole (h : gap sep cs = []) : (cutBack sep cs).1 = [] := by
  simpa using (cutBack_cutsOff sep cs).whole ((gap_reverse sep cs).trans h)

/-- The part that a step cuts off, and the text that it leaves. -/
def cut (s : Slots) (step : Nat) (cs : List Char) : List Char × List Char :=
  if s.atStart step then cutFront (s.separator? step) cs
  else (cutBack (s.separator? step) cs).swap

theorem peel_succ (s : Slots) (n step : Nat) (cs : List Char) : s.peel (n + 1) step cs =
    if s.atStart step then (s.cut step cs).1 :: s.peel n (step + 1) (s.cut step cs).2
    else s.peel n (step + 1) (s.cut step cs).2 ++ [(s.cut step cs).1] := by
  rw [peel]
  split <;> simp [cut, *]

theorem cut_nil (s : Slots) (step : Nat) : s.cut step [] = ([], []) := by
  unfold cut
  cases s.separator? step <;> cases s.atStart step <;> rfl

theorem free_cut (s : Slots) (step : Nat) (cs : List Char) :
    ∀ c ∈ s.separator? step, c ∉ (s.cut step cs).1 := by
  unfold cut
  split
  · exact (cutFront_cutsOff _ cs).free
  · simpa using (cutBack_cutsOff _ cs).free

/-- Without a separator nothing is left. -/
theorem left_cut (h : gap (s.separator? step) cs = []) : (s.cut step cs).2 = [] := by
  unfold cut
  split
  · exact (cutFront_cutsOff _ cs).whole h
  · exact cutBack_whole h

theorem joined_cut_front (cs : List Char) (hs : s.atStart step = true) :
    cs = (s.cut step cs).1 ++ gap (s.separator? step) cs ++ (s.cut step cs).2 := by
  rw [cut, if_pos hs]
  exact (cutFront_cutsOff _ cs).joined

theorem joined_cut_back (cs : List Char) (hs : s.atStart step = false) :
    cs = (s.cut step cs).2 ++ gap (s.separator? step) cs ++ (s.cut step cs).1 := by
  rw [cut, if_neg (by simp [hs])]
  exact cutBack_joined _ cs

/-! ## The two ends -/

/-- The first free slot before a step. -/
def front (s : Slots) : Nat → Nat
  | 0 => 0
  | step + 1 => if s.atStart step then s.front step + 1 else s.front step

/-- The last free slot before a step. -/
def back (s : Slots) : Nat → Nat
  | 0 => s.size - 1
  | step + 1 => if s.atStart step then s.back step else s.back step - 1

/-- The slot that a step fills: a free one at the end where it cuts, and the first one in the last
step. -/
def slot (s : Slots) (step : Nat) : Nat :=
  if step + 1 = s.size ∨ s.atStart step then s.front step else s.back step

/-- The steps before one that cut at the start, in turn. -/
def starts (s : Slots) (step : Nat) : List Nat := (List.range step).filter fun i => s.atStart i

/-- The steps before one that cut at the end, the last one first. -/
def finishes (s : Slots) (step : Nat) : List Nat :=
  ((List.range step).filter fun i => !s.atStart i).reverse

/-- The steps in the order of the slots that they fill, if `n` is the last one. -/
def order (s : Slots) (n : Nat) : List Nat := s.starts n ++ n :: s.finishes n

/-- The steps in the order of the separators that they cut at. -/
def cuts (s : Slots) (n : Nat) : List Nat := s.starts n ++ s.finishes n

theorem starts_succ (s : Slots) (step : Nat) :
    s.starts (step + 1) = if s.atStart step then s.starts step ++ [step] else s.starts step := by
  rw [starts, List.range_succ, List.filter_append]
  split <;> simp [starts, *]

theorem finishes_succ (s : Slots) (step : Nat) : s.finishes (step + 1) =
    if s.atStart step then s.finishes step else step :: s.finishes step := by
  rw [finishes, List.range_succ, List.filter_append, List.reverse_append]
  split <;> simp [finishes, *]

theorem cuts_perm (s : Slots) (n : Nat) : (s.cuts n).Perm (List.range n) :=
  ((List.reverse_perm _).append_left _).trans (List.filter_append_perm _ _)

theorem order_perm (s : Slots) (n : Nat) : (s.order n).Perm (List.range (n + 1)) := by
  rw [List.range_succ]
  exact (List.perm_middle.trans ((s.cuts_perm n).cons n)).trans (List.perm_append_singleton n _).symm

theorem front_eq (s : Slots) (step : Nat) : s.front step = (s.starts step).length := by
  induction step with
  | zero => rfl
  | succ step ih =>
    rw [front, starts_succ, ih]
    split <;> simp

theorem back_eq (s : Slots) (step : Nat) :
    s.back step = s.size - 1 - (s.finishes step).length := by
  induction step with
  | zero => rfl
  | succ step ih =>
    rw [back, finishes_succ, ih]
    split
    · rfl
    · rw [List.length_cons, Nat.sub_sub]

/-- A step that cuts at the start comes after those before it that do. -/
theorem starts_split (h : step < n) (hs : s.atStart step = true) :
    ∃ later, s.starts n = s.starts step ++ step :: later := by
  induction n, h using Nat.le_induction with
  | base => exact ⟨[], by simp [starts_succ, hs]⟩
  | succ n _ ih =>
    obtain ⟨later, he⟩ := ih
    rw [starts_succ, he]
    split
    · exact ⟨later ++ [n], by simp⟩
    · exact ⟨later, rfl⟩

/-- A step that cuts at the end comes in front of those before it that do. -/
theorem finishes_split (h : step < n) (hs : s.atStart step = false) :
    ∃ later, s.finishes n = later ++ step :: s.finishes step := by
  induction n, h using Nat.le_induction with
  | base => exact ⟨[], by simp [finishes_succ, hs]⟩
  | succ n _ ih =>
    obtain ⟨later, he⟩ := ih
    rw [finishes_succ, he]
    split
    · exact ⟨later, rfl⟩
    · exact ⟨n :: later, rfl⟩

theorem lt_of_mem_starts {i : Nat} (h : i ∈ s.starts step) : i < step :=
  List.mem_range.mp (List.mem_filter.mp h).1

theorem idxOf_front (rest : List Nat) (h : step < n) (hs : s.atStart step = true) :
    (s.starts n ++ rest).idxOf step = s.front step := by
  obtain ⟨later, he⟩ := starts_split h hs
  have hm : step ∉ s.starts step := fun hm => Nat.lt_irrefl _ (lt_of_mem_starts hm)
  rw [he, List.append_assoc, List.idxOf_append_of_notMem hm, List.cons_append,
    List.idxOf_cons_self, front_eq, Nat.add_zero]

/-- Counted from the last place, a step stands behind those before it that cut at the end. -/
theorem idxOf_back (mid : List Nat) (h : step < n) (hs : s.atStart step = false)
    (hm : step ∉ mid) : (s.starts n ++ mid ++ s.finishes n).idxOf step + 1 =
      n + mid.length - (s.finishes step).length := by
  obtain ⟨later, he⟩ := finishes_split h hs
  have hstart : step ∉ s.starts n := fun hx => by simp [starts, hs] at hx
  have hlength := (s.cuts_perm n).length_eq
  -- No step cuts twice, so this one is not among the later cuts at the end either.
  have hnot : step ∉ s.starts n ++ mid ++ later := by
    have hnodup := (s.cuts_perm n).nodup_iff.mpr List.nodup_range
    rw [cuts, he, ← List.append_assoc] at hnodup
    have hdisjoint := List.disjoint_of_nodup_append hnodup
    have hlater : step ∉ later := fun hx => hdisjoint (by simp [hx]) (List.mem_cons_self ..)
    simp [hstart, hm, hlater]
  rw [cuts, he, List.length_range] at hlength
  rw [he, ← List.append_assoc, List.idxOf_append_of_notMem hnot, List.idxOf_cons_self]
  simp only [List.length_append, List.length_cons] at hlength ⊢
  omega

theorem slot_eq_idxOf (hn : s.size = n + 1) (h : step ≤ n) :
    s.slot step = (s.order n).idxOf step := by
  unfold slot order
  rcases Nat.eq_or_lt_of_le h with rfl | h
  · have hm : step ∉ s.starts step := fun hm => Nat.lt_irrefl _ (lt_of_mem_starts hm)
    rw [if_pos (.inl hn.symm), front_eq, List.idxOf_append_of_notMem hm, List.idxOf_cons_self,
      Nat.add_zero]
  · have hne : step + 1 ≠ s.size := by omega
    cases hs : s.atStart step with
    | true => rw [if_pos (.inr rfl), idxOf_front _ h hs]
    | false =>
      have hback := idxOf_back [n] h hs (by simpa using h.ne)
      rw [List.append_assoc, List.singleton_append, List.length_singleton] at hback
      rw [if_neg (by simp [hne]), back_eq, hn]
      have hle : (s.finishes step).length ≤ step := by
        simpa [finishes] using List.length_filter_le (fun i => !s.atStart i) (List.range step)
      omega

/-- The gap that belongs to a step is behind the slot that it fills from the start, or in front of
the one that it fills from the end. -/
def Bounds (s : Slots) (step i : Nat) : Prop :=
  (s.atStart step = true ∧ s.slot step = i) ∨ (s.atStart step = false ∧ s.slot step = i + 1)

theorem bounds_iff (hn : s.size = n + 1) (h : step < n) {i : Nat} :
    s.Bounds step i ↔ (s.cuts n).idxOf step = i := by
  unfold Bounds
  have hne : step + 1 ≠ s.size := by omega
  cases hs : s.atStart step with
  | true => simp [slot, hs, cuts, idxOf_front _ h hs]
  | false =>
    -- There is one slot more than gaps, so at the end the gap before a slot has the number below.
    have hback := idxOf_back [] h hs List.not_mem_nil
    simp only [List.append_nil, List.length_nil, Nat.add_zero] at hback
    have hslot : s.slot step = (s.cuts n).idxOf step + 1 := by
      rw [slot, if_neg (by simp [hne, hs]), back_eq, hn, cuts, hback, Nat.add_sub_cancel]
    simp [hslot]

theorem existsUnique_idxOf {xs : List Nat} {i : Nat} (hx : xs.Nodup) (hi : i < xs.length) :
    ∃! x, x ∈ xs ∧ xs.idxOf x = i := by
  refine ⟨xs[i], ⟨List.getElem_mem hi, hx.idxOf_getElem i hi⟩, fun y hy => ?_⟩
  obtain ⟨_, rfl⟩ := hy
  exact (List.getElem_idxOf _).symm

/-! ## A whole split -/

/-- The text that is left before a step. -/
def left (s : Slots) (cs : List Char) : Nat → List Char
  | 0 => cs
  | step + 1 => (s.cut step (s.left cs step)).2

/-- The part that a step fills its slot with; the last step takes what is left. -/
def part (s : Slots) (cs : List Char) (step : Nat) : List Char :=
  if step + 1 = s.size then s.left cs step else (s.cut step (s.left cs step)).1

/-- The separator that a step cuts at, if it finds one. -/
def gapAt (s : Slots) (cs : List Char) (step : Nat) : List Char :=
  gap (s.separator? step) (s.left cs step)

/-- After `k` steps the outer slots are filled, and the others are those of the text that is left. -/
theorem parts_run (hn : s.size = n + 1) (cs : List Char) (hk : k ≤ n) :
    s.parts cs = (s.starts k).map (s.part cs) ++
      (s.peel (n - k) k (s.left cs k) ++ (s.finishes k).map (s.part cs)) := by
  induction k with
  | zero => simp [parts, hn, starts, finishes, left]
  | succ k ih =>
    have hpart : s.part cs k = (s.cut k (s.left cs k)).1 := if_neg (by omega)
    have hsucc : n - k = n - (k + 1) + 1 := by omega
    rw [ih (by omega), hsucc, peel_succ, starts_succ, finishes_succ, left]
    split <;> simp [hpart]

theorem parts_eq (hn : s.size = n + 1) (cs : List Char) :
    s.parts cs = (s.order n).map (s.part cs) := by
  have hlast : s.part cs n = s.left cs n := if_pos hn.symm
  rw [parts_run hn cs le_rfl]
  simp [order, peel, hlast]

/-- The text after `k` steps: the outer parts with their separators around what is left. -/
theorem text_run (hn : s.size = n + 1) (cs : List Char) (hk : k ≤ n) :
    (s.starts k).flatMap (fun i => s.part cs i ++ s.gapAt cs i) ++ (s.left cs k ++
      (s.finishes k).flatMap fun i => s.gapAt cs i ++ s.part cs i) = cs := by
  induction k with
  | zero => simp [starts, finishes, left]
  | succ k ih =>
    have hpart : s.part cs k = (s.cut k (s.left cs k)).1 := if_neg (by omega)
    refine Eq.trans ?_ (ih (by omega))
    -- The outer parts stand; only the text that was left is cut once more.
    rw [starts_succ, finishes_succ, left]
    cases hs : s.atStart k with
    | true =>
      conv_rhs => rw [joined_cut_front (s.left cs k) hs]
      simp [hpart, gapAt]
    | false =>
      conv_rhs => rw [joined_cut_back (s.left cs k) hs]
      simp [hpart, gapAt]

/-- Parts with gaps between them. -/
def weave : List (List Char) → List (List Char) → List Char
  | part :: parts, gap :: gaps => part ++ gap ++ weave parts gaps
  | parts, _ => parts.flatten

theorem weave_after (part gap : Nat → List Char) (mid : List Char) (ys : List Nat) :
    weave (mid :: ys.map part) (ys.map gap) = mid ++ ys.flatMap fun i => gap i ++ part i := by
  induction ys generalizing mid with
  | nil => simp [weave]
  | cons y ys ih => simp [weave, ih]

theorem weave_around (part gap : Nat → List Char) (xs : List Nat) (mid : Nat) (ys : List Nat) :
    weave ((xs ++ mid :: ys).map part) ((xs ++ ys).map gap) =
      xs.flatMap (fun i => part i ++ gap i) ++ (part mid ++
        ys.flatMap fun i => gap i ++ part i) := by
  induction xs with
  | nil => exact weave_after part gap (part mid) ys
  | cons x xs ih =>
    simp only [List.cons_append, List.map_cons, weave, ih, List.flatMap_cons, List.append_assoc]

theorem left_of_missing (h : s.gapAt cs step = []) {later : Nat} (hl : step < later) :
    s.left cs later = [] := by
  induction later, hl using Nat.le_induction with
  | base => exact left_cut h
  | succ later _ ih => exact left_cut (by simp [ih, gap])

theorem part_of_left (h : s.left cs step = []) : s.part cs step = [] := by
  unfold part
  split
  · exact h
  · rw [h, cut_nil]

/-- What a split makes of a text. The gap `i` stands between the slots `i` and `i + 1`. -/
structure Accounts (s : Slots) (cs : List Char) (parts gaps : List (List Char)) : Prop where
  woven : weave parts gaps = cs
  partCount : parts.length = s.size
  gapCount : gaps.length + 1 = s.size
  /-- Every slot is filled in one step, and no step fills a slot that is not there. -/
  within : ∀ step < s.size, s.slot step < s.size
  once : ∀ i < s.size, ∃! step, step < s.size ∧ s.slot step = i
  filled : ∀ step < s.size, parts[s.slot step]? = some (s.part cs step)
  /-- Every gap belongs to one step, not the last, and is the separator of that step or empty. -/
  owned : ∀ i < gaps.length, ∃! step, step + 1 < s.size ∧ s.Bounds step i
  parted : ∀ step i, step + 1 < s.size → s.Bounds step i → gaps[i]? = some (s.gapAt cs step)
  free : ∀ step, step + 1 < s.size → ∀ c ∈ s.separator? step, c ∉ s.part cs step
  /-- After a step that finds no separator nothing is left. -/
  emptied : ∀ step later, step < later → later < s.size → s.gapAt cs step = [] →
    s.part cs later = []

theorem accounts_parts (hn : s.size = n + 1) (cs : List Char) :
    s.Accounts cs (s.parts cs) ((s.cuts n).map (s.gapAt cs)) := by
  have hparts := parts_eq hn cs
  have hcuts : (s.cuts n).length = n := by simpa using (s.cuts_perm n).length_eq
  have horder : (s.order n).length = n + 1 := by simpa using (s.order_perm n).length_eq
  have cutsNodup : (s.cuts n).Nodup := (s.cuts_perm n).nodup_iff.mpr List.nodup_range
  have orderNodup : (s.order n).Nodup := (s.order_perm n).nodup_iff.mpr List.nodup_range
  have memCuts : ∀ {step}, step ∈ s.cuts n ↔ step < n := by
    simp [(s.cuts_perm n).mem_iff]
  have memOrder : ∀ {step}, step ∈ s.order n ↔ step < n + 1 := by
    simp [(s.order_perm n).mem_iff]
  have slotEq : ∀ {step}, step < n + 1 → s.slot step = (s.order n).idxOf step := fun h =>
    slot_eq_idxOf hn (by omega)
  constructor
  case woven =>
    have hlast : s.part cs n = s.left cs n := if_pos hn.symm
    rw [hparts, order, cuts, weave_around, hlast]
    exact text_run hn cs le_rfl
  case partCount => exact length_parts s cs
  case gapCount => rw [List.length_map, hcuts, hn]
  case within =>
    intro step h
    rw [hn] at h ⊢
    rw [slotEq h, ← horder]
    exact List.idxOf_lt_length_of_mem (memOrder.mpr h)
  case once =>
    intro i h
    rw [hn] at h
    refine (existsUnique_congr fun step => ?_).mp (existsUnique_idxOf orderNodup (horder ▸ h))
    rw [memOrder, hn]
    exact and_congr_right fun hstep => by rw [slotEq hstep]
  case filled =>
    intro step h
    rw [hn] at h
    rw [hparts, List.getElem?_map, slotEq h, List.getElem?_idxOf (memOrder.mpr h)]
    rfl
  case owned =>
    intro i h
    rw [List.length_map] at h
    refine (existsUnique_congr fun step => ?_).mp (existsUnique_idxOf cutsNodup h)
    rw [memCuts, hn, Nat.add_lt_add_iff_right]
    exact and_congr_right fun hstep => (bounds_iff hn hstep).symm
  case parted =>
    intro step i h hb
    rw [hn, Nat.add_lt_add_iff_right] at h
    rw [← (bounds_iff hn h).mp hb, List.getElem?_map, List.getElem?_idxOf (memCuts.mpr h)]
    rfl
  case free =>
    intro step h
    rw [part, if_neg (by omega)]
    exact free_cut s step _
  case emptied =>
    intro step later hl _ hg
    exact part_of_left (left_of_missing hg hl)

/-- A split loses nothing of its text and cuts where it says. -/
theorem split_accounted (s : Slots) (hs : 1 ≤ s.size) (text : String) :
    ∃ gaps, s.Accounts text.toList ((s.split text).map String.toList) gaps := by
  obtain ⟨n, hn⟩ := Nat.exists_eq_add_of_le' hs
  refine ⟨(s.cuts n).map (s.gapAt text.toList), ?_⟩
  simpa [split] using accounts_parts hn text.toList

theorem split_accounted_crossed : 1 ≤ (⟨4, ['.', '-'], .alternate, true⟩ : Slots).size ∧
    ∃ gaps, (⟨4, ['.', '-'], .alternate, true⟩ : Slots).Accounts "a-b.c".toList
      [['a'], [], ['b'], ['c']] gaps :=
  ⟨by decide, split_accounted ⟨4, ['.', '-'], .alternate, true⟩ (by decide) "a-b.c"⟩

/-! ## From the other ends -/

/-- The splitter that trades start and end at every step. -/
def turned (s : Slots) : Slots := { s with inverted := !s.inverted }

theorem atStart_turned (s : Slots) (step : Nat) : s.turned.atStart step = !s.atStart step := by
  simp [atStart, turned]

theorem cutFront_reverse (sep : Option Char) (cs : List Char) : cutFront sep cs.reverse =
    ((cutBack sep cs).2.reverse, (cutBack sep cs).1.reverse) := by
  simp [cutBack_eq]

theorem cutBack_reverse (sep : Option Char) (cs : List Char) : cutBack sep cs.reverse =
    ((cutFront sep cs).2.reverse, (cutFront sep cs).1.reverse) := by
  simp [cutBack_eq]

theorem cut_turned (s : Slots) (step : Nat) (cs : List Char) : s.turned.cut step cs.reverse =
    ((s.cut step cs).1.reverse, (s.cut step cs).2.reverse) := by
  unfold cut
  rw [atStart_turned]
  cases s.atStart step
  · exact cutFront_reverse _ cs
  · exact congrArg Prod.swap (cutBack_reverse _ cs)

/-- The step that fills a slot from one end of a text fills it from the other end of the reverse. -/
theorem peel_turned (s : Slots) (n step : Nat) (cs : List Char) :
    s.turned.peel n step cs.reverse = ((s.peel n step cs).map List.reverse).reverse := by
  induction n generalizing step cs with
  | zero => rfl
  | succ n ih =>
    rw [peel_succ, peel_succ, cut_turned, atStart_turned, ih]
    cases s.atStart step <;> simp

theorem parts_turned (s : Slots) (cs : List Char) :
    s.turned.parts cs.reverse = ((s.parts cs).map List.reverse).reverse := by
  cases hn : s.size with
  | zero => simp [parts, turned, hn]
  | succ n =>
    have ht : s.turned.size = n + 1 := hn
    simp only [parts, hn, ht, peel_turned]

/-- Turning a splitter round is reading the text backwards: of the parts, of which there are always
as many as slots, the last comes first and each is reversed. -/
theorem split_turned (s : Slots) (text : String) :
    (s.split text).length = s.size ∧ s.turned.split (String.ofList text.toList.reverse) =
      ((s.split text).map fun part => String.ofList part.toList.reverse).reverse := by
  constructor
  · rw [split, List.length_map, length_parts]
  · simp [split, parts_turned, Function.comp_def]

end Slots

end Criteria.Text
