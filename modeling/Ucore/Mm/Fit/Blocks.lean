import Ucore.Data.Extent
import Mathlib.Data.List.Basic

namespace Ucore.Mm.Fit

open Ucore.Data Extent

/-! The free list as a sequence of extents.

A free list is meant to hold maximal runs of free pages in address order.  The
two operations on it take pages from the start of a block and give a block
back, joining it with the neighbours it touches.
-/

/-- Nonempty blocks in address order, no two of which touch. -/
structure Gapped (blocks : List Extent) : Prop where
  positive : ∀ block ∈ blocks, 0 < block.size
  apart : blocks.Pairwise fun first second => first.start + first.size < second.start

/-- What is left of a block after its first pages were taken. -/
def remainder (block : Extent) (count : Nat) : List Extent :=
  if count < block.size then [⟨block.start + count, block.size - count⟩] else []

/-- Join the block with the last one before it when they touch. -/
def joinPrev (left : List Extent) (block : Extent) : List Extent × Extent :=
  match left.getLast? with
  | none => (left, block)
  | some p =>
      if p.start + p.size = block.start then (left.dropLast, ⟨p.start, p.size + block.size⟩)
      else (left, block)

/-- Join the block with the first one after it when they touch. -/
def joinNext (block : Extent) : List Extent → Extent × List Extent
  | [] => (block, [])
  | p :: right =>
      if block.start + block.size = p.start then (⟨block.start, block.size + p.size⟩, right)
      else (block, p :: right)

/-- Give a block back between the blocks below it and the blocks above it. -/
def release (left : List Extent) (block : Extent) (right : List Extent) : List Extent :=
  let (left, block) := joinPrev left block
  let (block, right) := joinNext block right
  left ++ block :: right

variable {blocks left right : List Extent} {block other : Extent} {count point : Nat}

@[simp] theorem joinPrev_nil (block : Extent) : joinPrev [] block = ([], block) := rfl

theorem joinPrev_concat (front : List Extent) (p block : Extent) :
    joinPrev (front ++ [p]) block =
      if p.start + p.size = block.start then (front, ⟨p.start, p.size + block.size⟩)
      else (front ++ [p], block) := by
  simp [joinPrev]

/-- The join keeps the end of the block and starts no lower than the blocks before it. -/
theorem joinPrev_bounds {lower : Nat} (lowest : lower ≤ block.start)
    (within : ∀ other ∈ left, lower ≤ other.start) :
    lower ≤ (joinPrev left block).2.start ∧
      (joinPrev left block).2.start + (joinPrev left block).2.size = block.start + block.size := by
  rcases List.eq_nil_or_concat left with rfl | ⟨front, p, rfl⟩
  · exact ⟨lowest, rfl⟩
  · rw [List.concat_eq_append] at within ⊢
    rw [joinPrev_concat]
    split
    · refine ⟨within p (by simp), ?_⟩
      simp only
      omega
    · exact ⟨lowest, rfl⟩

theorem cover_append : cover (left ++ right : List Extent) point = cover left point + cover right point := by
  rw [← Multiset.coe_add, cover_add]

theorem cover_list_cons : cover (block :: right : List Extent) point =
    cover {block} point + cover right point := by
  rw [← Multiset.cons_coe, cover_cons]

theorem cover_remainder (enough : count ≤ block.size) :
    cover {block} point = cover {⟨block.start, count⟩} point + cover (remainder block count) point := by
  have cut := @cover_cut point block.start count (block.size - count)
  rw [Nat.add_sub_cancel' enough] at cut
  rw [cut, remainder]
  by_cases more : count < block.size
  · rw [if_pos more, Multiset.coe_singleton]
  · have rest : block.size - count = 0 := by omega
    rw [if_neg more, rest, cover_empty]
    rfl

theorem cover_take (enough : count ≤ block.size) :
    cover (left ++ block :: right : List Extent) point =
      cover (left ++ (remainder block count ++ right) : List Extent) point +
        cover {⟨block.start, count⟩} point := by
  simp only [cover_append, cover_list_cons, @cover_remainder block count point enough]
  omega

theorem cover_joinPrev :
    cover (left ++ block :: right : List Extent) point =
      cover ((joinPrev left block).1 ++ (joinPrev left block).2 :: right : List Extent) point := by
  rcases List.eq_nil_or_concat left with rfl | ⟨front, p, rfl⟩
  · rfl
  · rw [List.concat_eq_append, joinPrev_concat]
    by_cases touch : p.start + p.size = block.start
    · simp only [if_pos touch, cover_append, cover_list_cons, cover_join touch, Multiset.coe_nil,
        cover_zero]
      omega
    · rw [if_neg touch]

theorem cover_joinNext :
    cover (left ++ block :: right : List Extent) point =
      cover (left ++ (joinNext block right).1 :: (joinNext block right).2 : List Extent) point := by
  cases right with
  | nil => rfl
  | cons p right =>
      simp only [joinNext]
      by_cases touch : block.start + block.size = p.start
      · simp only [if_pos touch, cover_append, cover_list_cons, cover_join touch]
        omega
      · rw [if_neg touch]

theorem cover_release :
    cover (release left block right) point =
      cover (left ++ right : List Extent) point + cover {block} point := by
  have joined : cover (release left block right) point =
      cover (left ++ block :: right : List Extent) point := by
    rw [cover_joinPrev, cover_joinNext]
    rfl
  rw [joined]
  simp only [cover_append, cover_list_cons]
  omega

namespace Gapped

theorem append_iff : Gapped (left ++ right) ↔ Gapped left ∧ Gapped right ∧
    ∀ first ∈ left, ∀ second ∈ right, first.start + first.size < second.start := by
  constructor
  · intro gapped
    obtain ⟨before, after, cross⟩ := List.pairwise_append.mp gapped.apart
    exact ⟨⟨fun block member => gapped.positive block (List.mem_append_left _ member), before⟩,
      ⟨fun block member => gapped.positive block (List.mem_append_right _ member), after⟩, cross⟩
  · intro parts
    obtain ⟨before, after, cross⟩ := parts
    refine ⟨fun block member => ?_, List.pairwise_append.mpr ⟨before.apart, after.apart, cross⟩⟩
    rcases List.mem_append.mp member with inLeft | inRight
    · exact before.positive block inLeft
    · exact after.positive block inRight

theorem cons_iff : Gapped (block :: right) ↔ 0 < block.size ∧ Gapped right ∧
    ∀ second ∈ right, block.start + block.size < second.start := by
  constructor
  · intro gapped
    obtain ⟨cross, after⟩ := List.pairwise_cons.mp gapped.apart
    exact ⟨gapped.positive block (by simp),
      ⟨fun other member => gapped.positive other (by simp [member]), after⟩, cross⟩
  · intro parts
    obtain ⟨positive, after, cross⟩ := parts
    refine ⟨fun other member => ?_, List.pairwise_cons.mpr ⟨cross, after.apart⟩⟩
    rcases List.mem_cons.mp member with rfl | member
    · exact positive
    · exact after.positive other member

theorem nil : Gapped [] := ⟨by simp, .nil⟩

theorem take (gapped : Gapped (left ++ block :: right)) :
    Gapped (left ++ (remainder block count ++ right)) := by
  obtain ⟨before, rest, cross⟩ := append_iff.mp gapped
  obtain ⟨positive, after, above⟩ := cons_iff.mp rest
  rw [remainder]
  by_cases more : count < block.size
  · rw [if_pos more, List.singleton_append]
    refine append_iff.mpr ⟨before, cons_iff.mpr ⟨by simp only; omega, after, ?_⟩, ?_⟩
    · intro second member
      have gap := above second member
      simp only
      omega
    · intro first inLeft second member
      have gap := cross first inLeft
      rcases List.mem_cons.mp member with rfl | member
      · have fromBlock := gap block (by simp)
        simp only
        omega
      · exact gap second (by simp [member])
  · rw [if_neg more, List.nil_append]
    exact append_iff.mpr ⟨before, after, fun first inLeft second inRight =>
      cross first inLeft second (by simp [inRight])⟩

/-- After the join with the block before, no block before touches the result. -/
theorem joined_before (gapped : Gapped left) (positive : 0 < block.size)
    (below : ∀ other ∈ left, other.start + other.size ≤ block.start) :
    Gapped (joinPrev left block).1 ∧ 0 < (joinPrev left block).2.size ∧
      ∀ other ∈ (joinPrev left block).1, other.start + other.size < (joinPrev left block).2.start := by
  rcases List.eq_nil_or_concat left with rfl | ⟨front, p, rfl⟩
  · exact ⟨nil, positive, by simp⟩
  · rw [List.concat_eq_append] at gapped below ⊢
    obtain ⟨front_, last, crossLast⟩ := append_iff.mp gapped
    rw [joinPrev_concat]
    by_cases touch : p.start + p.size = block.start
    · rw [if_pos touch]
      refine ⟨front_, ?_, fun other member => crossLast other member p (by simp)⟩
      simp only
      omega
    · rw [if_neg touch]
      refine ⟨gapped, positive, fun other member => ?_⟩
      have touching := below p (by simp)
      have sizeP := last.positive p (by simp)
      show other.start + other.size < block.start
      rcases List.mem_append.mp member with inFront | isLast
      · have gap := crossLast other inFront p (by simp)
        omega
      · obtain rfl : other = p := by simpa using isLast
        omega

theorem joined_after (gapped : Gapped right) (positive : 0 < block.size)
    (above : ∀ other ∈ right, block.start + block.size ≤ other.start) :
    Gapped ((joinNext block right).1 :: (joinNext block right).2) ∧
      ∀ other ∈ (joinNext block right).1 :: (joinNext block right).2, block.start ≤ other.start := by
  cases right with
  | nil => exact ⟨cons_iff.mpr ⟨positive, nil, by simp [joinNext]⟩, by simp [joinNext]⟩
  | cons p right =>
      obtain ⟨sizeP, others, gapP⟩ := cons_iff.mp gapped
      have fromBlock := above p (by simp)
      rw [joinNext]
      by_cases touch : block.start + block.size = p.start
      · rw [if_pos touch]
        refine ⟨cons_iff.mpr ⟨?_, others, fun second member => ?_⟩, fun second member => ?_⟩
        · show 0 < block.size + p.size
          omega
        · have gap := gapP second member
          show block.start + (block.size + p.size) < second.start
          omega
        · rcases List.mem_cons.mp member with isJoined | member
          · rw [isJoined]
          · have gap := gapP second member
            omega
      · rw [if_neg touch]
        refine ⟨cons_iff.mpr ⟨positive, gapped, fun second member => ?_⟩, fun second member => ?_⟩
        · show block.start + block.size < second.start
          rcases List.mem_cons.mp member with isNext | member
          · rw [isNext]
            omega
          · have next := gapP second member
            omega
        · rcases List.mem_cons.mp member with isBlock | member
          · rw [isBlock]
          · have next := above second member
            omega

theorem release (gapped : Gapped (left ++ right)) (positive : 0 < block.size)
    (below : ∀ other ∈ left, other.start + other.size ≤ block.start)
    (above : ∀ other ∈ right, block.start + block.size ≤ other.start) :
    Gapped (release left block right) := by
  obtain ⟨before, after, _⟩ := append_iff.mp gapped
  obtain ⟨joined, size, gap⟩ := before.joined_before positive below
  have ends := (joinPrev_bounds (block.start.zero_le) fun other (_ : other ∈ left) =>
    other.start.zero_le).2
  obtain ⟨joinedNext, higher⟩ := after.joined_after size (ends ▸ above)
  refine append_iff.mpr ⟨joined, joinedNext, fun first inLeft second inRight => ?_⟩
  exact (gap first inLeft).trans_le (higher second inRight)

theorem sorted (gapped : Gapped blocks) : (blocks.map Extent.start).Pairwise (· < ·) := by
  rw [List.pairwise_map]
  exact gapped.apart.imp fun gap => by omega

theorem place (gapped : Gapped blocks) (positive : 0 < block.size)
    (disjoint : ∀ other ∈ blocks, Disjoint other.points block.points) :
    ∃ left right, blocks = left ++ right ∧
      (∀ other ∈ left, other.start + other.size ≤ block.start) ∧
      (∀ other ∈ right, block.start + block.size ≤ other.start) := by
  induction blocks with
  | nil => exact ⟨[], [], rfl, by simp, by simp⟩
  | cons first rest ih =>
      obtain ⟨sizeFirst, others, gap⟩ := cons_iff.mp gapped
      have separate := Extent.disjoint_iff.mp (disjoint first (by simp))
      simp only [mem_points] at separate
      by_cases lower : first.start < block.start
      · obtain ⟨left, right, split, below, above⟩ :=
          ih others (fun other member => disjoint other (by simp [member]))
        refine ⟨first :: left, right, by simp [split], fun other member => ?_, above⟩
        rcases List.mem_cons.mp member with rfl | member
        · have notInside := separate block.start
          omega
        · exact below other member
      · refine ⟨[], first :: rest, rfl, by simp, fun other member => ?_⟩
        have notInside := separate first.start
        rcases List.mem_cons.mp member with rfl | member
        · omega
        · have next := gap other member
          omega

theorem apart_of_ne (gapped : Gapped blocks) (inFirst : block ∈ blocks) (inSecond : other ∈ blocks)
    (different : block ≠ other) :
    block.start + block.size < other.start ∨ other.start + other.size < block.start := by
  obtain ⟨before, after, rfl⟩ := List.append_of_mem inFirst
  obtain ⟨_, rest, cross⟩ := append_iff.mp gapped
  rcases List.mem_append.mp inSecond with lower | upper
  · exact .inr (cross other lower block (by simp))
  · rcases List.mem_cons.mp upper with rfl | upper
    · exact absurd rfl different
    · exact .inl ((cons_iff.mp rest).2.2 other upper)

theorem start_ne_inside (gapped : Gapped blocks) (member : block ∈ blocks) (positive : 0 < count)
    (inside : count < block.size) : ∀ other ∈ blocks, other.start ≠ block.start + count := by
  intro other listed same
  have size := gapped.positive other listed
  by_cases isBlock : other = block
  · subst isBlock
    omega
  · have gap := gapped.apart_of_ne member listed (Ne.symm isBlock)
    omega

theorem one_block (gapped : Gapped blocks) (positive : 0 < count)
    (covered : ∀ page, point ≤ page → page < point + count → ∃ block ∈ blocks, page ∈ block.points) :
    ∃ block ∈ blocks, block.start ≤ point ∧ point + count ≤ block.start + block.size := by
  induction count with
  | zero => omega
  | succ count ih =>
      rcases Nat.eq_zero_or_pos count with rfl | more
      · obtain ⟨block, member, inside⟩ := covered point le_rfl (by omega)
        rw [mem_points] at inside
        exact ⟨block, member, inside.1, by omega⟩
      · obtain ⟨block, member, starts, ends⟩ :=
          ih more fun page low high => covered page low (by omega)
        obtain ⟨other, inOther, inside⟩ := covered (point + count) (by omega) (by omega)
        rw [mem_points] at inside
        -- two different blocks would have to touch at this point
        have same : other = block := by
          by_contra different
          have gap := gapped.apart_of_ne inOther member different
          omega
        subst same
        exact ⟨other, member, starts, by omega⟩

end Gapped

/-- A longest run of consecutive numbers with this property. -/
structure Maximal (property : Nat → Prop) (run : Extent) : Prop where
  positive : 0 < run.size
  holds : ∀ point ∈ run.points, property point
  ends : ¬ property (run.start + run.size)
  starts : ∀ before, before + 1 = run.start → ¬ property before

namespace Gapped

/-- Gapped blocks are the longest runs of what they cover. -/
theorem mem_iff_maximal {property : Nat → Prop} (gapped : Gapped blocks)
    (covers : ∀ point, (∃ block ∈ blocks, point ∈ block.points) ↔ property point) :
    block ∈ blocks ↔ Maximal property block := by
  constructor
  · intro member
    have positive := gapped.positive block member
    have within : ∀ point ∈ block.points, property point :=
      fun point inside => (covers point).mp ⟨block, member, inside⟩
    have alone : ∀ point, property point → point ∉ block.points →
        point < block.start ∧ point + 1 ≠ block.start ∨ block.start + block.size < point := by
      intro point has outside
      obtain ⟨other, listed, inside⟩ := (covers point).mpr has
      have different : block ≠ other := by
        intro same
        exact outside (same ▸ inside)
      have gap := gapped.apart_of_ne member listed different
      rw [mem_points] at inside
      omega
    refine ⟨positive, within, fun has => ?_, fun before next has => ?_⟩
    · have outside := alone _ has (by rw [mem_points]; omega)
      omega
    · have outside := alone before has (by rw [mem_points]; omega)
      omega
  · intro maximal
    obtain ⟨positive, holds, ends, starts⟩ := maximal
    obtain ⟨other, listed, low, high⟩ := gapped.one_block positive fun point lower upper =>
      (covers point).mpr (holds point (mem_points.mpr ⟨lower, upper⟩))
    have inside : ∀ point, other.start ≤ point → point < other.start + other.size → property point :=
      fun point lower upper => (covers point).mp ⟨other, listed, mem_points.mpr ⟨lower, upper⟩⟩
    have sameStart : other.start = block.start := by
      by_contra lower
      exact starts (block.start - 1) (by omega) (inside _ (by omega) (by omega))
    have sameSize : other.size = block.size := by
      by_contra longer
      exact ends (inside _ (by omega) (by omega))
    obtain ⟨start, size⟩ := block
    obtain ⟨otherStart, otherSize⟩ := other
    cases sameStart
    cases sameSize
    exact listed

theorem unique {others : List Extent} (gapped : Gapped blocks) (gappedOther : Gapped others)
    (same : ∀ block, block ∈ blocks ↔ block ∈ others) : blocks = others := by
  have distinct {list : List Extent} (gapped : Gapped list) : list.Nodup :=
    List.Nodup.of_map Extent.start (gapped.sorted.imp fun lower => Nat.ne_of_lt lower)
  have perm := (List.perm_ext_iff_of_nodup (distinct gapped) (distinct gappedOther)).mpr same
  refine perm.eq_of_pairwise (fun first second _ _ before behind => ?_) gapped.apart gappedOther.apart
  omega

end Gapped

end Ucore.Mm.Fit
