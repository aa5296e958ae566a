import Mathlib.Algebra.GroupWithZero.Nat
import Ucore.Mm.Fit.Invariant

namespace Ucore.Mm.Fit

open Ucore.Data Ucore.Libs Extent

/-! One call of `default_alloc_pages`, on any sorted list of disjoint blocks.

The blocks may touch, and nothing is said about how the list came about.
-/

/-- The first block ends before the second starts. -/
def Precedes (first second : Extent) : Prop :=
  first.start < second.start ∧ first.start + first.size ≤ second.start

structure FreeArea (memory : FitMemory) (blocks : List Extent) : Prop where
  isList : IsList memory.links .freeList (entries blocks)
  sorted : blocks.Pairwise Precedes
  property : ∀ block ∈ blocks, (memory.pages block.start).property = block.size
  marked : ∀ block ∈ blocks, PageProperty (memory.pages block.start).flags = true
  counter : memory.nrFree = (blocks.map Extent.size).sum
  /-- `nr_free` is an `unsigned int`. -/
  width : memory.nrFree < 2 ^ 32

variable {memory : FitMemory} {blocks left right : List Extent} {block other : Extent}
  {n page : Nat}

theorem fitTake_pages (memory : FitMemory) (positive : 0 < n) :
    (fitTake memory page n).pages = fun other =>
      if other = page then
        { memory.pages page with flags := ClearPageProperty (memory.pages page).flags }
      else if n < (memory.pages page).property ∧ other = page + n then
        { memory.pages (page + n) with
          property := uint32 ((memory.pages page).property - n)
          flags := SetPageProperty (memory.pages (page + n)).flags }
      else memory.pages other := by
  funext other
  have notZero : n ≠ 0 := positive.ne'
  unfold fitTake
  by_cases more : n < (memory.pages page).property
  · simp [more, notZero]
  · simp [more]

namespace FreeArea

theorem freeList (area : FreeArea memory blocks) : FreeList memory ⟨0, 0⟩ blocks :=
  ⟨area.isList, area.property, fun page inside => by simp at inside⟩

theorem size_le (area : FreeArea memory blocks) (member : block ∈ blocks) :
    block.size ≤ memory.nrFree := by
  rw [area.counter]
  exact List.single_le_sum (by simp) _ (List.mem_map_of_mem member)

theorem start_ne_inside (area : FreeArea memory (left ++ block :: right)) (positive : 0 < n)
    (inside : n < block.size) : ∀ other ∈ left ++ block :: right, other.start ≠ block.start + n := by
  obtain ⟨_, behind, before⟩ := List.pairwise_append.mp area.sorted
  intro other member same
  rcases mem_middle.mp member with rfl | apart
  · omega
  · rcases List.mem_append.mp apart with lower | upper
    · have precedes := before other lower block (by simp)
      have start := precedes.1
      omega
    · have precedes := (List.pairwise_cons.mp behind).1 other upper
      have gap := precedes.2
      omega

theorem split_lowest (area : FreeArea memory blocks) (member : block ∈ blocks)
    (lowest : ∀ other ∈ blocks, n ≤ other.size → block.start ≤ other.start) :
    ∃ left right, blocks = left ++ block :: right ∧ ∀ other ∈ left, other.size < n := by
  obtain ⟨left, right, rfl⟩ := List.append_of_mem member
  refine ⟨left, right, rfl, fun other inLeft => ?_⟩
  have precedes := (List.pairwise_append.mp area.sorted).2.2 other inLeft block (by simp)
  have start := precedes.1
  have above := lowest other (by simp [inLeft])
  omega

theorem search_returns (area : FreeArea memory (left ++ block :: right))
    (small : ∀ other ∈ left, other.size < n) (fits : n ≤ block.size) :
    Returns (defaultSearch memory n) (some block.start) := by
  have searched := @defaultSearch_returns memory ⟨0, 0⟩ _ n area.freeList
  have skipped : left.find? (fun block => decide (n ≤ block.size)) = none := by
    rw [List.find?_eq_none]
    intro other inLeft
    simpa using small other inLeft
  simpa [List.find?_append, skipped, fits] using searched

theorem search_none (area : FreeArea memory blocks) (small : ∀ block ∈ blocks, block.size < n) :
    Returns (defaultSearch memory n) none := by
  have searched := @defaultSearch_returns memory ⟨0, 0⟩ _ n area.freeList
  have skipped : blocks.find? (fun block => decide (n ≤ block.size)) = none := by
    rw [List.find?_eq_none]
    intro other member
    simpa using small other member
  rwa [skipped] at searched

theorem sorted_take (area : FreeArea memory (left ++ block :: right)) (n : Nat) :
    (left ++ (remainder block n ++ right)).Pairwise Precedes := by
  obtain ⟨sortedLeft, behind, before⟩ := List.pairwise_append.mp area.sorted
  obtain ⟨above, sortedRight⟩ := List.pairwise_cons.mp behind
  have crossRight : ∀ first ∈ left, ∀ second ∈ right, Precedes first second :=
    fun first inLeft second inRight => before first inLeft second (by simp [inRight])
  by_cases more : n < block.size
  · rw [remainder, if_pos more]
    refine List.pairwise_append.mpr ⟨sortedLeft, List.pairwise_cons.mpr ⟨?_, sortedRight⟩, ?_⟩
    · intro other inRight
      have gap := (above other inRight).2
      constructor
      · simp only
        omega
      · simp only
        omega
    · intro first inLeft second member
      rcases List.mem_cons.mp member with rfl | inRight
      · have precedes := before first inLeft block (by simp)
        exact ⟨by simp only; exact Nat.lt_add_right n precedes.1, Nat.le_add_right_of_le precedes.2⟩
      · exact crossRight first inLeft second inRight
  · rw [remainder, if_neg more]
    exact List.pairwise_append.mpr ⟨sortedLeft, sortedRight, crossRight⟩

theorem marked_take (area : FreeArea memory (left ++ block :: right)) (positive : 0 < n) :
    ∀ other ∈ left ++ (remainder block n ++ right),
      PageProperty ((fitTake memory block.start n).pages other.start).flags = true := by
  have size := area.property block (by simp)
  intro other member
  rw [fitTake_pages memory positive, size]
  by_cases isRest : n < block.size ∧ other.start = block.start + n
  · have notFirst : other.start ≠ block.start := by omega
    simp only [if_neg notFirst, if_pos isRest]
    exact pageProperty_set _
  · have kept : other ∈ left ++ right := by
      rw [remainder] at member
      split at member
      · rename_i more
        rcases mem_middle.mp member with rfl | kept
        · exact absurd ⟨more, rfl⟩ isRest
        · exact kept
      · exact member
    have notFirst := area.freeList.start_ne other kept
    simp only [if_neg notFirst, if_neg isRest]
    exact area.marked other (mem_middle.mpr (.inr kept))

/-- Taking the first pages of a block leaves a free area again. -/
theorem take (area : FreeArea memory (left ++ block :: right)) (positive : 0 < n)
    (fits : n ≤ block.size) :
    FreeArea (fitTake memory block.start n) (left ++ (remainder block n ++ right)) ∧
      (fitTake memory block.start n).nrFree = memory.nrFree - n := by
  have enough := area.size_le (show block ∈ left ++ block :: right by simp)
  have width := area.width
  have taken := area.freeList.take (area.start_ne_inside positive) (by omega)
  have left_ : (fitTake memory block.start n).nrFree = memory.nrFree - n := by
    rw [fitTake_nrFree, uint32Sub_of_le width (fits.trans enough)]
  have counter : memory.nrFree - n =
      ((left ++ (remainder block n ++ right)).map Extent.size).sum := by
    have count := area.counter
    simp only [List.map_append, List.map_cons, List.sum_append, List.sum_cons] at count ⊢
    rw [remainder]
    split
    · simp only [List.map_cons, List.map_nil, List.sum_cons, List.sum_nil]
      omega
    · simp only [List.map_nil, List.sum_nil]
      omega
  refine ⟨⟨taken.isList, area.sorted_take n, taken.property, area.marked_take positive, ?_, ?_⟩,
    left_⟩
  · rw [left_, counter]
  · rw [left_]
    omega

theorem take_pages (area : FreeArea memory (left ++ block :: right)) (positive : 0 < n) :
    PageProperty ((fitTake memory block.start n).pages block.start).flags = false ∧
      (n < block.size →
        PageProperty ((fitTake memory block.start n).pages (block.start + n)).flags = true) ∧
      ∀ page, page ≠ block.start → (n < block.size → page ≠ block.start + n) →
        (fitTake memory block.start n).pages page = memory.pages page := by
  have size := area.property block (by simp)
  refine ⟨?_, fun more => ?_, fun page notFirst notRest => ?_⟩
  · simp only [fitTake_pages memory positive, if_true]
    exact pageProperty_clear _
  · have different : block.start + n ≠ block.start := by omega
    simp only [fitTake_pages memory positive, size, if_neg different, more, true_and, if_true]
    exact pageProperty_set _
  · have unmoved : ¬ (n < block.size ∧ page = block.start + n) :=
      fun isRest => notRest isRest.1 isRest.2
    simp only [fitTake_pages memory positive, size, if_neg notFirst, if_neg unmoved]

end FreeArea

/-- `default_alloc_pages(n)` refuses if no block is large enough, and takes the pages from the lowest
one that is otherwise. -/
theorem defaultAllocPages_firstFit (area : FreeArea memory blocks) (positive : 1 ≤ n) :
    ((∀ block ∈ blocks, block.size < n) → Returns (defaultAllocPages memory n) (none, memory)) ∧
    ∀ block ∈ blocks, n ≤ block.size →
      (∀ other ∈ blocks, n ≤ other.size → block.start ≤ other.start) →
      ∃ left right after, blocks = left ++ block :: right ∧
        Returns (defaultAllocPages memory n) (some block.start, after) ∧
        FreeArea after (left ++ (remainder block n ++ right)) ∧
        after.nrFree = memory.nrFree - n ∧
        PageProperty (after.pages block.start).flags = false ∧
        (n < block.size → PageProperty (after.pages (block.start + n)).flags = true) ∧
        ∀ page, page ≠ block.start → (n < block.size → page ≠ block.start + n) →
          after.pages page = memory.pages page := by
  constructor
  · intro small
    exact fitAllocPages_refuses positive fun _ => area.search_none small
  · intro block member fits lowest
    obtain ⟨left, right, rfl, small⟩ := area.split_lowest member lowest
    obtain ⟨taken, counter⟩ := area.take positive fits
    have enough := fits.trans (area.size_le member)
    exact ⟨left, right, fitTake memory block.start n, rfl,
      fitAllocPages_takes positive enough (area.search_returns small fits), taken, counter,
      area.take_pages positive⟩

/-- Pages 3 and 4, 5 to 8, and 10; the first two blocks touch. -/
def touchingBlocks : FitMemory where
  links := ⟨fun
    | .freeList => { prev := .page 10, next := .page 3 }
    | .page 3 => { prev := .freeList, next := .page 5 }
    | .page 5 => { prev := .page 3, next := .page 10 }
    | .page _ => { prev := .page 5, next := .freeList }⟩
  pages := fun index =>
    { ref := 0, flags := 2, property := if index = 3 then 2 else if index = 5 then 4 else 1 }
  nrFree := 7

theorem touchingBlocks_freeArea : FreeArea touchingBlocks [⟨3, 2⟩, ⟨5, 4⟩, ⟨10, 1⟩] where
  isList := ⟨by simp [Linked, touchingBlocks, listNext, listPrev, entries], by decide⟩
  sorted := by simp [Precedes]
  property := by simp [touchingBlocks]
  marked := by decide
  counter := rfl
  width := by decide

theorem touchingBlocks_firstFit :
    ∃ left right after, [⟨3, 2⟩, ⟨5, 4⟩, ⟨10, 1⟩] = left ++ (⟨5, 4⟩ : Extent) :: right ∧
      Returns (defaultAllocPages touchingBlocks 3) (some 5, after) ∧
      FreeArea after (left ++ (remainder ⟨5, 4⟩ 3 ++ right)) ∧ after.nrFree = 4 := by
  have taken := (defaultAllocPages_firstFit touchingBlocks_freeArea (show 1 ≤ 3 by decide)).2
    ⟨5, 4⟩ (by simp) (by decide) (by decide)
  obtain ⟨left, right, after, split, returns, area, counter, _⟩ := taken
  exact ⟨left, right, after, split, returns, area, counter⟩

end Ucore.Mm.Fit
