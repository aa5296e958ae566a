import Ucore.Mm.Fit.FirstFit

namespace Ucore.Mm.Fit

open Ucore.Data Ucore.Libs Extent

/-! One call of `best_fit_alloc_pages`, on any sorted list of disjoint blocks. -/

variable {memory : FitMemory} {blocks left right : List Extent} {block : Extent} {n : Nat}

namespace FreeArea

/-- The counter is large enough for every listed block to beat the first bound. -/
theorem size_lt_bound (area : FreeArea memory blocks) (bounded : memory.nrFree + 1 < 2 ^ 32)
    (member : block ∈ blocks) : block.size < uint32 (memory.nrFree + 1) := by
  have bound : uint32 (memory.nrFree + 1) = memory.nrFree + 1 := Nat.mod_eq_of_lt bounded
  have enough := area.size_le member
  omega

theorem bestFitSearch_none (area : FreeArea memory blocks)
    (small : ∀ block ∈ blocks, block.size < n) : Returns (bestFitSearch memory n) none := by
  have searched := @bestFitSearch_returns memory ⟨0, 0⟩ _ n area.freeList
  rcases bestOf_split n blocks none (uint32 (memory.nrFree + 1)) with ⟨missed, _⟩ | found
  · rwa [missed] at searched
  · obtain ⟨left, block, right, rfl, _, fits, _⟩ := found
    have tooSmall := small block (by simp)
    omega

theorem bestFitSearch_some (area : FreeArea memory blocks)
    (bounded : memory.nrFree + 1 < 2 ^ 32) (member : block ∈ blocks) (fits : n ≤ block.size) :
    ∃ left best right, blocks = left ++ best :: right ∧
      Returns (bestFitSearch memory n) (some best.start) ∧ n ≤ best.size ∧
      (∀ other ∈ left, n ≤ other.size → best.size < other.size) ∧
      ∀ other ∈ right, n ≤ other.size → best.size ≤ other.size := by
  have searched := @bestFitSearch_returns memory ⟨0, 0⟩ _ n area.freeList
  rcases bestOf_split n blocks none (uint32 (memory.nrFree + 1)) with ⟨_, bound⟩ | found
  · have large := bound block member fits
    have small := area.size_lt_bound bounded member
    omega
  · obtain ⟨left, best, right, split, chosen, fitsBest, _, before, behind⟩ := found
    rw [chosen] at searched
    exact ⟨left, best, right, split, searched, fitsBest, before, behind⟩

end FreeArea

/-- `best_fit_alloc_pages(n)` refuses if no block is large enough.  Otherwise it takes the pages from
the lowest block among the smallest that are. -/
theorem bestFitAllocPages_bestFit (area : FreeArea memory blocks)
    (bounded : memory.nrFree + 1 < 2 ^ 32) (positive : 1 ≤ n) :
    ((∀ block ∈ blocks, block.size < n) → Returns (bestFitAllocPages memory n) (none, memory)) ∧
    ((∃ block ∈ blocks, n ≤ block.size) →
      ∃ left block right after, blocks = left ++ block :: right ∧
        Returns (bestFitAllocPages memory n) (some block.start, after) ∧ n ≤ block.size ∧
        (∀ other ∈ blocks, ¬ (n ≤ other.size ∧ other.size < block.size)) ∧
        (∀ other ∈ blocks, other.size = block.size → block.start ≤ other.start) ∧
        FreeArea after (left ++ (remainder block n ++ right)) ∧
        after.nrFree = memory.nrFree - n ∧
        PageProperty (after.pages block.start).flags = false ∧
        (n < block.size → PageProperty (after.pages (block.start + n)).flags = true) ∧
        ∀ page, page ≠ block.start → (n < block.size → page ≠ block.start + n) →
          after.pages page = memory.pages page) := by
  constructor
  · intro small
    exact fitAllocPages_refuses positive fun _ => area.bestFitSearch_none small
  · intro someFits
    obtain ⟨candidate, member, large⟩ := someFits
    obtain ⟨left, block, right, rfl, found, fits, before, behind⟩ :=
      area.bestFitSearch_some bounded member large
    obtain ⟨taken, counter⟩ := area.take positive fits
    have enough := fits.trans (area.size_le (show block ∈ left ++ block :: right by simp))
    obtain ⟨_, sortedRight, _⟩ := List.pairwise_append.mp area.sorted
    have above := (List.pairwise_cons.mp sortedRight).1
    refine ⟨left, block, right, fitTake memory block.start n, rfl,
      fitAllocPages_takes positive enough found, fits, fun other member between => ?_,
      fun other member same => ?_, taken, counter, area.take_pages positive⟩
    · rcases mem_middle.mp member with rfl | apart
      · omega
      · rcases List.mem_append.mp apart with lower | upper
        · have larger := before other lower between.1
          omega
        · have larger := behind other upper between.1
          omega
    · rcases mem_middle.mp member with rfl | apart
      · exact le_rfl
      · rcases List.mem_append.mp apart with lower | upper
        · have larger := before other lower (by omega)
          omega
        · exact (above other upper).1.le

/-- The block of one page is taken, although the two below it are large enough. -/
theorem touchingBlocks_bestFit :
    ∃ left right after, [⟨3, 2⟩, ⟨5, 4⟩, ⟨10, 1⟩] = left ++ (⟨10, 1⟩ : Extent) :: right ∧
      Returns (bestFitAllocPages touchingBlocks 1) (some 10, after) ∧
      FreeArea after (left ++ (remainder ⟨10, 1⟩ 1 ++ right)) ∧ after.nrFree = 6 := by
  have taken := (bestFitAllocPages_bestFit touchingBlocks_freeArea (by decide)
    (show 1 ≤ 1 by decide)).2 ⟨⟨3, 2⟩, by simp, by decide⟩
  obtain ⟨left, block, right, after, split, returns, fits, best, _, area, counter, _⟩ := taken
  have member : block ∈ [(⟨3, 2⟩ : Extent), ⟨5, 4⟩, ⟨10, 1⟩] := by
    rw [split]
    simp
  have smallest := best ⟨10, 1⟩ (by simp)
  simp only [List.mem_cons, List.not_mem_nil, or_false] at member
  rcases member with rfl | rfl | rfl
  · simp at smallest
  · simp at smallest
  · exact ⟨left, right, after, split, returns, area, counter⟩

end Ucore.Mm.Fit
