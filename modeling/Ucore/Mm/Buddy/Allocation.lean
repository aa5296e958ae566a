import Ucore.Mm.Buddy.Representation

namespace Ucore.Mm.Buddy

open Ucore.Data Ucore.Libs Extent Block

/-! One call of `buddy_alloc_pages`, in any state whose lists hold disjoint blocks. -/

/-- Every listed block lies apart from the others, and there are at most `2^31` free pages. -/
structure FreeState (layout : Layout) (memory : BuddyMemory) (lists : Nat → List Nat) : Prop
    extends Represents layout memory lists where
  disjoint : (listedBlocks lists).Pairwise
    fun first second => Disjoint first.extent.points second.extent.points
  width : memory.nrFree ≤ 2 ^ 31

/-- The pages of the listed blocks. -/
def freePages (lists : Nat → List Nat) : Set Nat :=
  {page | ∃ block ∈ listedBlocks lists, page ∈ block.extent.points}

variable {layout : Layout} {memory : BuddyMemory} {lists : Nat → List Nat} {free : Finset Block}
  {block : Block} {n page low rounds : Nat}

theorem listed_extents (listed : (listedBlocks lists : Multiset Block) = free.val) :
    extents free = ((listedBlocks lists).map extent : List Extent) := by
  rw [extents, ← listed, Multiset.map_coe]

theorem mem_of_listed (listed : (listedBlocks lists : Multiset Block) = free.val) :
    block ∈ listedBlocks lists ↔ block ∈ free := by
  rw [← Multiset.mem_coe, listed, Finset.mem_val]

theorem mem_freePages (listed : (listedBlocks lists : Multiset Block) = free.val) :
    page ∈ freePages lists ↔ 0 < cover (extents free) page := by
  constructor
  · intro found
    obtain ⟨block, member, inside⟩ := found
    exact cover_pos_of_mem ((mem_of_listed listed).mp member) inside
  · intro covered
    obtain ⟨block, member, inside⟩ := exists_of_cover_pos covered
    exact ⟨block, (mem_of_listed listed).mpr member, inside⟩

/-- A free state is a set of disjoint free blocks, and the other way around. -/
theorem FreeState.holds (state : FreeState layout memory lists) :
    ∃ free : Finset Block, Holds layout memory free ∧
      (listedBlocks lists : Multiset Block) = free.val ∧
      (∀ point, cover (extents free) point ≤ 1) ∧ total (extents free) = memory.nrFree := by
  have distinct : (listedBlocks lists).Nodup := listedBlocks_nodup fun order bound =>
    (state.isList order bound).nodup.of_cons.of_map
  have listed : (listedBlocks lists : Multiset Block) = (listedBlocks lists).toFinset.val := by
    rw [List.toFinset_val, distinct.dedup]
  have pages : total (extents (listedBlocks lists).toFinset) = memory.nrFree := by
    rw [listed_extents listed, total_listedBlocks, state.nrFree]
  refine ⟨_, ⟨⟨lists, state.toLists, fun block => ?_⟩, ?_⟩, listed, ?_, pages⟩
  · rw [List.mem_toFinset, mem_listedBlocks]
  · have width := state.width
    rw [pages, uint32_of_lt (by omega)]
  · rw [listed_extents listed]
    exact pairwise_iff.mp (List.pairwise_map.mpr state.disjoint)

theorem Holds.freeState (holds : Holds layout memory free)
    (once : ∀ point, cover (extents free) point ≤ 1) (width : total (extents free) ≤ 2 ^ 31) :
    ∃ lists, FreeState layout memory lists ∧ (listedBlocks lists : Multiset Block) = free.val := by
  obtain ⟨lists, represents, listed⟩ := holds.represents (by omega)
  rw [listed_extents listed] at once
  have disjoint := pairwise_iff.mpr once
  rw [List.pairwise_map] at disjoint
  refine ⟨lists, ⟨represents, disjoint, ?_⟩, listed⟩
  rw [holds.nrFree, uint32_of_lt (by omega)]
  exact width

/-! Carving up a free block. -/

section Carve

variable {start : Nat} (once : ∀ point, cover (extents free) point ≤ 1)
  (member : (⟨start, low + rounds⟩ : Block) ∈ free)

include once member

theorem cover_carve_erase (point : Nat) :
    cover (extents (carve start low rounds (free.erase ⟨start, low + rounds⟩))) point +
      cover {(⟨start, low⟩ : Block).extent} point = cover (extents free) point := by
  rw [cover_carve (apart_erase once member), cover_erase member, Nat.add_comm]

theorem half_notMem {order : Nat} (below : order < low + rounds) :
    (⟨start + 2 ^ order, order⟩ : Block) ∉ free := by
  intro listed
  have different : (⟨start, low + rounds⟩ : Block) ≠ ⟨start + 2 ^ order, order⟩ := by
    intro same
    have level := congrArg Block.order same
    simp only at level
    omega
  have larger : 2 ^ order < 2 ^ (low + rounds) := Nat.pow_lt_pow_right (by decide) below
  have inside : start + 2 ^ order ∈ (⟨start, low + rounds⟩ : Block).extent.points :=
    mem_points.mpr ⟨Nat.le_add_right _ _, Nat.add_lt_add_left larger _⟩
  have twice := two_le_cover member listed different inside (start_mem _)
  have single := once (start + 2 ^ order)
  omega

theorem new_iff (other : Block) :
    other ∈ carve start low rounds (free.erase ⟨start, low + rounds⟩) ∧ other ∉ free ↔
      ∃ order, low ≤ order ∧ order < low + rounds ∧ other = ⟨start + 2 ^ order, order⟩ := by
  rw [mem_carve]
  constructor
  · intro found
    obtain ⟨kept | new, fresh⟩ := found
    · exact absurd (Finset.mem_of_mem_erase kept) fresh
    · exact new
  · intro new
    obtain ⟨order, above, below, rfl⟩ := new
    exact ⟨.inr ⟨order, above, below, rfl⟩, half_notMem once member below⟩

theorem kept_iff {other : Block} (before : other ∈ free) :
    other ∈ carve start low rounds (free.erase ⟨start, low + rounds⟩) ↔
      other ≠ ⟨start, low + rounds⟩ := by
  rw [mem_carve, Finset.mem_erase]
  constructor
  · intro found
    rcases found with kept | ⟨order, _, below, rfl⟩
    · exact kept.1
    · exact absurd before (half_notMem once member below)
  · intro different
    exact .inl ⟨different, before⟩

theorem taken_free (inside : page ∈ (⟨start, 2 ^ low⟩ : Extent).points) :
    0 < cover (extents free) page := by
  have split := cover_carve_erase once member page
  rw [extent, cover_singleton, if_pos inside] at split
  omega

theorem remaining_iff :
    0 < cover (extents (carve start low rounds (free.erase ⟨start, low + rounds⟩))) page ↔
      0 < cover (extents free) page ∧ page ∉ (⟨start, 2 ^ low⟩ : Extent).points := by
  have single := once page
  have split := cover_carve_erase once member page
  rw [extent, cover_singleton] at split
  by_cases inside : page ∈ (⟨start, 2 ^ low⟩ : Extent).points
  · rw [if_pos inside] at split
    simp only [inside, not_true_eq_false, and_false, iff_false]
    omega
  · rw [if_neg inside] at split
    simp only [inside, not_false_eq_true, and_true]
    omega

theorem total_carve :
    total (extents (carve start low rounds (free.erase ⟨start, low + rounds⟩))) + 2 ^ low =
      total (extents free) := by
  have same := total_congr fun point =>
    cover_add.trans (cover_carve_erase once member point)
  rwa [total_add, total_singleton] at same

end Carve

theorem FreeState.refuses (state : FreeState layout memory lists)
    (missing : n = 0 ∨ ∀ block ∈ listedBlocks lists, block.order < Nat.clog 2 n) :
    Returns (buddyAllocPages layout memory n) (none, memory) := by
  by_cases refused : n = 0 ∨ n > memory.nrFree
  · exact allocPages_refuses refused
  · obtain ⟨free, holds, listed, once, _⟩ := state.holds
    obtain ⟨positive, enough⟩ := not_or.mp refused
    have width := state.width
    rcases allocPages_cases holds once positive (Nat.le_of_not_lt enough) (by omega) with
      ⟨returns, _⟩ | ⟨block, member, large, _⟩
    · exact returns
    · have small := missing.resolve_left positive block ((mem_of_listed listed).mpr member)
      omega

/-- The counter never stands in the way of a listed block that is large enough. -/
theorem FreeState.enough (state : FreeState layout memory lists)
    (member : block ∈ listedBlocks lists) (large : Nat.clog 2 n ≤ block.order) :
    n ≤ memory.nrFree := by
  obtain ⟨free, _, listed, _, pages⟩ := state.holds
  have size := extents_erase ((mem_of_listed listed).mp member)
  calc n ≤ 2 ^ Nat.clog 2 n := Nat.le_pow_clog (by decide) n
    _ ≤ 2 ^ block.order := Nat.pow_le_pow_right (by decide) large
    _ ≤ memory.nrFree := by
        rw [← pages, size, total_cons]
        exact Nat.le_add_right _ _

/-- `buddy_alloc_pages(n)` takes the `2 ^ Nat.clog 2 n` lowest pages of a block of the least listed
order that suffices, and lists the rest of that block as one block of each order between. -/
theorem buddyAllocPages_takes (state : FreeState layout memory lists) (n : Nat) :
    ((n = 0 ∨ ∀ block ∈ listedBlocks lists, block.order < Nat.clog 2 n) →
      Returns (buddyAllocPages layout memory n) (none, memory)) ∧
    (n ≠ 0 → (∃ block ∈ listedBlocks lists, Nat.clog 2 n ≤ block.order) →
      ∃ block ∈ listedBlocks lists, Nat.clog 2 n ≤ block.order ∧
        (∀ other ∈ listedBlocks lists, Nat.clog 2 n ≤ other.order → block.order ≤ other.order) ∧
        ∃ after remaining, Returns (buddyAllocPages layout memory n) (some block.start, after) ∧
          FreeState layout after remaining ∧
          (∀ other, other ∈ listedBlocks remaining ∧ other ∉ listedBlocks lists ↔
            ∃ order, Nat.clog 2 n ≤ order ∧ order < block.order ∧
              other = ⟨block.start + 2 ^ order, order⟩) ∧
          (∀ other ∈ listedBlocks lists, other ∈ listedBlocks remaining ↔ other ≠ block) ∧
          (∀ page ∈ (⟨block.start, 2 ^ Nat.clog 2 n⟩ : Extent).points, page ∈ freePages lists) ∧
          (∀ page, page ∈ freePages remaining ↔
            page ∈ freePages lists ∧ page ∉ (⟨block.start, 2 ^ Nat.clog 2 n⟩ : Extent).points) ∧
          after.nrFree + 2 ^ Nat.clog 2 n = memory.nrFree) := by
  refine ⟨state.refuses, fun positive sufficient => ?_⟩
  obtain ⟨candidate, inside, large⟩ := sufficient
  have enough := state.enough inside large
  have width := state.width
  have fits := enough.trans width
  obtain ⟨free, holds, listed, once, pages⟩ := state.holds
  rcases allocPages_cases holds once positive enough fits with
    ⟨_, small⟩ | ⟨⟨start, top⟩, member, above, least, after, returns, carved⟩
  · have tooSmall := small candidate ((mem_of_listed listed).mp inside)
    omega
  · generalize Nat.clog 2 n = low at *
    obtain ⟨rounds, rfl⟩ := Nat.exists_eq_add_of_le above
    simp only [Nat.add_sub_cancel_left] at carved
    have counted := total_carve once member
    have fewer := Nat.le.intro counted
    have onceAfter := fun point =>
      (Nat.le.intro (cover_carve_erase once member point)).trans (once point)
    obtain ⟨remaining, stateAfter, listedAfter⟩ := carved.freeState onceAfter (by omega)
    refine ⟨⟨start, low + rounds⟩, (mem_of_listed listed).mpr member, above,
      fun other inList sufficient => ?_, after, remaining, returns, stateAfter, fun other => ?_,
      fun other inList => ?_, fun page inTaken => ?_, fun page => ?_, ?_⟩
    · have notBetween := least other ((mem_of_listed listed).mp inList)
      simp only at notBetween ⊢
      omega
    · rw [mem_of_listed listed, mem_of_listed listedAfter]
      exact new_iff once member other
    · rw [mem_of_listed listed] at inList
      rw [mem_of_listed listedAfter]
      exact kept_iff once member inList
    · exact (mem_freePages listed).mpr (taken_free once member inTaken)
    · rw [mem_freePages listed, mem_freePages listedAfter]
      exact remaining_iff once member
    · rw [carved.nrFree, uint32_of_lt (by omega), counted, pages]

/-- Pages 4 to 7 as one block, and page 9. -/
def twoBlocks : BuddyMemory where
  links := ⟨fun address =>
    if address = bootLayout.page 4 then ⟨bootLayout.freeList 2, bootLayout.freeList 2⟩
    else if address = bootLayout.page 9 then ⟨bootLayout.freeList 0, bootLayout.freeList 0⟩
    else if address = bootLayout.freeList 2 then ⟨bootLayout.page 4, bootLayout.page 4⟩
    else if address = bootLayout.freeList 0 then ⟨bootLayout.page 9, bootLayout.page 9⟩
    else ⟨address, address⟩⟩
  blocks := fun address => if address = bootLayout.page 4 then ⟨2, 4⟩ else ⟨0, 9⟩
  nrFree := 5
  maxOrderInited := 2

def twoLists (order : Nat) : List Nat := if order = 2 then [4] else if order = 0 then [9] else []

theorem twoBlocks_freeState : FreeState bootLayout twoBlocks twoLists where
  isList := by
    intro order bound
    by_cases isTwo : order = 2
    · subst isTwo
      exact ⟨by simp [Linked, twoLists, twoBlocks, listNext, listPrev, bootLayout, Layout.page,
        Layout.freeList], by decide⟩
    · by_cases isZero : order = 0
      · subst isZero
        exact ⟨by simp [Linked, twoLists, twoBlocks, listNext, listPrev, bootLayout, Layout.page,
          Layout.freeList], by decide⟩
      · simp only [MAX_ORDER] at bound
        have four : 16 * order ≠ 336 := by omega
        have nine : 16 * order ≠ 536 := by omega
        have two : 16 * order ≠ 32 := by omega
        have alone : twoBlocks.links.entry (bootLayout.freeList order) =
            ⟨bootLayout.freeList order, bootLayout.freeList order⟩ := by
          simp [twoBlocks, bootLayout, Layout.page, Layout.freeList, isZero, two, four, nine]
        simp only [twoLists, if_neg isTwo, if_neg isZero, List.map_nil]
        exact Ring.singleton (congrArg ListEntry.next alone) (congrArg ListEntry.prev alone)
  block := by decide
  once := by decide
  nrFree := by decide
  disjoint := by decide
  width := by decide

theorem twoBlocks_takes : ∃ after remaining,
    Returns (buddyAllocPages bootLayout twoBlocks 2) (some 4, after) ∧
      FreeState bootLayout after remaining ∧ after.nrFree = 3 ∧
      (⟨6, 1⟩ : Block) ∈ listedBlocks remaining := by
  have taken := (buddyAllocPages_takes twoBlocks_freeState 2).2 (by decide)
    ⟨⟨4, 2⟩, by decide, by decide⟩
  have order : Nat.clog 2 2 = 1 := by decide
  rw [order] at taken
  obtain ⟨block, member, above, _, after, remaining, returns, state, new, _, _, _, counter⟩ := taken
  have listed : listedBlocks twoLists = [⟨9, 0⟩, ⟨4, 2⟩] := by decide
  simp only [listed, List.mem_cons, List.not_mem_nil, or_false] at member
  rcases member with rfl | rfl
  · simp at above
  · have half := (new ⟨6, 1⟩).mpr ⟨1, by decide⟩
    exact ⟨after, remaining, returns, state, Nat.add_right_cancel counter, half.1⟩

end Ucore.Mm.Buddy
