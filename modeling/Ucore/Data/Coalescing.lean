import Ucore.Data.Dyadic

namespace Ucore.Data

open Extent

/-! Sets of free blocks that are split on demand and merged on return.

A block that is given back is merged with its partner as long as the partner is
free, up to a top order; `rounds` counts the orders that are left.  A block of
the top order whose partner is free is a case of its own: the partner is taken
out, and one of the two blocks is put in.
-/

namespace Block

variable {free others : Finset Block} {block other a b : Block} {point rounds top : Nat}

def extents (free : Finset Block) : Multiset Extent := free.val.map extent

def release : (rounds : Nat) → Finset Block → Block → Finset Block
  | 0, free, block =>
      if block.partner ∈ free then
        insert ⟨block.merge.start, block.order⟩ (free.erase block.partner)
      else
        insert block free
  | rounds + 1, free, block =>
      if block.partner ∈ free then release rounds (free.erase block.partner) block.merge
      else insert block free

/-- Take the first `2 ^ low` numbers of a block of order `low + rounds`, and free the rest. -/
def carve (start low : Nat) : (rounds : Nat) → Finset Block → Finset Block
  | 0, free => free
  | rounds + 1, free =>
      carve start low rounds (insert ⟨start + 2 ^ (low + rounds), low + rounds⟩ free)

/-- On its way up the block finds every partner free, also the one at the top. -/
def Capped (rounds : Nat) (free : Finset Block) (block : Block) : Prop :=
  ∀ level ≤ rounds, (merge^[level] block).partner ∈ free

def Coalesced (top : Nat) (free : Finset Block) : Prop :=
  ∀ block ∈ free, block.order < top → block.partner ∉ free

instance (top : Nat) (free : Finset Block) : Decidable (Coalesced top free) :=
  inferInstanceAs (Decidable (∀ block ∈ free, block.order < top → block.partner ∉ free))

/-- The block shares no number with the free blocks, which share none with each other. -/
def Apart (free : Finset Block) (block : Block) : Prop :=
  ∀ point, cover (extents free) point + cover {block.extent} point ≤ 1

theorem extents_insert (fresh : block ∉ free) :
    extents (insert block free) = block.extent ::ₘ extents free := by
  rw [extents, Finset.insert_val_of_notMem fresh, Multiset.map_cons]
  rfl

theorem extents_erase (member : block ∈ free) :
    extents free = block.extent ::ₘ extents (free.erase block) := by
  rw [← extents_insert (Finset.notMem_erase block free), Finset.insert_erase member]

theorem cover_insert (fresh : block ∉ free) :
    cover (extents (insert block free)) point =
      cover {block.extent} point + cover (extents free) point := by
  rw [extents_insert fresh, cover_cons]

theorem cover_erase (member : block ∈ free) :
    cover (extents free) point =
      cover {block.extent} point + cover (extents (free.erase block)) point := by
  rw [extents_erase member, cover_cons]

theorem cover_start (block : Block) : cover {block.extent} block.start = 1 := by
  rw [cover_singleton, if_pos block.start_mem]

theorem cover_pos_of_mem (member : block ∈ free) (inside : point ∈ block.extent.points) :
    0 < cover (extents free) point :=
  cover_pos.mpr ⟨block.extent, Multiset.mem_map_of_mem extent member, inside⟩

theorem exists_of_cover_pos (covered : 0 < cover (extents free) point) :
    ∃ block ∈ free, point ∈ block.extent.points := by
  obtain ⟨extent, member, inside⟩ := cover_pos.mp covered
  obtain ⟨block, listed, rfl⟩ := Multiset.mem_map.mp member
  exact ⟨block, listed, inside⟩

theorem two_le_cover (first : a ∈ free) (second : b ∈ free) (different : a ≠ b)
    (inFirst : point ∈ a.extent.points) (inSecond : point ∈ b.extent.points) :
    2 ≤ cover (extents free) point := by
  have remaining := cover_pos_of_mem (Finset.mem_erase.mpr ⟨different.symm, second⟩) inSecond
  rw [cover_erase first, cover_singleton, if_pos inFirst]
  omega

theorem apart_erase (once : ∀ point, cover (extents free) point ≤ 1) (member : block ∈ free) :
    Apart (free.erase block) block := by
  intro point
  have all := once point
  rw [cover_erase member] at all
  omega

namespace Apart

theorem start_ne {other : Block} (apart : Apart free block) (member : other ∈ free) :
    other.start ≠ block.start := by
  intro same
  have once := apart block.start
  have covered := cover_pos_of_mem member other.start_mem
  rw [cover_start] at once
  rw [same] at covered
  omega

theorem notMem (apart : Apart free block) : block ∉ free :=
  fun member => apart.start_ne member rfl

theorem merge (apart : Apart free block) (present : block.partner ∈ free) :
    Apart (free.erase block.partner) block.merge := by
  intro point
  have once := apart point
  rw [cover_erase present] at once
  rw [cover_merge]
  omega

end Apart

theorem release_absent (absent : block.partner ∉ free) :
    release rounds free block = insert block free := by
  cases rounds <;> rw [release, if_neg absent]

theorem release_present (present : block.partner ∈ free) :
    release (rounds + 1) free block = release rounds (free.erase block.partner) block.merge := by
  rw [release, if_pos present]

theorem release_top (present : block.partner ∈ free) :
    release 0 free block =
      insert ⟨block.merge.start, block.order⟩ (free.erase block.partner) := by
  rw [release, if_pos present]

/-- At the top the block or its partner goes in, whichever is lower. -/
theorem lower_cases (block : Block) :
    (⟨block.merge.start, block.order⟩ : Block) = block ∨
      (⟨block.merge.start, block.order⟩ : Block) = block.partner := by
  rcases block.partner_cases with ⟨_, start⟩ | ⟨_, start⟩
  · exact .inl (by rw [start])
  · exact .inr (by rw [start]; rfl)

theorem Apart.lower (apart : Apart free block) (present : block.partner ∈ free) :
    Apart (free.erase block.partner) ⟨block.merge.start, block.order⟩ := by
  intro point
  have once := apart point
  rw [cover_erase present] at once
  rcases block.lower_cases with same | same <;> rw [same] <;> omega

theorem iterate_merge_order (level : Nat) (block : Block) :
    (merge^[level] block).order = block.order + level := by
  induction level generalizing block with
  | zero => rfl
  | succ level ih =>
      rw [Function.iterate_succ_apply, ih, merge_order]
      omega

theorem capped_succ : Capped (rounds + 1) free block ↔
    block.partner ∈ free ∧ Capped rounds (free.erase block.partner) block.merge := by
  constructor
  · intro capped
    refine ⟨capped 0 (Nat.zero_le _), fun level below => ?_⟩
    have present := capped (level + 1) (by omega)
    rw [Function.iterate_succ_apply] at present
    refine Finset.mem_erase.mpr ⟨fun same => ?_, present⟩
    have order := congrArg Block.order same
    rw [partner_order, iterate_merge_order, merge_order, partner_order] at order
    omega
  · intro parts level below
    cases level with
    | zero => exact parts.1
    | succ level =>
        rw [Function.iterate_succ_apply]
        exact Finset.mem_of_mem_erase (parts.2 level (by omega))

theorem capped_zero : Capped 0 free block ↔ block.partner ∈ free := by
  simp [Capped]

/-! What a release covers. -/

/-- All that a block is merged with is free. -/
theorem Capped.covers (capped : Capped rounds free block)
    (inside : point ∈ (merge^[rounds + 1] block).extent.points) :
    point ∈ block.extent.points ∨ 0 < cover (extents free) point := by
  induction rounds with
  | zero => exact (of_mem_merge inside).imp_right (cover_pos_of_mem (capped 0 le_rfl))
  | succ rounds ih =>
      rw [Function.iterate_succ_apply'] at inside
      rcases of_mem_merge inside with first | second
      · exact ih (fun level below => capped level (by omega)) first
      · exact .inr (cover_pos_of_mem (capped (rounds + 1) le_rfl) second)

theorem cover_release_le (rounds : Nat) (apart : Apart free block) (point : Nat) :
    cover (extents (release rounds free block)) point ≤
      cover (extents free) point + cover {block.extent} point := by
  induction rounds generalizing free block with
  | zero =>
      rw [release]
      split
      · rename_i present
        rw [cover_insert (apart.lower present).notMem, cover_erase present]
        rcases block.lower_cases with same | same <;> rw [same] <;> omega
      · rw [cover_insert apart.notMem]
        omega
  | succ rounds ih =>
      rw [release]
      split
      · rename_i present
        have bound := ih (apart.merge present)
        rw [cover_merge] at bound
        rw [cover_erase present]
        omega
      · rw [cover_insert apart.notMem]
        omega

/-- Below the top nothing is lost. -/
theorem cover_release (apart : Apart free block) (uncapped : ¬ Capped rounds free block)
    (point : Nat) : cover (extents (release rounds free block)) point =
      cover (extents free) point + cover {block.extent} point := by
  induction rounds generalizing free block with
  | zero =>
      rw [capped_zero] at uncapped
      rw [release_absent uncapped, cover_insert apart.notMem, Nat.add_comm]
  | succ rounds ih =>
      by_cases present : block.partner ∈ free
      · have higher : ¬ Capped rounds (free.erase block.partner) block.merge :=
          fun capped => uncapped (capped_succ.mpr ⟨present, capped⟩)
        rw [release_present present, ih (apart.merge present) higher, cover_merge,
          cover_erase present]
        omega
      · rw [release_absent present, cover_insert apart.notMem, Nat.add_comm]

theorem total_release (apart : Apart free block) (uncapped : ¬ Capped rounds free block) :
    total (extents (release rounds free block)) = total (extents free) + 2 ^ block.order :=
  calc total (extents (release rounds free block))
      = total (extents free + {block.extent}) :=
        total_congr fun point => (cover_release apart uncapped point).trans cover_add.symm
    _ = total (extents free) + 2 ^ block.order := by
        rw [total_add, total_singleton, extent]

/-- At the top one block too few is put back. -/
theorem total_release_capped (apart : Apart free block) (capped : Capped rounds free block) :
    total (extents (release rounds free block)) + 2 ^ (block.order + rounds) =
      total (extents free) + 2 ^ block.order := by
  induction rounds generalizing free block with
  | zero =>
      have present := capped_zero.mp capped
      rw [release, if_pos present, extents_insert (apart.lower present).notMem, extents_erase present,
        total_cons, total_cons]
      simp only [extent, partner_order, Nat.add_zero]
  | succ rounds ih =>
      obtain ⟨present, higher⟩ := capped_succ.mp capped
      have rest := ih (apart.merge present) higher
      rw [merge_order, Nat.add_right_comm, Nat.pow_succ 2 block.order] at rest
      rw [release_present present, extents_erase present, total_cons]
      simp only [extent, partner_order]
      rw [← Nat.add_assoc, rest]
      omega

/-! What a release preserves. -/

theorem release_forall {property : Block → Prop} (kept : ∀ b ∈ free, property b)
    (new : property block)
    (grows : ∀ b, property b → b.order < block.order + rounds → property b.merge) :
    ∀ b ∈ release rounds free block, property b := by
  induction rounds generalizing free block with
  | zero =>
      intro b member
      rw [release] at member
      split at member
      · rename_i present
        rcases Finset.mem_insert.mp member with rfl | member
        · rcases block.lower_cases with same | same <;> rw [same]
          · exact new
          · exact kept _ present
        · exact kept b (Finset.mem_of_mem_erase member)
      · rcases Finset.mem_insert.mp member with rfl | member
        · exact new
        · exact kept b member
  | succ rounds ih =>
      by_cases present : block.partner ∈ free
      · rw [release_present present]
        refine ih (fun b member => kept b (Finset.mem_of_mem_erase member))
          (grows block new (by omega)) fun b holds below => grows b holds ?_
        rw [merge_order] at below
        omega
      · rw [release_absent present]
        intro b member
        rcases Finset.mem_insert.mp member with rfl | member
        · exact new
        · exact kept b member

theorem Coalesced.erase (coalesced : Coalesced top free) (block : Block) :
    Coalesced top (free.erase block) := by
  intro b member below present
  exact coalesced b (Finset.mem_of_mem_erase member) below (Finset.mem_of_mem_erase present)

/-- A block may be added when its partner is not free, or at the top. -/
theorem Coalesced.insert (coalesced : Coalesced top free)
    (alone : block.order < top → block.partner ∉ free) : Coalesced top (insert block free) := by
  intro b member below present
  rcases Finset.mem_insert.mp member with rfl | member
  · rcases Finset.mem_insert.mp present with same | present
    · exact b.partner_ne same
    · exact alone below present
  · rcases Finset.mem_insert.mp present with same | present
    · rw [partner_eq_comm] at same
      rw [← same, partner_order] at below
      exact alone below (same ▸ member)
    · exact coalesced b member below present

theorem Coalesced.release (coalesced : Coalesced (block.order + rounds) free) :
    Coalesced (block.order + rounds) (release rounds free block) := by
  induction rounds generalizing free block with
  | zero =>
      rw [Block.release]
      split
      · exact (coalesced.erase _).insert fun below => absurd below (Nat.lt_irrefl _)
      · exact coalesced.insert fun below => absurd below (Nat.lt_irrefl _)
  | succ rounds ih =>
      by_cases present : block.partner ∈ free
      · rw [release_present present]
        have level : block.order + (rounds + 1) = block.merge.order + rounds := by
          rw [merge_order]
          omega
        rw [level] at coalesced ⊢
        exact ih (coalesced.erase _)
      · rw [release_absent present]
        exact coalesced.insert fun _ => present

/-! Carving a block up. -/

theorem mem_carve {start low : Nat} : b ∈ carve start low rounds free ↔
    b ∈ free ∨ ∃ order, low ≤ order ∧ order < low + rounds ∧ b = ⟨start + 2 ^ order, order⟩ := by
  induction rounds generalizing free with
  | zero =>
      refine ⟨.inl, fun member => ?_⟩
      rcases member with member | ⟨order, above, below, _⟩
      · exact member
      · omega
  | succ rounds ih =>
      rw [carve, ih, Finset.mem_insert]
      constructor
      · intro member
        rcases member with (rfl | member) | ⟨order, above, below, rfl⟩
        · exact .inr ⟨low + rounds, by omega, by omega, rfl⟩
        · exact .inl member
        · exact .inr ⟨order, above, by omega, rfl⟩
      · intro member
        rcases member with member | ⟨order, above, below, rfl⟩
        · exact .inl (.inr member)
        · by_cases highest : order = low + rounds
          · subst highest
            exact .inl (.inl rfl)
          · exact .inr ⟨order, above, by omega, rfl⟩

theorem cover_halves (start order : Nat) : cover {(⟨start, order + 1⟩ : Block).extent} point =
    cover {(⟨start, order⟩ : Block).extent} point +
      cover {(⟨start + 2 ^ order, order⟩ : Block).extent} point := by
  simp only [extent]
  rw [← cover_cut, ← Nat.mul_two, ← Nat.pow_succ]

theorem Apart.halves {start order : Nat} (apart : Apart free ⟨start, order + 1⟩) :
    Apart free ⟨start + 2 ^ order, order⟩ ∧
      Apart (insert ⟨start + 2 ^ order, order⟩ free) ⟨start, order⟩ := by
  have upper : Apart free ⟨start + 2 ^ order, order⟩ := by
    intro point
    have once := apart point
    rw [cover_halves] at once
    omega
  refine ⟨upper, fun point => ?_⟩
  have once := apart point
  rw [cover_halves] at once
  rw [cover_insert upper.notMem]
  omega

theorem cover_carve {start low : Nat} (apart : Apart free ⟨start, low + rounds⟩) (point : Nat) :
    cover (extents (carve start low rounds free)) point + cover {(⟨start, low⟩ : Block).extent} point =
      cover (extents free) point + cover {(⟨start, low + rounds⟩ : Block).extent} point := by
  induction rounds generalizing free with
  | zero => rfl
  | succ rounds ih =>
      rw [← Nat.add_assoc] at apart ⊢
      obtain ⟨upper, lower⟩ := apart.halves
      rw [carve, ih lower, cover_insert upper.notMem, cover_halves]
      omega

/-- Halves of orders at which nothing was free have no partner. -/
theorem Coalesced.carve {start low : Nat} (coalesced : Coalesced top free)
    (unused : ∀ b ∈ free, ¬ (low ≤ b.order ∧ b.order < low + rounds)) :
    Coalesced top (carve start low rounds free) := by
  intro b member below present
  rcases mem_carve.mp member with kept | ⟨order, above, upTo, rfl⟩
  · rcases mem_carve.mp present with keptPartner | ⟨order, above, upTo, same⟩
    · exact coalesced b kept below keptPartner
    · have level := congrArg Block.order same
      rw [partner_order] at level
      exact unused b kept ⟨by simp only at level; omega, by simp only at level; omega⟩
  · rcases mem_carve.mp present with keptPartner | ⟨other, _, _, same⟩
    · exact unused _ keptPartner ⟨above, upTo⟩
    · have level : order = other := congrArg Block.order same
      subst level
      exact partner_ne _ same

end Block

end Ucore.Data
