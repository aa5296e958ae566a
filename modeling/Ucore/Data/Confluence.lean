import Ucore.Data.Coalescing
import Mathlib.Data.Finset.Max

namespace Ucore.Data

open Extent

/-! The order in which blocks come back.

Releasing two blocks leads to the same set in either order, because every block
has exactly one possible partner.  When all blocks are aligned, even more holds:
a coalesced set is determined by what it covers.
-/

namespace Block

variable {free others : Finset Block} {block other a b q : Block} {point rounds ra rb top : Nat}

theorem partner_ne_of_hole (inside : point ∈ q.partner.extent.points)
    (hole : cover (extents free) point + cover {block.extent} point = 0) :
    block.partner ≠ q := by
  intro same
  rw [← partner_eq_comm.mp same, cover_singleton, if_pos inside] at hole
  omega

theorem release_frame_absent (listed : q ∈ free) (absent : block.partner ∉ free) :
    release rounds free block = insert q (release rounds (free.erase q) block) := by
  have absentFewer : block.partner ∉ free.erase q :=
    fun member => absent (Finset.mem_of_mem_erase member)
  rw [release_absent absent, release_absent absentFewer, Finset.insert_comm,
    Finset.insert_erase listed]

/-- A free block whose partner has a number that is neither free nor released is left alone. -/
theorem release_frame (apart : Apart free block) (listed : q ∈ free)
    (inside : point ∈ q.partner.extent.points)
    (hole : cover (extents free) point + cover {block.extent} point = 0) :
    release rounds free block = insert q (release rounds (free.erase q) block) := by
  induction rounds generalizing free block with
  | zero =>
      by_cases present : block.partner ∈ free
      · have notPartner := partner_ne_of_hole inside hole
        have presentFewer := Finset.mem_erase.mpr ⟨notPartner, present⟩
        have listedFewer := Finset.mem_erase.mpr ⟨notPartner.symm, listed⟩
        rw [release, release, if_pos present, if_pos presentFewer, Finset.insert_comm,
          Finset.erase_right_comm, Finset.insert_erase listedFewer]
      · exact release_frame_absent listed present
  | succ rounds ih =>
      by_cases present : block.partner ∈ free
      · have notPartner := partner_ne_of_hole inside hole
        have presentFewer := Finset.mem_erase.mpr ⟨notPartner, present⟩
        have listedFewer := Finset.mem_erase.mpr ⟨notPartner.symm, listed⟩
        rw [release_present present, release_present presentFewer, Finset.erase_right_comm]
        apply ih (apart.merge present) listedFewer
        rw [cover_erase present] at hole
        rw [cover_merge]
        omega
      · exact release_frame_absent listed present

theorem release_frame_notMem (apart : Apart free block) (listed : q ∈ free) :
    q ∉ release rounds (free.erase q) block := by
  have fewer : Apart (free.erase q) block := by
    intro point
    have once := apart point
    rw [cover_erase listed] at once
    omega
  intro member
  have once := apart q.start
  have bound := cover_release_le rounds fewer q.start
  have covered := cover_pos_of_mem member q.start_mem
  rw [cover_erase listed, cover_start] at once
  omega

/-- The blocks `a` and `b` share no number with each other or with the free blocks. -/
def Apart₂ (free : Finset Block) (a b : Block) : Prop :=
  ∀ point, cover (extents free) point + cover {a.extent} point + cover {b.extent} point ≤ 1

namespace Apart₂

theorem symm (apart : Apart₂ free a b) : Apart₂ free b a := by
  intro point
  have once := apart point
  omega

theorem left (apart : Apart₂ free a b) : Apart free a := by
  intro point
  have once := apart point
  omega

theorem right (apart : Apart₂ free a b) : Apart free b :=
  apart.symm.left

theorem ne (apart : Apart₂ free a b) : a ≠ b := by
  intro same
  subst same
  have once := apart a.start
  rw [cover_start] at once
  omega

theorem merge (apart : Apart₂ free a b) (present : a.partner ∈ free) :
    Apart₂ (free.erase a.partner) a.merge b := by
  intro point
  have once := apart point
  rw [cover_erase present] at once
  rw [cover_merge]
  omega

end Apart₂

theorem release_present_after (apart : Apart₂ free a b) (present : a.partner ∈ free) :
    release (ra + 1) (release rb free b) a =
      release ra (release rb (free.erase a.partner) b) a.merge := by
  have inside : a.start ∈ a.partner.partner.extent.points := by
    rw [partner_partner]
    exact a.start_mem
  have hole : cover (extents free) a.start + cover {b.extent} a.start = 0 := by
    have once := apart a.start
    rw [cover_start] at once
    omega
  rw [release_frame apart.right present inside hole, release_present (Finset.mem_insert_self _ _),
    Finset.erase_insert (release_frame_notMem apart.right present)]

theorem lower_ne_partner (apart : Apart₂ free a b) (absent : b.partner ≠ a) :
    (⟨a.merge.start, a.order⟩ : Block) ≠ b.partner := by
  intro same
  rcases a.lower_cases with isBlock | isPartner
  · exact absent (same.symm.trans isBlock)
  · have partners := isPartner.symm.trans same
    exact apart.ne (by rw [← partner_partner a, partners, partner_partner])

/-- Blocks that stop at once, where `a` does so at the top. -/
theorem release_comm_top (apart : Apart₂ free a b) (presentA : a.partner ∈ free)
    (stopB : b.partner ∈ free → rb = 0) :
    release rb (release 0 free a) b = release 0 (release rb free b) a := by
  have notPartner : b.partner ≠ a := by
    intro same
    exact apart.right.notMem (partner_eq_comm.mp same ▸ presentA)
  have notLower := lower_ne_partner apart notPartner
  have different : a.partner ≠ b.partner := fun same =>
    apart.ne (by rw [← partner_partner a, same, partner_partner])
  by_cases presentB : b.partner ∈ free
  · have notPartnerA : a.partner ≠ b := fun same => notPartner (partner_eq_comm.mp same)
    have notLowerB := lower_ne_partner apart.symm notPartnerA
    have stillB := Finset.mem_insert_of_mem (a := b.partner)
      (b := ⟨a.merge.start, a.order⟩) (Finset.mem_erase.mpr ⟨different.symm, presentB⟩)
    have stillA := Finset.mem_insert_of_mem (a := a.partner)
      (b := ⟨b.merge.start, b.order⟩) (Finset.mem_erase.mpr ⟨different, presentA⟩)
    rw [stopB presentB, release_top presentA, release_top presentB, release_top stillB,
      release_top stillA, Finset.erase_insert_of_ne notLower, Finset.erase_insert_of_ne notLowerB,
      Finset.insert_comm, Finset.erase_right_comm]
  · have absentB : b.partner ∉
        insert (⟨a.merge.start, a.order⟩ : Block) (free.erase a.partner) := by
      intro member
      rcases Finset.mem_insert.mp member with same | member
      · exact notLower same.symm
      · exact presentB (Finset.mem_of_mem_erase member)
    have stillA := Finset.mem_insert_of_mem (b := b) presentA
    have kept : b ≠ a.partner := fun same => notPartner (partner_eq_comm.mp same.symm)
    rw [release_top presentA, release_absent absentB, release_absent presentB, release_top stillA,
      Finset.erase_insert_of_ne kept, Finset.insert_comm]

/-- Blocks that are put in as they are, unless they are partners of each other. -/
theorem release_comm_absent (apart : Apart₂ free a b) (levels : a.order + ra = b.order + rb)
    (absentA : a.partner ∉ free) (absentB : b.partner ∉ free) :
    release rb (release ra free a) b = release ra (release rb free b) a := by
  rw [release_absent absentA, release_absent absentB]
  by_cases partners : a.partner = b
  · subst partners
    have same : rb = ra := by
      rw [partner_order] at levels
      omega
    subst same
    have presentA : a.partner ∈ insert a.partner free := Finset.mem_insert_self _ _
    have presentB : a.partner.partner ∈ insert a free := by
      rw [partner_partner]
      exact Finset.mem_insert_self _ _
    cases rb with
    | zero =>
        rw [release_top presentA, release_top presentB, partner_partner, merge_partner,
          partner_order, Finset.erase_insert apart.left.notMem, Finset.erase_insert absentA]
    | succ rounds =>
        rw [release_present presentA, release_present presentB, partner_partner, merge_partner,
          Finset.erase_insert apart.left.notMem, Finset.erase_insert absentA]
  · have stillA : a.partner ∉ insert b free := by
      rw [Finset.mem_insert, not_or]
      exact ⟨partners, absentA⟩
    have stillB : b.partner ∉ insert a free := by
      rw [Finset.mem_insert, not_or]
      exact ⟨fun same => partners (partner_eq_comm.mp same), absentB⟩
    rw [release_absent stillA, release_absent stillB, Finset.insert_comm]

theorem release_comm_merge (apart : Apart₂ free a b) (present : a.partner ∈ free)
    (merged : release rb (release ra (free.erase a.partner) a.merge) b =
      release ra (release rb (free.erase a.partner) b) a.merge) :
    release rb (release (ra + 1) free a) b = release (ra + 1) (release rb free b) a := by
  rw [release_present present, merged, release_present_after apart present]

/-- Releasing two blocks leads to the same set in either order. -/
theorem release_comm (apart : Apart₂ free a b) (levels : a.order + ra = b.order + rb) :
    release rb (release ra free a) b = release ra (release rb free b) a := by
  generalize measure : ra + rb = total
  induction total using Nat.strong_induction_on generalizing free a b ra rb with
  | _ total ih =>
      by_cases mergeA : a.partner ∈ free ∧ ra ≠ 0
      · obtain ⟨presentA, below⟩ := mergeA
        obtain ⟨ra, rfl⟩ := Nat.exists_eq_succ_of_ne_zero below
        have higher : a.merge.order + ra = b.order + rb := by
          rw [merge_order]
          omega
        exact release_comm_merge apart presentA
          (ih (ra + rb) (by omega) (apart.merge presentA) higher rfl)
      · by_cases mergeB : b.partner ∈ free ∧ rb ≠ 0
        · obtain ⟨presentB, below⟩ := mergeB
          obtain ⟨rb, rfl⟩ := Nat.exists_eq_succ_of_ne_zero below
          have higher : b.merge.order + rb = a.order + ra := by
            rw [merge_order]
            omega
          exact (release_comm_merge apart.symm presentB
            (ih (rb + ra) (by omega) (apart.symm.merge presentB) higher rfl)).symm
        · -- neither block can be merged below the top
          have stopA : a.partner ∈ free → ra = 0 :=
            fun present => Classical.not_not.mp fun below => mergeA ⟨present, below⟩
          have stopB : b.partner ∈ free → rb = 0 :=
            fun present => Classical.not_not.mp fun below => mergeB ⟨present, below⟩
          by_cases presentA : a.partner ∈ free
          · cases stopA presentA
            exact release_comm_top apart presentA stopB
          · by_cases presentB : b.partner ∈ free
            · cases stopB presentB
              exact (release_comm_top apart.symm presentB stopA).symm
            · exact release_comm_absent apart levels presentA presentB

/-! Aligned sets. -/

theorem Aligned.eq_of_shared (first : a.Aligned) (second : b.Aligned) (order : a.order = b.order)
    (inFirst : point ∈ a.extent.points) (inSecond : point ∈ b.extent.points) : a = b := by
  have forth := mem_points.mp (first.nested second order.le inFirst inSecond a.start_mem)
  have back := mem_points.mp (second.nested first order.ge inSecond inFirst b.start_mem)
  have start : a.start = b.start := Nat.le_antisymm back.1 forth.1
  cases a
  cases b
  simp_all

/-- A coalesced set that covers an aligned block does not cut it up. -/
theorem not_cut (alignedA : a.Aligned) (alignedOthers : ∀ b ∈ others, b.Aligned)
    (coalesced : Coalesced top others) (belowTop : a.order ≤ top)
    (once : ∀ point, cover (extents others) point ≤ 1)
    (covered : ∀ point ∈ a.extent.points, 0 < cover (extents others) point) (inside : b ∈ others)
    (smaller : b.order < a.order) (within : b.extent.points ⊆ a.extent.points) : False := by
  -- the smallest block inside `a`; its partner also lies inside `a`
  let candidates := others.filter fun b => b.order < a.order ∧ b.extent.points ⊆ a.extent.points
  have nonempty : candidates.Nonempty := ⟨b, Finset.mem_filter.mpr ⟨inside, smaller, within⟩⟩
  obtain ⟨c, member, least⟩ := Finset.exists_min_image candidates Block.order nonempty
  obtain ⟨listedC, smallerC, withinC⟩ := Finset.mem_filter.mp member
  have alignedC := alignedOthers c listedC
  have mergeWithin : c.merge.extent.points ⊆ a.extent.points :=
    alignedC.merge.nested alignedA smallerC (c.mem_merge (.inl c.start_mem)) (withinC c.start_mem)
  have inPartner := c.partner.start_mem
  have inMerge := c.mem_merge (.inr inPartner)
  obtain ⟨d, listedD, inD⟩ := exists_of_cover_pos (covered c.partner.start (mergeWithin inMerge))
  have alignedD := alignedOthers d listedD
  have apartD (inside : c.start ∈ d.extent.points) (different : c ≠ d) : False := by
    have twice := two_le_cover listedC listedD different c.start_mem inside
    have atMost := once c.start
    omega
  by_cases largerThanA : a.order ≤ d.order
  · -- `d` holds all of `a`, and `c` with it
    apply apartD (alignedA.nested alignedD largerThanA (mergeWithin inMerge) inD (withinC c.start_mem))
    intro same
    subst same
    omega
  · have withinD := alignedD.nested alignedA (by omega) inD (mergeWithin inMerge)
    have atLeast := least d (Finset.mem_filter.mpr ⟨listedD, by omega, withinD⟩)
    by_cases sameOrder : d.order = c.order
    · -- `d` is the partner of `c`
      have isPartner := alignedD.eq_of_shared alignedC.partner sameOrder inD inPartner
      exact coalesced c listedC (by omega) (isPartner ▸ listedD)
    · have holdsMerge := alignedC.merge.nested alignedD (by rw [merge_order]; omega) inMerge inD
      apply apartD (holdsMerge (c.mem_merge (.inl c.start_mem)))
      intro same
      subst same
      exact sameOrder rfl

/-- An aligned block that is free page by page lies in a free block. -/
theorem exists_holding (alignedA : a.Aligned) (aligned : ∀ b ∈ free, b.Aligned)
    (coalesced : Coalesced top free) (belowTop : a.order ≤ top)
    (once : ∀ point, cover (extents free) point ≤ 1)
    (covered : ∀ point ∈ a.extent.points, 0 < cover (extents free) point) :
    ∃ b ∈ free, a.order ≤ b.order ∧ a.extent.points ⊆ b.extent.points := by
  obtain ⟨b, listed, inside⟩ := exists_of_cover_pos (covered a.start a.start_mem)
  have alignedB := aligned b listed
  rcases Nat.lt_or_ge b.order a.order with smaller | reach
  · have within := alignedB.nested alignedA smaller.le inside a.start_mem
    exact (not_cut alignedA aligned coalesced belowTop once covered listed smaller within).elim
  · exact ⟨b, listed, reach, alignedA.nested alignedB reach a.start_mem inside⟩

section Unique

variable (aligned : ∀ b ∈ free, b.Aligned) (alignedOthers : ∀ b ∈ others, b.Aligned)
  (coalesced : Coalesced top others) (orders : ∀ b ∈ free, b.order ≤ top)
  (same : ∀ point, cover (extents free) point = cover (extents others) point)
  (once : ∀ point, cover (extents others) point ≤ 1)

include aligned alignedOthers coalesced orders same once

/-- A coalesced set does not cut up an aligned block that another set keeps whole. -/
theorem not_nested (listed : a ∈ free) (inside : b ∈ others) (smaller : b.order < a.order)
    (within : b.extent.points ⊆ a.extent.points) : False := by
  refine not_cut (aligned a listed) alignedOthers coalesced (orders a listed) once ?_ inside smaller
    within
  intro point member
  rw [← same]
  exact cover_pos_of_mem listed member

end Unique

theorem coalesced_subset (aligned : ∀ b ∈ free, b.Aligned) (alignedOthers : ∀ b ∈ others, b.Aligned)
    (coalesced : Coalesced top free) (coalescedOthers : Coalesced top others)
    (orders : ∀ b ∈ free, b.order ≤ top) (ordersOthers : ∀ b ∈ others, b.order ≤ top)
    (same : ∀ point, cover (extents free) point = cover (extents others) point)
    (once : ∀ point, cover (extents others) point ≤ 1) : free ⊆ others := by
  intro b listed
  have covered : 0 < cover (extents others) b.start := by
    rw [← same]
    exact cover_pos_of_mem listed b.start_mem
  obtain ⟨c, listedC, inside⟩ := exists_of_cover_pos covered
  have alignedB := aligned b listed
  have alignedC := alignedOthers c listedC
  have onceFree : ∀ point, cover (extents free) point ≤ 1 := fun point => same point ▸ once point
  rcases Nat.lt_trichotomy b.order c.order with smaller | equal | larger
  · have within := alignedB.nested alignedC smaller.le b.start_mem inside
    exact (not_nested alignedOthers aligned coalesced ordersOthers (fun point => (same point).symm)
      onceFree listedC listed smaller within).elim
  · rw [alignedB.eq_of_shared alignedC equal b.start_mem inside]
    exact listedC
  · have within := alignedC.nested alignedB larger.le inside b.start_mem
    exact (not_nested aligned alignedOthers coalescedOthers orders same once listed listedC larger
      within).elim

/-- A coalesced set of aligned blocks is determined by what it covers. -/
theorem coalesced_unique (aligned : ∀ b ∈ free, b.Aligned) (alignedOthers : ∀ b ∈ others, b.Aligned)
    (coalesced : Coalesced top free) (coalescedOthers : Coalesced top others)
    (orders : ∀ b ∈ free, b.order ≤ top) (ordersOthers : ∀ b ∈ others, b.order ≤ top)
    (same : ∀ point, cover (extents free) point = cover (extents others) point)
    (once : ∀ point, cover (extents others) point ≤ 1) : free = others := by
  have onceFree : ∀ point, cover (extents free) point ≤ 1 := fun point => same point ▸ once point
  apply Finset.Subset.antisymm
  · exact coalesced_subset aligned alignedOthers coalesced coalescedOthers orders ordersOthers same once
  · exact coalesced_subset alignedOthers aligned coalescedOthers coalesced ordersOthers orders
      (fun point => (same point).symm) onceFree

end Block

end Ucore.Data
