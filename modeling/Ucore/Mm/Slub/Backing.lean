import Ucore.Mm.Buddy.Invariant
import Ucore.Mm.Slub

namespace Ucore.Mm.Slub

open Ucore.Data Extent

/-! The buddy system is a page allocator that this allocator can rest on. -/

variable {layout : Layout} {memory : BuddyMemory} {client last : Client BuddyMemory} {base n : Nat}
  {trace : List (Client BuddyMemory × Request)} {source : Nat → Option Nat}

/-- The block behind an allocation has all the pages that were asked for. -/
theorem allocation_subset (allocation : Allocation) :
    allocation.extent.points ⊆ (Buddy.blockOf allocation).extent.points := by
  intro point
  have enough : allocation.count ≤ 2 ^ (Buddy.blockOf allocation).order :=
    Nat.le_pow_clog (by decide) _
  simp only [mem_points, Allocation.extent, Block.extent, Buddy.blockOf] at *
  omega

/-- Its answers are pages of the region that no outstanding allocation has. -/
theorem buddy_grants (booted : Booted (buddyPmmManager layout) memory base n client)
    (run : Run (Step (buddyPmmManager layout)) client trace last) (mapped : base + n ≤ mappedPages)
    (answers : ∀ count page, source count = some page →
      ∃ after, Returns (buddyAllocPages layout last.memory count) (some page, after)) :
    Grants (last.outstanding.map Allocation.extent) source := by
  intro count page granted
  obtain ⟨_, free, sound⟩ := Buddy.sound_run booted run
  obtain ⟨after, result⟩ := answers count page granted
  obtain ⟨memory, outstanding⟩ := last
  obtain ⟨_, _, next⟩ := sound.step (.allocated result)
  have packs : Packs (Buddy.owned (⟨page, count⟩ :: outstanding)) ⟨base, n⟩ := fun point =>
    Nat.le_trans (by rw [cover_add]; exact Nat.le_add_left _ _) (next.consistent.packs point)
  have positive := next.consistent.positive ⟨page, count⟩ (List.mem_cons_self ..)
  have own := allocation_subset ⟨page, count⟩
  refine ⟨Nat.pos_of_ne_zero positive, ?_, fun frame isFrame => ?_⟩
  · have inside := packs.subset (Multiset.mem_coe.mpr (List.mem_cons_self ..))
    have last : page + count - 1 ∈ (⟨page, count⟩ : Extent).points :=
      mem_points.mpr (by simp only at positive ⊢; omega)
    have within := mem_points.mp (inside (own last))
    simp only at within positive
    omega
  · obtain ⟨allocation, member, rfl⟩ := List.mem_map.mp isFrame
    have apart := List.rel_of_pairwise_cons packs.pairwise
      (List.mem_map_of_mem (f := fun allocation => (Buddy.blockOf allocation).extent) member)
    exact (apart.mono own (allocation_subset allocation)).symm

end Ucore.Mm.Slub
