import Ucore.Mm.Buddy.Steady

namespace Ucore.Mm.Buddy

open Ucore.Data Ucore.Libs Extent Block

/-! No page is on two lists, owned by two clients, or both. -/

variable {layout : Layout} {memory : BuddyMemory} {client last : Client BuddyMemory}
  {free : Finset Block} {base n : Nat} {trace : List (Client BuddyMemory × Request)}

def listedBlocks (lists : Nat → List Nat) : List Block :=
  (List.range (MAX_ORDER + 1)).flatMap fun order => (lists order).map fun start => ⟨start, order⟩

structure NoOverlap (layout : Layout) (base n : Nat) (client : Client BuddyMemory)
    (lists : Nat → List Nat) : Prop where
  freeList : ∀ order ≤ MAX_ORDER, FreeListOf layout client.memory order (lists order)
  sized : ∀ allocation ∈ client.outstanding,
    Returns (sizeToOrder allocation.count) (blockOf allocation).order
  disjoint : (listedBlocks lists ++ client.outstanding.map blockOf).Pairwise
    fun first second => Disjoint first.extent.points second.extent.points
  inside : ∀ block ∈ listedBlocks lists ++ client.outstanding.map blockOf,
    block.extent.points ⊆ (⟨base, n⟩ : Extent).points

theorem mem_listedBlocks {lists : Nat → List Nat} {block : Block} :
    block ∈ listedBlocks lists ↔ block.order ≤ MAX_ORDER ∧ block.start ∈ lists block.order := by
  simp only [listedBlocks, List.mem_flatMap, List.mem_range, List.mem_map]
  constructor
  · intro found
    obtain ⟨order, bound, start, member, rfl⟩ := found
    exact ⟨Nat.le_of_lt_succ bound, member⟩
  · intro found
    exact ⟨block.order, Nat.lt_succ_of_le found.1, block.start, found.2, rfl⟩

theorem listedBlocks_nodup {lists : Nat → List Nat}
    (distinct : ∀ order ≤ MAX_ORDER, (lists order).Nodup) : (listedBlocks lists).Nodup := by
  refine List.nodup_flatMap.mpr ⟨fun order bound => ?_, ?_⟩
  · have bounded := Nat.le_of_lt_succ (List.mem_range.mp bound)
    exact (distinct order bounded).map fun first second same => congrArg Block.start same
  · refine List.nodup_range.imp fun different block inFirst inSecond => different ?_
    obtain ⟨_, _, rfl⟩ := List.mem_map.mp inFirst
    obtain ⟨_, _, same⟩ := List.mem_map.mp inSecond
    exact (congrArg Block.order same).symm

theorem Holds.listedBlocks_eq {lists : Nat → List Nat} (holds : Holds layout memory free)
    (distinct : ∀ order ≤ MAX_ORDER, (lists order).Nodup)
    (members : ∀ order ≤ MAX_ORDER, ∀ start, start ∈ lists order ↔ ⟨start, order⟩ ∈ free) :
    (listedBlocks lists : Multiset Block) = free.val := by
  have once := listedBlocks_nodup distinct
  refine (Multiset.Nodup.ext (Multiset.coe_nodup.mpr once) free.nodup).mpr fun block => ?_
  rw [Multiset.mem_coe, mem_listedBlocks, Finset.mem_val]
  constructor
  · intro found
    exact (members block.order found.1 block.start).mp found.2
  · intro member
    have bound := holds.order_le member
    exact ⟨bound, (members block.order bound block.start).mpr member⟩

theorem Sound.noOverlap (sound : Sound layout base n client free) :
    ∃ lists, NoOverlap layout base n client lists := by
  obtain ⟨lists, shown⟩ := sound.holds.freeLists
  have all := sound.holds.listedBlocks_eq (fun order bound => (shown order bound).2.1)
    (fun order bound => (shown order bound).2.2)
  have packs : Packs ((listedBlocks lists ++ client.outstanding.map blockOf).map extent)
      ⟨base, n⟩ := by
    have packs := sound.consistent.packs
    rw [extents, ← all, Multiset.map_coe, Multiset.coe_add] at packs
    rw [List.map_append, List.map_map]
    exact packs
  have disjoint := packs.pairwise
  rw [List.pairwise_map] at disjoint
  exact ⟨lists, fun order bound => (shown order bound).1,
    fun allocation member => sound.consistent.sized member, disjoint,
    fun block member => packs.subset (List.mem_map_of_mem member)⟩

/-- No page is ever given to two owners, and no page outside the region to any. -/
theorem no_overlap (booted : Booted (buddyPmmManager layout) memory base n client)
    (run : Run (Step (buddyPmmManager layout)) client trace last) :
    (∀ taken ∈ trace, ∃ lists, NoOverlap layout base n taken.1 lists) ∧
      ∃ lists, NoOverlap layout base n last lists := by
  obtain ⟨passed, free, sound⟩ := sound_run booted run
  refine ⟨fun taken member => ?_, sound.noOverlap⟩
  obtain ⟨free, sound⟩ := passed taken member
  exact sound.noOverlap

theorem no_overlap_served : ∃ client trace last, Booted bootManager bootMemory 1 7 client ∧
    Run (Step bootManager) client trace last ∧
    trace.map Prod.snd = [.alloc 3, .alloc 1, .alloc 1] ∧
    (∀ taken ∈ trace, ∃ lists, NoOverlap bootLayout 1 7 taken.1 lists) ∧
    ∃ lists, NoOverlap bootLayout 1 7 last lists := by
  obtain ⟨client, trace, last, booted, run, labels, _⟩ := unaligned_run
  exact ⟨client, trace, last, booted, run, labels, no_overlap booted run⟩

end Ucore.Mm.Buddy
