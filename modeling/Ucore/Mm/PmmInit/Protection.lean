import Ucore.Mm.PmmInit.Progress

namespace Ucore.Mm.PmmInit

open Ucore.Data Ucore.Driver Buddy PageInit Extent

/-! After `pmm_init` the kernel and the descriptors are safe from every client. -/

variable {layout : Layout} {kernelEnd base n address : Nat} {info : MemoryInfo}
  {memory after : BuddyMemory} {result : Mm.PageInit}

/-- The frames behind an outstanding block. -/
def blockFrames (allocation : Allocation) : Extent :=
  frames allocation.page (2 ^ (blockOf allocation).order)

/-- The outstanding blocks lie in the reported memory, off the kernel and the descriptors, and no two
of them share a frame. -/
structure Protected (kernelEnd : Nat) (info : MemoryInfo) (result : Mm.PageInit)
    (outstanding : List Allocation) : Prop where
  usable : ∀ allocation ∈ outstanding,
    (blockFrames allocation).points ⊆ (⟨info.memoryBase, info.memorySize⟩ : Extent).points
  kernel : ∀ allocation ∈ outstanding,
    Disjoint (blockFrames allocation).points (kernelImage kernelEnd).points
  descriptors : ∀ allocation ∈ outstanding,
    Disjoint (blockFrames allocation).points (descriptorArray result.pages result.npage).points
  apart : outstanding.Pairwise fun first second =>
    Disjoint (blockFrames first).points (blockFrames second).points

theorem mem_frames {index : Nat} (few : index + nbase < 2 ^ 52) :
    address ∈ (frames index n).points ↔
      nbase ≤ address / PGSIZE ∧ address / PGSIZE - nbase ∈ (⟨index, n⟩ : Extent).points := by
  simp only [frames, PageArray.page2pa_eq few, mem_points, PGSIZE]
  omega

theorem frames_subset {index count : Nat} (few : index + nbase < 2 ^ 52) (fewer : base + nbase < 2 ^ 52)
    (within : (⟨index, count⟩ : Extent).points ⊆ (⟨base, n⟩ : Extent).points) :
    (frames index count).points ⊆ (frames base n).points := by
  intro address inside
  rw [mem_frames few] at inside
  exact (mem_frames fewer).mpr ⟨inside.1, within inside.2⟩

theorem frames_disjoint {index count : Nat} (few : index + nbase < 2 ^ 52)
    (fewer : base + nbase < 2 ^ 52)
    (apart : Disjoint (⟨index, count⟩ : Extent).points (⟨base, n⟩ : Extent).points) :
    Disjoint (frames index count).points (frames base n).points := by
  rw [disjoint_iff] at apart ⊢
  intro address first second
  rw [mem_frames few] at first
  rw [mem_frames fewer] at second
  exact apart _ first.2 second.2

theorem protected_of_sound {client : Client BuddyMemory} {free : Finset Block}
    (sound : Sound layout base n client free) (few : base + n + nbase < 2 ^ 52)
    (usable : (frames base n).points ⊆ (⟨info.memoryBase, info.memorySize⟩ : Extent).points)
    (kernel : Disjoint (frames base n).points (kernelImage kernelEnd).points)
    (array : Disjoint (frames base n).points (descriptorArray result.pages result.npage).points) :
    Protected kernelEnd info result client.outstanding := by
  have within (allocation : Allocation) (member : allocation ∈ client.outstanding) :
      (blockOf allocation).extent.points ⊆ (⟨base, n⟩ : Extent).points :=
    sound.consistent.packs.subset (Multiset.mem_add.mpr (.inr (Multiset.mem_coe.mpr
      (List.mem_map.mpr ⟨allocation, member, rfl⟩))))
  have below (allocation : Allocation) (member : allocation ∈ client.outstanding) :
      allocation.page + nbase < 2 ^ 52 := by
    have bounds := mem_points.mp (within allocation member (Block.start_mem _))
    simp only [blockOf] at bounds
    omega
  have inside (allocation : Allocation) (member : allocation ∈ client.outstanding) :
      (blockFrames allocation).points ⊆ (frames base n).points :=
    frames_subset (below allocation member) (by omega) (within allocation member)
  have owned : Packs (owned client.outstanding : Multiset Extent) ⟨base, n⟩ :=
    sound.consistent.packs.mono fun point => by
      rw [cover_add]
      exact Nat.le_add_left _ _
  refine ⟨fun allocation member => (inside allocation member).trans usable,
    fun allocation member => Finset.disjoint_of_subset_left (inside allocation member) kernel,
    fun allocation member => Finset.disjoint_of_subset_left (inside allocation member) array, ?_⟩
  refine (List.pairwise_map.mp owned.pairwise).imp_of_mem fun first second apart => ?_
  exact frames_disjoint (below _ first) (below _ second) apart

/-- Whatever device tree the kernel boots with, and whatever its clients request afterwards, no
outstanding block ever holds a frame of the kernel, of the descriptors or of another block. -/
theorem kernInit_protects {blob : KernelMemory} {bootDtb : Nat} {last : Client BuddyMemory}
    {trace : List (Client BuddyMemory × Request)}
    (placed : layout.pages = ROUNDUP kernelEnd PGSIZE)
    (done : Returns (kernInit layout blob bootDtb kernelEnd memory) (info, result, after))
    (map : MemoryMap kernelEnd info)
    (run : Run (Step (buddyPmmManager layout)) ⟨after, []⟩ trace last) :
    (∀ taken ∈ trace, Protected kernelEnd info result taken.1.outstanding) ∧
      Protected kernelEnd info result last.outstanding := by
  obtain ⟨fuel, done⟩ := done.some_fuel
  simp only [kernInit, bind_eq_ok] at done
  obtain ⟨_, _, ⟨initial, ready⟩, initialise, same⟩ := done
  cases same
  obtain ⟨_, index, n, client, check, initialised, call, inside, booted, checked⟩ :=
    pmmInit_run map placed initialise
  obtain ⟨_, other, isBase, _, _, usable, kernel, array⟩ := initialised.handover _ n call
  have range := map.range
  have most : initial.npage < 2 ^ 52 := by
    rw [initialised.npage, PGSIZE]
    omega
  have base : nbase < 2 ^ 20 := by decide
  cases pageAt_inj (by omega) (by omega) isBase
  obtain ⟨passed, _, sound⟩ := sound_run booted (checked.append run)
  refine ⟨fun taken member => ?_, protected_of_sound sound (by omega) usable kernel array⟩
  obtain ⟨_, sound⟩ := passed taken (List.mem_append_right check member)
  exact protected_of_sound sound (by omega) usable kernel array

theorem kernInit_protects_small : ∃ info result after page last,
    Returns (kernInit smallLayout smallBlob 0x82200000 0xFFFFFFFFC020A000 bootMemory)
      (info, result, after) ∧
    Run (Step (buddyPmmManager smallLayout)) ⟨after, []⟩ [(⟨after, []⟩, .alloc 3)] last ∧
    last.outstanding = [⟨page, 3⟩] ∧
    Protected 0xFFFFFFFFC020A000 info result last.outstanding := by
  obtain ⟨⟨info, result, after⟩, done, range, intact⟩ := small_state
  obtain ⟨page, next, granted, _⟩ := @Intact.grants _ _ _ _ 3 _ intact (by decide) (by decide)
    (by decide +kernel) ⟨528, by decide +kernel⟩
  have run : Run (Step (buddyPmmManager smallLayout)) ⟨after, []⟩ [(⟨after, []⟩, .alloc 3)]
      ⟨next, [⟨page, 3⟩]⟩ := .step (.allocated granted) (.done _)
  simp only at range
  refine ⟨info, result, after, page, _, done, run, rfl, ?_⟩
  exact (kernInit_protects small_placed done (range ▸ small_map) run).2

end Ucore.Mm.PmmInit
