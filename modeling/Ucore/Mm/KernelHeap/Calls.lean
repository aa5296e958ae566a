import Ucore.Mm.KernelHeap
import Ucore.Mm.Slub.Isolation

namespace Ucore.Mm.Slub

open Ucore.Data Extent

/-! What a call of the object allocator does with the page allocator, and where it writes. -/

section Calls

variable {σ : Type} {manager : PmmManager σ} {heap after : KernelHeap σ} {size ptr fuel n : Nat}
  {answer : Option Nat}

/-- What the page allocator answers when it is asked for `n` pages. -/
def answering (n : Nat) (answer : Option Nat) (m : Nat) : Option Nat :=
  if m = n then answer else none

theorem answering_self : answering n answer n = answer := if_pos rfl

theorem neededPages_large (large : size > 1 <<< SLUB_MAX_SHIFT) :
    neededPages size = uint64 (size + PGSIZE - 1) / PGSIZE :=
  if_neg (Nat.not_le.mpr large)

theorem neededPages_small (small : ¬ size > 1 <<< SLUB_MAX_SHIFT) : neededPages size = 1 :=
  if_pos (Nat.not_lt.mp small)

theorem allocSlabPage_answering (memory : SlubMemory) (i : Nat) (answer : Option Nat) :
    allocSlabPage (answering 1 answer) memory i = allocSlabPage (fun _ => answer) memory i := by
  simp only [allocSlabPage, slubAllocPages, answering_self]

theorem allocSlabPage_frames (source : Nat → Option Nat) (memory : SlubMemory) (i : Nat) :
    (allocSlabPage source memory i).2.frames = (slubAllocPages source memory 1).2.frames := by
  cases granted : source 1 <;> simp only [allocSlabPage, slubAllocPages, granted]

theorem takeObject_frames {memory taken : SlubMemory} {sp obj : Nat}
    (done : takeObject memory sp = .ok (obj, taken)) : taken.frames = memory.frames := by
  simp only [takeObject] at done
  split at done
  · cases done
  · cases done
    rfl

theorem kmalloc_small {source : Nat → Option Nat} {memory : SlubMemory} {found : Nat}
    (positive : size ≠ 0) (small : ¬ size > 1 <<< SLUB_MAX_SHIFT)
    (searched : findSlab memory.bytes fuel (memory.caches (sizeToIndex size)).pages = .ok found) :
    kmalloc source memory size fuel =
      let (sp, memory) := if found = NULL then allocSlabPage source memory (sizeToIndex size)
        else (found, memory)
      if sp = NULL then .ok (NULL, memory) else takeObject memory sp := by
  rw [kmalloc, if_neg positive, if_neg small]
  simp only [searched, ok_bind]

theorem kernelAllocSlabPage_ok {i sp : Nat}
    (done : kernelAllocSlabPage manager heap i fuel = .ok (sp, after)) :
    ∃ answer, manager.allocPages heap.pages 1 fuel = .ok (answer, after.pages) ∧
      allocSlabPage (fun _ => answer) heap.slub i = (sp, after.slub) := by
  obtain ⟨⟨answer, pages⟩, asked, done⟩ := bind_eq_ok.mp done
  obtain ⟨rfl, rfl⟩ := Prod.mk.inj (Except.ok.inj done)
  exact ⟨answer, asked, rfl⟩

/-- A call asks the manager at most once, and does with its answer what `kmalloc` does. -/
theorem kernelKmalloc_ok (done : kernelKmalloc manager heap size fuel = .ok (ptr, after)) :
    ((∀ source, kmalloc source heap.slub size fuel = .ok (ptr, after.slub)) ∧
        after.pages = heap.pages ∧ after.slub.frames = heap.slub.frames) ∨
      ∃ answer, manager.allocPages heap.pages (neededPages size) fuel = .ok (answer, after.pages) ∧
        kmalloc (answering (neededPages size) answer) heap.slub size fuel = .ok (ptr, after.slub) ∧
        after.slub.frames = (slubAllocPages (fun _ => answer) heap.slub (neededPages size)).2.frames := by
  unfold kernelKmalloc at done
  split at done
  · rename_i zero
    cases done
    exact .inl ⟨fun source => by rw [kmalloc, if_pos zero], rfl, rfl⟩
  · rename_i positive
    split at done
    · rename_i large
      rw [neededPages_large large]
      obtain ⟨⟨answer, pages⟩, asked, done⟩ := bind_eq_ok.mp done
      cases answer with
      | none =>
          cases done
          exact .inr ⟨none, asked, by
            simp only [kmalloc, if_neg positive, if_pos large, slubAllocPages, answering_self], rfl⟩
      | some page =>
          obtain ⟨rfl, rfl⟩ := Prod.mk.inj (Except.ok.inj done)
          exact .inr ⟨some page, asked, by
            simp only [kmalloc, if_neg positive, if_pos large, slubAllocPages, answering_self], rfl⟩
    · rename_i small
      rw [neededPages_small small]
      obtain ⟨found, searched, done⟩ := bind_eq_ok.mp done
      obtain ⟨⟨sp, middle⟩, grown, done⟩ := bind_eq_ok.mp done
      by_cases none : found = NULL
      · rw [if_pos none] at grown
        obtain ⟨answer, asked, allocated⟩ := kernelAllocSlabPage_ok grown
        have made := @kmalloc_small _ _ (answering 1 answer) _ _ positive small searched
        rw [if_pos none, allocSlabPage_answering, allocated] at made
        have frames := allocSlabPage_frames (fun _ => answer) heap.slub (sizeToIndex size)
        rw [allocated] at frames
        simp only at done made
        by_cases null : sp = NULL
        · rw [if_pos null] at done made
          cases done
          exact .inr ⟨answer, asked, made, frames⟩
        · rw [if_neg null] at done made
          obtain ⟨⟨obj, slub⟩, taken, done⟩ := bind_eq_ok.mp done
          cases done
          exact .inr ⟨answer, asked, made.trans taken, (takeObject_frames taken).trans frames⟩
      · rw [if_neg none] at grown
        cases grown
        simp only [if_neg none] at done
        obtain ⟨⟨obj, slub⟩, taken, done⟩ := bind_eq_ok.mp done
        cases done
        refine .inl ⟨fun source => ?_, rfl, takeObject_frames taken⟩
        rw [kmalloc_small positive small searched, if_neg none]
        exact (if_neg none).trans taken

theorem kernelGrow_steady (steady : manager.SteadyOps) (heap : KernelHeap σ) (i found : Nat) :
    Steady fun fuel =>
      if found = NULL then kernelAllocSlabPage manager heap i fuel else .ok (found, heap) := by
  by_cases none : found = NULL
  · simp only [if_pos none]
    exact (steady.allocPages _ _).bind fun _ => .constant _
  · simp only [if_neg none]
    exact .constant _

theorem kernelKmalloc_steady (steady : manager.SteadyOps) (heap : KernelHeap σ) (size : Nat) :
    Steady (kernelKmalloc manager heap size) := by
  intro fuel result done
  unfold kernelKmalloc at done ⊢
  split at done
  · rename_i zero
    rwa [if_pos zero]
  · rename_i positive
    rw [if_neg positive]
    split at done
    · rename_i large
      rw [if_pos large]
      exact ((steady.allocPages _ _).bind fun _ => .constant _) _ _ done
    · rename_i small
      rw [if_neg small]
      exact ((findSlab_steady _ _).bind fun found =>
        (kernelGrow_steady steady heap _ found).bind fun _ => .constant _) _ _ done

end Calls

/-! What the object allocator writes lies in pages that it has got. -/

/-- The place is a byte of one of these frames. -/
def Within (frames : List Extent) (place : Nat) : Prop :=
  ∃ frame ∈ frames, ∃ f ∈ frame.points, InPage f place

section Writes

variable {memory after : SlubMemory} {live : List Object} {slabs : Nat → List Nat}
  {use : Nat → Option Use} {source : Nat → Option Nat} {size ptr sp obj f i place : Nat}
  {object : Object}

theorem Sound.within_of_used (sound : Sound ⟨memory, live⟩ slabs use) (used : use f ≠ none)
    (inPage : InPage f place) : Within memory.frames place := by
  obtain ⟨frame, isFrame, inFrame⟩ := sound.held f used
  exact ⟨frame, isFrame, f, inFrame, inPage⟩

theorem Sound.within_of_slab (sound : Sound ⟨memory, live⟩ slabs use) (cache : i < SLUB_NCACHE)
    (member : f ∈ slabs i) (inPage : InPage f place) : Within memory.frames place := by
  refine sound.within_of_used ?_ inPage
  rw [(sound.placed.listed i cache f).mp member]
  exact Option.some_ne_none _

theorem Sound.within_of_live (sound : Sound ⟨memory, live⟩ slabs use) (member : object ∈ live)
    (inside : InRoom object place) : Within memory.frames place := by
  obtain ⟨g, inPage, kind⟩ := sound.placed.page_of member inside
  refine sound.within_of_used ?_ inPage
  rcases kind with ⟨_, used, _⟩ | ⟨_, f, used, _⟩ <;> rw [used] <;> exact Option.some_ne_none _

theorem takeObject_outside (done : takeObject memory sp = .ok (obj, after))
    (outside : ¬ (sp ≤ place ∧ place < sp + PGSIZE)) : after.bytes place = memory.bytes place := by
  simp only [takeObject] at done
  split at done
  · cases done
  · cases done
    simp only [PGSIZE] at outside ⊢
    rw [set_outside, set_outside]
    · simp only [slabFreeList]
      omega
    · simp only [slabUsed]
      omega

theorem Sound.allocSlabPage_within {g : Nat} (sound : Sound ⟨memory, live⟩ slabs use)
    (cache : i < SLUB_NCACHE) (grants : Grants memory.frames source) (granted : source 1 = some g) :
    ∃ middle, allocSlabPage source memory i = (kva g, middle) ∧ ⟨g, 1⟩ ∈ middle.frames ∧
      ∀ place, ¬ InPage g place → middle.bytes place = memory.bytes place := by
  obtain ⟨mapped, _⟩ := sound.fresh grants granted g (Nat.le_refl _) (Nat.lt_succ_self _)
  obtain ⟨bytes, allocated, _, _, outside⟩ := allocSlabPage_ok granted cache mapped
    (show liveIn [] (kva g) = [] from rfl) (sound.objSize i cache) (sound.pages_lt cache)
  exact ⟨_, allocated, List.mem_cons_self .., outside⟩

theorem Sound.kmalloc_within (sound : Sound ⟨memory, live⟩ slabs use)
    (grants : Grants memory.frames source) (result : Returns (kmalloc source memory size) (ptr, after))
    (changed : after.bytes place ≠ memory.bytes place) : Within after.frames place := by
  by_cases zero : size = 0
  · obtain ⟨fuel, done⟩ := result.some_fuel
    rw [kmalloc, if_pos zero] at done
    cases done
    exact absurd rfl changed
  by_cases large : size > 1 <<< SLUB_MAX_SHIFT
  · obtain ⟨fuel, done⟩ := result.some_fuel
    simp only [kmalloc, if_neg zero, if_pos large, slubAllocPages] at done
    cases granted : source (uint64 (size + PGSIZE - 1) / PGSIZE) <;> rw [granted] at done <;>
      obtain ⟨_, rfl⟩ := Prod.mk.inj (Except.ok.inj done) <;> exact absurd rfl changed
  · have small : size ≤ PGSIZE := Nat.not_lt.mp large
    have cache := (sizeToIndex_spec small).1
    have search {found : Nat} (searched : Returns (fun fuel => findSlab memory.bytes fuel
        (memory.caches (sizeToIndex size)).pages) found) :
        (let (sp, memory) := if found = NULL then allocSlabPage source memory (sizeToIndex size)
          else (found, memory)
        if sp = NULL then .ok (NULL, memory) else takeObject memory sp) = Except.ok (ptr, after) := by
      obtain ⟨enough, searched⟩ := searched
      obtain ⟨more, result⟩ := result
      rw [← kmalloc_small zero large (searched (max enough more) (Nat.le_max_left ..))]
      exact result _ (Nat.le_max_right ..)
    rcases findSlab_returns (sound.chain _ cache) with found | none
    · obtain ⟨f, member, _, searched⟩ := found
      have done := search searched
      simp only [if_neg (kva_ne_null f)] at done
      have inPage : InPage f place := by
        by_contra outside
        exact changed (takeObject_outside done outside)
      rw [takeObject_frames done]
      exact sound.within_of_slab cache member inPage
    · have done := search none.2
      rw [if_pos rfl] at done
      cases granted : source 1 with
      | none =>
          simp only [allocSlabPage, slubAllocPages, granted, if_true] at done
          obtain ⟨_, rfl⟩ := Prod.mk.inj (Except.ok.inj done)
          exact absurd rfl changed
      | some g =>
          obtain ⟨middle, allocated, isFrame, outside⟩ :=
            sound.allocSlabPage_within cache grants granted
          simp only [allocated, if_neg (kva_ne_null g)] at done
          refine ⟨⟨g, 1⟩, takeObject_frames done ▸ isFrame, g, mem_points.mpr (by simp), ?_⟩
          by_contra apart
          exact changed ((takeObject_outside done apart).trans (outside place apart))

theorem kfree_frames (memory : SlubMemory) (address : Nat) :
    (kfree memory address).frames = memory.frames := by
  simp only [kfree]
  split
  · rfl
  · split <;> rfl

theorem Sound.kfree_within (sound : Sound ⟨memory, live⟩ slabs use) (member : object ∈ live)
    (changed : (kfree memory object.address).bytes place ≠ memory.bytes place) :
    Within memory.frames place := by
  rcases Nat.lt_or_ge PGSIZE object.size with large | small
  · obtain ⟨after, freed, _, inside⟩ := sound.leak member large
    rw [freed] at changed
    exact sound.within_of_live member (inside place changed)
  · have cache := (sizeToIndex_spec small).1
    obtain ⟨f, inSlabs, slot⟩ := sound.placed.small object member small
    have mapped := sound.placed.slab_mapped cache inSlabs
    obtain ⟨free, page⟩ := sound.page _ cache f inSlabs
    obtain ⟨after, freed, _, _, outside⟩ := kfree_small page cache mapped member small slot
    have bounds := slot_link cache mapped slot
    rw [freed] at changed
    refine sound.within_of_slab cache inSlabs ?_
    by_contra apart
    refine changed (outside place (fun header => apart ?_) fun own => apart ?_)
    · simp only [InPage, slabHeaderSize, PGSIZE] at *
      omega
    · simp only [InPage] at *
      omega

/-- Pages that the object allocator has not got may change. -/
theorem Sound.elsewhere {bytes : Bytes} (sound : Sound ⟨memory, live⟩ slabs use)
    (kept : ∀ place, Within memory.frames place → bytes place = memory.bytes place) :
    Sound ⟨{ memory with bytes }, live⟩ slabs use := by
  have same : ∀ i < SLUB_NCACHE, ∀ f ∈ slabs i, ∀ place, InPage f place →
      bytes place = memory.bytes place := fun i cache f member place inPage =>
    kept place (sound.within_of_slab cache member inPage)
  refine ⟨sound.objSize, fun i cache => ?_, fun i cache f member => ?_, sound.held, sound.placed⟩
  · refine (sound.chain i cache).frame fun address listed => ?_
    obtain ⟨f, member, rfl⟩ := List.mem_map.mp listed
    refine get_congr fun place low high => same i cache f member place ?_
    simp only [InPage, slabNext, PGSIZE] at *
    omega
  · obtain ⟨free, page⟩ := sound.page i cache f member
    exact ⟨free, page.frame_page cache (sound.placed.slab_mapped cache member)
      (fun place low high => same i cache f member place ⟨low, high⟩) (List.Perm.refl _)⟩

end Writes

end Ucore.Mm.Slub
