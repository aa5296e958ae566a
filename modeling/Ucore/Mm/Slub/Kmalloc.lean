import Ucore.Mm.Slub.Operations

namespace Ucore.Mm.Slub

open Ucore.Data

/-! What `kmalloc` can do in a sound state. -/

variable {bytes : Bytes} {memory after : SlubMemory} {live : List Object} {f head size ptr : Nat}
  {slabs more : Nat → List Nat} {use uses : Nat → Option Use} {source : Nat → Option Nat}
  {pages : List Nat}

/-- How many pages `kmalloc` asks for when it needs new ones. -/
def neededPages (size : Nat) : Nat :=
  if size ≤ PGSIZE then 1 else uint64 (size + PGSIZE - 1) / PGSIZE

inductive Outcome (source : Nat → Option Nat) (memory : SlubMemory) (live : List Object)
    (slabs : Nat → List Nat) (use : Nat → Option Use) (size : Nat) :
    Nat → SlubMemory → (Nat → List Nat) → (Nat → Option Use) → Prop where
  | refused (cause : size = 0 ∨ source (neededPages size) = none) :
      Outcome source memory live slabs use size NULL memory slabs use
  | reused {f ptr : Nat} {after : SlubMemory} (small : size ≤ PGSIZE)
      (member : f ∈ slabs (sizeToIndex size)) (slot : ptr ∈ slots (kva f) (sizeToIndex size))
      (sound : Sound ⟨after, ⟨ptr, size⟩ :: live⟩ slabs use)
      (untouched : Untouched memory.bytes after.bytes live) :
      Outcome source memory live slabs use size ptr after slabs use
  | grown {f ptr : Nat} {after : SlubMemory} (small : size ≤ PGSIZE)
      (full : ∀ f ∈ slabs (sizeToIndex size), SlabPage memory.bytes live (sizeToIndex size) (kva f) [])
      (slot : ptr ∈ slots (kva f) (sizeToIndex size))
      (sound : Sound ⟨after, ⟨ptr, size⟩ :: live⟩
        (Function.update slabs (sizeToIndex size) (f :: slabs (sizeToIndex size)))
        (Function.update use f (some (.slab (sizeToIndex size)))))
      (untouched : Untouched memory.bytes after.bytes live) :
      Outcome source memory live slabs use size ptr after
        (Function.update slabs (sizeToIndex size) (f :: slabs (sizeToIndex size)))
        (Function.update use f (some (.slab (sizeToIndex size))))
  | block {f : Nat} {after : SlubMemory} {uses : Nat → Option Use} (large : PGSIZE < size)
      (granted : source (neededPages size) = some f) (enough : size ≤ neededPages size * PGSIZE)
      (sound : Sound ⟨after, ⟨kva f, size⟩ :: live⟩ slabs uses)
      (untouched : after.bytes = memory.bytes) :
      Outcome source memory live slabs use size (kva f) after slabs uses

theorem findSlab_steady (bytes : Bytes) (sp : Nat) : Steady fun fuel => findSlab bytes fuel sp := by
  intro fuel result done
  induction fuel generalizing sp with
  | zero => cases done
  | succ fuel ih =>
      simp only [findSlab] at done ⊢
      split at done
      · rename_i ends
        rwa [if_pos ends]
      · rename_i valid
        rw [if_neg valid]
        split at done
        · rename_i found
          rwa [if_pos found]
        · rename_i full
          rw [if_neg full]
          exact ih _ done

theorem kmalloc_steady (source : Nat → Option Nat) (memory : SlubMemory) (size : Nat) :
    Steady (kmalloc source memory size) := by
  intro fuel result done
  unfold kmalloc at done ⊢
  split at done
  · rename_i zero
    rwa [if_pos zero]
  · rename_i positive
    rw [if_neg positive]
    split at done
    · rename_i large
      rwa [if_pos large]
    · rename_i small
      rw [if_neg small]
      exact ((findSlab_steady _ _).bind fun _ => .constant _) _ _ done

theorem findSlab_returns (chain : Chain (slabNext.get bytes) NULL head (pages.map kva)) :
    (∃ f ∈ pages, slabFreeList.get bytes (kva f) ≠ NULL ∧
        Returns (fun fuel => findSlab bytes fuel head) (kva f)) ∨
      ((∀ f ∈ pages, slabFreeList.get bytes (kva f) = NULL) ∧
        Returns (fun fuel => findSlab bytes fuel head) NULL) := by
  induction pages generalizing head with
  | nil =>
      refine .inr ⟨fun f member => absurd member List.not_mem_nil, ?_⟩
      refine Returns.round (Returns.of_constant fun fuel => ?_)
      rw [findSlab, if_pos (show head = NULL from chain)]
  | cons f pages ih =>
      obtain ⟨first, valid, onward⟩ := chain
      by_cases free : slabFreeList.get bytes (kva f) = NULL
      · have next {found : Nat} (later : Returns (fun fuel => findSlab bytes fuel
            (slabNext.get bytes (kva f))) found) :
            Returns (fun fuel => findSlab bytes fuel head) found := by
          refine Returns.round ?_
          simpa only [findSlab, first, if_neg valid, free, ne_eq, not_true_eq_false, if_false] using later
        rcases ih onward with found | none
        · obtain ⟨g, member, some, returns⟩ := found
          exact .inl ⟨g, List.mem_cons_of_mem _ member, some, next returns⟩
        · obtain ⟨full, returns⟩ := none
          refine .inr ⟨fun g member => ?_, next returns⟩
          rcases List.mem_cons.mp member with rfl | later
          · exact free
          · exact full g later
      · refine .inl ⟨f, List.mem_cons_self .., free, ?_⟩
        refine Returns.round (Returns.of_constant fun fuel => ?_)
        rw [findSlab, first, if_neg valid, if_pos free]

/-- The part of `kmalloc` after the search. -/
theorem kmalloc_search (positive : size ≠ 0) (small : size ≤ PGSIZE) : kmalloc source memory size =
    fun fuel => findSlab memory.bytes fuel (memory.caches (sizeToIndex size)).pages >>= fun found =>
      let (sp, memory) := if found = NULL then allocSlabPage source memory (sizeToIndex size)
        else (found, memory)
      if sp = NULL then .ok (NULL, memory) else takeObject memory sp := by
  funext fuel
  have notLarge : ¬ size > 1 <<< SLUB_MAX_SHIFT := Nat.not_lt.mpr small
  rw [kmalloc, if_neg positive, if_neg notLarge]

theorem Sound.kmalloc_large (sound : Sound ⟨memory, live⟩ slabs use) (wide : size < 2 ^ 64)
    (grants : Grants memory.frames source) (large : PGSIZE < size) :
    ∃ ptr after more uses, Returns (kmalloc source memory size) (ptr, after) ∧
      Outcome source memory live slabs use size ptr after more uses := by
  have positive : size ≠ 0 := by omega
  have isLarge : size > 1 <<< SLUB_MAX_SHIFT := large
  have pages : neededPages size = uint64 (size + PGSIZE - 1) / PGSIZE := if_neg (by omega)
  cases granted : source (neededPages size) with
  | none =>
      refine ⟨NULL, memory, slabs, use, Returns.of_constant fun fuel => ?_, .refused (.inr granted)⟩
      rw [pages] at granted
      simp only [kmalloc, if_neg positive, if_pos isLarge, slubAllocPages, granted]
  | some g =>
      -- a size that wraps around needs no page, and none is granted
      obtain ⟨some, within, _⟩ := grants _ g granted
      have enough : size ≤ neededPages size * PGSIZE := by
        rw [pages] at some ⊢
        simp only [uint64, PGSIZE] at *
        omega
      have mapped : g < mappedPages := by omega
      refine ⟨kva g, _, slabs, _, Returns.of_constant fun fuel => ?_,
        .block large granted enough (sound.block grants granted large enough) rfl⟩
      rw [pages] at granted
      simp only [kmalloc, if_neg positive, if_pos isLarge, slubAllocPages, granted, kva_eq mapped, pages]

/-- When no page has a free object, a new one is asked for.  In the last cache it has no room for an
object, and the null pointer in its header is followed. -/
theorem Sound.kmalloc_grow (sound : Sound ⟨memory, live⟩ slabs use) (positive : size ≠ 0)
    (small : size ≤ PGSIZE) (grants : Grants memory.frames source)
    (searched : Returns (fun fuel => findSlab memory.bytes fuel
      (memory.caches (sizeToIndex size)).pages) NULL)
    (full : ∀ f ∈ slabs (sizeToIndex size), SlabPage memory.bytes live (sizeToIndex size) (kva f) []) :
    (∃ ptr after more uses, Returns (kmalloc source memory size) (ptr, after) ∧
        Outcome source memory live slabs use size ptr after more uses) ∨
      (2048 < size ∧ size ≤ PGSIZE ∧ source 1 ≠ none ∧
        ∀ result, ¬ Returns (kmalloc source memory size) result) := by
  have cache := (sizeToIndex_spec small).1
  have one : neededPages size = 1 := if_pos small
  rw [kmalloc_search positive small]
  cases granted : source 1 with
  | none =>
      refine .inl ⟨NULL, memory, slabs, use, searched.bind (Returns.of_constant fun fuel => ?_),
        .refused (.inr (one ▸ granted))⟩
      simp only [if_true, allocSlabPage, slubAllocPages, granted]
  | some g =>
      obtain ⟨grown, allocated, next, page, same⟩ := sound.grow cache grants granted
      cases free : (slots (kva g) (sizeToIndex size)).reverse with
      | nil =>
          right
          rw [free] at page
          have noSlots := congrArg List.length free
          rw [List.length_reverse, slots_length] at noSlots
          have top : ¬ sizeToIndex size ≤ 8 := fun early =>
            Nat.ne_of_gt (slotCount_pos early) noSlots
          have last : sizeToIndex size = 9 := by
            rw [ncache] at cache
            omega
          refine ⟨(sizeToIndex_spec small).2.2.mp last, small, by simp, ?_⟩
          have null : slabFreeList.get grown.bytes (kva g) = NULL := page.chain
          refine searched.bind_error (.panic "load page fault") fun fuel => ?_
          simp only [if_true, allocated, if_neg (kva_ne_null g), takeObject, null]
      | cons obj rest =>
          have member : g ∈ Function.update slabs (sizeToIndex size) (g :: slabs (sizeToIndex size))
              (sizeToIndex size) := Placed.mem_new_slab.mpr (.inl ⟨rfl, rfl⟩)
          rw [free] at page
          obtain ⟨after, taken, last, untouched⟩ := next.take small member page
          refine .inl ⟨obj, _, _, _, searched.bind (Returns.of_constant fun fuel => ?_),
            .grown small full (page.free_slot (List.mem_cons_self ..)) last ?_⟩
          · simp only [if_true, allocated, if_neg (kva_ne_null g), taken]
          · intro object isLive place inside
            exact (untouched object isLive place inside).trans (same object isLive place inside)

/-- Every size is served or refused, but for the sizes of the last cache when a page is granted. -/
theorem Sound.kmalloc_cases (sound : Sound ⟨memory, live⟩ slabs use) (wide : size < 2 ^ 64)
    (grants : Grants memory.frames source) :
    (∃ ptr after more uses, Returns (kmalloc source memory size) (ptr, after) ∧
        Outcome source memory live slabs use size ptr after more uses) ∨
      (2048 < size ∧ size ≤ PGSIZE ∧ source 1 ≠ none ∧
        ∀ result, ¬ Returns (kmalloc source memory size) result) := by
  by_cases zero : size = 0
  · refine .inl ⟨NULL, memory, slabs, use, Returns.of_constant fun fuel => ?_, .refused (.inl zero)⟩
    rw [kmalloc, if_pos zero]
  rcases Nat.lt_or_ge PGSIZE size with large | small
  · exact .inl (sound.kmalloc_large wide grants large)
  · have cache := (sizeToIndex_spec small).1
    rcases findSlab_returns (sound.chain _ cache) with found | notFound
    · left
      obtain ⟨f, member, some, searched⟩ := found
      obtain ⟨free, page⟩ := sound.page _ cache f member
      cases free with
      | nil => exact absurd page.chain some
      | cons obj rest =>
          obtain ⟨after, taken, next, untouched⟩ := sound.take small member page
          rw [kmalloc_search zero small]
          refine ⟨obj, _, slabs, use, searched.bind (Returns.of_constant fun fuel => ?_),
            .reused small member (page.free_slot (List.mem_cons_self ..)) next untouched⟩
          simp only [if_neg (kva_ne_null f), taken]
    · obtain ⟨full, searched⟩ := notFound
      refine sound.kmalloc_grow zero small grants searched fun f member => ?_
      obtain ⟨free, page⟩ := sound.page _ cache f member
      have empty := page.chain.empty_iff.mpr (full f member)
      rwa [empty] at page

end Ucore.Mm.Slub
