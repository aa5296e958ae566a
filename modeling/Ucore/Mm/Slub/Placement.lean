import Ucore.Mm.Slub.Invariant

namespace Ucore.Mm.Slub

open Ucore.Data

/-! Live objects keep apart from each other, from the headers and from the free objects. -/

/-- How many bytes belong to an object; a small one has its whole slot. -/
def room (object : Object) : Nat :=
  if object.size ≤ PGSIZE then classSize (sizeToIndex object.size) else object.size

variable {bytes after : Bytes} {live others : List Object} {i f g place : Nat}
  {slabs more : Nat → List Nat} {use uses : Nat → Option Use} {free : List Nat}
  {object first second : Object}

/-- A page holds the place. -/
def InPage (f place : Nat) : Prop := kva f ≤ place ∧ place < kva f + PGSIZE

def InRoom (object : Object) (place : Nat) : Prop :=
  object.address ≤ place ∧ place < object.address + room object

theorem size_le_room (object : Object) : object.size ≤ room object := by
  rw [room]
  split
  · rename_i small
    exact (sizeToIndex_spec small).2.1
  · exact Nat.le_refl _

theorem inRoom_address (object : Object) : InRoom object object.address := by
  have positive : 0 < room object := by
    rw [room]
    split
    · exact Nat.two_pow_pos _
    · simp only [PGSIZE] at *
      omega
  exact ⟨Nat.le_refl _, Nat.lt_add_of_pos_right positive⟩

theorem page_block {n : Nat} (low : kva f ≤ place) (high : place < kva f + n * PGSIZE) :
    ∃ g, f ≤ g ∧ g < f + n ∧ InPage g place := by
  refine ⟨(place - mappedBase) / PGSIZE, ?_⟩
  simp only [InPage, kva, mappedBase, PGSIZE] at *
  omega

namespace Placed

theorem same_cache (placed : Placed live slabs use) {j : Nat} (cache : i < SLUB_NCACHE)
    (other : j < SLUB_NCACHE) (inFirst : f ∈ slabs i) (inSecond : f ∈ slabs j) : i = j := by
  have left := (placed.listed i cache f).mp inFirst
  have right := (placed.listed j other f).mp inSecond
  rw [left] at right
  cases right
  rfl

theorem slab_mapped (placed : Placed live slabs use) (cache : i < SLUB_NCACHE) (member : f ∈ slabs i) :
    f < mappedPages := by
  apply placed.mapped
  rw [(placed.listed i cache f).mp member]
  exact Option.some_ne_none _

theorem small_bounds (placed : Placed live slabs use) (member : object ∈ live)
    (small : object.size ≤ PGSIZE) : ∃ f, use f = some (.slab (sizeToIndex object.size)) ∧
      object.address ∈ slots (kva f) (sizeToIndex object.size) ∧
      kva f + slabHeaderSize ≤ object.address ∧ object.address + room object ≤ kva f + PGSIZE := by
  obtain ⟨f, inSlabs, slot⟩ := placed.small object member small
  have cache := (sizeToIndex_spec small).1
  have mapped := placed.slab_mapped cache inSlabs
  have bounds := slot_bounds cache mapped slot
  rw [room, if_pos small]
  exact ⟨f, (placed.listed _ cache f).mp inSlabs, slot, bounds⟩

/-- The page of a byte of an object tells what kind of object it is. -/
theorem page_of (placed : Placed live slabs use) (member : object ∈ live) (inside : InRoom object place) :
    ∃ g, InPage g place ∧
      ((object.size ≤ PGSIZE ∧ use g = some (.slab (sizeToIndex object.size)) ∧
          object.address ∈ slots (kva g) (sizeToIndex object.size) ∧
          kva g + slabHeaderSize ≤ object.address) ∨
        (PGSIZE < object.size ∧ ∃ f, use g = some (.block f) ∧ object.address = kva f)) := by
  obtain ⟨low, high⟩ := inside
  rcases Nat.lt_or_ge PGSIZE object.size with large | small
  · obtain ⟨f, n, start, enough, pages⟩ := placed.large object member large
    rw [room, if_neg (by omega)] at high
    obtain ⟨g, first, last, inPage⟩ := page_block (by omega : kva f ≤ place)
      (by omega : place < kva f + n * PGSIZE)
    exact ⟨g, inPage, .inr ⟨large, f, pages g first last, start⟩⟩
  · obtain ⟨f, used, slot, behind, within⟩ := placed.small_bounds member small
    refine ⟨f, ⟨?_, by omega⟩, .inl ⟨small, used, slot, behind⟩⟩
    omega

theorem unused_page (placed : Placed live slabs use) (unused : use g = none) (member : object ∈ live)
    (inside : InRoom object place) : ¬ InPage g place := by
  intro inPage
  obtain ⟨f, other, kind⟩ := placed.page_of member inside
  cases page_unique inPage other
  rcases kind with ⟨_, used, _⟩ | ⟨_, f, used, _⟩
  · rw [unused] at used
    cases used
  · rw [unused] at used
    cases used

theorem in_slab (placed : Placed live slabs use) (cache : i < SLUB_NCACHE) (page : f ∈ slabs i)
    (member : object ∈ live) (inside : InRoom object place) (inPage : InPage f place) :
    object.size ≤ PGSIZE ∧ sizeToIndex object.size = i ∧ object.address ∈ slots (kva f) i ∧
      kva f + slabHeaderSize ≤ object.address := by
  obtain ⟨g, other, kind⟩ := placed.page_of member inside
  cases page_unique inPage other
  have listed := (placed.listed i cache f).mp page
  rcases kind with ⟨small, used, slot, behind⟩ | ⟨_, g, used, _⟩
  · rw [listed] at used
    cases used
    exact ⟨small, rfl, slot, behind⟩
  · rw [listed] at used
    cases used

theorem header_apart (placed : Placed live slabs use) (cache : i < SLUB_NCACHE) (page : f ∈ slabs i)
    (member : object ∈ live) (inside : InRoom object place) :
    ¬ (kva f ≤ place ∧ place < kva f + slabHeaderSize) := by
  intro header
  have inPage : InPage f place := by
    simp only [InPage, slabHeaderSize, PGSIZE] at *
    omega
  obtain ⟨_, _, _, behind⟩ := placed.in_slab cache page member inside inPage
  have low := inside.1
  omega

theorem slot_apart (placed : Placed live slabs use) (cache : i < SLUB_NCACHE) (page : f ∈ slabs i)
    (member : object ∈ live) (inside : InRoom object place) {address : Nat}
    (slot : address ∈ slots (kva f) i) (different : object.address ≠ address) :
    ¬ (address ≤ place ∧ place < address + classSize i) := by
  intro inSlot
  have mapped := placed.slab_mapped cache page
  have bounds := slot_bounds cache mapped slot
  have inPage : InPage f place := by
    simp only [InPage]
    omega
  obtain ⟨small, same, own, _⟩ := placed.in_slab cache page member inside inPage
  have apart := Slub.slot_apart cache mapped own slot different
  obtain ⟨low, high⟩ := inside
  rw [room, if_pos small, same] at high
  omega

theorem not_free (placed : Placed live slabs use) (cache : i < SLUB_NCACHE) (inSlabs : f ∈ slabs i)
    (page : SlabPage bytes live i (kva f) free) {address : Nat} (inFree : address ∈ free)
    (member : object ∈ live) : object.address ≠ address := by
  intro same
  have bounds := page.free_bounds cache (placed.slab_mapped cache inSlabs) address inFree
  have inPage : InPage f object.address := by
    simp only [InPage, objNext] at *
    omega
  have small := (placed.in_slab cache inSlabs member (inRoom_address object) inPage).1
  have isLive : address ∈ liveIn live (kva f) :=
    mem_liveIn.mpr ⟨object, member, same, small, same ▸ inPage⟩
  exact List.disjoint_of_nodup_append page.nodup inFree isLive

theorem free_apart (placed : Placed live slabs use) (cache : i < SLUB_NCACHE) (inSlabs : f ∈ slabs i)
    (page : SlabPage bytes live i (kva f) free) {address : Nat} (inFree : address ∈ free)
    (member : object ∈ live) (inside : InRoom object place) :
    ¬ (address ≤ place ∧ place < address + classSize i) :=
  placed.slot_apart cache inSlabs member inside (page.free_slot inFree)
    (placed.not_free cache inSlabs page inFree member)

theorem apart (placed : Placed live slabs use) (inFirst : first ∈ live) (inSecond : second ∈ live)
    (different : first ≠ second) (inside : InRoom first place) : ¬ InRoom second place := by
  intro other
  have addresses : first.address ≠ second.address := fun same =>
    different (List.inj_on_of_nodup_map placed.distinct inFirst inSecond same)
  obtain ⟨g, inPage, kind⟩ := placed.page_of inSecond other
  rcases kind with ⟨small, used, slot, _⟩ | ⟨_, f, used, start⟩
  · have cache := (sizeToIndex_spec small).1
    have page := (placed.listed _ cache g).mpr used
    have outside := placed.slot_apart cache page inFirst inside slot addresses
    obtain ⟨low, high⟩ := other
    rw [room, if_pos small] at high
    exact outside ⟨low, high⟩
  · obtain ⟨h, inOther, kind⟩ := placed.page_of inFirst inside
    cases page_unique inPage inOther
    rcases kind with ⟨_, slab, _⟩ | ⟨_, f', block, start'⟩
    · rw [used] at slab
      cases slab
    · rw [used] at block
      cases block
      exact addresses (start'.trans start.symm)

/-! How placement changes. -/

theorem sublist (placed : Placed live slabs use) (fewer : others.Sublist live) :
    Placed others slabs use where
  listed := placed.listed
  mapped := placed.mapped
  small object member := placed.small object (fewer.subset member)
  large object member := placed.large object (fewer.subset member)
  distinct := placed.distinct.sublist (fewer.map _)

theorem cons (placed : Placed live slabs use) (ptr size : Nat) (new : ∀ object ∈ live, object.address ≠ ptr)
    (small : size ≤ PGSIZE → ∃ f ∈ slabs (sizeToIndex size), ptr ∈ slots (kva f) (sizeToIndex size))
    (large : PGSIZE < size → ∃ f n, ptr = kva f ∧ size ≤ n * PGSIZE ∧
      ∀ g, f ≤ g → g < f + n → use g = some (.block f)) :
    Placed (⟨ptr, size⟩ :: live) slabs use where
  listed := placed.listed
  mapped := placed.mapped
  small object member := by
    cases member with
    | head => exact small
    | tail _ older => exact placed.small object older
  large object member := by
    cases member with
    | head => exact large
    | tail _ older => exact placed.large object older
  distinct := by
    refine List.nodup_cons.mpr ⟨fun again => ?_, placed.distinct⟩
    obtain ⟨object, member, same⟩ := List.mem_map.mp again
    exact new object member same

theorem extend (placed : Placed live slabs use)
    (listed : ∀ i < SLUB_NCACHE, ∀ f, f ∈ more i ↔ uses f = some (.slab i))
    (mapped : ∀ f, uses f ≠ none → f < mappedPages)
    (kept : ∀ f, use f ≠ none → uses f = use f) : Placed live more uses where
  listed := listed
  mapped := mapped
  small object member small := by
    obtain ⟨f, inSlabs, slot⟩ := placed.small object member small
    have cache := (sizeToIndex_spec small).1
    have used := (placed.listed _ cache f).mp inSlabs
    refine ⟨f, (listed _ cache f).mpr ?_, slot⟩
    rw [kept f (by rw [used]; exact Option.some_ne_none _), used]
  large object member large := by
    obtain ⟨f, n, start, enough, pages⟩ := placed.large object member large
    refine ⟨f, n, start, enough, fun g first last => ?_⟩
    have used := pages g first last
    rw [kept g (by rw [used]; exact Option.some_ne_none _), used]
  distinct := placed.distinct

theorem mem_new_slab {j : Nat} :
    f ∈ Function.update slabs i (g :: slabs i) j ↔ (f = g ∧ j = i) ∨ f ∈ slabs j := by
  by_cases same : j = i
  · subst same
    rw [Function.update_self, List.mem_cons, and_iff_left rfl]
  · rw [Function.update_of_ne same]
    exact (or_iff_right fun new => same new.2).symm

theorem new_slab (placed : Placed live slabs use) (mapped : g < mappedPages) (unused : use g = none) :
    Placed live (Function.update slabs i (g :: slabs i))
      (Function.update use g (some (.slab i))) := by
  refine placed.extend (fun j cache f => ?_) (fun f used => ?_) (fun f used => ?_)
  · rw [mem_new_slab, placed.listed j cache f]
    by_cases new : f = g
    · subst new
      rw [Function.update_self, unused]
      simp [eq_comm]
    · rw [Function.update_of_ne new]
      exact or_iff_right fun first => new first.1
  · by_cases new : f = g
    · rw [new]
      exact mapped
    · rw [Function.update_of_ne new] at used
      exact placed.mapped f used
  · refine Function.update_of_ne (fun new => used ?_) _ _
    rw [new]
    exact unused

theorem new_block {n : Nat} (placed : Placed live slabs use)
    (fresh : ∀ f, g ≤ f → f < g + n → f < mappedPages ∧ use f = none) :
    Placed live slabs fun f => if g ≤ f ∧ f < g + n then some (.block g) else use f := by
  refine placed.extend (fun i cache f => ?_) (fun f used => ?_) (fun f used => if_neg fun inBlock => ?_)
  · rw [placed.listed i cache f]
    split
    · rename_i inBlock
      rw [(fresh f inBlock.1 inBlock.2).2]
      simp
    · exact Iff.rfl
  · by_cases inBlock : g ≤ f ∧ f < g + n
    · exact (fresh f inBlock.1 inBlock.2).1
    · rw [if_neg inBlock] at used
      exact placed.mapped f used
  · exact used (fresh f inBlock.1 inBlock.2).2

end Placed

end Ucore.Mm.Slub
