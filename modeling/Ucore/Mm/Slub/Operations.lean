import Ucore.Mm.Slub.Pages

namespace Ucore.Mm.Slub

open Ucore.Data

/-! What the operations do to a sound state. -/

variable {bytes after : Bytes} {memory : SlubMemory} {live others : List Object}
  {i f g n size obj head : Nat} {slabs : Nat → List Nat} {use : Nat → Option Use}
  {source : Nat → Option Nat} {pages free rest : List Nat} {object : Object}

/-- No live object of either list has lost or changed a byte. -/
def Untouched (bytes after : Bytes) (live : List Object) : Prop :=
  ∀ object ∈ live, ∀ place, InRoom object place → after place = bytes place

theorem booted_sound {client : SlubClient} (booted : SlubBooted client) :
    Sound client (fun _ => []) (fun _ => none) := by
  obtain ⟨memory, rfl⟩ := booted
  have absent {f : Nat} {i : Nat} : f ∈ ([] : List Nat) ↔ (none : Option Use) = some (.slab i) :=
    iff_of_false List.not_mem_nil (by simp)
  refine ⟨fun i cache => ?_, fun i cache => ?_, by simp, by simp,
    ⟨fun i _ f => absent, by simp, by simp, by simp, List.nodup_nil⟩⟩
  · simp only [slubInit, if_pos cache, Nat.shiftLeft_eq, Nat.one_mul, classSize]
  · simp only [slubInit, if_pos cache]
    exact rfl

/-! One page changes. -/

theorem Sound.change (sound : Sound ⟨memory, live⟩ slabs use) (cache : i < SLUB_NCACHE)
    (page : SlabPage after others i (kva f) free)
    (next : slabNext.get after (kva f) = slabNext.get memory.bytes (kva f))
    (outside : ∀ place, ¬ InPage f place → after place = memory.bytes place)
    (elsewhere : ∀ g, g ≠ f → (liveIn others (kva g)).Perm (liveIn live (kva g)))
    (member : f ∈ slabs i) (placed : Placed others slabs use) :
    Sound ⟨{ memory with bytes := after }, others⟩ slabs use where
  objSize := sound.objSize
  chain j cache := by
    refine (sound.chain j cache).frame fun address listed => ?_
    obtain ⟨g, _, rfl⟩ := List.mem_map.mp listed
    by_cases same : g = f
    · rw [same]
      exact next
    · refine get_congr fun place low high => outside place fun inPage => same ?_
      refine page_unique ⟨?_, ?_⟩ inPage
      · simp only [slabNext] at low
        omega
      · simp only [slabNext, PGSIZE] at *
        omega
  page j other g listed := by
    by_cases same : g = f
    · subst same
      cases sound.placed.same_cache cache other member listed
      exact ⟨free, page⟩
    · obtain ⟨old, before⟩ := sound.page j other g listed
      refine ⟨old, before.frame_page other (sound.placed.slab_mapped other listed)
        (fun place low high => outside place fun inPage => same ?_) (elsewhere g same)⟩
      exact page_unique ⟨low, high⟩ inPage
  held := sound.held
  placed := placed

/-- `kmalloc` takes an object of a page that has free ones. -/
theorem Sound.take (sound : Sound ⟨memory, live⟩ slabs use) (small : size ≤ PGSIZE)
    (member : f ∈ slabs (sizeToIndex size))
    (page : SlabPage memory.bytes live (sizeToIndex size) (kva f) (obj :: rest)) :
    ∃ after, takeObject memory (kva f) = .ok (obj, { memory with bytes := after }) ∧
      Sound ⟨{ memory with bytes := after }, ⟨obj, size⟩ :: live⟩ slabs use ∧
      Untouched memory.bytes after live := by
  have cache := (sizeToIndex_spec small).1
  have mapped := sound.placed.slab_mapped cache member
  obtain ⟨after, taken, changed, next, outside⟩ := takeObject_ok page cache mapped small
  have slot := page.free_slot (List.mem_cons_self ..)
  have bounds := page.free_bounds cache mapped obj (List.mem_cons_self ..)
  have inPage : InPage f obj := by
    simp only [InPage, objNext] at *
    omega
  have new : ∀ object ∈ live, object.address ≠ obj := fun object isLive =>
    sound.placed.not_free cache member page (List.mem_cons_self ..) isLive
  have placed := sound.placed.cons obj size new (fun _ => ⟨f, member, slot⟩) fun large => by omega
  refine ⟨after, taken, sound.change cache changed next (fun place apart => outside place ?_)
    (fun g different => ?_) member placed, fun object isLive place inside =>
    outside place (sound.placed.header_apart cache member isLive inside)⟩
  · intro header
    simp only [InPage, slabHeaderSize, PGSIZE] at *
    omega
  · rw [liveIn_cons_outside]
    intro elsewhere
    exact different (page_unique elsewhere.2 inPage)

/-- `kfree` of a small object puts it back into its page. -/
theorem Sound.release (sound : Sound ⟨memory, live⟩ slabs use) (member : object ∈ live)
    (small : object.size ≤ PGSIZE) : ∃ after,
      kfree memory object.address = { memory with bytes := after } ∧
      Sound ⟨{ memory with bytes := after }, live.erase object⟩ slabs use ∧
      Untouched memory.bytes after (live.erase object) := by
  have cache := (sizeToIndex_spec small).1
  obtain ⟨f, inSlabs, slot⟩ := sound.placed.small object member small
  have mapped := sound.placed.slab_mapped cache inSlabs
  obtain ⟨free, page⟩ := sound.page _ cache f inSlabs
  obtain ⟨after, freed, changed, next, outside⟩ := kfree_small page cache mapped member small slot
  have bounds := slot_link cache mapped slot
  have fewer : (live.erase object).Sublist live := List.erase_sublist
  have inPage : InPage f object.address := by
    simp only [InPage, objNext] at *
    omega
  refine ⟨after, freed, sound.change cache changed next (fun place apart => outside place ?_ ?_)
    (fun g different => ?_) inSlabs (sound.placed.sublist fewer), fun other isLive place inside => ?_⟩
  · intro header
    simp only [InPage, slabHeaderSize, PGSIZE] at *
    omega
  · intro own
    simp only [InPage] at *
    omega
  · exact liveIn_erase_outside member fun elsewhere => different (page_unique elsewhere.2 inPage)
  · have still := fewer.subset isLive
    refine outside place (sound.placed.header_apart cache inSlabs still inside) fun own => ?_
    have different : object ≠ other := by
      intro same
      have gone := sound.placed.distinct.of_map.not_mem_erase (a := object)
      exact gone (same ▸ isLive)
    refine sound.placed.apart member still different ⟨own.1, ?_⟩ inside
    have link := link_le_classSize (sizeToIndex object.size)
    rw [room, if_pos small]
    omega

/-- The bytes of the live objects carry no bookkeeping. -/
theorem Sound.overwrite (sound : Sound ⟨memory, live⟩ slabs use)
    (inside : ∀ place, after place ≠ memory.bytes place → ∃ object ∈ live, InRoom object place)
    (same : ∀ f, (liveIn others (kva f)).Perm (liveIn live (kva f))) (placed : Placed others slabs use) :
    Sound ⟨{ memory with bytes := after }, others⟩ slabs use := by
  have header : ∀ i < SLUB_NCACHE, ∀ f ∈ slabs i, ∀ place, kva f ≤ place →
      place < kva f + slabHeaderSize → after place = memory.bytes place := by
    intro i cache f member place low high
    apply Classical.byContradiction
    intro changed
    obtain ⟨object, isLive, inRoom⟩ := inside place changed
    exact sound.placed.header_apart cache member isLive inRoom ⟨low, high⟩
  refine ⟨sound.objSize, fun i cache => ?_, fun i cache f member => ?_, sound.held, placed⟩
  · refine (sound.chain i cache).frame fun address listed => ?_
    obtain ⟨f, member, rfl⟩ := List.mem_map.mp listed
    exact get_congr fun place low high => header i cache f member place
      (by simp only [slabNext] at low; omega) (by simp only [slabNext, slabHeaderSize] at *; omega)
  · obtain ⟨free, page⟩ := sound.page i cache f member
    refine ⟨free, page.frame (fun place low high => header i cache f member place (by omega) high)
      (fun address inFree place low high => ?_) (same f)⟩
    apply Classical.byContradiction
    intro changed
    obtain ⟨object, isLive, inRoom⟩ := inside place changed
    have link := link_le_classSize i
    exact sound.placed.free_apart cache member page inFree isLive inRoom ⟨low, by omega⟩

/-- `kfree` of a large object writes at most into the object, and leaks its pages. -/
theorem Sound.leak (sound : Sound ⟨memory, live⟩ slabs use) (member : object ∈ live)
    (large : PGSIZE < object.size) : ∃ after,
      kfree memory object.address = { memory with bytes := after } ∧
      Sound ⟨{ memory with bytes := after }, live.erase object⟩ slabs use ∧
      ∀ place, after place ≠ memory.bytes place → InRoom object place := by
  obtain ⟨f, n, start, enough, pages⟩ := sound.placed.large object member large
  have mapped : f < mappedPages := by
    apply sound.placed.mapped
    rw [pages f (Nat.le_refl _) (by simp only [PGSIZE] at *; omega)]
    exact Option.some_ne_none _
  obtain ⟨after, freed, outside⟩ := kfree_page memory mapped
  have inside : ∀ place, after place ≠ memory.bytes place → InRoom object place := by
    intro place changed
    apply Classical.byContradiction
    intro elsewhere
    refine changed (outside place fun header => elsewhere ?_)
    rw [InRoom, room, if_neg (by omega), start]
    simp only [slabHeaderSize, PGSIZE] at *
    omega
  rw [← start] at freed
  have fewer : (live.erase object).Sublist live := List.erase_sublist
  exact ⟨after, freed, sound.overwrite (fun place changed => ⟨object, member, inside place changed⟩)
    (fun g => liveIn_erase_outside member (by omega)) (sound.placed.sublist fewer), inside⟩

theorem Sound.write {offset : Nat} {byte : UInt8} (sound : Sound ⟨memory, live⟩ slabs use)
    (member : object ∈ live) (inside : offset < object.size) :
    Sound ⟨{ memory with bytes := Function.update memory.bytes (object.address + offset) byte }, live⟩
      slabs use := by
  refine sound.overwrite (fun place changed => ⟨object, member, ?_⟩) (fun f => List.Perm.refl _)
    sound.placed
  have here : place = object.address + offset := by
    apply Classical.byContradiction
    intro elsewhere
    exact changed (Function.update_of_ne elsewhere _ _)
  have enough := size_le_room object
  simp only [InRoom]
  omega

/-! New pages. -/

theorem Sound.fresh (sound : Sound ⟨memory, live⟩ slabs use) (grants : Grants memory.frames source)
    (granted : source n = some g) : ∀ f, g ≤ f → f < g + n → f < mappedPages ∧ use f = none := by
  intro f low high
  obtain ⟨_, within, disjoint⟩ := grants n g granted
  refine ⟨by omega, Classical.byContradiction fun used => ?_⟩
  obtain ⟨frame, isFrame, inFrame⟩ := sound.held f used
  exact Extent.disjoint_iff.mp (disjoint frame isFrame) f inFrame (Extent.mem_points.mpr ⟨low, high⟩)

theorem Sound.pages_lt (sound : Sound ⟨memory, live⟩ slabs use) (cache : i < SLUB_NCACHE) :
    (memory.caches i).pages < 256 ^ slabNext.width := by
  by_cases null : (memory.caches i).pages = NULL
  · rw [null]
    decide
  · obtain ⟨f, member, same⟩ := List.mem_map.mp ((sound.chain i cache).head_mem null)
    have width := kva_lt (sound.placed.slab_mapped cache member)
    have positive : 0 < PGSIZE := by decide
    rw [← same]
    simp only [slabNext]
    omega

/-- `alloc_slab_page` puts a page of free objects in front of the others. -/
theorem Sound.grow (sound : Sound ⟨memory, live⟩ slabs use) (cache : i < SLUB_NCACHE)
    (grants : Grants memory.frames source) (granted : source 1 = some g) : ∃ after,
      allocSlabPage source memory i = (kva g, after) ∧
      Sound ⟨after, live⟩ (Function.update slabs i (g :: slabs i))
        (Function.update use g (some (.slab i))) ∧
      SlabPage after.bytes live i (kva g) (slots (kva g) i).reverse ∧
      Untouched memory.bytes after.bytes live := by
  obtain ⟨mapped, unused⟩ := sound.fresh grants granted g (Nat.le_refl _) (Nat.lt_succ_self _)
  have noLive : ∀ object ∈ live, ∀ place, InRoom object place → ¬ InPage g place :=
    fun object isLive place inside => sound.placed.unused_page unused isLive inside
  have empty : liveIn live (kva g) = [] := by
    refine List.eq_nil_iff_forall_not_mem.mpr fun address listed => ?_
    obtain ⟨object, isLive, rfl, _, inPage⟩ := mem_liveIn.mp listed
    exact noLive object isLive _ (inRoom_address object) inPage
  obtain ⟨after, allocated, page, next, outside⟩ := allocSlabPage_ok granted cache mapped empty
    (sound.objSize i cache) (sound.pages_lt cache)
  have other : ∀ j < SLUB_NCACHE, ∀ f ∈ slabs j, f ≠ g := by
    intro j cache f member same
    have used := (sound.placed.listed j cache f).mp member
    rw [same, unused] at used
    cases used
  have elsewhere : ∀ j < SLUB_NCACHE, ∀ f ∈ slabs j, ∀ place, InPage f place →
      after place = memory.bytes place := fun j cache f member place inPage =>
    outside place fun inNew => other j cache f member (page_unique inPage inNew)
  refine ⟨_, allocated, ⟨fun j cache => ?_, fun j cache => ?_, fun j cache f member => ?_,
    fun f used => ?_, sound.placed.new_slab mapped unused⟩, page,
    fun object isLive place inside => outside place (noLive object isLive place inside)⟩
  · by_cases same : j = i
    · rw [same]
      simp only [Function.update_self]
    · simp only [Function.update_of_ne same]
      exact sound.objSize j cache
  · have older : Chain (slabNext.get after) NULL (memory.caches j).pages ((slabs j).map kva) := by
      refine (sound.chain j cache).frame fun address listed => ?_
      obtain ⟨f, member, rfl⟩ := List.mem_map.mp listed
      refine get_congr fun place low high => elsewhere j cache f member place ?_
      simp only [InPage, slabNext, PGSIZE] at *
      omega
    by_cases same : j = i
    · subst same
      simp only [Function.update_self, List.map_cons]
      exact older.push next (kva_ne_null g)
    · simp only [Function.update_of_ne same]
      exact older
  · rcases Placed.mem_new_slab.mp member with ⟨rfl, rfl⟩ | older
    · exact ⟨_, page⟩
    · obtain ⟨free, before⟩ := sound.page j cache f older
      exact ⟨free, before.frame_page cache (sound.placed.slab_mapped cache older)
        (fun place low high => elsewhere j cache f older place ⟨low, high⟩) (List.Perm.refl _)⟩
  · by_cases new : f = g
    · exact ⟨⟨g, 1⟩, List.mem_cons_self .., Extent.mem_points.mpr (by simp only; omega)⟩
    · rw [Function.update_of_ne new] at used
      obtain ⟨frame, isFrame, inFrame⟩ := sound.held f used
      exact ⟨frame, List.mem_cons_of_mem _ isFrame, inFrame⟩

theorem Sound.block (sound : Sound ⟨memory, live⟩ slabs use) (grants : Grants memory.frames source)
    (granted : source n = some g) (large : PGSIZE < size) (enough : size ≤ n * PGSIZE) :
    Sound ⟨{ memory with frames := ⟨g, n⟩ :: memory.frames }, ⟨kva g, size⟩ :: live⟩ slabs
      (fun f => if g ≤ f ∧ f < g + n then some (.block g) else use f) := by
  have fresh := sound.fresh grants granted
  have positive : 0 < n := (grants n g granted).1
  have new : ∀ object ∈ live, object.address ≠ kva g := by
    intro object isLive same
    have unused := (fresh g (Nat.le_refl _) (by omega)).2
    refine sound.placed.unused_page unused isLive (same ▸ inRoom_address object) ⟨Nat.le_refl _, ?_⟩
    exact Nat.lt_add_of_pos_right (by decide)
  have placed := (sound.placed.new_block fresh).cons (kva g) size new (fun small => by omega) fun _ =>
    ⟨g, n, rfl, enough, fun f low high => if_pos ⟨low, high⟩⟩
  refine ⟨sound.objSize, sound.chain, fun i cache f member => ?_, fun f used => ?_, placed⟩
  · obtain ⟨free, page⟩ := sound.page i cache f member
    refine ⟨free, page.frame_page cache (sound.placed.slab_mapped cache member)
      (fun place _ _ => rfl) ?_⟩
    rw [liveIn_cons_outside fun small => Nat.not_lt.mpr small.1 large]
  · by_cases inBlock : g ≤ f ∧ f < g + n
    · exact ⟨⟨g, n⟩, List.mem_cons_self .., Extent.mem_points.mpr inBlock⟩
    · rw [if_neg inBlock] at used
      obtain ⟨frame, isFrame, inFrame⟩ := sound.held f used
      exact ⟨frame, List.mem_cons_of_mem _ isFrame, inFrame⟩

end Ucore.Mm.Slub
