import Ucore.Mm.Slub.Placement

namespace Ucore.Mm.Slub

open Ucore.Data

/-! The operations on one slab page. -/

variable {bytes after : Bytes} {memory : SlubMemory} {live : List Object}
  {i f k sp size obj objSize aligned prev : Nat} {free rest : List Nat} {object : Object}

/-- The other words of the header, and everything behind it, after `free_list` and `used` changed. -/
structure HeaderChanged (bytes after : Bytes) (sp freeList used : Nat) : Prop where
  next : slabNext.get after sp = slabNext.get bytes sp
  freeList : slabFreeList.get after sp = freeList
  used : slabUsed.get after sp = used
  objPerPage : slabObjPerPage.get after sp = slabObjPerPage.get bytes sp
  cacheIdx : slabCacheIdx.get after sp = slabCacheIdx.get bytes sp
  outside : ∀ place, ¬ (sp ≤ place ∧ place < sp + slabHeaderSize) → after place = bytes place

theorem headerChanged {freeList used : Nat} (bytes : Bytes) (sp : Nat)
    (pointer : freeList < 256 ^ slabFreeList.width) (count : used < 256 ^ slabUsed.width) :
    HeaderChanged bytes (slabUsed.set (slabFreeList.set bytes sp freeList) sp used) sp freeList used := by
  refine ⟨?_, ?_, get_set count, ?_, ?_, fun place outside => ?_⟩
  · rw [get_set_other (by decide), get_set_other (by decide)]
  · rw [get_set_other (by decide), get_set pointer]
  · rw [get_set_other (by decide), get_set_other (by decide)]
  · rw [get_set_other (by decide), get_set_other (by decide)]
  · simp only [slabHeaderSize] at outside
    rw [set_outside, set_outside]
    · simp only [slabFreeList]
      omega
    · simp only [slabUsed]
      omega

theorem HeaderChanged.link {freeList used address : Nat}
    (changed : HeaderChanged bytes after sp freeList used) (behind : sp + slabHeaderSize ≤ address) :
    objNext.get after address = objNext.get bytes address :=
  get_congr fun place low high => changed.outside place (by simp only [objNext] at *; omega)

theorem SlabPage.relink {others : List Object} {head : Nat} {list : List Nat}
    (page : SlabPage bytes live i (kva f) free)
    (changed : HeaderChanged bytes after (kva f) head (liveIn others (kva f)).length)
    (chain : Chain (objNext.get after) NULL head list)
    (partition : (list ++ liveIn others (kva f)).Perm (slots (kva f) i)) :
    SlabPage after others i (kva f) list where
  cacheIdx := changed.cacheIdx.trans page.cacheIdx
  objPerPage := changed.objPerPage.trans page.objPerPage
  chain := by rwa [changed.freeList]
  partition := partition
  used := changed.used

theorem SlabPage.count_small (page : SlabPage bytes live i sp free) :
    (liveIn live sp).length < 2 ^ 32 - 1 := by
  have all := page.count
  have room : slotCount i ≤ PGSIZE := Nat.div_le_self _ _ |>.trans (by decide)
  simp only [PGSIZE] at room
  omega

theorem takeObject_ok (page : SlabPage memory.bytes live i (kva f) (obj :: rest))
    (cache : i < SLUB_NCACHE) (mapped : f < mappedPages) (small : size ≤ PGSIZE) :
    ∃ after, takeObject memory (kva f) = .ok (obj, { memory with bytes := after }) ∧
      SlabPage after (⟨obj, size⟩ :: live) i (kva f) rest ∧
      slabNext.get after (kva f) = slabNext.get memory.bytes (kva f) ∧
      ∀ place, ¬ (kva f ≤ place ∧ place < kva f + slabHeaderSize) →
        after place = memory.bytes place := by
  obtain ⟨first, valid, onward⟩ := page.chain
  have free := page.free_bounds cache mapped
  have bounds := free obj (by simp)
  have lives : liveIn (⟨obj, size⟩ :: live) (kva f) = obj :: liveIn live (kva f) :=
    liveIn_cons_inside small (by simp only; omega) (by simp only [objNext] at *; omega)
  have used : uint32 (slabUsed.get (slabFreeList.set memory.bytes (kva f)
      (objNext.get memory.bytes obj)) (kva f) + 1) = (obj :: liveIn live (kva f)).length := by
    have kept : slabUsed.get (slabFreeList.set memory.bytes (kva f) (objNext.get memory.bytes obj))
        (kva f) = (liveIn live (kva f)).length := by
      rw [← page.used]
      exact get_set_other (by decide)
    have few := page.count_small
    rw [kept, List.length_cons]
    exact uint32_of_lt (by omega)
  have count : (obj :: liveIn live (kva f)).length < 256 ^ slabUsed.width := by
    have few := page.count_small
    simp only [List.length_cons, slabUsed]
    omega
  have changed := headerChanged memory.bytes (kva f) (get_lt objNext memory.bytes obj) count
  have chain : Chain (objNext.get (slabUsed.set (slabFreeList.set memory.bytes (kva f)
      (objNext.get memory.bytes obj)) (kva f) (obj :: liveIn live (kva f)).length)) NULL
      (objNext.get memory.bytes obj) rest := by
    refine onward.frame fun address inRest => changed.link ?_
    exact (free address (List.mem_cons_of_mem _ inRest)).1
  have partition : (rest ++ liveIn (⟨obj, size⟩ :: live) (kva f)).Perm (slots (kva f) i) := by
    rw [lives]
    exact List.perm_middle.trans page.partition
  rw [← lives] at changed used chain
  refine ⟨_, ?_, page.relink changed chain partition, changed.next, changed.outside⟩
  simp only [takeObject, first, if_neg valid, used]

theorem SlabPage.write_slot (page : SlabPage bytes live i (kva f) free) (cache : i < SLUB_NCACHE)
    (mapped : f < mappedPages) (slot : obj ∈ slots (kva f) i) (notFree : obj ∉ free)
    (outside : ∀ place, ¬ (obj ≤ place ∧ place < obj + objNext.width) → after place = bytes place) :
    SlabPage after live i (kva f) free := by
  have bounds := slot_bounds cache mapped slot
  have link := link_le_classSize i
  refine page.frame (fun place low high => outside place (by omega))
    (fun address inFree place low high => outside place ?_) (List.Perm.refl _)
  have different : obj ≠ address := by
    intro same
    exact notFree (same ▸ inFree)
  have apart := slot_apart cache mapped slot (page.free_slot inFree) different
  omega

theorem SlabPage.push {used : Nat} (page : SlabPage bytes live i (kva f) free)
    (cache : i < SLUB_NCACHE) (mapped : f < mappedPages) (slot : obj ∈ slots (kva f) i)
    (linked : objNext.get bytes obj = slabFreeList.get bytes (kva f))
    (changed : HeaderChanged bytes after (kva f) obj used) :
    Chain (objNext.get after) NULL obj (obj :: free) := by
  have bounds := slot_link cache mapped slot
  refine Chain.push ?_ ((changed.link bounds.1).trans linked) ?_
  · exact page.chain.frame fun address inFree =>
      changed.link (page.free_bounds cache mapped address inFree).1
  · simp only [NULL, slabHeaderSize] at *
    omega

theorem kfree_small (page : SlabPage memory.bytes live i (kva f) free) (cache : i < SLUB_NCACHE)
    (mapped : f < mappedPages) (member : object ∈ live) (small : object.size ≤ PGSIZE)
    (slot : object.address ∈ slots (kva f) i) :
    ∃ after, kfree memory object.address = { memory with bytes := after } ∧
      SlabPage after (live.erase object) i (kva f) (object.address :: free) ∧
      slabNext.get after (kva f) = slabNext.get memory.bytes (kva f) ∧
      ∀ place, ¬ (kva f ≤ place ∧ place < kva f + slabHeaderSize) →
        ¬ (object.address ≤ place ∧ place < object.address + objNext.width) →
        after place = memory.bytes place := by
  have bounds := slot_link cache mapped slot
  have width := kva_lt mapped
  have masked := page_mask mapped (by omega : kva f ≤ object.address) (by simp only [objNext] at *; omega)
  have lives : (liveIn live (kva f)).Perm (object.address :: liveIn (live.erase object) (kva f)) :=
    liveIn_erase_inside member small (by omega) (by simp only [objNext] at *; omega)
  have notFree : object.address ∉ free := by
    intro inFree
    have isLive : object.address ∈ liveIn live (kva f) := lives.mem_iff.mpr (List.mem_cons_self ..)
    exact List.disjoint_of_nodup_append page.nodup inFree isLive
  -- first the pointer to the other free objects is written into the object itself
  obtain ⟨linked, isLinked⟩ : ∃ linked, linked = objNext.set memory.bytes object.address
      (slabFreeList.get memory.bytes (kva f)) := ⟨_, rfl⟩
  have outside : ∀ place, ¬ (object.address ≤ place ∧ place < object.address + objNext.width) →
      linked place = memory.bytes place := by
    intro place outside
    rw [isLinked]
    exact set_outside outside
  have field {field : Field} (inside : field.offset + field.width ≤ slabHeaderSize) :
      field.get linked (kva f) = field.get memory.bytes (kva f) :=
    get_congr fun place low high => outside place (by omega)
  have pageLinked := page.write_slot cache mapped slot notFree outside
  have next : objNext.get linked object.address = slabFreeList.get linked (kva f) := by
    rw [field (by decide), isLinked]
    exact get_set (get_lt slabFreeList memory.bytes (kva f))
  -- then the header is changed
  have few := page.count_small
  have fewer := lives.length_eq
  rw [List.length_cons] at fewer
  have used : uint32Sub (slabUsed.get (slabFreeList.set linked (kva f) object.address) (kva f)) 1 =
      (liveIn (live.erase object) (kva f)).length := by
    rw [get_set_other (by decide), pageLinked.used, uint32Sub_of_le (by omega) (by omega)]
    omega
  have pointer : object.address < 256 ^ slabFreeList.width := by
    simp only [slabFreeList, objNext] at *
    omega
  have count : (liveIn (live.erase object) (kva f)).length < 256 ^ slabUsed.width := by
    simp only [slabUsed]
    omega
  have changed := headerChanged linked (kva f) pointer count
  have partition : (object.address :: free ++ liveIn (live.erase object) (kva f)).Perm
      (slots (kva f) i) :=
    List.perm_middle.symm.trans ((lives.symm.append_left free).trans page.partition)
  have index : ¬ slabCacheIdx.get memory.bytes (kva f) ≥ SLUB_NCACHE := by
    rw [page.cacheIdx]
    omega
  have valid : object.address ≠ NULL := by
    simp only [NULL, slabHeaderSize] at *
    omega
  refine ⟨_, ?_, pageLinked.relink changed (pageLinked.push cache mapped slot next changed) partition,
    changed.next.trans (field (by decide)), fun place header apart => ?_⟩
  · simp only [kfree, if_neg valid, masked, if_neg index, ← isLinked, used]
  · rw [changed.outside place header]
    exact outside place apart

/-- For a pointer to the start of a page `kfree` takes the bytes there for a header, whatever they
are, and for an object. -/
theorem kfree_page (memory : SlubMemory) (mapped : f < mappedPages) :
    ∃ after, kfree memory (kva f) = { memory with bytes := after } ∧
      ∀ place, ¬ (kva f ≤ place ∧ place < kva f + slabHeaderSize) → after place = memory.bytes place := by
  have masked := page_mask mapped (Nat.le_refl _) (by simp only [PGSIZE]; omega)
  simp only [kfree, if_neg (kva_ne_null f), masked]
  split
  · exact ⟨memory.bytes, rfl, fun place _ => rfl⟩
  · refine ⟨_, rfl, fun place outside => ?_⟩
    simp only [slabHeaderSize] at outside
    rw [set_outside, set_outside, set_outside]
    · simp only [objNext]
      omega
    · simp only [slabFreeList]
      omega
    · simp only [slabUsed]
      omega

/-! A new slab page. -/

/-- The loop links the objects from the `k`-th on in front of those that are linked already. -/
theorem slabBuildList_spec (bytes : Bytes) (free : List Nat) (rounds k : Nat)
    (chain : Chain (objNext.get bytes) NULL prev free)
    (before : ∀ address ∈ free, address + objNext.width ≤ aligned + k * objSize)
    (width : objNext.width ≤ objSize) (start : 0 < aligned)
    (fits : aligned + (k + rounds) * objSize ≤ 2 ^ 64) :
    let built := slabBuildList aligned objSize rounds k bytes prev
    Chain (objNext.get built.1) NULL built.2
        (((List.range' k rounds).map fun k => aligned + k * objSize).reverse ++ free) ∧
      ∀ place, ¬ (aligned + k * objSize ≤ place ∧ place < aligned + (k + rounds) * objSize) →
        built.1 place = bytes place := by
  induction rounds generalizing k bytes prev free with
  | zero => exact ⟨chain, fun place _ => rfl⟩
  | succ rounds ih =>
      have succ : (k + 1) * objSize = k * objSize + objSize := Nat.add_one_mul k objSize
      have more : (k + 1) * objSize ≤ (k + (rounds + 1)) * objSize :=
        Nat.mul_le_mul_right _ (by omega)
      have shift : k + 1 + rounds = k + (rounds + 1) := by omega
      have address : uint64 (aligned + k * objSize) = aligned + k * objSize :=
        uint64_of_lt (by simp only [objNext] at width; omega)
      have written : ∀ place, ¬ (aligned + k * objSize ≤ place ∧
          place < aligned + k * objSize + objNext.width) →
          objNext.set bytes (aligned + k * objSize) prev place = bytes place :=
        fun place outside => set_outside outside
      have pointer : prev < 256 ^ objNext.width := by
        simp only [objNext] at width before ⊢
        cases free with
        | nil =>
            rw [chain]
            decide
        | cons address rest =>
            have below := before address (List.mem_cons_self ..)
            rw [chain.1]
            omega
      have linked : Chain (objNext.get (objNext.set bytes (aligned + k * objSize) prev)) NULL
          (aligned + k * objSize) ((aligned + k * objSize) :: free) := by
        refine Chain.push (chain.frame fun address member => ?_) (get_set pointer)
          (by simp only [NULL]; omega)
        have below := before address member
        exact get_congr fun place low high => written place (by simp only [objNext] at *; omega)
      have fitsRest : aligned + (k + 1 + rounds) * objSize ≤ 2 ^ 64 := by rwa [shift]
      have beforeRest : ∀ address ∈ (aligned + k * objSize) :: free,
          address + objNext.width ≤ aligned + (k + 1) * objSize := by
        intro address member
        rcases List.mem_cons.mp member with new | older
        · omega
        · have below := before address older
          omega
      obtain ⟨built, outside⟩ := ih _ _ (k + 1) linked beforeRest fitsRest
      simp only [slabBuildList, address]
      constructor
      · rwa [List.range'_succ, List.map_cons, List.reverse_cons, List.append_assoc]
      · intro place apart
        rw [outside place (by rw [shift]; omega), written place (by omega)]

theorem slabBuildList_slots (bytes : Bytes) (cache : i < SLUB_NCACHE) (mapped : f < mappedPages) :
    let built := slabBuildList (slabAligned (kva f) (classSize i)) (classSize i) (slotCount i) 0 bytes NULL
    Chain (objNext.get built.1) NULL built.2 (slots (kva f) i).reverse ∧
      ∀ place, ¬ (kva f + slabHeaderSize ≤ place ∧ place < kva f + PGSIZE) →
        built.1 place = bytes place := by
  rcases Nat.eq_zero_or_pos (slotCount i) with none | some
  · have noSlots : slots (kva f) i = [] := by rw [slots, none, List.range_zero, List.map_nil]
    rw [none, noSlots]
    exact ⟨rfl, fun place _ => rfl⟩
  · have order := cache_of_slot cache some
    have width := kva_lt mapped
    have fit := slots_fit order
    have header := header_le_slotOffset i
    have aligned := slabAligned_kva order mapped
    have start : 0 < slabAligned (kva f) (classSize i) := by
      simp only [slabHeaderSize] at header
      omega
    have fits : slabAligned (kva f) (classSize i) + (0 + slotCount i) * classSize i ≤ 2 ^ 64 := by
      rw [Nat.zero_add]
      omega
    obtain ⟨chain, outside⟩ := slabBuildList_spec bytes [] (slotCount i) 0 rfl
      (fun _ member => absurd member List.not_mem_nil) (link_le_classSize i) start fits
    rw [List.append_nil, ← List.range_eq_range'] at chain
    refine ⟨chain, fun place apart => outside place ?_⟩
    rw [Nat.zero_add]
    omega

theorem header_init (bytes : Bytes) (sp : Nat) (cache : i < SLUB_NCACHE) : ∃ headed,
    headed = slabCacheIdx.set (slabObjPerPage.set (slabFreeList.set (slabUsed.set (slabNext.set bytes sp
      NULL) sp 0) sp NULL) sp (slotCount i)) sp i ∧
      slabObjPerPage.get headed sp = slotCount i ∧ slabCacheIdx.get headed sp = i ∧
      slabUsed.get headed sp = 0 ∧
      ∀ place, ¬ (sp ≤ place ∧ place < sp + slabHeaderSize) → headed place = bytes place := by
  have room : slotCount i < 256 ^ slabObjPerPage.width := by
    have few : slotCount i ≤ PGSIZE - slabHeaderSize := Nat.div_le_self _ _
    exact few.trans_lt (by decide)
  have index : i < 256 ^ slabCacheIdx.width := cache.trans_le (by decide)
  refine ⟨_, rfl, ?_, get_set index, ?_, fun place behind => ?_⟩
  · rw [get_set_other (by decide), get_set room]
  · rw [get_set_other (by decide), get_set_other (by decide), get_set_other (by decide),
      get_set (by decide)]
  · simp only [slabHeaderSize] at behind
    rw [set_outside, set_outside, set_outside, set_outside, set_outside]
    · simp only [slabNext]
      omega
    · simp only [slabUsed]
      omega
    · simp only [slabFreeList]
      omega
    · simp only [slabObjPerPage]
      omega
    · simp only [slabCacheIdx]
      omega

theorem slabPageInit_page (bytes : Bytes) (cache : i < SLUB_NCACHE) (mapped : f < mappedPages)
    (empty : liveIn live (kva f) = []) :
    SlabPage (slabPageInit bytes (kva f) (classSize i) i) live i (kva f) (slots (kva f) i).reverse ∧
      ∀ place, ¬ InPage f place → slabPageInit bytes (kva f) (classSize i) i place = bytes place := by
  obtain ⟨headed, isHeaded, objPerPage, cacheIdx, used, outside⟩ := header_init bytes (kva f) cache
  have result : slabPageInit bytes (kva f) (classSize i) i =
      let built := slabBuildList (slabAligned (kva f) (classSize i)) (classSize i) (slotCount i) 0
        headed NULL
      slabFreeList.set built.1 (kva f) built.2 := by
    rw [← objPerPage, isHeaded]
    rfl
  obtain ⟨chain, behind⟩ := slabBuildList_slots headed cache mapped
  rw [result]
  generalize slabBuildList (slabAligned (kva f) (classSize i)) (classSize i) (slotCount i) 0 headed
    NULL = built at chain behind ⊢
  have bounds : ∀ address ∈ (slots (kva f) i).reverse, kva f + slabHeaderSize ≤ address ∧
      address + objNext.width ≤ kva f + PGSIZE :=
    fun _ member => slot_link cache mapped (List.mem_reverse.mp member)
  have width := kva_lt mapped
  have pointer : built.2 < 256 ^ slabFreeList.width := by
    by_cases null : built.2 = NULL
    · rw [null]
      decide
    · have inside := bounds _ (chain.head_mem null)
      simp only [objNext, slabFreeList] at *
      omega
  have field {field : Field} (inside : field.offset + field.width ≤ slabHeaderSize) :
      field.get built.1 (kva f) = field.get headed (kva f) :=
    get_congr fun place low high => behind place (by omega)
  have written : ∀ place, ¬ (kva f ≤ place ∧ place < kva f + slabHeaderSize) →
      slabFreeList.set built.1 (kva f) built.2 place = built.1 place := fun place apart =>
    set_outside (by simp only [slabFreeList, slabHeaderSize] at *; omega)
  refine ⟨⟨?_, ?_, ?_, ?_, ?_⟩, fun place apart => ?_⟩
  · rw [get_set_other (by decide), field (by decide), cacheIdx]
  · rw [get_set_other (by decide), field (by decide), objPerPage]
  · rw [get_set pointer]
    refine chain.frame fun address member => get_congr fun place low high => ?_
    have inside := bounds address member
    exact written place (by simp only [objNext] at *; omega)
  · rw [empty, List.append_nil]
    exact List.reverse_perm _
  · rw [empty, get_set_other (by decide), field (by decide), used]
    rfl
  · simp only [InPage, PGSIZE] at apart
    rw [written place (by simp only [slabHeaderSize]; omega), behind place (by simp only [PGSIZE]; omega),
      outside place (by simp only [slabHeaderSize]; omega)]

/-- A page for the cache, with its header, its free objects and the link to the older pages. -/
theorem allocSlabPage_ok {source : Nat → Option Nat} (granted : source 1 = some f)
    (cache : i < SLUB_NCACHE) (mapped : f < mappedPages) (empty : liveIn live (kva f) = [])
    (size : (memory.caches i).objSize = classSize i)
    (pointer : (memory.caches i).pages < 256 ^ slabNext.width) :
    ∃ after, allocSlabPage source memory i = (kva f, ⟨after,
        Function.update memory.caches i ⟨classSize i, kva f⟩, ⟨f, 1⟩ :: memory.frames⟩) ∧
      SlabPage after live i (kva f) (slots (kva f) i).reverse ∧
      slabNext.get after (kva f) = (memory.caches i).pages ∧
      ∀ place, ¬ InPage f place → after place = memory.bytes place := by
  obtain ⟨page, outside⟩ := slabPageInit_page (memory.bytes.fill (kva f) 0 PGSIZE) cache mapped empty
  generalize inited : slabPageInit (memory.bytes.fill (kva f) 0 PGSIZE) (kva f) (classSize i) i = bytes
    at page outside
  refine ⟨slabNext.set bytes (kva f) (memory.caches i).pages, ?_, page.frame
    (fun place low high => ?_) (fun address member place low high => ?_) (List.Perm.refl _),
    get_set pointer, fun place apart => ?_⟩
  · simp only [allocSlabPage, slubAllocPages, granted, kva_eq mapped, size, inited]
  · exact set_outside (by simp only [slabNext] at *; omega)
  · have bounds := page.free_bounds cache mapped address member
    exact set_outside (by simp only [slabNext, slabHeaderSize] at *; omega)
  · rw [set_outside (by simp only [InPage, slabNext, PGSIZE] at *; omega), outside place apart]
    exact Bytes.fill_outside apart

end Ucore.Mm.Slub
