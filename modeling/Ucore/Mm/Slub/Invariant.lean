import Ucore.Data.Chain
import Ucore.Mm.Slub.Layout

namespace Ucore.Mm.Slub

open Ucore.Data

/-! How the memory, the caches and the live objects hang together. -/

/-- What a frame is used for: slab pages of a cache, or a block that starts at a frame. -/
inductive Use where
  | slab (i : Nat)
  | block (first : Nat)

/-- The live small objects in a page. -/
def liveIn (live : List Object) (sp : Nat) : List Nat :=
  (live.filter fun object =>
    object.size ≤ PGSIZE ∧ sp ≤ object.address ∧ object.address < sp + PGSIZE).map Object.address

/-- A slab page whose free objects are these, in the order of its list. -/
structure SlabPage (bytes : Bytes) (live : List Object) (i sp : Nat) (free : List Nat) : Prop where
  cacheIdx : slabCacheIdx.get bytes sp = i
  objPerPage : slabObjPerPage.get bytes sp = slotCount i
  chain : Chain (objNext.get bytes) NULL (slabFreeList.get bytes sp) free
  partition : (free ++ liveIn live sp).Perm (slots sp i)
  used : slabUsed.get bytes sp = (liveIn live sp).length

/-- Where the slab pages and the live objects lie. -/
structure Placed (live : List Object) (slabs : Nat → List Nat) (use : Nat → Option Use) : Prop where
  listed : ∀ i < SLUB_NCACHE, ∀ f, f ∈ slabs i ↔ use f = some (.slab i)
  mapped : ∀ f, use f ≠ none → f < mappedPages
  small : ∀ object ∈ live, object.size ≤ PGSIZE → ∃ f ∈ slabs (sizeToIndex object.size),
    object.address ∈ slots (kva f) (sizeToIndex object.size)
  large : ∀ object ∈ live, PGSIZE < object.size → ∃ f n, object.address = kva f ∧
    object.size ≤ n * PGSIZE ∧ ∀ g, f ≤ g → g < f + n → use g = some (.block f)
  distinct : (live.map Object.address).Nodup

structure Sound (client : SlubClient) (slabs : Nat → List Nat) (use : Nat → Option Use) : Prop where
  objSize : ∀ i < SLUB_NCACHE, (client.memory.caches i).objSize = classSize i
  chain : ∀ i < SLUB_NCACHE, Chain (slabNext.get client.memory.bytes) NULL
    (client.memory.caches i).pages ((slabs i).map kva)
  page : ∀ i < SLUB_NCACHE, ∀ f ∈ slabs i, ∃ free,
    SlabPage client.memory.bytes client.live i (kva f) free
  held : ∀ f, use f ≠ none → ∃ frame ∈ client.memory.frames, f ∈ frame.points
  placed : Placed client.live slabs use

/-! Fields. -/

section Fields

variable {field other : Field} {bytes after : Bytes} {pointer value : Nat}

theorem get_congr (same : ∀ place, pointer + field.offset ≤ place →
    place < pointer + field.offset + field.width → after place = bytes place) :
    field.get after pointer = field.get bytes pointer :=
  Bytes.load_congr same

theorem get_set (fits : value < 256 ^ field.width) :
    field.get (field.set bytes pointer value) pointer = value :=
  Bytes.load_store_of_lt fits

theorem get_set_other (apart : field.offset + field.width ≤ other.offset ∨
    other.offset + other.width ≤ field.offset) :
    other.get (field.set bytes pointer value) pointer = other.get bytes pointer :=
  Bytes.load_store_apart (by omega)

theorem set_outside {place : Nat} (outside : ¬ (pointer + field.offset ≤ place ∧
    place < pointer + field.offset + field.width)) : field.set bytes pointer value place = bytes place :=
  Bytes.store_outside outside

theorem get_lt (field : Field) (bytes : Bytes) (pointer : Nat) :
    field.get bytes pointer < 256 ^ field.width :=
  Bytes.load_lt _ _ _

end Fields

variable {bytes after : Bytes} {client : SlubClient} {live others : List Object} {i f g sp : Nat}
  {slabs : Nat → List Nat} {use : Nat → Option Use} {free rest : List Nat} {object : Object}

theorem liveIn_perm (perm : live.Perm others) : (liveIn live sp).Perm (liveIn others sp) :=
  (perm.filter _).map _

theorem liveIn_cons_inside (small : object.size ≤ PGSIZE) (low : sp ≤ object.address)
    (high : object.address < sp + PGSIZE) :
    liveIn (object :: live) sp = object.address :: liveIn live sp := by
  rw [liveIn, List.filter_cons_of_pos (by simpa using ⟨small, low, high⟩), List.map_cons]
  rfl

theorem liveIn_cons_outside (outside : ¬ (object.size ≤ PGSIZE ∧ sp ≤ object.address ∧
    object.address < sp + PGSIZE)) : liveIn (object :: live) sp = liveIn live sp := by
  rw [liveIn, List.filter_cons_of_neg (by simpa using outside)]
  rfl

theorem liveIn_erase_inside (member : object ∈ live) (small : object.size ≤ PGSIZE)
    (low : sp ≤ object.address) (high : object.address < sp + PGSIZE) :
    (liveIn live sp).Perm (object.address :: liveIn (live.erase object) sp) := by
  rw [← liveIn_cons_inside small low high]
  exact liveIn_perm (List.perm_cons_erase member)

theorem liveIn_erase_outside (member : object ∈ live) (outside : ¬ (object.size ≤ PGSIZE ∧
    sp ≤ object.address ∧ object.address < sp + PGSIZE)) :
    (liveIn (live.erase object) sp).Perm (liveIn live sp) := by
  rw [← liveIn_cons_outside outside]
  exact liveIn_perm (List.perm_cons_erase member).symm

theorem mem_liveIn {address : Nat} : address ∈ liveIn live sp ↔ ∃ object ∈ live,
    object.address = address ∧ object.size ≤ PGSIZE ∧ sp ≤ address ∧ address < sp + PGSIZE := by
  simp only [liveIn, List.mem_map, List.mem_filter, decide_eq_true_eq]
  constructor
  · intro found
    obtain ⟨object, ⟨member, small, low, high⟩, rfl⟩ := found
    exact ⟨object, member, rfl, small, low, high⟩
  · intro found
    obtain ⟨object, member, rfl, small, low, high⟩ := found
    exact ⟨object, ⟨member, small, low, high⟩, rfl⟩

namespace SlabPage

theorem nodup (page : SlabPage bytes live i sp free) : (free ++ liveIn live sp).Nodup :=
  page.partition.nodup_iff.mpr (slots_nodup sp i)

theorem free_slot (page : SlabPage bytes live i sp free) {address : Nat} (member : address ∈ free) :
    address ∈ slots sp i :=
  page.partition.mem_iff.mp (List.mem_append_left _ member)

theorem count (page : SlabPage bytes live i sp free) :
    free.length + (liveIn live sp).length = slotCount i := by
  have all := page.partition.length_eq
  rwa [List.length_append, slots_length] at all

theorem free_bounds (page : SlabPage bytes live i (kva f) free) (cache : i < SLUB_NCACHE)
    (mapped : f < mappedPages) : ∀ address ∈ free, kva f + slabHeaderSize ≤ address ∧
      address + objNext.width ≤ kva f + PGSIZE :=
  fun _ member => slot_link cache mapped (page.free_slot member)

/-- A slab page depends on its header, apart from the link to the next page, and on the first words
of its free objects. -/
theorem frame (page : SlabPage bytes live i sp free)
    (header : ∀ place, sp + slabNext.width ≤ place → place < sp + slabHeaderSize →
      after place = bytes place)
    (links : ∀ address ∈ free, ∀ place, address ≤ place → place < address + objNext.width →
      after place = bytes place)
    (same : (liveIn others sp).Perm (liveIn live sp)) : SlabPage after others i sp free := by
  have field {field : Field} (later : slabNext.width ≤ field.offset)
      (inside : field.offset + field.width ≤ slabHeaderSize) :
      field.get after sp = field.get bytes sp :=
    get_congr fun place low high => header place (by omega) (by omega)
  refine ⟨?_, ?_, ?_, (same.append_left free).trans page.partition, ?_⟩
  · rw [field (by decide) (by decide)]
    exact page.cacheIdx
  · rw [field (by decide) (by decide)]
    exact page.objPerPage
  · rw [field (by decide) (by decide)]
    exact page.chain.frame fun address member => get_congr (links address member)
  · rw [field (by decide) (by decide), page.used, same.length_eq]

theorem frame_page (page : SlabPage bytes live i (kva f) free) (cache : i < SLUB_NCACHE)
    (mapped : f < mappedPages)
    (unwritten : ∀ place, kva f ≤ place → place < kva f + PGSIZE → after place = bytes place)
    (same : (liveIn others (kva f)).Perm (liveIn live (kva f))) :
    SlabPage after others i (kva f) free := by
  refine page.frame (fun place low high => unwritten place (by omega) ?_)
    (fun address member place low high => ?_) same
  · simp only [slabHeaderSize, PGSIZE] at *
    omega
  · have bounds := page.free_bounds cache mapped address member
    exact unwritten place (by omega) (by omega)

end SlabPage

end Ucore.Mm.Slub
