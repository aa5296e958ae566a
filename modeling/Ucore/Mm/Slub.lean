import Ucore.Data.Bounded
import Ucore.Data.Bytes
import Ucore.Data.Extent
import Ucore.Mm.Memlayout
import Ucore.Mm.Mmu

namespace Ucore.Mm

open Ucore.Data

/-! `kern/mm/slub.c`: caches of objects of one size each, over the page allocator.

Pointers are addresses.  A slab page carries its header in its first bytes, and
a free object the pointer to the next one in its own:

    slab_page_t                obj_head_t
     0  next                    0  next
     8  free_list
    16  used
    20  obj_per_page
    24  cache_idx
-/

def NULL : Nat := 0

def SLUB_MIN_SHIFT : Nat := 3

def SLUB_MAX_SHIFT : Nat := 12

def SLUB_NCACHE : Nat := SLUB_MAX_SHIFT - SLUB_MIN_SHIFT + 1

/-- A field of a structure in memory. -/
structure Field where
  offset : Nat
  width : Nat

def Field.get (field : Field) (bytes : Bytes) (pointer : Nat) : Nat :=
  bytes.load (pointer + field.offset) field.width

def Field.set (field : Field) (bytes : Bytes) (pointer value : Nat) : Bytes :=
  bytes.store (pointer + field.offset) field.width value

def objNext : Field := ⟨0, 8⟩

def slabNext : Field := ⟨0, 8⟩

def slabFreeList : Field := ⟨8, 8⟩

def slabUsed : Field := ⟨16, 4⟩

def slabObjPerPage : Field := ⟨20, 4⟩

def slabCacheIdx : Field := ⟨24, 4⟩

/-- `sizeof(slab_page_t)`. -/
def slabHeaderSize : Nat := 32

structure SlubCache where
  objSize : Nat
  pages : Nat
deriving DecidableEq, Repr

/-- The memory, the array `caches`, and the frames that `alloc_pages` handed out. -/
structure SlubMemory where
  bytes : Bytes
  caches : Nat → SlubCache
  frames : List Extent

/-- The loop of `size_to_index`; `rounds` is `SLUB_NCACHE - 1 - i`. -/
def sizeToIndexLoop (size : Nat) : (rounds s i : Nat) → Nat
  | 0, _, i => i
  | rounds + 1, s, i => if s < size then sizeToIndexLoop size rounds (uint64 (s <<< 1)) (i + 1) else i

def sizeToIndex (size : Nat) : Nat :=
  sizeToIndexLoop size (SLUB_NCACHE - 1) (1 <<< SLUB_MIN_SHIFT) 0

/-- `(base + obj_size - 1) & ~(obj_size - 1)`. -/
def slabAligned (sp objSize : Nat) : Nat :=
  uint64 (sp + slabHeaderSize + objSize - 1) &&& uint64Not (objSize - 1)

/-- The objects from the `i`-th on are linked in front of `prev`. -/
def slabBuildList (aligned objSize : Nat) : (rounds i : Nat) → Bytes → (prev : Nat) → Bytes × Nat
  | 0, _, bytes, prev => (bytes, prev)
  | rounds + 1, i, bytes, prev =>
      let o := uint64 (aligned + i * objSize)
      slabBuildList aligned objSize rounds (i + 1) (objNext.set bytes o prev) o

def slabPageInit (bytes : Bytes) (sp objSize cacheIdx : Nat) : Bytes :=
  let bytes := slabNext.set bytes sp NULL
  let bytes := slabUsed.set bytes sp 0
  let bytes := slabFreeList.set bytes sp NULL
  let bytes := slabObjPerPage.set bytes sp ((PGSIZE - slabHeaderSize) / objSize)
  let bytes := slabCacheIdx.set bytes sp cacheIdx
  -- no object overlaps the header, so the bound of the loop is the same in every round
  let (bytes, prev) :=
    slabBuildList (slabAligned sp objSize) objSize (slabObjPerPage.get bytes sp) 0 bytes NULL
  slabFreeList.set bytes sp prev

def slubInit (memory : SlubMemory) : SlubMemory :=
  { memory with caches := fun i =>
      if i < SLUB_NCACHE then { objSize := 1 <<< (SLUB_MIN_SHIFT + i), pages := NULL }
      else memory.caches i }

/-- `alloc_pages`, where `source` tells what the page allocator answers at this moment. -/
def slubAllocPages (source : Nat → Option Nat) (memory : SlubMemory) (n : Nat) :
    Option Nat × SlubMemory :=
  match source n with
  | none => (none, memory)
  | some page => (some page, { memory with frames := ⟨page, n⟩ :: memory.frames })

def allocSlabPage (source : Nat → Option Nat) (memory : SlubMemory) (cacheIdx : Nat) :
    Nat × SlubMemory :=
  match slubAllocPages source memory 1 with
  | (none, memory) => (NULL, memory)
  | (some pg, memory) =>
      let c := memory.caches cacheIdx
      let sp := uint64 (page2pa pg + va_pa_offset)
      let bytes := slabPageInit (memory.bytes.fill sp 0 PGSIZE) sp c.objSize cacheIdx
      let bytes := slabNext.set bytes sp c.pages
      (sp, { memory with bytes, caches := Function.update memory.caches cacheIdx { c with pages := sp } })

/-- `while (sp)`: the first slab page with a free object. -/
def findSlab (bytes : Bytes) : Nat → (sp : Nat) → Except Stop Nat
  | 0, _ => .error .outOfFuel
  | fuel + 1, sp =>
      if sp = NULL then .ok NULL
      else if slabFreeList.get bytes sp ≠ NULL then .ok sp
      else findSlab bytes fuel (slabNext.get bytes sp)

/-- `obj->next` is read before anything is written, and address 0 is not mapped. -/
def takeObject (memory : SlubMemory) (sp : Nat) : Except Stop (Nat × SlubMemory) :=
  let obj := slabFreeList.get memory.bytes sp
  if obj = NULL then
    .error (.panic "load page fault")
  else
    let bytes := slabFreeList.set memory.bytes sp (objNext.get memory.bytes obj)
    let bytes := slabUsed.set bytes sp (uint32 (slabUsed.get bytes sp + 1))
    .ok (obj, { memory with bytes })

def kmalloc (source : Nat → Option Nat) (memory : SlubMemory) (size : Nat) :
    Bounded (Nat × SlubMemory) := fun fuel =>
  if size = 0 then
    .ok (NULL, memory)
  else if size > 1 <<< SLUB_MAX_SHIFT then
    let np := uint64 (size + PGSIZE - 1) / PGSIZE
    match slubAllocPages source memory np with
    | (none, memory) => .ok (NULL, memory)
    | (some pg, memory) => .ok (uint64 (page2pa pg + va_pa_offset), memory)
  else do
    let idx := sizeToIndex size
    let found ← findSlab memory.bytes fuel (memory.caches idx).pages
    let (sp, memory) := if found = NULL then allocSlabPage source memory idx else (found, memory)
    if sp = NULL then .ok (NULL, memory) else takeObject memory sp

def kfree (memory : SlubMemory) (ptr : Nat) : SlubMemory :=
  if ptr = NULL then
    memory
  else
    let sp := ptr &&& uint64Not (PGSIZE - 1)
    if slabCacheIdx.get memory.bytes sp ≥ SLUB_NCACHE then
      memory
    else
      let bytes := objNext.set memory.bytes ptr (slabFreeList.get memory.bytes sp)
      let bytes := slabFreeList.set bytes sp ptr
      let bytes := slabUsed.set bytes sp (uint32Sub (slabUsed.get bytes sp) 1)
      { memory with bytes }

/-! The users of the allocator. -/

/-- A live object: its address and the size that was asked for. -/
structure Object where
  address : Nat
  size : Nat
deriving DecidableEq, Repr

structure SlubClient where
  memory : SlubMemory
  live : List Object

inductive SlubRequest where
  | kmalloc (size : Nat)
  | kfree (object : Object)
  | write (object : Object) (offset : Nat) (byte : UInt8)

/-- The page allocator returns at least one frame, all of them mapped and none in use. -/
def Grants (frames : List Extent) (source : Nat → Option Nat) : Prop :=
  ∀ n page, source n = some page → 0 < n ∧ page + n ≤ mappedPages ∧
    ∀ frame ∈ frames, Disjoint frame.points (⟨page, n⟩ : Extent).points

/-- One call by an owner that frees live objects only, or a write into a byte that was asked for. -/
inductive SlubStep : SlubClient → SlubRequest → SlubClient → Prop where
  | allocated {memory after : SlubMemory} {live : List Object} {source : Nat → Option Nat}
      {size ptr : Nat} (wide : size < 2 ^ 64) (grants : Grants memory.frames source)
      (result : Returns (kmalloc source memory size) (ptr, after)) (valid : ptr ≠ NULL) :
      SlubStep ⟨memory, live⟩ (.kmalloc size) ⟨after, ⟨ptr, size⟩ :: live⟩
  | refused {memory after : SlubMemory} {live : List Object} {source : Nat → Option Nat}
      {size : Nat} (wide : size < 2 ^ 64) (grants : Grants memory.frames source)
      (result : Returns (kmalloc source memory size) (NULL, after)) :
      SlubStep ⟨memory, live⟩ (.kmalloc size) ⟨after, live⟩
  | freed {memory : SlubMemory} {live : List Object} {object : Object} (member : object ∈ live) :
      SlubStep ⟨memory, live⟩ (.kfree object) ⟨kfree memory object.address, live.erase object⟩
  | wrote {memory : SlubMemory} {live : List Object} {object : Object} {offset : Nat}
      {byte : UInt8} (member : object ∈ live) (inside : offset < object.size) :
      SlubStep ⟨memory, live⟩ (.write object offset byte)
        ⟨{ memory with bytes := Function.update memory.bytes (object.address + offset) byte }, live⟩

/-- The state after `slub_init`, whatever the memory and the frames in use. -/
def SlubBooted (client : SlubClient) : Prop :=
  ∃ memory, client = ⟨slubInit memory, []⟩

end Ucore.Mm
