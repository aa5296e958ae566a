import Ucore.Mm.Script
import Ucore.Mm.Slub

namespace Ucore.Mm

open Ucore.Data Extent

/-! `kern/mm/slub.c` over a page allocator that others call as well.

In `Ucore.Mm.Slub` the page allocator is what it answers.  Here `kmalloc` calls
the manager and changes its state, and calls of `alloc_pages` and `free_pages`
by other parts of the kernel come in between.
-/

/-- The state of the page allocator and that of the object allocator. -/
structure KernelHeap (σ : Type) where
  pages : σ
  slub : SlubMemory

variable {σ : Type}

/-- `alloc_slab_page`, where `alloc_page` is a call of the manager. -/
def kernelAllocSlabPage (manager : PmmManager σ) (heap : KernelHeap σ) (cacheIdx : Nat) :
    Bounded (Nat × KernelHeap σ) := fun fuel => do
  let (pg, pages) ← manager.allocPages heap.pages 1 fuel
  let (sp, slub) := allocSlabPage (fun _ => pg) heap.slub cacheIdx
  .ok (sp, { pages, slub })

/-- `kmalloc`, where `alloc_pages` is a call of the manager. -/
def kernelKmalloc (manager : PmmManager σ) (heap : KernelHeap σ) (size : Nat) :
    Bounded (Nat × KernelHeap σ) := fun fuel =>
  if size = 0 then
    .ok (NULL, heap)
  else if size > 1 <<< SLUB_MAX_SHIFT then do
    let np := uint64 (size + PGSIZE - 1) / PGSIZE
    let (pg, pages) ← manager.allocPages heap.pages np fuel
    match slubAllocPages (fun _ => pg) heap.slub np with
    | (none, slub) => .ok (NULL, { pages, slub })
    | (some pg, slub) => .ok (uint64 (page2pa pg + va_pa_offset), { pages, slub })
  else do
    let idx := sizeToIndex size
    let found ← findSlab heap.slub.bytes fuel (heap.slub.caches idx).pages
    let (sp, heap) ←
      (if found = NULL then kernelAllocSlabPage manager heap idx fuel else .ok (found, heap))
    if sp = NULL then
      .ok (NULL, heap)
    else do
      let (obj, slub) ← takeObject heap.slub sp
      .ok (obj, { heap with slub })

/-- The heap, the blocks that other parts of the kernel hold, and the live objects. -/
structure HeapClient (σ : Type) where
  heap : KernelHeap σ
  direct : List Allocation
  live : List Object

inductive HeapRequest where
  | pages (request : Request)
  | fill (block : Allocation) (offset : Nat) (byte : UInt8)
  | slub (request : SlubRequest)

/-- The only byte that the request writes by itself. -/
def HeapRequest.target : HeapRequest → Option Nat
  | .fill block offset _ => some (kva block.page + offset)
  | .slub (.write object offset _) => some (object.address + offset)
  | _ => none

/-- A call of the page allocator, a write into pages that it handed out, or a call of the object
allocator or a write into a live object.  The descriptors and lists of the page allocator are in its
own state, not among the bytes. -/
inductive HeapStep (manager : PmmManager σ) : HeapClient σ → HeapRequest → HeapClient σ → Prop where
  | pages {heap : KernelHeap σ} {pages : σ} {direct remaining : List Allocation} {live : List Object}
      {request : Request} (step : Step manager ⟨heap.pages, direct⟩ request ⟨pages, remaining⟩) :
      HeapStep manager ⟨heap, direct, live⟩ (.pages request) ⟨{ heap with pages }, remaining, live⟩
  | filled {pages : σ} {slub : SlubMemory} {direct : List Allocation} {live : List Object}
      {block : Allocation} {offset : Nat} {byte : UInt8} (member : block ∈ direct)
      (inside : offset < block.count * PGSIZE) :
      HeapStep manager ⟨⟨pages, slub⟩, direct, live⟩ (.fill block offset byte)
        ⟨⟨pages, { slub with
          bytes := Function.update slub.bytes (kva block.page + offset) byte }⟩, direct, live⟩
  | allocated {heap after : KernelHeap σ} {direct : List Allocation} {live : List Object}
      {size ptr : Nat} (wide : size < 2 ^ 64)
      (result : Returns (kernelKmalloc manager heap size) (ptr, after)) (valid : ptr ≠ NULL) :
      HeapStep manager ⟨heap, direct, live⟩ (.slub (.kmalloc size)) ⟨after, direct, ⟨ptr, size⟩ :: live⟩
  | refused {heap after : KernelHeap σ} {direct : List Allocation} {live : List Object}
      {size : Nat} (wide : size < 2 ^ 64)
      (result : Returns (kernelKmalloc manager heap size) (NULL, after)) :
      HeapStep manager ⟨heap, direct, live⟩ (.slub (.kmalloc size)) ⟨after, direct, live⟩
  | freed {pages : σ} {slub : SlubMemory} {direct : List Allocation} {live : List Object}
      {object : Object} (member : object ∈ live) :
      HeapStep manager ⟨⟨pages, slub⟩, direct, live⟩ (.slub (.kfree object))
        ⟨⟨pages, kfree slub object.address⟩, direct, live.erase object⟩
  | wrote {pages : σ} {slub : SlubMemory} {direct : List Allocation} {live : List Object}
      {object : Object} {offset : Nat} {byte : UInt8} (member : object ∈ live)
      (inside : offset < object.size) :
      HeapStep manager ⟨⟨pages, slub⟩, direct, live⟩ (.slub (.write object offset byte))
        ⟨⟨pages, { slub with
          bytes := Function.update slub.bytes (object.address + offset) byte }⟩, direct, live⟩

/-- The blocks that the object allocator has got from the page allocator. -/
def slubBlocks (slub : SlubMemory) : List Allocation :=
  slub.frames.map fun frame => ⟨frame.start, frame.size⟩

/-- The page allocator has been booted and `slub_init` has run. -/
def HeapBooted (manager : PmmManager σ) (memory : σ) (base n : Nat) (client : HeapClient σ) : Prop :=
  Booted manager memory base n ⟨client.heap.pages, []⟩ ∧ client.direct = [] ∧ client.live = [] ∧
    ∃ slub, slub.frames = [] ∧ client.heap.slub = slubInit slub

/-- What the users of a page allocator rely on: while every call is allowed, the blocks that are
out are apart and lie in the region. -/
structure PageService (manager : PmmManager σ) (region : Extent) where
  Inv : Client σ → Prop
  allowed : σ → Request → Prop
  steady : manager.SteadyOps
  alloc_allowed : ∀ pages count, allowed pages (.alloc count)
  preserved : ∀ {client request next}, Inv client → allowed client.memory request →
    Step manager client request next → Inv next
  packs : ∀ {client}, Inv client → Packs (client.outstanding.map Allocation.extent) region
  positive : ∀ {client}, Inv client → ∀ block ∈ client.outstanding, block.count ≠ 0

/-- The next call is one that the page allocator allows. -/
def PageService.permits {manager : PmmManager σ} {region : Extent}
    (service : PageService manager region) (client : HeapClient σ) (request : HeapRequest) : Prop :=
  ∀ asked, request = .pages asked → service.allowed client.heap.pages asked

end Ucore.Mm
