import Ucore.Data.Run
import Ucore.Mm.Slub.Kmalloc

namespace Ucore.Mm.Slub

open Ucore.Data

/-! Bookkeeping in every run: each page is divided into free and live objects. -/

variable {memory after : SlubMemory} {live : List Object} {client next last : SlubClient}
  {request : SlubRequest} {trace : List (SlubClient × SlubRequest)} {i f sp size ptr : Nat}
  {slabs more : Nat → List Nat} {use uses : Nat → Option Use} {source : Nat → Option Nat}
  {free : List Nat} {object : Object}

/-- One of the places for objects in a slab page. -/
def IsSlot (client : SlubClient) (i sp o : Nat) : Prop :=
  ∃ k < slabObjPerPage.get client.memory.bytes sp,
    o = slabAligned sp (client.memory.caches i).objSize + k * (client.memory.caches i).objSize

/-- What the header and the free list of a page of the cache say. -/
structure Bookkept (client : SlubClient) (i sp : Nat) (free : List Nat) : Prop where
  cacheIdx : slabCacheIdx.get client.memory.bytes sp = i
  freeList : Chain (objNext.get client.memory.bytes) NULL
    (slabFreeList.get client.memory.bytes sp) free
  nodup : free.Nodup
  slot : ∀ o ∈ free, IsSlot client i sp o
  live : ∀ o, o ∈ liveIn client.live sp ↔ IsSlot client i sp o ∧ o ∉ free
  used : slabUsed.get client.memory.bytes sp = (liveIn client.live sp).length
  full : slabUsed.get client.memory.bytes sp + free.length = slabObjPerPage.get client.memory.bytes sp

/-- Each page on the list of a cache is kept. -/
def AllBookkept (client : SlubClient) : Prop :=
  ∀ i < SLUB_NCACHE, ∃ pages, Chain (slabNext.get client.memory.bytes) NULL
    (client.memory.caches i).pages pages ∧ ∀ sp ∈ pages, ∃ free, Bookkept client i sp free

/-- A `kmalloc` that returns a null pointer changes nothing. -/
def RefusalsNeutral (client : SlubClient) : Prop :=
  ∀ source size after, size < 2 ^ 64 → Grants client.memory.frames source →
    Returns (kmalloc source client.memory size) (NULL, after) → after = client.memory

theorem Outcome.of_returns (sound : Sound ⟨memory, live⟩ slabs use) (wide : size < 2 ^ 64)
    (grants : Grants memory.frames source) (result : Returns (kmalloc source memory size) (ptr, after)) :
    ∃ more uses, Outcome source memory live slabs use size ptr after more uses := by
  rcases sound.kmalloc_cases wide grants with served | stuck
  · obtain ⟨found, memory', more, uses, returns, outcome⟩ := served
    cases returns.unique result
    exact ⟨more, uses, outcome⟩
  · exact absurd result (stuck.2.2.2 _)

theorem slot_valid (placed : Placed live slabs use) (cache : i < SLUB_NCACHE) (member : f ∈ slabs i)
    (slot : ptr ∈ slots (kva f) i) : ptr ≠ NULL := by
  have bounds := slot_bounds cache (placed.slab_mapped cache member) slot
  simp only [slabHeaderSize, NULL] at *
  omega

theorem Outcome.sound (outcome : Outcome source memory live slabs use size ptr after more uses)
    (valid : ptr ≠ NULL) : Sound ⟨after, ⟨ptr, size⟩ :: live⟩ more uses := by
  cases outcome with
  | refused => exact absurd rfl valid
  | reused _ _ _ sound => exact sound
  | grown _ _ _ sound => exact sound
  | block _ _ _ sound => exact sound

/-- A null pointer is returned only when the page allocator refuses, and then nothing changed. -/
theorem Outcome.null (outcome : Outcome source memory live slabs use size ptr after more uses)
    (null : ptr = NULL) : after = memory ∧ more = slabs ∧ uses = use ∧
      (size = 0 ∨ source (neededPages size) = none) := by
  cases outcome with
  | refused cause => exact ⟨rfl, rfl, rfl, cause⟩
  | reused small member slot sound =>
      exact absurd null (slot_valid sound.placed (sizeToIndex_spec small).1 member slot)
  | grown small _ slot sound =>
      refine absurd null (slot_valid sound.placed (sizeToIndex_spec small).1 ?_ slot)
      rw [Function.update_self]
      exact List.mem_cons_self ..
  | block => exact absurd null (kva_ne_null _)

theorem Sound.step (sound : Sound client slabs use) (step : SlubStep client request next) :
    ∃ more uses, Sound next more uses := by
  cases step with
  | allocated wide grants result valid =>
      obtain ⟨more, uses, outcome⟩ := Outcome.of_returns sound wide grants result
      exact ⟨more, uses, outcome.sound valid⟩
  | refused wide grants result =>
      obtain ⟨more, uses, outcome⟩ := Outcome.of_returns sound wide grants result
      cases (outcome.null rfl).1
      exact ⟨slabs, use, sound⟩
  | @freed memory live object member =>
      rcases Nat.lt_or_ge PGSIZE object.size with large | small
      · obtain ⟨after, freed, next, _⟩ := sound.leak member large
        exact ⟨slabs, use, freed ▸ next⟩
      · obtain ⟨after, freed, next, _⟩ := sound.release member small
        exact ⟨slabs, use, freed ▸ next⟩
  | wrote member inside => exact ⟨slabs, use, sound.write member inside⟩

theorem sound_run (booted : SlubBooted client) (run : Run SlubStep client trace last) :
    ∃ slabs use, Sound last slabs use := by
  have preserved : ∀ {state label next}, (∃ slabs use, Sound state slabs use) → True →
      SlubStep state label next → ∃ slabs use, Sound next slabs use := by
    intro state label next sound _ step
    obtain ⟨slabs, use, sound⟩ := sound
    exact sound.step step
  exact (run.invariant _ preserved ⟨_, _, booted_sound booted⟩ fun _ _ => trivial).2

theorem Sound.bookkept (sound : Sound client slabs use) (cache : i < SLUB_NCACHE) (member : f ∈ slabs i) :
    ∃ free, Bookkept client i (kva f) free := by
  obtain ⟨free, page⟩ := sound.page i cache f member
  have nodup := List.nodup_append.mp page.nodup
  have isSlot (o : Nat) : IsSlot client i (kva f) o ↔ o ∈ slots (kva f) i := by
    simp only [IsSlot, page.objPerPage, sound.objSize i cache, slots, slot, List.mem_map,
      List.mem_range, eq_comm]
  refine ⟨free, page.cacheIdx, page.chain, nodup.1, fun o inFree => ?_, fun o => ?_, page.used, ?_⟩
  · exact (isSlot o).mpr (page.free_slot inFree)
  · rw [isSlot o, ← page.partition.mem_iff, List.mem_append]
    constructor
    · intro isLive
      exact ⟨.inr isLive, fun inFree => List.disjoint_of_nodup_append page.nodup inFree isLive⟩
    · intro rest
      exact rest.1.resolve_left rest.2
  · rw [page.used, page.objPerPage, ← page.count, Nat.add_comm]

/-- After every run the pages of each cache are kept, and a refused request changes nothing. -/
theorem bookkeeping (booted : SlubBooted client) (run : Run SlubStep client trace last) :
    AllBookkept last ∧ RefusalsNeutral last := by
  obtain ⟨slabs, use, sound⟩ := sound_run booted run
  constructor
  · intro i cache
    refine ⟨_, sound.chain i cache, fun sp listed => ?_⟩
    obtain ⟨f, member, rfl⟩ := List.mem_map.mp listed
    exact sound.bookkept cache member
  · intro source size after wide grants result
    obtain ⟨more, uses, outcome⟩ := Outcome.of_returns sound wide grants result
    exact (outcome.null rfl).1

/-! A run to look at. -/

theorem Sound.served (sound : Sound ⟨memory, live⟩ slabs use) (wide : size < 2 ^ 64)
    (grants : Grants memory.frames source) (positive : size ≠ 0)
    (granted : source (neededPages size) ≠ none) (fits : size ≤ 2048 ∨ PGSIZE < size) :
    ∃ ptr after, SlubStep ⟨memory, live⟩ (.kmalloc size) ⟨after, ⟨ptr, size⟩ :: live⟩ := by
  rcases sound.kmalloc_cases wide grants with served | stuck
  · obtain ⟨ptr, after, more, uses, returns, outcome⟩ := served
    refine ⟨ptr, after, .allocated wide grants returns fun null => ?_⟩
    rcases (outcome.null null).2.2.2 with zero | refused
    · exact positive zero
    · exact granted refused
  · omega

/-- Memory of zeros, of which no frame is in use. -/
def blank : SlubMemory := ⟨fun _ => 0, fun _ => ⟨0, NULL⟩, []⟩

/-- A page allocator that has this block left. -/
def onlyBlock (block : Extent) (n : Nat) : Option Nat :=
  if n = block.size then some block.start else none

theorem onlyBlock_grants {frames : List Extent} {block : Extent} (some : 0 < block.size)
    (mapped : block.start + block.size ≤ mappedPages)
    (unused : ∀ frame ∈ frames, Disjoint frame.points block.points) :
    Grants frames (onlyBlock block) := by
  intro n page granted
  rw [onlyBlock, Option.ite_none_right_eq_some] at granted
  obtain ⟨rfl, same⟩ := granted
  cases same
  exact ⟨some, mapped, unused⟩

theorem booted_blank : SlubBooted ⟨slubInit blank, []⟩ := ⟨blank, rfl⟩

theorem firstFrame_grants : Grants (slubInit blank).frames (onlyBlock ⟨0, 1⟩) :=
  onlyBlock_grants (by decide) (by decide) fun frame member => absurd member List.not_mem_nil

/-- Two objects that fill a page each; the first one is freed, and a third one gets its place although
no page is left. -/
theorem reuse_run : ∃ trace last, Run SlubStep ⟨slubInit blank, []⟩ trace last ∧
    trace.map (fun taken => (taken.1.live, taken.2)) = [([], .kmalloc 2048),
      ([⟨kva 0 + 2048, 2048⟩], .kmalloc 2048),
      ([⟨kva 1 + 2048, 2048⟩, ⟨kva 0 + 2048, 2048⟩], .kfree ⟨kva 0 + 2048, 2048⟩),
      ([⟨kva 1 + 2048, 2048⟩], .kmalloc 2048)] ∧
    last.live = [⟨kva 0 + 2048, 2048⟩, ⟨kva 1 + 2048, 2048⟩] := by
  have computed : (kmalloc (onlyBlock ⟨0, 1⟩) (slubInit blank) 2048 3).toOption.any (fun first =>
      decide (first.1 = kva 0 + 2048 ∧ first.2.frames = [⟨0, 1⟩]) &&
      (kmalloc (onlyBlock ⟨1, 1⟩) first.2 2048 3).toOption.any fun second =>
        decide (second.1 = kva 1 + 2048) &&
        (kmalloc (fun _ => none) (kfree second.2 (kva 0 + 2048)) 2048 3).toOption.any fun third =>
          third.1 = kva 0 + 2048) = true := by
    decide +kernel
  obtain ⟨⟨_, memory⟩, first, computed⟩ := (kmalloc_steady _ _ _).computed computed
  obtain ⟨place, computed⟩ := Bool.and_eq_true_iff.mp computed
  obtain ⟨rfl, frames⟩ := of_decide_eq_true place
  obtain ⟨⟨_, memory'⟩, second, computed⟩ := (kmalloc_steady _ _ _).computed computed
  obtain ⟨place, computed⟩ := Bool.and_eq_true_iff.mp computed
  obtain rfl := of_decide_eq_true place
  obtain ⟨⟨_, last⟩, third, place⟩ := (kmalloc_steady _ _ _).computed computed
  obtain rfl := of_decide_eq_true place
  have unused : Grants memory.frames (onlyBlock ⟨1, 1⟩) := by
    refine onlyBlock_grants (by decide) (by decide) ?_
    rw [frames]
    decide
  have freed : SlubStep ⟨memory', [⟨kva 1 + 2048, 2048⟩, ⟨kva 0 + 2048, 2048⟩]⟩
      (.kfree ⟨kva 0 + 2048, 2048⟩) ⟨kfree memory' (kva 0 + 2048), [⟨kva 1 + 2048, 2048⟩]⟩ :=
    .freed (List.mem_cons_of_mem _ (List.mem_singleton_self _))
  have exhausted : Grants (kfree memory' (kva 0 + 2048)).frames fun _ => none :=
    fun n page granted => nomatch granted
  exact ⟨_, _, .step (.allocated (by decide) firstFrame_grants first (by decide))
    (.step (.allocated (by decide) unused second (by decide))
      (.step freed (.step (.allocated (by decide) exhausted third (by decide)) (.done _)))), rfl, rfl⟩

theorem bookkeeping_first : ∃ trace last, Run SlubStep ⟨slubInit blank, []⟩ trace last ∧
    trace.map Prod.snd = [.kmalloc 2048, .kmalloc 2048, .kfree ⟨kva 0 + 2048, 2048⟩, .kmalloc 2048] ∧
    last.live = [⟨kva 0 + 2048, 2048⟩, ⟨kva 1 + 2048, 2048⟩] ∧
    AllBookkept last ∧ RefusalsNeutral last := by
  obtain ⟨trace, last, run, labels, live⟩ := reuse_run
  refine ⟨trace, last, run, ?_, live, bookkeeping booted_blank run⟩
  have requests := congrArg (List.map Prod.snd) labels
  rwa [List.map_map] at requests

end Ucore.Mm.Slub
