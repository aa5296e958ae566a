import Ucore.Mm.Slub.Bookkeeping

namespace Ucore.Mm.Slub

open Ucore.Data

/-! What `kmalloc` returns for each size. -/

variable {memory after : SlubMemory} {live : List Object} {client last : SlubClient}
  {trace : List (SlubClient × SlubRequest)} {size ptr : Nat} {slabs more : Nat → List Nat}
  {use uses : Nat → Option Use} {source : Nat → Option Nat}

/-- A small object lies in a page on the list of its cache, above the header. -/
def InSlab (memory : SlubMemory) (size ptr : Nat) : Prop :=
  ∃ pages f, Chain (slabNext.get memory.bytes) NULL (memory.caches (sizeToIndex size)).pages pages ∧
    kva f ∈ pages ∧ (∃ frame ∈ memory.frames, f ∈ frame.points) ∧
    kva f + slabHeaderSize ≤ ptr ∧ ptr + size ≤ kva f + PGSIZE

/-- A large object lies in the pages that were allocated for it. -/
def InBlock (source : Nat → Option Nat) (size ptr : Nat) : Prop :=
  ∃ f, source (neededPages size) = some f ∧ ptr = kva f ∧ size ≤ neededPages size * PGSIZE

/-- The request comes back, with an object of this size, or with a null pointer when nothing was asked
for or the page allocator refused. -/
structure Serves (source : Nat → Option Nat) (memory : SlubMemory) (size : Nat) : Prop where
  returns : ∃ result, Returns (kmalloc source memory size) result
  null : ∀ after, Returns (kmalloc source memory size) (NULL, after) →
    size = 0 ∨ source (neededPages size) = none
  small : ∀ ptr after, Returns (kmalloc source memory size) (ptr, after) → ptr ≠ NULL →
    size ≤ PGSIZE → InSlab after size ptr
  large : ∀ ptr after, Returns (kmalloc source memory size) (ptr, after) → ptr ≠ NULL →
    PGSIZE < size → InBlock source size ptr

theorem Sound.new_small (sound : Sound ⟨after, ⟨ptr, size⟩ :: live⟩ slabs use) (small : size ≤ PGSIZE) :
    InSlab after size ptr := by
  have cache := (sizeToIndex_spec small).1
  have fits := (sizeToIndex_spec small).2.1
  obtain ⟨f, member, slot⟩ := sound.placed.small ⟨ptr, size⟩ (List.mem_cons_self ..) small
  have used := (sound.placed.listed _ cache f).mp member
  have bounds : kva f + slabHeaderSize ≤ ptr ∧ ptr + classSize (sizeToIndex size) ≤ kva f + PGSIZE :=
    slot_bounds cache (sound.placed.slab_mapped cache member) slot
  have held := sound.held f (by rw [used]; exact Option.some_ne_none _)
  exact ⟨_, f, sound.chain _ cache, List.mem_map_of_mem member, held, bounds.1, by omega⟩

theorem Sound.serves (sound : Sound ⟨memory, live⟩ slabs use) (wide : size < 2 ^ 64)
    (grants : Grants memory.frames source) {result : Nat × SlubMemory}
    (returns : Returns (kmalloc source memory size) result) : Serves source memory size := by
  refine ⟨⟨result, returns⟩, fun after result => ?_, fun ptr after result valid small => ?_,
    fun ptr after result valid large => ?_⟩
  · obtain ⟨more, uses, outcome⟩ := Outcome.of_returns sound wide grants result
    exact (outcome.null rfl).2.2.2
  · obtain ⟨more, uses, outcome⟩ := Outcome.of_returns sound wide grants result
    exact (outcome.sound valid).new_small small
  · obtain ⟨more, uses, outcome⟩ := Outcome.of_returns sound wide grants result
    cases outcome with
    | refused => exact absurd rfl valid
    | reused small => omega
    | grown small => omega
    | block _ granted enough => exact ⟨_, granted, rfl, enough⟩

/-- The pages of the last cache have no room for an object. -/
theorem Outcome.not_last (outcome : Outcome source memory live slabs use size ptr after more uses)
    (last : 2048 < size) (small : size ≤ PGSIZE) : source 1 = none := by
  have index := (sizeToIndex_spec small).2.2.mpr last
  have noSlot {f ptr : Nat} : ptr ∉ slots (kva f) (sizeToIndex size) := by
    intro slot
    have none := slots_length (kva f) 9
    rw [index] at slot
    rw [slotCount_top] at none
    exact absurd (List.length_pos_of_mem slot) (by omega)
  cases outcome with
  | refused cause =>
      rcases cause with zero | refused
      · omega
      · rwa [neededPages, if_pos small] at refused
  | reused _ _ slot => exact absurd slot noSlot
  | grown _ _ slot => exact absurd slot noSlot
  | block large => omega

/-- Every size is served as it should be, but for the sizes of the last cache, which follow a null
pointer as soon as the page allocator grants a page. -/
theorem serves_iff (booted : SlubBooted client) (run : Run SlubStep client trace last)
    (wide : size < 2 ^ 64) (grants : Grants last.memory.frames source) :
    Serves source last.memory size ↔ ¬ (2048 < size ∧ size ≤ 4096 ∧ source 1 ≠ none) := by
  obtain ⟨slabs, use, sound⟩ := sound_run booted run
  constructor
  · intro serves top
    obtain ⟨⟨ptr, after⟩, returns⟩ := serves.returns
    obtain ⟨more, uses, outcome⟩ := Outcome.of_returns sound wide grants returns
    exact top.2.2 (outcome.not_last top.1 top.2.1)
  · intro notTop
    rcases sound.kmalloc_cases wide grants with served | stuck
    · obtain ⟨ptr, after, more, uses, returns, _⟩ := served
      exact sound.serves wide grants returns
    · exact absurd ⟨stuck.1, stuck.2.1, stuck.2.2.1⟩ notTop

theorem serves_first : Serves (onlyBlock ⟨0, 1⟩) (slubInit blank) 8 :=
  (serves_iff booted_blank (.done _) (by decide) firstFrame_grants).mpr (by decide)

/-- A request for a whole page right after `slub_init`. -/
theorem page_not_served : ¬ Serves (onlyBlock ⟨0, 1⟩) (slubInit blank) 4096 := by
  intro serves
  have sound := booted_sound booted_blank
  obtain ⟨⟨ptr, after⟩, returns⟩ := serves.returns
  obtain ⟨more, uses, outcome⟩ := Outcome.of_returns sound (by decide) firstFrame_grants returns
  have refused := outcome.not_last (by decide) (by decide)
  cases refused

end Ucore.Mm.Slub
