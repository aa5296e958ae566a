import Ucore.Mm.Slub.Bookkeeping

namespace Ucore.Mm.Slub

open Ucore.Data

/-! `kmalloc` and `kfree` write into headers, free objects and new pages only. -/

variable {memory after : SlubMemory} {live : List Object} {client state next : SlubClient}
  {request : SlubRequest} {trace : List (SlubClient × SlubRequest)} {size ptr : Nat}
  {slabs more : Nat → List Nat} {use uses : Nat → Option Use} {source : Nat → Option Nat}
  {object : Object}

theorem Outcome.untouched (outcome : Outcome source memory live slabs use size ptr after more uses) :
    Untouched memory.bytes after.bytes live := by
  cases outcome with
  | refused => exact fun object isLive place inside => rfl
  | reused _ _ _ _ untouched => exact untouched
  | grown _ _ _ _ untouched => exact untouched
  | block _ _ _ _ untouched => exact fun object isLive place inside => by rw [untouched]

theorem Sound.call_untouched (sound : Sound state slabs use) (step : SlubStep state request next)
    (call : ∀ object offset byte, request ≠ .write object offset byte) :
    ∀ object ∈ state.live, object ∈ next.live → ∀ place, InRoom object place →
      next.memory.bytes place = state.memory.bytes place := by
  intro object before isLive place inside
  cases step with
  | allocated wide grants result valid =>
      obtain ⟨more, uses, outcome⟩ := Outcome.of_returns sound wide grants result
      exact outcome.untouched object before place inside
  | refused wide grants result =>
      obtain ⟨more, uses, outcome⟩ := Outcome.of_returns sound wide grants result
      exact outcome.untouched object before place inside
  | @freed memory live gone member =>
      rcases Nat.lt_or_ge PGSIZE gone.size with large | small
      · obtain ⟨after, freed, _, written⟩ := sound.leak member large
        simp only [freed]
        apply Classical.byContradiction
        intro changed
        have different : gone ≠ object := by
          intro same
          exact sound.placed.distinct.of_map.not_mem_erase (same ▸ isLive)
        exact sound.placed.apart member before different (written place changed) inside
      · obtain ⟨after, freed, _, untouched⟩ := sound.release member small
        simp only [freed]
        exact untouched object isLive place inside
  | wrote => exact absurd rfl (call _ _ _)

/-- The pages of a large object are no slab pages. -/
theorem Sound.kfree_large (sound : Sound ⟨memory, live⟩ slabs use) (member : object ∈ live)
    (large : PGSIZE < object.size) : (kfree memory object.address).caches = memory.caches ∧
      ∀ i < SLUB_NCACHE, ∀ f ∈ slabs i, ∀ place, InPage f place →
        (kfree memory object.address).bytes place = memory.bytes place := by
  obtain ⟨after, freed, _, written⟩ := sound.leak member large
  rw [freed]
  refine ⟨rfl, fun i cache f listed place inPage => Classical.byContradiction fun changed => ?_⟩
  have small := (sound.placed.in_slab cache listed member (written place changed) inPage).1
  omega

theorem isolation (booted : SlubBooted client) (run : Run SlubStep client trace state)
    (step : SlubStep state request next)
    (call : ∀ object offset byte, request ≠ .write object offset byte) :
    (∀ object ∈ state.live, object ∈ next.live → ∀ place, object.address ≤ place →
        place < object.address + object.size →
        next.memory.bytes place = state.memory.bytes place) ∧
      ∀ object, request = .kfree object → PGSIZE < object.size →
        next.memory.caches = state.memory.caches ∧
          ∀ i < SLUB_NCACHE, ∀ pages, Chain (slabNext.get state.memory.bytes) NULL
            (state.memory.caches i).pages pages → ∀ sp ∈ pages, ∀ place, sp ≤ place →
            place < sp + PGSIZE → next.memory.bytes place = state.memory.bytes place := by
  obtain ⟨slabs, use, sound⟩ := sound_run booted run
  constructor
  · intro object before isLive place low high
    have enough := size_le_room object
    exact sound.call_untouched step call object before isLive place ⟨low, by omega⟩
  · intro object isFree large
    subst isFree
    cases step with
    | freed member =>
        obtain ⟨caches, untouched⟩ := sound.kfree_large member large
        refine ⟨caches, fun i cache pages chain sp listed place low high => ?_⟩
        rw [chain.unique (sound.chain i cache)] at listed
        obtain ⟨f, inSlabs, rfl⟩ := List.mem_map.mp listed
        exact untouched i cache f inSlabs place ⟨low, high⟩

/-- A large block on two frames and a small object are live, and the block is freed. -/
theorem isolation_large : ∃ state next ptr, SlubStep state (.kfree ⟨kva 0, 5000⟩) next ∧
    state.live = [⟨ptr, 8⟩, ⟨kva 0, 5000⟩] ∧ next.live = [⟨ptr, 8⟩] ∧
    (∀ place, ptr ≤ place → place < ptr + 8 → next.memory.bytes place = state.memory.bytes place) ∧
    next.memory.caches = state.memory.caches := by
  have none : ∀ frame ∈ (slubInit blank).frames, Disjoint frame.points (⟨0, 2⟩ : Extent).points :=
    fun frame member => absurd member List.not_mem_nil
  have grants := onlyBlock_grants (by decide) (by decide) none
  have large : SlubStep ⟨slubInit blank, []⟩ (.kmalloc 5000)
      ⟨{ slubInit blank with frames := [⟨0, 2⟩] }, [⟨kva 0, 5000⟩]⟩ :=
    .allocated (by decide) grants (Returns.of_constant fun fuel => rfl) (kva_ne_null 0)
  obtain ⟨_, _, sound⟩ := (booted_sound booted_blank).step large
  have unused : ∀ frame ∈ [(⟨0, 2⟩ : Extent)], Disjoint frame.points (⟨2, 1⟩ : Extent).points := by
    decide
  have more := onlyBlock_grants (by decide) (by decide) unused
  obtain ⟨ptr, after, small⟩ : ∃ ptr after, SlubStep _ (.kmalloc 8)
      ⟨after, [⟨ptr, 8⟩, ⟨kva 0, 5000⟩]⟩ :=
    sound.served (by decide) more (by decide) (by decide) (.inl (by decide))
  have run : Run SlubStep ⟨slubInit blank, []⟩ _ ⟨after, [⟨ptr, 8⟩, ⟨kva 0, 5000⟩]⟩ :=
    .step large (.step small (.done _))
  have freed : SlubStep ⟨after, [⟨ptr, 8⟩, ⟨kva 0, 5000⟩]⟩ (.kfree ⟨kva 0, 5000⟩)
      ⟨kfree after (kva 0), [⟨ptr, 8⟩]⟩ := by
    have step : SlubStep ⟨after, [⟨ptr, 8⟩, ⟨kva 0, 5000⟩]⟩ (.kfree ⟨kva 0, 5000⟩)
        ⟨kfree after (kva 0), [⟨ptr, 8⟩, ⟨kva 0, 5000⟩].erase ⟨kva 0, 5000⟩⟩ := .freed (by simp)
    simpa using step
  have isolated := isolation booted_blank run freed (by simp)
  refine ⟨_, _, ptr, freed, rfl, rfl, ?_, (isolated.2 _ rfl (by decide)).1⟩
  exact isolated.1 ⟨ptr, 8⟩ (by simp) (by simp)

end Ucore.Mm.Slub
