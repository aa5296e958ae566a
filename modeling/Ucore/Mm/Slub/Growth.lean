import Mathlib.Algebra.Order.BigOperators.Group.List
import Ucore.Mm.Slub.Bookkeeping

namespace Ucore.Mm.Slub

open Ucore.Data

/-! A class takes as many pages as its peak demand needs. -/

variable {memory after : SlubMemory} {live : List Object} {client next last : SlubClient}
  {request : SlubRequest} {trace : List (SlubClient × SlubRequest)} {i peak size ptr : Nat}
  {slabs more : Nat → List Nat} {use uses : Nat → Option Use} {source : Nat → Option Nat}
  {object : Object}

/-- The objects of a class. -/
def ofClass (i : Nat) (live : List Object) : List Object :=
  live.filter fun object => object.size ≤ PGSIZE ∧ sizeToIndex object.size = i

/-- The largest number of live objects of the class in the states of a run. -/
def peakDemand (i : Nat) (trace : List (SlubClient × SlubRequest)) (last : SlubClient) : Nat :=
  trace.foldr (fun taken peak => max (ofClass i taken.1.live).length peak) (ofClass i last.live).length

theorem Sound.class_pages (sound : Sound client slabs use) (cache : i < SLUB_NCACHE) :
    ((ofClass i client.live).map Object.address).Perm
      ((slabs i).flatMap fun f => liveIn client.live (kva f)) := by
  have pages : (slabs i).Nodup := (sound.chain i cache).nodup.of_map
  refine (List.perm_ext_iff_of_nodup ?_ ?_).mpr fun address => ?_
  · exact sound.placed.distinct.sublist (List.filter_sublist.map _)
  · refine List.nodup_flatMap.mpr ⟨fun f member => ?_, ?_⟩
    · obtain ⟨free, page⟩ := sound.page i cache f member
      exact (List.nodup_append.mp page.nodup).2.1
    · refine pages.imp fun different => ?_
      intro address inFirst inSecond
      obtain ⟨_, _, _, _, inPage⟩ := mem_liveIn.mp inFirst
      obtain ⟨_, _, _, _, inOther⟩ := mem_liveIn.mp inSecond
      exact different (page_unique inPage inOther)
  · simp only [ofClass, List.mem_map, List.mem_filter, decide_eq_true_eq, List.mem_flatMap, mem_liveIn]
    constructor
    · intro found
      obtain ⟨object, ⟨isLive, small, rfl⟩, rfl⟩ := found
      obtain ⟨f, used, _, low, high⟩ := sound.placed.small_bounds isLive small
      have positive := (inRoom_address object).2
      exact ⟨f, (sound.placed.listed _ cache f).mpr used, object, isLive, rfl, small, by omega, by omega⟩
    · intro found
      obtain ⟨f, member, object, isLive, rfl, small, inPage⟩ := found
      have same := (sound.placed.in_slab cache member isLive (inRoom_address object) inPage).2.1
      exact ⟨object, ⟨isLive, small, same⟩, rfl⟩

theorem Sound.class_le (sound : Sound client slabs use) (cache : i < SLUB_NCACHE) :
    (ofClass i client.live).length ≤ (slabs i).length * slotCount i := by
  have total := (sound.class_pages cache).length_eq
  rw [List.length_map, List.length_flatMap] at total
  rw [total]
  refine (List.sum_le_card_nsmul _ (slotCount i) fun count listed => ?_).trans ?_
  · obtain ⟨f, member, rfl⟩ := List.mem_map.mp listed
    obtain ⟨free, page⟩ := sound.page i cache f member
    have count := page.count
    omega
  · rw [List.length_map, Nat.nsmul_eq_mul]

theorem Sound.class_full (sound : Sound client slabs use) (cache : i < SLUB_NCACHE)
    (full : ∀ f ∈ slabs i, SlabPage client.memory.bytes client.live i (kva f) []) :
    (ofClass i client.live).length = (slabs i).length * slotCount i := by
  have total := (sound.class_pages cache).length_eq
  rw [List.length_map, List.length_flatMap] at total
  have each : ∀ count ∈ (slabs i).map fun f => (liveIn client.live (kva f)).length,
      count = slotCount i := by
    intro count listed
    obtain ⟨f, member, rfl⟩ := List.mem_map.mp listed
    have count := (full f member).count
    rwa [List.length_nil, Nat.zero_add] at count
  rw [total, List.sum_eq_card_nsmul _ _ each, List.length_map, Nat.nsmul_eq_mul]

/-- A call gives the class a new page only for one object more than its pages have room for. -/
theorem Sound.step_growth (sound : Sound client slabs use) (step : SlubStep client request next)
    (cache : i < SLUB_NCACHE) : ∃ more uses, Sound next more uses ∧
      ((more i).length = (slabs i).length ∨ ((more i).length = (slabs i).length + 1 ∧
        (ofClass i next.live).length = (slabs i).length * slotCount i + 1)) := by
  cases step with
  | @allocated memory after live source size ptr wide grants result valid =>
      obtain ⟨more, uses, outcome⟩ := Outcome.of_returns sound wide grants result
      refine ⟨more, uses, outcome.sound valid, ?_⟩
      cases outcome with
      | refused => exact .inl rfl
      | reused => exact .inl rfl
      | block => exact .inl rfl
      | grown small full =>
          by_cases own : sizeToIndex size = i
          · subst own
            have before := sound.class_full cache full
            refine .inr ⟨by rw [Function.update_self, List.length_cons], ?_⟩
            rw [ofClass, List.filter_cons_of_pos (by simpa using small), List.length_cons]
            exact congrArg (· + 1) before
          · exact .inl (by rw [Function.update_of_ne (Ne.symm own)])
  | refused wide grants result =>
      obtain ⟨more, uses, outcome⟩ := Outcome.of_returns sound wide grants result
      cases (outcome.null rfl).1
      exact ⟨slabs, use, sound, .inl rfl⟩
  | @freed memory live object member =>
      rcases Nat.lt_or_ge PGSIZE object.size with large | small
      · obtain ⟨after, freed, next, _⟩ := sound.leak member large
        exact ⟨slabs, use, freed ▸ next, .inl rfl⟩
      · obtain ⟨after, freed, next, _⟩ := sound.release member small
        exact ⟨slabs, use, freed ▸ next, .inl rfl⟩
  | wrote member inside => exact ⟨slabs, use, sound.write member inside, .inl rfl⟩

/-- So many pages of this capacity are just enough for the peak. -/
def Covers (pages capacity peak : Nat) : Prop :=
  peak ≤ pages * capacity ∧ (pages ≠ 0 → (pages - 1) * capacity < peak)

theorem Covers.eq_ceil {pages capacity : Nat} (covers : Covers pages capacity peak)
    (room : 0 < capacity) : pages = (peak + capacity - 1) / capacity := by
  obtain ⟨enough, needed⟩ := covers
  refine (Nat.div_eq_of_lt_le ?_ ?_).symm
  · cases pages with
    | zero => omega
    | succ pages =>
        have more := needed (Nat.succ_ne_zero pages)
        rw [Nat.add_sub_cancel] at more
        rw [Nat.add_one_mul]
        omega
  · rw [Nat.add_one_mul]
    omega

theorem growth_run (cache : i < SLUB_NCACHE) (room : 0 < slotCount i)
    (run : Run SlubStep client trace last) (sound : Sound client slabs use)
    (covers : Covers (slabs i).length (slotCount i) (max peak (ofClass i client.live).length)) :
    ∃ more uses, Sound last more uses ∧
      Covers (more i).length (slotCount i) (max peak (peakDemand i trace last)) := by
  induction run generalizing slabs use peak with
  | done => exact ⟨slabs, use, sound, covers⟩
  | @step state middle last label trace taken rest ih =>
      obtain ⟨more, uses, next, change⟩ := sound.step_growth taken cache
      have fits := next.class_le cache
      have following : Covers (more i).length (slotCount i)
          (max (max peak (ofClass i state.live).length) (ofClass i middle.live).length) := by
        obtain ⟨enough, needed⟩ := covers
        rcases change with same | ⟨grown, full⟩
        · rw [same] at fits ⊢
          exact ⟨max_le enough fits, fun some => (needed some).trans_le (Nat.le_max_left _ _)⟩
        · rw [grown] at fits ⊢
          refine ⟨max_le ?_ fits, fun _ => ?_⟩
          · rw [Nat.add_one_mul]
            omega
          · rw [Nat.add_sub_cancel]
            exact lt_max_of_lt_right (by omega)
      obtain ⟨final, used, sound, covers⟩ := ih next following
      refine ⟨final, used, sound, ?_⟩
      rwa [max_assoc] at covers

/-- After every run a class has as many pages as its peak demand fills. -/
theorem growth (booted : SlubBooted client) (run : Run SlubStep client trace last)
    (cache : i < SLUB_NCACHE) (room : 0 < slotCount i) : ∃ pages,
      Chain (slabNext.get last.memory.bytes) NULL (last.memory.caches i).pages pages ∧
      pages.length = (peakDemand i trace last + slotCount i - 1) / slotCount i := by
  have sound := booted_sound booted
  have initial : Covers 0 (slotCount i) (max 0 (ofClass i client.live).length) := by
    obtain ⟨memory, rfl⟩ := booted
    exact ⟨Nat.le_of_eq (Nat.zero_mul _).symm, fun some => absurd rfl some⟩
  obtain ⟨slabs, use, sound, covers⟩ := growth_run cache room run sound initial
  refine ⟨_, sound.chain i cache, ?_⟩
  rw [Nat.zero_max] at covers
  rw [List.length_map, covers.eq_ceil room]

/-- Three requests, but never more than two objects at a time, of which a page holds one. -/
theorem growth_first : ∃ trace last pages, Run SlubStep ⟨slubInit blank, []⟩ trace last ∧
    trace.map Prod.snd = [.kmalloc 2048, .kmalloc 2048, .kfree ⟨kva 0 + 2048, 2048⟩, .kmalloc 2048] ∧
    Chain (slabNext.get last.memory.bytes) NULL (last.memory.caches 8).pages pages ∧
    pages.length = 2 := by
  obtain ⟨trace, last, run, labels, live⟩ := reuse_run
  obtain ⟨pages, chain, count⟩ := growth (i := 8) booted_blank run (by decide) (by decide)
  have peak : peakDemand 8 trace last = (trace.map fun taken => (taken.1.live, taken.2)).foldr
      (fun state peak => max (ofClass 8 state.1).length peak) (ofClass 8 last.live).length := by
    rw [List.foldr_map]
    rfl
  rw [labels, live] at peak
  rw [peak] at count
  have requests := congrArg (List.map Prod.snd) labels
  rw [List.map_map] at requests
  exact ⟨trace, last, pages, run, requests, chain, count.trans (by decide)⟩

end Ucore.Mm.Slub
