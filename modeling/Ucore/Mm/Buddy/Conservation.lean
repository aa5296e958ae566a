import Ucore.Data.Confluence
import Ucore.Mm.Buddy.Steady

namespace Ucore.Mm.Buddy

open Ucore.Data Ucore.Libs Extent Block

/-! Page conservation: the free pages and those handed out add up to the region. -/

variable {layout : Layout} {memory : BuddyMemory} {client next last : Client BuddyMemory}
  {free after : Finset Block} {base n : Nat} {trace : List (Client BuddyMemory × Request)}
  {request : Request} {allocation : Allocation} {outstanding remaining : List Allocation}

def handedOut (outstanding : List Allocation) : Nat :=
  (outstanding.map fun allocation => 2 ^ (blockOf allocation).order).sum

structure Conserved (n : Nat) (client : Client BuddyMemory) : Prop where
  sized : ∀ allocation ∈ client.outstanding,
    Returns (sizeToOrder allocation.count) (blockOf allocation).order
  sum : buddyNrFreePages client.memory + handedOut client.outstanding = n

theorem total_owned (outstanding : List Allocation) :
    total (owned outstanding) = handedOut outstanding := by
  simp [total, owned, handedOut, Function.comp_def, extent]

/-- A sound state in which every page of the region is free or handed out. -/
structure Whole (layout : Layout) (base n : Nat) (client : Client BuddyMemory)
    (free : Finset Block) : Prop extends Sound layout base n client free where
  tiles : Tiles (extents free + ↑(owned client.outstanding)) ⟨base, n⟩

theorem Sound.nrFree_eq (sound : Sound layout base n client free) (fits : n < 2 ^ 32) :
    client.memory.nrFree = total (extents free) := by
  have all : total (extents free + ↑(owned client.outstanding)) ≤ n :=
    sound.consistent.packs.total_le
  rw [total_add] at all
  rw [sound.holds.nrFree, uint32_of_lt (by omega)]

namespace Whole

theorem total_eq (whole : Whole layout base n client free) :
    total (extents free) + handedOut client.outstanding = n := by
  have all := whole.tiles.total_eq
  rwa [total_add, total_owned] at all

theorem conserved (whole : Whole layout base n client free) (fits : n < 2 ^ 32) :
    Conserved n client where
  sized := fun _ member => whole.consistent.sized member
  sum := by
    rw [buddyNrFreePages, whole.nrFree_eq fits]
    exact whole.total_eq

theorem initial (booted : Booted (buddyPmmManager layout) memory base n client) :
    ∃ free, Whole layout base n client free ∧ Cut base n (base + n) 0 free := by
  obtain ⟨_, free, sound, cut⟩ := booted_cut booted
  refine ⟨free, ⟨sound, ?_⟩, cut⟩
  rw [booted.2]
  simpa using cut.tiles

theorem step (whole : Whole layout base n client free)
    (step : Step (buddyPmmManager layout) client request next)
    (uncapped : ¬ MergesAtTop layout client request) :
    ∃ after, Move free client.outstanding request after next.outstanding ∧
      Whole layout base n next after := by
  obtain ⟨after, move, sound⟩ := whole.toSound.step step
  rw [whole.holds.mergesAtTop_iff] at uncapped
  refine ⟨after, move, sound, fun point => ?_⟩
  rw [cover_add, whole.consistent.cover_eq move uncapped, ← cover_add]
  exact whole.tiles point

theorem preserved (reached : ∃ free, Whole layout base n client free)
    (uncapped : ¬ MergesAtTop layout client request)
    (step : Step (buddyPmmManager layout) client request next) :
    ∃ free, Whole layout base n next free := by
  obtain ⟨free, whole⟩ := reached
  obtain ⟨after, _, whole⟩ := whole.step step uncapped
  exact ⟨after, whole⟩

end Whole

theorem handedOut_erase (member : allocation ∈ outstanding) :
    handedOut outstanding =
      2 ^ (blockOf allocation).order + handedOut (outstanding.erase allocation) := by
  have perm := (List.perm_cons_erase member).map fun allocation => 2 ^ (blockOf allocation).order
  rw [handedOut, perm.sum_eq, List.map_cons, List.sum_cons, handedOut]

/-- A merge beyond the top order puts back a block of the top order for two of them. -/
theorem Consistent.total_capped (consistent : Consistent base n free outstanding)
    (move : Move free outstanding request after remaining) (capped : CapReached free request) :
    total (extents after) + handedOut remaining + 2 ^ MAX_ORDER =
      total (extents free) + handedOut outstanding := by
  cases move with
  | refuse => cases capped
  | carve => cases capped
  | @release allocation member =>
      have lost := total_release_capped (consistent.apart member) capped
      have bound := consistent.outstanding_le allocation member
      rw [Nat.add_sub_cancel' bound] at lost
      rw [handedOut_erase member]
      omega

theorem Whole.spoiled (whole : Whole layout base n client free) (fits : n < 2 ^ 32)
    (step : Step (buddyPmmManager layout) client request next)
    (capped : MergesAtTop layout client request) : ¬ Conserved n next := by
  intro conserved
  obtain ⟨after, move, sound⟩ := whole.toSound.step step
  have lost := whole.consistent.total_capped move (whole.holds.mergesAtTop_iff.mp capped)
  have sum := conserved.sum
  rw [buddyNrFreePages, sound.nrFree_eq fits] at sum
  rw [whole.total_eq] at lost
  have power : 0 < 2 ^ MAX_ORDER := Nat.two_pow_pos MAX_ORDER
  omega

/-- A free raises the counter by the size of its block unless it merges beyond the top order. -/
theorem Sound.raises_iff (sound : Sound layout base n client free) (fits : n < 2 ^ 32)
    (member : allocation ∈ client.outstanding) :
    (∃ after, Returns (buddyFreePages layout client.memory allocation.page allocation.count) after ∧
      buddyNrFreePages after = buddyNrFreePages client.memory + 2 ^ (blockOf allocation).order) ↔
      ¬ MergesAtTop layout client (.free allocation) := by
  obtain ⟨after, returns, released⟩ := sound.free_returns member
  have next : Sound layout base n ⟨after, client.outstanding.erase allocation⟩ _ :=
    ⟨released, sound.consistent.move (.release member)⟩
  have before := sound.nrFree_eq fits
  have nrFree : after.nrFree = _ := next.nrFree_eq fits
  have apart := sound.consistent.apart member
  have power : 0 < 2 ^ MAX_ORDER := Nat.two_pow_pos MAX_ORDER
  rw [sound.holds.mergesAtTop_iff]
  constructor
  · intro raised capped
    obtain ⟨again, returnsAgain, raised⟩ := raised
    cases returns.unique returnsAgain
    have lost := total_release_capped apart capped
    rw [Nat.add_sub_cancel' (sound.consistent.outstanding_le allocation member)] at lost
    rw [buddyNrFreePages, buddyNrFreePages] at raised
    omega
  · intro uncapped
    refine ⟨after, returns, ?_⟩
    rw [buddyNrFreePages, buddyNrFreePages, nrFree, total_release apart uncapped, before]

theorem not_conserved_of_wide (sound : Sound layout base n client free)
    (none : client.outstanding = []) (wide : ¬ n < 2 ^ 32) : ¬ Conserved n client := by
  intro conserved
  have sum := conserved.sum
  have width : client.memory.nrFree < 2 ^ 32 := by
    rw [sound.holds.nrFree]
    exact Nat.mod_lt _ (by decide)
  rw [none, buddyNrFreePages, handedOut, List.map_nil, List.sum_nil] at sum
  omega

/-- The pages are conserved exactly as long as no merge goes beyond the top order.  A free raises
the counter by the size of its block exactly if it is not such a merge. -/
theorem conserved_iff (booted : Booted (buddyPmmManager layout) memory base n client)
    (run : Run (Step (buddyPmmManager layout)) client trace last) :
    (((∀ taken ∈ trace, Conserved n taken.1) ∧ Conserved n last) ↔
      n < 2 ^ 32 ∧ ∀ taken ∈ trace, ¬ MergesAtTop layout taken.1 taken.2) ∧
    (n < 2 ^ 32 → ∀ allocation ∈ last.outstanding,
      ((∃ after, Returns (buddyFreePages layout last.memory allocation.page allocation.count) after ∧
          buddyNrFreePages after =
            buddyNrFreePages last.memory + 2 ^ (blockOf allocation).order) ↔
        ¬ MergesAtTop layout last (.free allocation))) := by
  obtain ⟨free, initial, _⟩ := Whole.initial booted
  have narrow (fits : n < 2 ^ 32) : ((∀ taken ∈ trace, Conserved n taken.1) ∧ Conserved n last) ↔
      ∀ taken ∈ trace, ¬ MergesAtTop layout taken.1 taken.2 := by
    refine run.good_iff (fun client => ∃ free, Whole layout base n client free) (Conserved n)
      Whole.preserved ?_ ?_ ⟨free, initial⟩
    · intro state reached
      obtain ⟨free, whole⟩ := reached
      exact whole.conserved fits
    · intro state label next reached capped step
      obtain ⟨free, whole⟩ := reached
      exact whole.spoiled fits step (not_not.mp capped)
  refine ⟨⟨fun visited => ?_, fun condition => (narrow condition.1).mpr condition.2⟩,
    fun fits allocation member => ?_⟩
  · have fits : n < 2 ^ 32 := by
      by_contra wide
      exact not_conserved_of_wide initial.toSound booted.2 wide (run.first_visited visited)
    exact ⟨fits, (narrow fits).mp visited⟩
  · obtain ⟨_, free, sound⟩ := sound_run booted run
    exact sound.raises_iff fits member

theorem Sound.not_mergesAtTop (sound : Sound layout base n client free) (small : n < 2 ^ MAX_ORDER) :
    ¬ MergesAtTop layout client request := by
  rw [sound.holds.mergesAtTop_iff]
  intro capped
  cases request with
  | alloc => exact capped
  | free allocation =>
      have member := capped (MAX_ORDER - (blockOf allocation).order) le_rfl
      generalize isTop : (merge^[MAX_ORDER - (blockOf allocation).order]
        (blockOf allocation)).partner = top at member
      have order : MAX_ORDER ≤ top.order := by
        rw [← isTop, partner_order, iterate_merge_order]
        omega
      have within := sound.consistent.packs.subset
        (Multiset.mem_add.mpr (.inl (Multiset.mem_map_of_mem extent member)))
      have fits := Finset.card_le_card within
      rw [card_points, card_points] at fits
      have size : 2 ^ MAX_ORDER ≤ 2 ^ top.order := Nat.pow_le_pow_right (by decide) order
      simp only [extent] at fits
      omega

theorem small_run (booted : Booted (buddyPmmManager layout) memory base n client)
    (run : Run (Step (buddyPmmManager layout)) client trace last) (small : n < 2 ^ MAX_ORDER) :
    ∀ taken ∈ trace, ¬ MergesAtTop layout taken.1 taken.2 := by
  intro taken member
  obtain ⟨free, sound⟩ := (sound_run booted run).1 taken member
  exact sound.not_mergesAtTop small

theorem conserved_served : ∃ client trace last, Booted bootManager bootMemory 4 6 client ∧
    Run (Step bootManager) client trace last ∧
    trace.map Prod.snd =
      [.alloc 3, .alloc 1, .alloc 1, .free ⟨8, 1⟩, .free ⟨4, 3⟩, .free ⟨9, 1⟩] ∧
    (∀ taken ∈ trace, Conserved 6 taken.1) ∧ Conserved 6 last := by
  obtain ⟨client, trace, last, booted, run, labels, _⟩ := aligned_run
  exact ⟨client, trace, last, booted, run, labels,
    (conserved_iff booted run).1.mpr ⟨by decide, small_run booted run (by decide)⟩⟩

/-! Two blocks of the top order. -/

theorem bootMemory_booted (layout : Layout) (base : Nat) (positive : 0 < n) (fits : n < 2 ^ 42) :
    ∃ client, Booted (buddyPmmManager layout) bootMemory base n client := by
  have reserved : ∀ page, base ≤ page → page < base + n →
      PageReserved (buddyFlags bootMemory (layout.page page)) = true := by
    intro page _ _
    change PageReserved (SetPageReserved 0) = true
    decide
  obtain ⟨after, returns⟩ := initMemmap_returns positive fits reserved
  exact ⟨⟨after, []⟩, returns, rfl⟩

theorem two_top_blocks (cut : Cut 0 2048 2048 0 free) : free = {⟨0, 10⟩, ⟨1024, 10⟩} := by
  have aligned := (cut.aligned_iff (by decide)).mpr (Nat.dvd_zero _)
  have halves (point : Nat) :
      cover {⟨0, 2048⟩} point = cover (extents {⟨0, 10⟩, ⟨1024, 10⟩}) point := by
    rw [cover_insert (by decide)]
    exact cover_cut 0 1024 1024
  refine coalesced_unique aligned (by decide) cut.coalesced (by decide) cut.order_le (by decide)
    (fun point => (cut.covers point).trans (halves point)) fun point => ?_
  rw [← halves]
  exact cover_singleton_le_one

/-- One of two blocks of the top order is taken and given back, and 1024 pages are lost. -/
theorem pages_lost : ∃ page, Reaches bootManager bootMemory 0 2048
    [.alloc 1024, .free ⟨page, 1024⟩] (¬ Conserved 2048 ·) := by
  obtain ⟨⟨memory, outstanding⟩, booted⟩ :=
    bootMemory_booted (n := 2048) bootLayout 0 (by decide) (by decide)
  obtain ⟨free, whole, cut⟩ := Whole.initial booted
  obtain rfl : outstanding = [] := booted.2
  rw [Nat.zero_add] at cut
  obtain rfl := two_top_blocks cut
  have enough : 1024 ≤ memory.nrFree := by
    rw [whole.nrFree_eq (by decide)]
    decide
  have order : Nat.clog 2 1024 = 10 := by decide +kernel
  rcases allocPages_cases whole.holds whole.consistent.once_free (by decide) enough (by decide) with
    ⟨_, small⟩ | ⟨block, member, reach, _, after, granted, carved⟩
  · have less := small ⟨0, 10⟩ (by decide)
    rw [order] at less
    exact absurd less (Nat.lt_irrefl 10)
  · have alloc : Step bootManager ⟨memory, []⟩ (.alloc 1024) ⟨after, [⟨block.start, 1024⟩]⟩ :=
      .allocated granted
    obtain ⟨rest, _, wholeRest⟩ := whole.step alloc not_false
    have isRest := wholeRest.holds.unique carved
    have isTop : block = ⟨0, 10⟩ ∨ block = ⟨1024, 10⟩ := by simpa using member
    have capped : CapReached rest (.free ⟨block.start, 1024⟩) := by
      simp only [CapReached, blockOf, isRest, order]
      apply capped_zero.mpr
      rcases isTop with rfl | rfl <;> decide
    obtain ⟨final, freed, _⟩ := wholeRest.toSound.free_returns (List.mem_singleton_self _)
    have free : Step bootManager _ (.free ⟨block.start, 1024⟩) _ :=
      .freed (List.mem_singleton_self _) freed
    exact ⟨block.start, _, _, _, booted, .step alloc (.step free (.done _)), rfl,
      wholeRest.spoiled (by decide) free (wholeRest.holds.mergesAtTop_iff.mpr capped)⟩

end Ucore.Mm.Buddy
