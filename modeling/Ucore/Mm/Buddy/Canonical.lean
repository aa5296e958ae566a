import Ucore.Mm.Buddy.Merging
import Ucore.Mm.Buddy.Recovery
import Mathlib.Data.List.Perm.Subperm

namespace Ucore.Mm.Buddy

open Ucore.Data Ucore.Libs Extent Block

/-! From an aligned region, the pages that are handed out determine the free lists. -/

variable {layout : Layout} {memory other after : BuddyMemory} {base n count page : Nat}
  {client last clientOther lastOther : Client BuddyMemory} {free others : Finset Block}
  {trace traceOther : List (Client BuddyMemory × Request)}
  {outstanding order again : List Allocation} {allocation : Allocation}

/-- The page belongs to the block behind an outstanding allocation. -/
def Taken (outstanding : List Allocation) (page : Nat) : Prop :=
  ∃ allocation ∈ outstanding, page ∈ (blockOf allocation).extent.points

instance (outstanding : List Allocation) (page : Nat) : Decidable (Taken outstanding page) :=
  inferInstanceAs (Decidable (∃ allocation ∈ outstanding, _))

/-- All pages of the block lie in the region, and none of them is taken. -/
def Vacant (base n : Nat) (outstanding : List Allocation) (block : Block) : Prop :=
  ∀ page ∈ block.extent.points, base ≤ page ∧ page < base + n ∧ ¬ Taken outstanding page

instance (base n : Nat) (outstanding : List Allocation) (block : Block) :
    Decidable (Vacant base n outstanding block) :=
  inferInstanceAs (Decidable (∀ page ∈ block.extent.points, _))

theorem taken_iff : Taken outstanding page ↔ 0 < cover (owned outstanding) page := by
  rw [cover_pos]
  constructor
  · intro taken
    obtain ⟨allocation, member, inside⟩ := taken
    exact ⟨_, Multiset.mem_coe.mpr (List.mem_map.mpr ⟨allocation, member, rfl⟩), inside⟩
  · intro covered
    obtain ⟨extent, listed, inside⟩ := covered
    obtain ⟨allocation, member, rfl⟩ := List.mem_map.mp (Multiset.mem_coe.mp listed)
    exact ⟨allocation, member, inside⟩

theorem Consistent.taken_inside (consistent : Consistent base n free outstanding)
    (taken : Taken outstanding page) : base ≤ page ∧ page < base + n := by
  have packs := consistent.packs page
  rw [taken_iff] at taken
  rw [cover_add, cover_singleton] at packs
  by_cases inside : page ∈ (⟨base, n⟩ : Extent).points
  · exact mem_points.mp inside
  · rw [if_neg inside] at packs
    omega

/-- Nothing is lost and every block is aligned. -/
structure Canonical (layout : Layout) (base n : Nat) (client : Client BuddyMemory)
    (free : Finset Block) : Prop extends Whole layout base n client free where
  aligned : AllAligned free client.outstanding

theorem canonical_run (booted : Booted (buddyPmmManager layout) memory base n client)
    (run : Run (Step (buddyPmmManager layout)) client trace last)
    (divides : 2 ^ min MAX_ORDER (Nat.log 2 n) ∣ base)
    (uncapped : ∀ taken ∈ trace, ¬ MergesAtTop layout taken.1 taken.2) :
    ∃ free, Canonical layout base n last free := by
  obtain ⟨_, initial, _⟩ := Whole.initial booted
  obtain ⟨free, whole⟩ := (run.invariant _ Whole.preserved ⟨_, initial⟩ uncapped).2
  obtain ⟨_, again, sound, aligned⟩ := aligned_run_of_booted booted run divides
  cases whole.holds.unique sound.holds
  exact ⟨free, whole, aligned⟩

theorem Whole.free_iff (whole : Whole layout base n client free) (page : Nat) :
    0 < cover (extents free) page ↔ base ≤ page ∧ page < base + n ∧ ¬ Taken client.outstanding page := by
  have once := whole.consistent.once page
  have tiles := whole.tiles page
  rw [cover_add, cover_singleton] at tiles
  rw [taken_iff]
  by_cases inside : page ∈ (⟨base, n⟩ : Extent).points
  · have bounds := mem_points.mp inside
    rw [if_pos inside] at tiles
    simp only at bounds
    omega
  · have outside : ¬ (base ≤ page ∧ page < base + n) := fun bounds => inside (mem_points.mpr bounds)
    rw [if_neg inside] at tiles
    omega

theorem Whole.vacant_of_listed {block part : Block} (whole : Whole layout base n client free)
    (listed : block ∈ free) (within : part.extent.points ⊆ block.extent.points) :
    Vacant base n client.outstanding part :=
  fun _ inside => (whole.free_iff _).mp (cover_pos_of_mem listed (within inside))

theorem Canonical.holding {block : Block} (canonical : Canonical layout base n client free)
    (aligned : block.Aligned) (bound : block.order ≤ MAX_ORDER)
    (vacant : Vacant base n client.outstanding block) : ∃ b ∈ free, block.order ≤ b.order := by
  obtain ⟨b, listed, reach, _⟩ := exists_holding aligned canonical.aligned.free
    canonical.consistent.coalesced bound canonical.consistent.once_free
    fun page inside => (canonical.free_iff page).mpr (vacant page inside)
  exact ⟨b, listed, reach⟩

theorem Canonical.free_eq (canonical : Canonical layout base n client free)
    (canonicalOther : Canonical layout base n clientOther others)
    (same : ∀ page, Taken client.outstanding page ↔ Taken clientOther.outstanding page) :
    free = others := by
  have covers (page : Nat) : cover (extents free) page = cover (extents others) page := by
    have once := canonical.consistent.once_free page
    have onceOther := canonicalOther.consistent.once_free page
    have agree : 0 < cover (extents free) page ↔ 0 < cover (extents others) page := by
      rw [canonical.free_iff, canonicalOther.free_iff, same page]
    omega
  exact coalesced_unique canonical.aligned.free canonicalOther.aligned.free
    canonical.consistent.coalesced canonicalOther.consistent.coalesced
    canonical.consistent.order_le canonicalOther.consistent.order_le covers
    canonicalOther.consistent.once_free

theorem Holds.pow_le_total {block : Block} (listed : block ∈ free) :
    2 ^ block.order ≤ total (extents free) := by
  rw [extents_erase listed, total_cons]
  exact Nat.le_add_right _ _

/-- A request is served exactly if some aligned run of as many pages as it rounds up to is vacant. -/
theorem served_iff (booted : Booted (buddyPmmManager layout) memory base n client)
    (run : Run (Step (buddyPmmManager layout)) client trace last) (fits : n < 2 ^ 32)
    (divides : 2 ^ min MAX_ORDER (Nat.log 2 n) ∣ base)
    (uncapped : ∀ taken ∈ trace, ¬ MergesAtTop layout taken.1 taken.2) (count : Nat) :
    (∃ page after, Returns (buddyAllocPages layout last.memory count) (some page, after)) ↔
      count ≠ 0 ∧ Nat.clog 2 count ≤ MAX_ORDER ∧ ∃ start, 2 ^ Nat.clog 2 count ∣ start ∧
        Vacant base n last.outstanding ⟨start, Nat.clog 2 count⟩ := by
  obtain ⟨free, canonical⟩ := canonical_run booted run divides uncapped
  constructor
  · intro served
    obtain ⟨page, after, returns⟩ := served
    rcases canonical.holds.alloc_inv canonical.consistent.once_free returns with
      refused | ⟨block, listed, _, positive, _, _, reach, _⟩
    · cases refused.1
    · have aligned := (Nat.pow_dvd_pow 2 reach).trans (canonical.aligned.free block listed)
      refine ⟨positive, reach.trans (canonical.consistent.order_le block listed), block.start,
        aligned, canonical.vacant_of_listed listed ?_⟩
      exact Aligned.nested aligned
        (canonical.aligned.free block listed) reach (start_mem _) block.start_mem
  · intro found
    obtain ⟨positive, bound, start, divides, vacant⟩ := found
    have aligned : (⟨start, Nat.clog 2 count⟩ : Block).Aligned := divides
    obtain ⟨block, listed, reach⟩ := canonical.holding aligned bound vacant
    have enough : count ≤ last.memory.nrFree := by
      rw [canonical.nrFree_eq fits]
      calc count ≤ 2 ^ Nat.clog 2 count := Nat.le_pow_clog (by decide) count
        _ ≤ 2 ^ block.order := Nat.pow_le_pow_right (by decide) reach
        _ ≤ total (extents free) := Holds.pow_le_total listed
    rcases allocPages_cases canonical.holds canonical.consistent.once_free positive enough
      (count_le bound) with ⟨_, small⟩ | ⟨found, _, _, _, after, granted, _⟩
    · exact absurd (small block listed) (Nat.not_lt.mpr reach)
    · exact ⟨found.start, after, granted⟩

/-- A run on the pages 4 to 9 that leaves page 8 alone. -/
theorem page_left (first : Nat) (computed : (script bootManager 60 (fun _ _ => true) bootMemory 4 6
      [.alloc first, .alloc 1, .alloc 1, .free ⟨8, 1⟩]).toOption.any
        (fun last => last.outstanding = [⟨9, 1⟩, ⟨4, first⟩] ∧ answer last.memory 1 = some (some 8))
      = true) :
    ∃ client trace last, Booted bootManager bootMemory 4 6 client ∧
      Run (Step bootManager) client trace last ∧
      trace.map Prod.snd = [.alloc first, .alloc 1, .alloc 1, .free ⟨8, 1⟩] ∧
      last.outstanding = [⟨9, 1⟩, ⟨4, first⟩] ∧
      ∃ after, Returns (buddyAllocPages bootLayout last.memory 1) (some 8, after) := by
  obtain ⟨client, trace, last, booted, run, labels, _, reached⟩ :=
    script_run (steady bootLayout) _ computed
  obtain ⟨outstanding, answered⟩ := of_decide_eq_true reached
  exact ⟨client, trace, last, booted, run, labels, outstanding, answer_returns answered⟩

theorem served_iff_left : ∃ client trace last, Booted bootManager bootMemory 4 6 client ∧
    Run (Step bootManager) client trace last ∧
    trace.map Prod.snd = [.alloc 3, .alloc 1, .alloc 1, .free ⟨8, 1⟩] ∧
    ∃ page after, Returns (buddyAllocPages bootLayout last.memory 1) (some page, after) := by
  obtain ⟨client, trace, last, booted, run, labels, outstanding, _⟩ := page_left 3 (by decide +kernel)
  have vacant : Vacant 4 6 last.outstanding ⟨8, Nat.clog 2 1⟩ := by
    rw [outstanding]
    decide +kernel
  exact ⟨client, trace, last, booted, run, labels,
    (served_iff booted run (by decide) (by decide) (small_run booted run (by decide)) 1).mpr
      ⟨by decide, by decide +kernel, 8, by decide +kernel, vacant⟩⟩

/-- Two runs, from whatever boots of the region, have the same lists and the same counter exactly if
the same pages are taken. -/
theorem same_blocks_iff (booted : Booted (buddyPmmManager layout) memory base n client)
    (run : Run (Step (buddyPmmManager layout)) client trace last)
    (bootedOther : Booted (buddyPmmManager layout) other base n clientOther)
    (runOther : Run (Step (buddyPmmManager layout)) clientOther traceOther lastOther)
    (divides : 2 ^ min MAX_ORDER (Nat.log 2 n) ∣ base)
    (uncapped : ∀ taken ∈ trace, ¬ MergesAtTop layout taken.1 taken.2)
    (uncappedOther : ∀ taken ∈ traceOther, ¬ MergesAtTop layout taken.1 taken.2) :
    SameBlocks layout last.memory lastOther.memory ∧
        buddyNrFreePages last.memory = buddyNrFreePages lastOther.memory ↔
      ∀ page, Taken last.outstanding page ↔ Taken lastOther.outstanding page := by
  obtain ⟨free, canonical⟩ := canonical_run booted run divides uncapped
  obtain ⟨others, canonicalOther⟩ := canonical_run bootedOther runOther divides uncappedOther
  rw [canonical.holds.sameBlocks_iff canonicalOther.holds]
  constructor
  · intro same page
    obtain ⟨rfl, _⟩ := same
    have freeHere := canonical.free_iff page
    have freeThere := canonicalOther.free_iff page
    have insideHere : Taken last.outstanding page → _ := canonical.consistent.taken_inside
    have insideThere : Taken lastOther.outstanding page → _ := canonicalOther.consistent.taken_inside
    tauto
  · intro same
    have equal := canonical.free_eq canonicalOther same
    subst equal
    exact ⟨rfl, canonical.holds.nrFree.trans canonicalOther.holds.nrFree.symm⟩

theorem same_blocks_left : ∃ client trace last clientOther traceOther lastOther,
    Booted bootManager bootMemory 4 6 client ∧ Run (Step bootManager) client trace last ∧
    trace.map Prod.snd = [.alloc 3, .alloc 1, .alloc 1, .free ⟨8, 1⟩] ∧
    Booted bootManager bootMemory 4 6 clientOther ∧
    Run (Step bootManager) clientOther traceOther lastOther ∧
    traceOther.map Prod.snd = [.alloc 4, .alloc 1, .alloc 1, .free ⟨8, 1⟩] ∧
    SameBlocks bootLayout last.memory lastOther.memory := by
  obtain ⟨client, trace, last, booted, run, labels, outstanding, _⟩ := page_left 3 (by decide +kernel)
  obtain ⟨clientOther, traceOther, lastOther, bootedOther, runOther, labelsOther, outstandingOther, _⟩ :=
    page_left 4 (by decide +kernel)
  refine ⟨client, trace, last, clientOther, traceOther, lastOther, booted, run, labels, bootedOther,
    runOther, labelsOther, ?_⟩
  refine ((same_blocks_iff booted run bootedOther runOther (by decide)
    (small_run booted run (by decide)) (small_run bootedOther runOther (by decide))).mpr ?_).1
  intro page
  have sizes : Nat.clog 2 3 = Nat.clog 2 4 := by decide
  simp [outstanding, outstandingOther, Taken, blockOf, sizes]

theorem Consistent.total_uncapped {request : Request} {remaining : List Allocation}
    (consistent : Consistent base n free outstanding)
    (move : Move free outstanding request others remaining) (uncapped : ¬ CapReached free request) :
    total (extents others) + handedOut remaining = total (extents free) + handedOut outstanding := by
  rw [← total_owned, ← total_owned, ← total_add, ← total_add]
  exact total_congr fun point => by
    simpa only [cover_add] using consistent.cover_eq move uncapped point

/-- A block that is given back right away leaves no trace, unless it merges beyond the top order. -/
theorem free_undoes_alloc (booted : Booted (buddyPmmManager layout) memory base n client)
    (run : Run (Step (buddyPmmManager layout)) client trace last)
    (divides : 2 ^ min MAX_ORDER (Nat.log 2 n) ∣ base)
    (granted : Returns (buddyAllocPages layout last.memory count) (some page, after)) :
    ∃ final, Returns (buddyFreePages layout after page count) final ∧
      (SameBlocks layout last.memory final ∧
          buddyNrFreePages final = buddyNrFreePages last.memory ↔
        ¬ MergesAtTop layout ⟨after, ⟨page, count⟩ :: last.outstanding⟩ (.free ⟨page, count⟩)) := by
  obtain ⟨_, free, sound, aligned⟩ := aligned_run_of_booted booted run divides
  obtain ⟨memory, outstanding⟩ := last
  obtain ⟨middle, taken, soundAfter⟩ := sound.step (.allocated granted)
  have member : ⟨page, count⟩ ∈ (⟨page, count⟩ :: outstanding : List Allocation) :=
    List.mem_cons_self ..
  obtain ⟨final, returns, released⟩ := soundAfter.free_returns member
  have back : Move middle (⟨page, count⟩ :: outstanding) (.free ⟨page, count⟩) _ _ := .release member
  rw [List.erase_cons_head] at back
  have consistent := soundAfter.consistent.move back
  refine ⟨final, returns, ?_⟩
  rw [soundAfter.holds.mergesAtTop_iff, sound.holds.sameBlocks_iff released]
  constructor
  · intro same capped
    have lost := soundAfter.consistent.total_capped back capped
    have before : total (extents middle) + handedOut (⟨page, count⟩ :: outstanding) =
        total (extents free) + handedOut outstanding :=
      sound.consistent.total_uncapped taken not_false
    have power : 0 < 2 ^ MAX_ORDER := Nat.two_pow_pos MAX_ORDER
    rw [← same.1] at lost
    exact absurd (lost.trans before) (by omega)
  · intro uncapped
    have equal := coalesced_unique aligned.free ((aligned.move taken).move back).free
      sound.consistent.coalesced consistent.coalesced sound.consistent.order_le consistent.order_le
      (fun point => by
        have there := sound.consistent.cover_eq taken not_false point
        have again := soundAfter.consistent.cover_eq back uncapped point
        simp only at there again
        omega)
      consistent.once_free
    refine ⟨equal, ?_⟩
    rw [buddyNrFreePages, buddyNrFreePages, released.nrFree, sound.holds.nrFree, equal]

theorem free_undoes_alloc_left : ∃ client trace last after final,
    Booted bootManager bootMemory 4 6 client ∧ Run (Step bootManager) client trace last ∧
    trace.map Prod.snd = [.alloc 3, .alloc 1, .alloc 1, .free ⟨8, 1⟩] ∧
    Returns (buddyAllocPages bootLayout last.memory 1) (some 8, after) ∧
    Returns (buddyFreePages bootLayout after 8 1) final ∧
    SameBlocks bootLayout last.memory final := by
  obtain ⟨client, trace, last, booted, run, labels, _, after, granted⟩ := page_left 3 (by decide +kernel)
  obtain ⟨final, returns, undone⟩ := free_undoes_alloc booted run (by decide) granted
  refine ⟨client, trace, last, after, final, booted, run, labels, granted, returns, (undone.mpr ?_).1⟩
  obtain ⟨_, free, sound⟩ := sound_run booted run
  obtain ⟨_, _, next⟩ := sound.step (.allocated granted)
  exact next.not_mergesAtTop (by decide)

end Ucore.Mm.Buddy
