import Ucore.Mm.Buddy.Canonical

namespace Ucore.Mm.Buddy

open Ucore.Data Ucore.Libs Extent Block

/-! The vacant aligned runs of pages before a call tell what the call does. -/

/-- The first pages of the vacant aligned runs of `2 ^ order` pages. -/
def vacancies (base n : Nat) (outstanding : List Allocation) (order : Nat) : Finset Nat :=
  (Finset.range (base + n)).filter fun start =>
    2 ^ order ∣ start ∧ Vacant base n outstanding ⟨start, order⟩

/-- A state that keeps all pages of an aligned region, with these blocks outstanding. -/
def Intact (layout : Layout) (base n : Nat) (memory : BuddyMemory)
    (outstanding : List Allocation) : Prop :=
  ∃ free, Canonical layout base n ⟨memory, outstanding⟩ free

variable {layout : Layout} {memory : BuddyMemory} {base n count page order start point : Nat}
  {outstanding remaining : List Allocation} {allocation : Allocation} {block : Block}
  {free : Finset Block} {client next : Client BuddyMemory} {request : Request}

theorem mem_vacancies : start ∈ vacancies base n outstanding order ↔
    2 ^ order ∣ start ∧ Vacant base n outstanding ⟨start, order⟩ := by
  rw [vacancies, Finset.mem_filter, Finset.mem_range]
  constructor
  · intro both
    exact both.2
  · intro vacant
    exact ⟨(vacant.2 start (start_mem ⟨start, order⟩)).2.1, vacant⟩

theorem taken_cons : Taken (allocation :: outstanding) page ↔
    page ∈ (blockOf allocation).extent.points ∨ Taken outstanding page := by
  simp [Taken]

theorem Vacant.of_cons (vacant : Vacant base n (allocation :: outstanding) block) :
    Vacant base n outstanding block := by
  intro page inside
  obtain ⟨lower, upper, free⟩ := vacant page inside
  exact ⟨lower, upper, fun taken => free (taken_cons.mpr (.inr taken))⟩

theorem vacancies_cons_subset (allocation : Allocation) :
    vacancies base n (allocation :: outstanding) order ⊆ vacancies base n outstanding order := by
  intro start member
  obtain ⟨aligned, vacant⟩ := mem_vacancies.mp member
  exact mem_vacancies.mpr ⟨aligned, vacant.of_cons⟩

theorem vacancies_append_subset (blocks : List Allocation) :
    vacancies base n (blocks ++ outstanding) order ⊆ vacancies base n outstanding order := by
  induction blocks with
  | nil => exact Finset.Subset.refl _
  | cons allocation blocks ih => exact (vacancies_cons_subset allocation).trans ih

theorem multiple_cases {size first : Nat} (divides : size ∣ start) (again : size ∣ first)
    (lower : first ≤ start) (upper : start < first + size * 2) :
    start = first ∨ start = first + size := by
  obtain ⟨gap, rfl⟩ := Nat.exists_eq_add_of_le lower
  obtain ⟨times, rfl⟩ := (Nat.dvd_add_right again).mp divides
  have few : times < 2 := Nat.lt_of_mul_lt_mul_left (Nat.lt_of_add_lt_add_left upper)
  obtain rfl | rfl : times = 0 ∨ times = 1 := by omega
  · exact .inl rfl
  · exact .inr (by rw [Nat.mul_one])

/-- Runs of one order are the same or have no page in common. -/
theorem start_eq (first : 2 ^ order ∣ start) (second : 2 ^ order ∣ page)
    (inFirst : point ∈ (⟨start, order⟩ : Block).extent.points)
    (inSecond : point ∈ (⟨page, order⟩ : Block).extent.points) : start = page := by
  have alignedFirst : (⟨start, order⟩ : Block).Aligned := first
  have alignedSecond : (⟨page, order⟩ : Block).Aligned := second
  have there := alignedFirst.nested alignedSecond le_rfl inFirst inSecond (start_mem _)
  have back := alignedSecond.nested alignedFirst le_rfl inSecond inFirst (start_mem _)
  exact Nat.le_antisymm (mem_points.mp back).1 (mem_points.mp there).1

/-- A block uses up the one run that it is. -/
theorem vacancies_cons (aligned : 2 ^ Nat.clog 2 count ∣ page) :
    vacancies base n (⟨page, count⟩ :: outstanding) (Nat.clog 2 count) =
      (vacancies base n outstanding (Nat.clog 2 count)).erase page := by
  ext start
  rw [Finset.mem_erase, mem_vacancies, mem_vacancies]
  constructor
  · intro vacant
    refine ⟨fun same => ?_, vacant.1, vacant.2.of_cons⟩
    subst same
    exact (vacant.2 start (start_mem ⟨start, _⟩)).2.2 (taken_cons.mpr (.inl (start_mem (blockOf _))))
  · intro vacant
    obtain ⟨different, divides, vacant⟩ := vacant
    refine ⟨divides, fun point inside => ?_⟩
    obtain ⟨lower, upper, notTaken⟩ := vacant point inside
    refine ⟨lower, upper, fun taken => ?_⟩
    rcases taken_cons.mp taken with inBlock | taken
    · exact different (start_eq divides aligned inside inBlock)
    · exact notTaken taken

/-! Calls. -/

theorem Canonical.step (canonical : Canonical layout base n client free)
    (step : Step (buddyPmmManager layout) client request next)
    (uncapped : ¬ MergesAtTop layout client request) :
    ∃ after, Canonical layout base n next after := by
  obtain ⟨after, move, whole⟩ := canonical.toWhole.step step uncapped
  exact ⟨after, whole, canonical.aligned.move move⟩

/-- A merge beyond the top order needs a vacant run above it. -/
theorem Canonical.uncapped (canonical : Canonical layout base n ⟨memory, allocation :: outstanding⟩ free)
    (full : vacancies base n outstanding (MAX_ORDER + 1) = ∅) :
    ¬ MergesAtTop layout ⟨memory, allocation :: outstanding⟩ (.free allocation) := by
  rw [canonical.holds.mergesAtTop_iff]
  intro capped
  have member : allocation ∈ allocation :: outstanding := List.mem_cons_self ..
  have bound := canonical.consistent.outstanding_le allocation member
  generalize isTop : merge^[MAX_ORDER - (blockOf allocation).order + 1] (blockOf allocation) = top
  have order : top.order = MAX_ORDER + 1 := by
    rw [← isTop, iterate_merge_order]
    omega
  have aligned : 2 ^ top.order ∣ top.start :=
    isTop ▸ Aligned.iterate_merge (canonical.aligned.outstanding allocation member) _
  rw [order] at aligned
  have vacant : Vacant base n outstanding ⟨top.start, MAX_ORDER + 1⟩ := by
    intro point inside
    rw [← order] at inside
    rcases Capped.covers capped (isTop ▸ inside) with here | covered
    · obtain ⟨lower, upper⟩ := canonical.consistent.taken_inside (taken_cons.mpr (.inl here))
      refine ⟨lower, upper, fun taken => ?_⟩
      have once := canonical.consistent.once point
      have owned := taken_iff.mp taken
      rw [cover_owned_cons, cover_singleton, if_pos here] at once
      omega
    · obtain ⟨lower, upper, notTaken⟩ := (canonical.free_iff point).mp covered
      exact ⟨lower, upper, fun taken => notTaken (taken_cons.mpr (.inr taken))⟩
  have found := mem_vacancies.mpr ⟨aligned, vacant⟩
  rw [full] at found
  cases found

theorem Canonical.start_mem_vacancies (canonical : Canonical layout base n ⟨memory, outstanding⟩ free)
    (listed : block ∈ free) (reach : order ≤ block.order) :
    block.start ∈ vacancies base n outstanding order := by
  have aligned := canonical.aligned.free block listed
  have part : (⟨block.start, order⟩ : Block).Aligned := (Nat.pow_dvd_pow 2 reach).trans aligned
  exact mem_vacancies.mpr ⟨part,
    canonical.vacant_of_listed listed (part.nested aligned reach (start_mem _) block.start_mem)⟩

/-- Cutting one listed block does not touch another. -/
theorem Canonical.spare (canonical : Canonical layout base n ⟨memory, outstanding⟩ free)
    (cut : block ∈ free) (reach : Nat.clog 2 count ≤ block.order) {other : Block}
    (listed : other ∈ free) (different : other ≠ block) (large : order ≤ other.order) :
    other.start ∈ vacancies base n (⟨block.start, count⟩ :: outstanding) order := by
  obtain ⟨aligned, vacant⟩ := mem_vacancies.mp (canonical.start_mem_vacancies listed large)
  have part : (⟨other.start, order⟩ : Block).Aligned := aligned
  have taken : (⟨block.start, Nat.clog 2 count⟩ : Block).Aligned :=
    (Nat.pow_dvd_pow 2 reach).trans (canonical.aligned.free block cut)
  refine mem_vacancies.mpr ⟨aligned, fun point inside => ?_⟩
  obtain ⟨lower, upper, notTaken⟩ := vacant point inside
  refine ⟨lower, upper, fun isTaken => (taken_cons.mp isTaken).elim (fun again => ?_) notTaken⟩
  have inOther := part.nested (canonical.aligned.free other listed) large (start_mem _)
    other.start_mem inside
  have inBlock := taken.nested (canonical.aligned.free block cut) reach (start_mem _)
    block.start_mem again
  have twice := two_le_cover listed cut different inOther inBlock
  have once := canonical.consistent.once_free point
  omega

theorem Canonical.within (canonical : Canonical layout base n ⟨memory, outstanding⟩ free)
    (bound : order ≤ MAX_ORDER) (member : start ∈ vacancies base n outstanding order) :
    ∃ other ∈ free, order ≤ other.order ∧
      (⟨start, order⟩ : Block).extent.points ⊆ other.extent.points := by
  obtain ⟨divides, vacant⟩ := mem_vacancies.mp member
  have aligned : (⟨start, order⟩ : Block).Aligned := divides
  exact exists_holding aligned canonical.aligned.free canonical.consistent.coalesced bound
    canonical.consistent.once_free fun page inside => (canonical.free_iff page).mpr (vacant page inside)

/-- The second quarter of a listed block, of which the first eighth at most is taken. -/
theorem Canonical.half (canonical : Canonical layout base n ⟨memory, outstanding⟩ free)
    (cut : block ∈ free) (large : Nat.clog 2 count + 2 ≤ block.order) :
    block.start + 2 ^ (Nat.clog 2 count + 1) ∈
      vacancies base n (⟨block.start, count⟩ :: outstanding) (Nat.clog 2 count + 1) := by
  generalize isLow : Nat.clog 2 count = low at *
  have double : 2 ^ (low + 1) = 2 * 2 ^ low := Nat.pow_succ'
  have twice : 2 ^ (low + 2) = 2 * 2 ^ (low + 1) := Nat.pow_succ'
  have size : 2 ^ (low + 2) ≤ 2 ^ block.order := Nat.pow_le_pow_right (by decide) large
  have divides : 2 ^ (low + 1) ∣ block.start :=
    (Nat.pow_dvd_pow 2 (by omega)).trans (canonical.aligned.free block cut)
  have vacant := canonical.vacant_of_listed cut (Finset.Subset.refl _)
  refine mem_vacancies.mpr ⟨Nat.dvd_add divides (Nat.dvd_refl _), fun point inside => ?_⟩
  simp only [extent, mem_points] at inside
  obtain ⟨lower, upper, notTaken⟩ := vacant point (mem_points.mpr (by simp only [extent]; omega))
  refine ⟨lower, upper, fun taken => (taken_cons.mp taken).elim (fun again => ?_) notTaken⟩
  simp only [blockOf, extent, mem_points, isLow] at again
  omega

namespace Intact

theorem perm (intact : Intact layout base n memory outstanding)
    (same : outstanding.Perm remaining) : Intact layout base n memory remaining := by
  obtain ⟨free, canonical⟩ := intact
  have owns : (owned outstanding : Multiset Extent) = owned remaining :=
    Multiset.coe_eq_coe.mpr (same.map _)
  have consistent := canonical.consistent
  have aligned := canonical.aligned
  have tiles := canonical.tiles
  have packs := consistent.packs
  rw [owns] at tiles packs
  exact ⟨free, ⟨⟨canonical.holds, packs, consistent.coalesced, consistent.order_le,
    fun block member => consistent.positive block (same.mem_iff.mpr member),
    fun block member => consistent.outstanding_le block (same.mem_iff.mpr member)⟩, tiles⟩,
    aligned.free, fun block member => aligned.outstanding block (same.mem_iff.mpr member)⟩

theorem sameBlocks {other : BuddyMemory} (intact : Intact layout base n memory outstanding)
    (intactOther : Intact layout base n other outstanding) :
    SameBlocks layout memory other ∧ buddyNrFreePages memory = buddyNrFreePages other := by
  obtain ⟨free, canonical⟩ := intact
  obtain ⟨others, canonicalOther⟩ := intactOther
  have equal := canonical.free_eq canonicalOther fun page => Iff.rfl
  subst equal
  exact ⟨(canonical.holds.sameBlocks_iff canonicalOther.holds).mpr rfl,
    canonical.holds.nrFree.trans canonicalOther.holds.nrFree.symm⟩

theorem counted (intact : Intact layout base n memory outstanding) (fits : n < 2 ^ 32) :
    memory.nrFree + handedOut outstanding = n := by
  obtain ⟨free, canonical⟩ := intact
  exact (canonical.toWhole.conserved fits).sum

/-- The least listed block that suffices is cut. -/
theorem carves (intact : Intact layout base n memory outstanding) (fits : n < 2 ^ 32)
    (positive : count ≠ 0) (bound : Nat.clog 2 count ≤ MAX_ORDER)
    (some_ : (vacancies base n outstanding (Nat.clog 2 count)).Nonempty) :
    ∃ free block after, Canonical layout base n ⟨memory, outstanding⟩ free ∧ block ∈ free ∧
      Nat.clog 2 count ≤ block.order ∧
      (∀ other ∈ free, ¬ (Nat.clog 2 count ≤ other.order ∧ other.order < block.order)) ∧
      Returns (buddyAllocPages layout memory count) (some block.start, after) ∧
      Intact layout base n after (⟨block.start, count⟩ :: outstanding) := by
  obtain ⟨free, canonical⟩ := intact
  obtain ⟨start, member⟩ := some_
  obtain ⟨aligned, vacant⟩ := mem_vacancies.mp member
  obtain ⟨large, listed, reach⟩ :=
    @Canonical.holding _ _ _ _ _ ⟨start, Nat.clog 2 count⟩ canonical aligned bound vacant
  have enough : count ≤ memory.nrFree := by
    rw [canonical.nrFree_eq fits]
    calc count ≤ 2 ^ Nat.clog 2 count := Nat.le_pow_clog (by decide) count
      _ ≤ 2 ^ large.order := Nat.pow_le_pow_right (by decide) reach
      _ ≤ total (extents free) := Holds.pow_le_total listed
  rcases allocPages_cases canonical.holds canonical.consistent.once_free positive enough
    (count_le bound) with ⟨_, small⟩ | ⟨block, inFree, above, least, after, granted, _⟩
  · exact absurd (small large listed) (Nat.not_lt.mpr reach)
  · have step : Step (buddyPmmManager layout) ⟨memory, outstanding⟩ (.alloc count)
        ⟨after, ⟨block.start, count⟩ :: outstanding⟩ := .allocated granted
    exact ⟨free, block, after, canonical, inFree, above, least, granted, canonical.step step not_false⟩

theorem grants (intact : Intact layout base n memory outstanding) (fits : n < 2 ^ 32)
    (positive : count ≠ 0) (bound : Nat.clog 2 count ≤ MAX_ORDER)
    (some_ : (vacancies base n outstanding (Nat.clog 2 count)).Nonempty) :
    ∃ page after, Returns (buddyAllocPages layout memory count) (some page, after) ∧
      Intact layout base n after (⟨page, count⟩ :: outstanding) ∧
      page ∈ vacancies base n outstanding (Nat.clog 2 count) := by
  obtain ⟨free, block, after, canonical, listed, reach, _, granted, intactAfter⟩ :=
    intact.carves fits positive bound some_
  exact ⟨block.start, after, granted, intactAfter, canonical.start_mem_vacancies listed reach⟩

/-- Since the smallest block is cut, a run of twice the size remains if there were two others. -/
theorem larger_remains {after : BuddyMemory} (intact : Intact layout base n memory outstanding)
    (fits : n < 2 ^ 32) (isOrder : Nat.clog 2 count = order) (positive : count ≠ 0)
    (bound : order + 1 ≤ MAX_ORDER) (runs : 3 ≤ (vacancies base n outstanding order).card)
    (larger : (vacancies base n outstanding (order + 1)).Nonempty)
    (granted : Returns (buddyAllocPages layout memory count) (some page, after)) :
    (vacancies base n (⟨page, count⟩ :: outstanding) (order + 1)).Nonempty := by
  subst isOrder
  have some_ : (vacancies base n outstanding (Nat.clog 2 count)).Nonempty :=
    Finset.card_pos.mp (by omega)
  obtain ⟨free, block, _, canonical, cut, reach, least, returns, _⟩ :=
    intact.carves fits positive (by omega) some_
  cases granted.unique returns
  by_cases spared : ∃ other ∈ free, other ≠ block ∧ Nat.clog 2 count + 1 ≤ other.order
  · obtain ⟨other, listed, different, large⟩ := spared
    exact ⟨other.start, canonical.spare cut reach listed different large⟩
  · have only (other : Block) (listed : other ∈ free) (large : Nat.clog 2 count + 1 ≤ other.order) :
        other = block := by
      by_contra different
      exact spared ⟨other, listed, different, large⟩
    obtain ⟨start, member⟩ := larger
    obtain ⟨holder, listed, large, _⟩ := canonical.within bound member
    rw [only holder listed large] at large
    rcases Nat.eq_or_lt_of_le large with exact_ | room
    · have two : vacancies base n outstanding (Nat.clog 2 count) ⊆
          {block.start, block.start + 2 ^ Nat.clog 2 count} := by
        intro start member
        obtain ⟨other, listed, above, inside⟩ := canonical.within (by omega) member
        have notBelow := least other listed
        have same := only other listed (by omega)
        have within := mem_points.mp (same ▸ inside (start_mem ⟨start, _⟩))
        have divides : 2 ^ Nat.clog 2 count ∣ block.start :=
          (Nat.pow_dvd_pow 2 reach).trans (canonical.aligned.free block cut)
        simp only [extent, ← exact_, Nat.pow_succ] at within
        rcases multiple_cases (mem_vacancies.mp member).1 divides within.1 within.2 with first | second
        · exact first ▸ Finset.mem_insert_self _ _
        · exact second ▸ Finset.mem_insert_of_mem (Finset.mem_singleton_self _)
      have few := (Finset.card_le_card two).trans Finset.card_le_two
      omega
    · exact ⟨_, canonical.half cut room⟩

theorem refuses (intact : Intact layout base n memory outstanding)
    (none_ : vacancies base n outstanding (Nat.clog 2 count) = ∅) (small : count ≤ 2 ^ 31) :
    Returns (buddyAllocPages layout memory count) (none, memory) := by
  by_cases refused : count = 0 ∨ count > memory.nrFree
  · exact allocPages_refuses refused
  · obtain ⟨free, canonical⟩ := intact
    obtain ⟨positive, enough⟩ := not_or.mp refused
    rcases allocPages_cases canonical.holds canonical.consistent.once_free positive
      (Nat.le_of_not_lt enough) small with ⟨missed, _⟩ | ⟨block, listed, reach, _⟩
    · exact missed
    · have found := canonical.start_mem_vacancies listed reach
      rw [none_] at found
      cases found

theorem frees (intact : Intact layout base n memory (⟨page, count⟩ :: outstanding))
    (full : vacancies base n outstanding (MAX_ORDER + 1) = ∅) :
    ∃ after, Returns (buddyFreePages layout memory page count) after ∧
      Intact layout base n after outstanding := by
  obtain ⟨free, canonical⟩ := intact
  have member : ⟨page, count⟩ ∈ (⟨page, count⟩ :: outstanding : List Allocation) :=
    List.mem_cons_self ..
  obtain ⟨after, returns, _⟩ := canonical.toSound.free_returns member
  have step : Step (buddyPmmManager layout) ⟨memory, ⟨page, count⟩ :: outstanding⟩
      (.free ⟨page, count⟩) ⟨after, (⟨page, count⟩ :: outstanding).erase ⟨page, count⟩⟩ :=
    .freed member returns
  rw [List.erase_cons_head] at step
  exact ⟨after, returns, canonical.step step (canonical.uncapped full)⟩

end Intact

end Ucore.Mm.Buddy
