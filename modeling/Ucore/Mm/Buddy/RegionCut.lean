import Ucore.Mm.Buddy.Allocation

namespace Ucore.Mm.Buddy

open Ucore.Data Ucore.Libs Extent Block

/-! The blocks that `buddy_init_memmap` lists are the binary digits of the size of the region. -/

variable {layout : Layout} {memory after : BuddyMemory} {lists : Nat → List Nat}
  {free : Finset Block} {base n cur remain orders order : Nat}

/-- A sum of powers with at most one of each has the counts as its digits. -/
theorem sum_bits {count : Nat → Nat} (single : ∀ order < orders, count order ≤ 1) :
    ∑ order ∈ Finset.range orders, 2 ^ order * count order < 2 ^ orders ∧
      ∀ order < orders, (∑ level ∈ Finset.range orders, 2 ^ level * count level).testBit order =
        decide (count order = 1) := by
  induction orders with
  | zero => simp
  | succ orders ih =>
      obtain ⟨small, digits⟩ := ih fun order below => single order (by omega)
      have highest := single orders (Nat.lt_succ_self _)
      rw [Finset.sum_range_succ, Nat.add_comm]
      refine ⟨?_, fun order below => ?_⟩
      · have top : 2 ^ orders * count orders ≤ 2 ^ orders * 1 := Nat.mul_le_mul_left _ highest
        rw [Nat.pow_succ]
        omega
      · rw [Nat.testBit_two_pow_mul_add _ small]
        by_cases lower : order < orders
        · rw [if_pos lower]
          exact digits order lower
        · obtain rfl : order = orders := by omega
          rw [if_neg lower, Nat.sub_self]
          rw [Nat.testBit_zero, Nat.mod_eq_of_lt (Nat.lt_succ_of_le highest)]

theorem counts_eq {count : Nat → Nat} (single : ∀ order < orders, count order ≤ 1)
    (all : n = ∑ order ∈ Finset.range (orders + 1), 2 ^ order * count order) :
    count orders = n / 2 ^ orders ∧
      ∀ order < orders, count order = if n.testBit order then 1 else 0 := by
  obtain ⟨small, digits⟩ := sum_bits single
  rw [Finset.sum_range_succ, Nat.add_comm] at all
  constructor
  · rw [all, Nat.mul_add_div (Nat.two_pow_pos orders), Nat.div_eq_of_lt small, Nat.add_zero]
  · intro order below
    have one := single order below
    rw [all, Nat.testBit_two_pow_mul_add _ small, if_pos below, digits order below]
    split
    · rename_i set
      exact of_decide_eq_true set
    · rename_i unset
      have notOne : count order ≠ 1 := fun isOne => unset (decide_eq_true isOne)
      omega

theorem Cut.length_le_one (cut : Cut base n cur remain free) (stored : Lists layout memory lists)
    (listed : (listedBlocks lists : Multiset Block) = free.val) (below : order < MAX_ORDER) :
    (lists order).length ≤ 1 := by
  have distinct : (lists order).Nodup := (stored.isList order below.le).nodup.of_cons.of_map
  have member : ∀ start ∈ lists order, (⟨start, order⟩ : Block) ∈ free := fun start inList =>
    (mem_of_listed listed).mp (mem_listedBlocks.mpr ⟨below.le, inList⟩)
  match isList : lists order with
  | [] => simp
  | [_] => simp
  | first :: second :: rest =>
      rw [isList] at distinct member
      have same := cut.single _ (member first (by simp)) _ (member second (by simp)) below rfl
      cases same
      simp at distinct

/-- `buddy_init_memmap` lists one block for each digit of `n` below the top order, and the rest of
the region as blocks of the top order. -/
theorem buddyInitMemmap_cuts (positive : 1 ≤ n) (fits : n < 2 ^ 32)
    (reserved : ∀ page, base ≤ page → page < base + n →
      PageReserved (buddyFlags memory (layout.page page)) = true) :
    ∃ after lists, Returns (buddyInitMemmap layout (buddyInit layout memory) base n) after ∧
      Represents layout after lists ∧
      Tiles ((listedBlocks lists).map extent : List Extent) ⟨base, n⟩ ∧
      (lists MAX_ORDER).length = n / 2 ^ MAX_ORDER ∧
      (∀ order < MAX_ORDER, (lists order).length = if n.testBit order then 1 else 0) ∧
      after.nrFree = n := by
  have bounded : n < 2 ^ 42 := fits.trans (by decide)
  obtain ⟨after, returns⟩ := initMemmap_returns positive bounded reserved
  obtain ⟨_, free, holds, cut⟩ := initMemmap_ok returns
  have pages := cut.tiles.total_eq
  simp only at pages
  obtain ⟨lists, represents, listed⟩ := holds.represents (by omega)
  have counter : after.nrFree = n := by
    rw [holds.nrFree, uint32_of_lt (by omega), pages]
  have tiles := cut.tiles
  rw [listed_extents listed] at tiles
  have counts := counts_eq (fun order below => cut.length_le_one represents.toLists listed below)
    (counter.symm.trans represents.nrFree)
  exact ⟨after, lists, returns, represents, tiles, counts.1, counts.2, counter⟩

/-- Seven pages are cut into blocks of four, two and one. -/
theorem buddyInitMemmap_cuts_seven :
    ∃ after lists, Returns (buddyInitMemmap bootLayout (buddyInit bootLayout bootMemory) 1 7) after ∧
      Tiles ((listedBlocks lists).map extent : List Extent) ⟨1, 7⟩ ∧
      (lists 2).length = 1 ∧ (lists 3).length = 0 := by
  have cuts := @buddyInitMemmap_cuts bootLayout bootMemory 1 7 (by decide) (by decide)
    fun page _ _ => by simp [bootMemory, buddyFlags, listNext, PageReserved, SetPageReserved]
  obtain ⟨after, lists, returns, _, tiles, _, counts, _⟩ := cuts
  exact ⟨after, lists, returns, tiles, counts 2 (by decide), counts 3 (by decide)⟩

end Ucore.Mm.Buddy
