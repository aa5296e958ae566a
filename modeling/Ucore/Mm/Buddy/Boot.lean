import Ucore.Mm.Buddy.Operations

namespace Ucore.Mm.Buddy

open Ucore.Data Ucore.Libs Extent Block

/-! How `buddy_init_memmap` cuts a region into blocks. -/

variable {layout : Layout} {memory after : BuddyMemory} {free : Finset Block} {block : Block}
  {base n cur remain order blocks fuel o found p page : Nat}

/-- The pages below `cur` have been cut into blocks, and `remain` pages are left. -/
structure Cut (base n cur remain : Nat) (free : Finset Block) : Prop where
  lower : base ≤ cur
  upper : cur + remain = base + n
  covers : ∀ point, cover (extents free) point = cover {⟨base, cur - base⟩} point
  order_le : ∀ block ∈ free, block.order ≤ MAX_ORDER
  size_le : ∀ block ∈ free, 2 ^ block.order ≤ n
  smaller : ∀ block ∈ free, block.order < MAX_ORDER → remain < 2 ^ block.order
  single : ∀ a ∈ free, ∀ b ∈ free, a.order < MAX_ORDER → a.order = b.order → a = b
  offset : ∀ block ∈ free, ∃ distance, block.start = base + distance ∧ 2 ^ block.order ∣ distance
  onward : ∀ order ≤ MAX_ORDER, 2 ^ order ≤ remain → 2 ^ order ∣ cur - base
  first : cur = base ∨ ⟨base, min MAX_ORDER (Nat.log 2 n)⟩ ∈ free

namespace Cut

theorem initial (base n : Nat) : Cut base n base n ∅ where
  lower := le_rfl
  upper := rfl
  covers := by simp [extents]
  order_le := by simp
  size_le := by simp
  smaller := by simp
  single := by simp
  offset := by simp
  onward := by simp
  first := .inl rfl

theorem apart (cut : Cut base n cur remain free) (order : Nat) : Apart free ⟨cur, order⟩ := by
  intro point
  have lower := cut.lower
  rw [cut.covers, cover_singleton, cover_singleton]
  simp only [extent, mem_points]
  split_ifs <;> omega

theorem top_of_same {other : Block} (cut : Cut base n cur remain free) (fits : 2 ^ order ≤ remain)
    (bound : order ≤ MAX_ORDER) (member : other ∈ free) (same : other.order = order) :
    order = MAX_ORDER := by
  by_contra below
  have small := cut.smaller other member (by omega)
  rw [same] at small
  omega

theorem covers_add (cut : Cut base n cur remain free) (point : Nat) :
    cover (extents (insert ⟨cur, order⟩ free)) point =
      cover {⟨base, cur + 2 ^ order - base⟩} point := by
  rw [cover_insert (cut.apart order).notMem, cut.covers, Nat.sub_add_comm cut.lower,
    cover_cut base (cur - base), Nat.add_sub_cancel' cut.lower]
  exact Nat.add_comm _ _

theorem single_add (cut : Cut base n cur remain free) (fits : 2 ^ order ≤ remain)
    (bound : order ≤ MAX_ORDER) {a b : Block} (inA : a ∈ insert ⟨cur, order⟩ free)
    (inB : b ∈ insert ⟨cur, order⟩ free) (below : a.order < MAX_ORDER) (same : a.order = b.order) :
    a = b := by
  rcases Finset.mem_insert.mp inA with isNewA | inA
  · rcases Finset.mem_insert.mp inB with isNewB | inB
    · rw [isNewA, isNewB]
    · rw [isNewA] at same below
      exact absurd (cut.top_of_same fits bound inB same.symm) (Nat.ne_of_lt below)
  · rcases Finset.mem_insert.mp inB with isNewB | inB
    · rw [isNewB] at same
      rw [same] at below
      exact absurd (cut.top_of_same fits bound inA same) (Nat.ne_of_lt below)
    · exact cut.single a inA b inB below same

theorem onward_add {level : Nat} (cut : Cut base n cur remain free) (fits : 2 ^ order ≤ remain)
    (bound : order ≤ MAX_ORDER) (largest : order < MAX_ORDER → remain < 2 ^ (order + 1))
    (within : level ≤ MAX_ORDER) (more : 2 ^ level ≤ remain - 2 ^ order) :
    2 ^ level ∣ cur + 2 ^ order - base := by
  have levels : level ≤ order := by
    by_contra higher
    have small := largest (by omega)
    have atLeast : 2 ^ (order + 1) ≤ 2 ^ level := Nat.pow_le_pow_right (by decide) (by omega)
    omega
  rw [Nat.sub_add_comm cut.lower]
  exact Nat.dvd_add (cut.onward level within (more.trans (Nat.sub_le _ _)))
    (Nat.pow_dvd_pow 2 levels)

/-- The first block is the largest power of two in the region, up to the top order. -/
theorem first_add (cut : Cut base n cur remain free) (fits : 2 ^ order ≤ remain)
    (bound : order ≤ MAX_ORDER) (largest : order < MAX_ORDER → remain < 2 ^ (order + 1)) :
    ⟨base, min MAX_ORDER (Nat.log 2 n)⟩ ∈ insert ⟨cur, order⟩ free := by
  rcases cut.first with start | present
  · have upper := cut.upper
    have all : remain = n := by omega
    rw [all] at fits largest
    have level : min MAX_ORDER (Nat.log 2 n) = order := by
      cases Nat.eq_or_lt_of_le bound with
      | inl top =>
          have atLeast := Nat.le_log_of_pow_le (b := 2) (by decide) fits
          omega
      | inr below =>
          rw [Nat.log_eq_of_pow_le_of_lt_pow fits (largest below)]
          omega
    rw [level, start]
    exact Finset.mem_insert_self _ _
  · exact Finset.mem_insert_of_mem present

theorem add (cut : Cut base n cur remain free) (fits : 2 ^ order ≤ remain)
    (bound : order ≤ MAX_ORDER) (largest : order < MAX_ORDER → remain < 2 ^ (order + 1)) :
    Cut base n (cur + 2 ^ order) (remain - 2 ^ order) (insert ⟨cur, order⟩ free) where
  lower := cut.lower.trans (Nat.le_add_right _ _)
  upper := by
    have upper := cut.upper
    omega
  covers := cut.covers_add
  order_le := Finset.forall_mem_insert _ _ _ |>.mpr ⟨bound, cut.order_le⟩
  size_le := by
    have lower := cut.lower
    have upper := cut.upper
    exact Finset.forall_mem_insert _ _ _ |>.mpr ⟨by simp only; omega, cut.size_le⟩
  smaller := by
    refine Finset.forall_mem_insert _ _ _ |>.mpr ⟨fun below => ?_, fun other member below => ?_⟩
    · have small := largest below
      rw [Nat.pow_succ] at small
      simp only
      omega
    · exact (Nat.sub_le _ _).trans_lt (cut.smaller other member below)
  single := fun _ inA _ inB => cut.single_add fits bound inA inB
  offset := by
    have lower := cut.lower
    exact Finset.forall_mem_insert _ _ _ |>.mpr
      ⟨⟨cur - base, (Nat.add_sub_cancel' lower).symm, cut.onward order bound fits⟩, cut.offset⟩
  onward := fun _ => cut.onward_add fits bound largest
  first := .inr (cut.first_add fits bound largest)

theorem tiles (cut : Cut base n (base + n) 0 free) : Tiles (extents free) ⟨base, n⟩ := by
  intro point
  rw [cut.covers, Nat.add_sub_cancel_left]

theorem coalesced (cut : Cut base n cur remain free) : Coalesced MAX_ORDER free := by
  intro block member below present
  exact block.partner_ne (cut.single block member _ present below rfl).symm

theorem aligned_iff (cut : Cut base n cur remain free) (some : cur ≠ base) :
    (∀ block ∈ free, block.Aligned) ↔ 2 ^ min MAX_ORDER (Nat.log 2 n) ∣ base := by
  constructor
  · intro aligned
    exact aligned _ (cut.first.resolve_left some)
  · intro divides block member
    obtain ⟨distance, start, multiple⟩ := cut.offset block member
    have level : block.order ≤ min MAX_ORDER (Nat.log 2 n) :=
      le_min (cut.order_le block member)
        (Nat.le_log_of_pow_le (by decide) (cut.size_le block member))
    rw [Aligned, start]
    exact Nat.dvd_add ((Nat.pow_dvd_pow 2 level).trans divides) multiple

end Cut

/-! The loops. -/

theorem largestOrder_ok (done : buddyLargestOrder remain fuel o = .ok found)
    (fits : 2 ^ o ≤ remain) : 2 ^ found ≤ remain ∧ remain < 2 ^ (found + 1) := by
  induction fuel generalizing o with
  | zero => cases done
  | succ fuel ih =>
      rw [buddyLargestOrder] at done
      split at done
      · rename_i more
        exact ih done more
      · rename_i stop
        cases done
        exact ⟨fits, Nat.lt_of_not_le stop⟩

theorem addBlocks_spec (holds : Holds layout memory free) (cut : Cut base n cur remain free)
    (fits : blocks * 2 ^ MAX_ORDER ≤ remain) :
    let result := buddyAddBlocks layout blocks memory cur remain
    ∃ free, Holds layout result.1 free ∧ Cut base n result.2.1 result.2.2 free := by
  induction blocks generalizing memory cur remain free with
  | zero => exact ⟨free, holds, cut⟩
  | succ blocks ih =>
      rw [Nat.succ_mul] at fits
      have one : 2 ^ MAX_ORDER ≤ remain := by omega
      exact ih (holds.addFree le_rfl (cut.apart MAX_ORDER))
        (cut.add one le_rfl fun below => absurd below (Nat.lt_irrefl _)) (by omega)

theorem buddyCut_ok (done : buddyCut layout fuel memory cur remain = .ok after)
    (holds : Holds layout memory free) (cut : Cut base n cur remain free) :
    ∃ free, Holds layout after free ∧ Cut base n (base + n) 0 free := by
  induction fuel generalizing memory cur remain free with
  | zero => cases done
  | succ fuel ih =>
      rw [buddyCut] at done
      split at done
      · rename_i positive
        cases largest : buddyLargestOrder remain fuel 0 with
        | error stop => simp [largest, Bind.bind, Except.bind] at done
        | ok o =>
            obtain ⟨fits, least⟩ := largestOrder_ok largest (show 2 ^ 0 ≤ remain from positive)
            simp only [largest, Bind.bind, Except.bind] at done
            split at done
            · rename_i above
              have count : uint32 (2 ^ o / 2 ^ MAX_ORDER) * 2 ^ MAX_ORDER ≤ remain := by
                have truncated : uint32 (2 ^ o / 2 ^ MAX_ORDER) ≤ 2 ^ o / 2 ^ MAX_ORDER :=
                  Nat.mod_le _ _
                exact (Nat.mul_le_mul_right _ truncated).trans
                  ((Nat.div_mul_le_self _ _).trans fits)
              obtain ⟨added, holdsAdded, cutAdded⟩ := addBlocks_spec holds cut count
              exact ih done holdsAdded cutAdded
            · rename_i within
              have bound : o ≤ MAX_ORDER := Nat.le_of_not_lt within
              exact ih done (holds.addFree bound (cut.apart o)) (cut.add fits bound fun _ => least)
      · rename_i none
        cases done
        obtain rfl : remain = 0 := by omega
        have upper := cut.upper
        rw [Nat.add_zero] at upper
        subst upper
        exact ⟨free, holds, cut⟩

/-! Boot. -/

theorem Holds.of_empty (heads : ∀ order ≤ MAX_ORDER, IsList memory.links (layout.freeList order) [])
    (none : memory.nrFree = 0) : Holds layout memory ∅ where
  lists := ⟨fun _ => [], ⟨heads, by simp⟩, by simp⟩
  nrFree := none

theorem Holds.head_isList (holds : Holds layout memory ∅) (bound : order ≤ MAX_ORDER) :
    IsList memory.links (layout.freeList order) [] := by
  obtain ⟨lists, lists_, stored⟩ := holds.lists
  have isList := lists_.isList order bound
  cases isCons : lists order with
  | nil =>
      rw [isCons] at isList
      exact isList
  | cons start rest =>
      have member : (⟨start, order⟩ : Block) ∈ (∅ : Finset Block) :=
        (stored _).mpr ⟨bound, by simp [isCons]⟩
      simp at member

/-- Initialising the heads one after the other; a head that is done stays as it is. -/
theorem initHeads_isList (orders : List Nat) (links : Links Nat) :
    (order ∈ orders ∨ IsList links (layout.freeList order) []) →
      IsList (orders.foldl (fun links i => listInit links (layout.freeList i)) links)
        (layout.freeList order) [] := by
  induction orders generalizing links with
  | nil => simp
  | cons first rest ih =>
      intro done
      rw [List.foldl_cons]
      apply ih
      by_cases here : order = first
      · subst here
        exact .inr (listInit_isList _ _)
      · have away : layout.freeList order ≠ layout.freeList first :=
          fun same => here (freeList_inj.mp same)
        rcases done with member | isList
        · exact .inl ((List.mem_cons.mp member).resolve_left here)
        · refine .inr (isList.frame (fun node member => ?_) (fun node member => ?_))
          · obtain rfl : node = layout.freeList order := by simpa using member
            simp [listInit, away]
          · obtain rfl : node = layout.freeList order := by simpa using member
            simp [listInit, away]

theorem buddyInit_holds (layout : Layout) (memory : BuddyMemory) :
    Holds layout (buddyInit layout memory) ∅ :=
  Holds.of_empty (fun _ bound => initHeads_isList _ _
    (.inl (List.mem_range.mpr (Nat.lt_succ_of_le bound)))) rfl

theorem clearPage_holds (holds : Holds layout memory ∅) (p : Nat) :
    Holds layout (buddyClearPage memory (layout.page p)) ∅ := by
  refine Holds.of_empty (fun order bound => ?_) holds.nrFree
  have away : layout.freeList order ≠ layout.page p := freeList_ne_page bound
  refine (holds.head_isList bound).frame (fun node member => ?_) (fun node member => ?_)
  · obtain rfl : node = layout.freeList order := by simpa using member
    simp [buddyClearPage, away]
  · obtain rfl : node = layout.freeList order := by simpa using member
    simp [buddyClearPage, away]

theorem clearReserved_holds (done : buddyClearReserved layout memory p n = .ok after)
    (holds : Holds layout memory ∅) : Holds layout after ∅ := by
  induction n generalizing memory p with
  | zero =>
      cases done
      exact holds
  | succ n ih =>
      rw [buddyClearReserved] at done
      split at done
      · exact ih done (clearPage_holds holds p)
      · cases done

theorem initMemmap_ok
    (result : Returns (buddyInitMemmap layout (buddyInit layout memory) base n) after) :
    0 < n ∧ ∃ free, Holds layout after free ∧ Cut base n (base + n) 0 free := by
  obtain ⟨fuel, run⟩ := result.some_fuel
  rw [buddyInitMemmap] at run
  split at run
  · cases run
  · rename_i positive
    refine ⟨Nat.pos_of_ne_zero positive, ?_⟩
    cases cleared : buddyClearReserved layout (buddyInit layout memory) base n with
    | error stop => simp [cleared, Bind.bind, Except.bind] at run
    | ok ready =>
        simp only [cleared, Bind.bind, Except.bind] at run
        exact buddyCut_ok run (clearReserved_holds cleared (buddyInit_holds layout memory))
          (Cut.initial base n)

/-! Below `2^42` pages the cut also terminates. -/

theorem largestOrder_returns (fits : 2 ^ o ≤ remain) :
    Returns (fun fuel => buddyLargestOrder remain fuel o) (Nat.log 2 remain) := by
  have reach : o ≤ Nat.log 2 remain := Nat.le_log_of_pow_le (by decide) fits
  have positive : remain ≠ 0 := by
    have power : 0 < 2 ^ o := Nat.two_pow_pos o
    omega
  obtain ⟨gap, split⟩ := Nat.exists_eq_add_of_le reach
  induction gap generalizing o with
  | zero =>
      obtain rfl : Nat.log 2 remain = o := split
      have stop := Nat.not_le.mpr (Nat.lt_pow_succ_log_self (b := 2) (by decide) remain)
      apply Returns.round
      simp only [buddyLargestOrder, if_neg stop]
      exact .of_constant fun _ => rfl
  | succ gap ih =>
      have more : 2 ^ (o + 1) ≤ remain := Nat.pow_le_of_le_log positive (by omega)
      apply Returns.round
      simp only [buddyLargestOrder, if_pos more]
      exact ih more (by omega) (by omega)

theorem addBlocks_remain (layout : Layout) (blocks : Nat) (memory : BuddyMemory)
    (cur remain : Nat) : (buddyAddBlocks layout blocks memory cur remain).2.2 =
      remain - blocks * 2 ^ MAX_ORDER := by
  induction blocks generalizing memory cur remain with
  | zero => simp [buddyAddBlocks]
  | succ blocks ih =>
      rw [buddyAddBlocks, ih, Nat.succ_mul]
      omega

/-- The truncated count of top blocks is exact as long as it fits into 32 bits. -/
theorem blocks_exact (above : o > MAX_ORDER) (fits : o < 42) :
    uint32 (2 ^ o / 2 ^ MAX_ORDER) * 2 ^ MAX_ORDER = 2 ^ o := by
  obtain ⟨extra, rfl⟩ := Nat.exists_eq_add_of_lt above
  have quotient : 2 ^ (MAX_ORDER + extra + 1) / 2 ^ MAX_ORDER = 2 ^ (extra + 1) := by
    rw [Nat.add_assoc, Nat.pow_add, Nat.mul_div_cancel_left _ (Nat.two_pow_pos _)]
  have width : (2 : Nat) ^ (extra + 1) < 2 ^ 32 := by
    apply Nat.pow_lt_pow_right (by decide)
    simp only [MAX_ORDER] at fits
    omega
  rw [quotient, uint32_of_lt width, ← Nat.pow_add, Nat.add_right_comm, Nat.add_comm extra,
    Nat.add_right_comm]

theorem buddyCut_returns (layout : Layout) (memory : BuddyMemory) (cur : Nat)
    (fits : remain < 2 ^ 42) :
    ∃ after, Returns (fun fuel => buddyCut layout fuel memory cur remain) after := by
  induction remain using Nat.strong_induction_on generalizing memory cur with
  | _ remain ih =>
      by_cases positive : remain > 0
      · have largest := largestOrder_returns (show 2 ^ 0 ≤ remain from positive)
        have size : 2 ^ Nat.log 2 remain ≤ remain := Nat.pow_log_le_self 2 (by omega)
        have power : 0 < 2 ^ Nat.log 2 remain := Nat.two_pow_pos _
        have less : remain - 2 ^ Nat.log 2 remain < remain := by omega
        have rest (memory : BuddyMemory) (cur : Nat) := ih _ less memory cur (by omega)
        by_cases above : Nat.log 2 remain > MAX_ORDER
        · have pages := blocks_exact above (Nat.log_lt_of_lt_pow (by omega) fits)
          have left := addBlocks_remain layout
            (uint32 (2 ^ Nat.log 2 remain / 2 ^ MAX_ORDER)) memory cur remain
          rw [pages] at left
          generalize added : buddyAddBlocks layout (uint32 (2 ^ Nat.log 2 remain / 2 ^ MAX_ORDER))
            memory cur remain = result at left
          obtain ⟨after, done⟩ := rest result.1 result.2.1
          refine ⟨after, .round ?_⟩
          simp only [buddyCut, if_pos positive]
          refine largest.bind ?_
          simp only [if_pos above, added, left]
          exact done
        · obtain ⟨after, done⟩ :=
            rest (buddyAddFree layout memory cur (Nat.log 2 remain)) (cur + 2 ^ Nat.log 2 remain)
          refine ⟨after, .round ?_⟩
          simp only [buddyCut, if_pos positive]
          refine largest.bind ?_
          simp only [if_neg above]
          exact done
      · refine ⟨memory, .round ?_⟩
        simp only [buddyCut, if_neg positive]
        exact .of_constant fun _ => rfl

theorem clearReserved_returns (reserved : ∀ page, p ≤ page → page < p + n →
    PageReserved (buddyFlags memory (layout.page page)) = true) :
    ∃ after, buddyClearReserved layout memory p n = .ok after := by
  induction n generalizing memory p with
  | zero => exact ⟨memory, rfl⟩
  | succ n ih =>
      rw [buddyClearReserved, if_pos (reserved p le_rfl (by omega))]
      apply ih
      intro page above below
      have different : layout.page page ≠ layout.page p := by
        intro same
        have equal := page_injective layout same
        omega
      have still := reserved page (by omega) (by omega)
      simpa [buddyFlags, buddyClearPage, different] using still

theorem initHeads_page (orders : List Nat) (links : Links Nat)
    (bound : ∀ order ∈ orders, order ≤ MAX_ORDER) :
    listNext (orders.foldl (fun links i => listInit links (layout.freeList i)) links)
      (layout.page page) = listNext links (layout.page page) := by
  induction orders generalizing links with
  | nil => rfl
  | cons first rest ih =>
      have away : layout.page page ≠ layout.freeList first :=
        (freeList_ne_page (bound first (by simp))).symm
      rw [List.foldl_cons, ih _ fun order member => bound order (by simp [member])]
      simp [listInit, away]

theorem initMemmap_returns (positive : 0 < n) (fits : n < 2 ^ 42)
    (reserved : ∀ page, base ≤ page → page < base + n →
      PageReserved (buddyFlags memory (layout.page page)) = true) :
    ∃ after, Returns (buddyInitMemmap layout (buddyInit layout memory) base n) after := by
  have kept : ∀ page, buddyFlags (buddyInit layout memory) (layout.page page) =
      buddyFlags memory (layout.page page) := fun page =>
    initHeads_page _ _ fun order member => Nat.le_of_lt_succ (List.mem_range.mp member)
  obtain ⟨ready, cleared⟩ := clearReserved_returns fun page above below =>
    (kept page).symm ▸ reserved page above below
  obtain ⟨after, done⟩ := buddyCut_returns layout ready base fits
  refine ⟨after, ?_⟩
  unfold buddyInitMemmap
  simp only [if_neg (Nat.ne_of_gt positive), cleared]
  exact done

end Ucore.Mm.Buddy
