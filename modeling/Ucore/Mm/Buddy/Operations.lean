import Ucore.Mm.Buddy.Refinement
import Mathlib.Data.Nat.Log

namespace Ucore.Mm.Buddy

open Ucore.Data Ucore.Libs Extent Block

/-! The operations of the buddy system on its set of free blocks. -/

variable {layout : Layout} {memory after : BuddyMemory} {lists : Nat → List Nat}
  {free : Finset Block} {block : Block} {order rounds start low n o : Nat}

/-! `size_to_order`. -/

theorem sizeToOrderLoop_returns (fits : n ≤ 2 ^ 31) (below : o ≤ Nat.clog 2 n) :
    Returns (fun fuel => sizeToOrderLoop n fuel o (2 ^ o)) (Nat.clog 2 n) := by
  obtain ⟨gap, split⟩ := Nat.exists_eq_add_of_le below
  have top : Nat.clog 2 n ≤ 31 := Nat.clog_le_of_le_pow fits
  induction gap generalizing o with
  | zero =>
      obtain rfl : o = Nat.clog 2 n := split.symm
      have stop : ¬ 2 ^ Nat.clog 2 n < n := Nat.not_lt.mpr (Nat.le_pow_clog (by decide) n)
      apply Returns.round
      simp only [sizeToOrderLoop, if_neg stop]
      exact .of_constant fun _ => rfl
  | succ gap ih =>
      have more : 2 ^ o < n := Nat.pow_lt_of_lt_clog (by omega)
      have width : (2 : Nat) ^ (o + 1) < 2 ^ 32 := Nat.pow_lt_pow_right (by decide) (by omega)
      have order : uint32 (o + 1) = o + 1 := uint32_of_lt (by omega)
      have size : uint32 (2 ^ o <<< 1) = 2 ^ (o + 1) := by
        rw [Nat.shiftLeft_eq, ← Nat.pow_succ, uint32_of_lt width]
      apply Returns.round
      simp only [sizeToOrderLoop, if_pos more, order, size]
      exact ih (by omega) (by omega)

theorem sizeToOrder_returns (fits : n ≤ 2 ^ 31) : Returns (sizeToOrder n) (Nat.clog 2 n) := by
  have small : uint32 n = n := uint32_of_lt (by omega)
  have loop := sizeToOrderLoop_returns fits (Nat.zero_le _)
  show Returns (fun fuel => sizeToOrderLoop (uint32 n) fuel 0 1) (Nat.clog 2 n)
  rw [small]
  exact loop

/-- Above `2^31` the power wraps around to 0 and stays below `n`. -/
theorem sizeToOrderLoop_diverges {s : Nat} (large : 2 ^ 31 < n)
    (power : s = 0 ∨ ∃ e ≤ 31, s = 2 ^ e) (fuel : Nat) :
    sizeToOrderLoop n fuel o s = .error .outOfFuel := by
  induction fuel generalizing o s with
  | zero => rfl
  | succ fuel ih =>
      rcases power with rfl | ⟨e, bound, rfl⟩
      · rw [sizeToOrderLoop, if_pos (by omega)]
        exact ih (.inl rfl)
      · have below : 2 ^ e < n :=
          Nat.lt_of_le_of_lt (Nat.pow_le_pow_right (by decide) bound) large
        rw [sizeToOrderLoop, if_pos below, Nat.shiftLeft_eq, ← Nat.pow_succ]
        apply ih
        by_cases last : e = 31
        · subst last
          exact .inl rfl
        · have width : (2 : Nat) ^ (e + 1) < 2 ^ 32 := Nat.pow_lt_pow_right (by decide) (by omega)
          exact .inr ⟨e + 1, by omega, uint32_of_lt width⟩

theorem sizeToOrder_diverges (large : 2 ^ 31 < n) (fits : n < 2 ^ 32) :
    Diverges (sizeToOrder n) := by
  intro fuel
  rw [sizeToOrder, uint32_of_lt fits]
  exact sizeToOrderLoop_diverges large (.inr ⟨0, by decide, rfl⟩) fuel

/-- The least order is found exactly for the counts that it can be found for in 32 bits. -/
theorem sizeToOrder_least_iff (n : UInt32) :
    (∃ o, Returns (sizeToOrder n.toNat) o ∧ IsLeast {o | n.toNat ≤ 2 ^ o} o) ↔ n.toNat ≤ 2 ^ 31 := by
  refine ⟨fun least => ?_, fun fits => ⟨Nat.clog 2 n.toNat, sizeToOrder_returns fits, ?_, ?_⟩⟩
  · obtain ⟨o, returns, _⟩ := least
    by_contra large
    exact (sizeToOrder_diverges (Nat.not_le.mp large) n.toNat_lt).not_returns returns
  · exact Nat.le_pow_clog (by decide) n.toNat
  · exact fun o enough => Nat.clog_le_of_le_pow enough

/-- Half of the counts and one more. -/
theorem sizeToOrder_unending : Diverges (sizeToOrder (0x80000001 : UInt32).toNat) := by
  have large : 2 ^ 31 < (0x80000001 : UInt32).toNat := by decide
  exact sizeToOrder_diverges large (UInt32.toNat_lt _)

/-- Nothing stops a block of such a size from being freed. -/
theorem buddyFreePages_diverges (layout : Layout) (memory : BuddyMemory) (base : Nat)
    (large : 2 ^ 31 < n) (fits : n < 2 ^ 32) : Diverges (buddyFreePages layout memory base n) := by
  intro fuel
  rw [buddyFreePages, if_neg (by omega), sizeToOrder_diverges large fits fuel, error_bind]

/-! The search for a list that is not empty. -/

theorem Lists.empty_iff (lists_ : Lists layout memory lists) (bound : order ≤ MAX_ORDER) :
    listEmpty memory.links (layout.freeList order) = true ↔ lists order = [] := by
  rw [listEmpty_iff (lists_.isList order bound), List.map_eq_nil_iff]

theorem findOrder_spec (lists_ : Lists layout memory lists) (o rounds : Nat)
    (end_ : o + rounds = MAX_ORDER + 1) :
    let found := buddyFindOrder layout memory.links o rounds
    o ≤ found ∧ (∀ order, o ≤ order → order < found → lists order = []) ∧
      (found ≤ MAX_ORDER → lists found ≠ []) := by
  induction rounds generalizing o with
  | zero =>
      simp only [buddyFindOrder]
      exact ⟨le_rfl, fun order above below => by omega, fun bound => by omega⟩
  | succ rounds ih =>
      have bound : o ≤ MAX_ORDER := by omega
      have empty := lists_.empty_iff bound
      simp only [buddyFindOrder]
      cases isEmpty : listEmpty memory.links (layout.freeList o) with
      | true =>
          rw [isEmpty] at empty
          obtain ⟨above, skipped, some⟩ := ih (o + 1) (by omega)
          refine ⟨?_, fun order low high => ?_, some⟩
          · simp only [Bool.not_true, Bool.false_eq_true, if_false]
            omega
          · rcases Nat.eq_or_lt_of_le low with rfl | later
            · exact empty.mp rfl
            · exact skipped order later high
      | false =>
          rw [isEmpty] at empty
          simp only [Bool.not_false, if_true]
          exact ⟨le_rfl, fun order low high => by omega, fun _ none => by simp [none] at empty⟩

/-! Splitting. -/

theorem Holds.split (holds : Holds layout memory free) (bound : low + rounds ≤ MAX_ORDER)
    (apart : Apart free ⟨start, low + rounds⟩) :
    Holds layout (buddySplit layout start low (low + rounds) memory)
      (carve start low rounds free) := by
  induction rounds generalizing memory free with
  | zero =>
      have unsplit : buddySplit layout start low (low + 0) memory = memory := by
        cases low with
        | zero => rfl
        | succ low => rw [Nat.add_zero, buddySplit, if_neg (Nat.lt_irrefl _)]
      rw [unsplit]
      exact holds
  | succ rounds ih =>
      obtain ⟨upper, lower⟩ := apart.halves
      rw [← Nat.add_assoc, buddySplit, if_pos (by omega), carve]
      exact ih (holds.addFree (by omega) upper) (by omega) lower

/-! Allocation. -/

theorem Holds.setFlags (holds : Holds layout memory free) (flags : Nat)
    (unlisted : ∀ block ∈ free, block.start ≠ start) :
    Holds layout (setBuddyFlags memory (layout.page start) flags) free := by
  obtain ⟨lists, lists_, stored⟩ := holds.lists
  refine ⟨⟨lists, lists_.frame (fun order bound => ?_) (fun order bound page member => ?_), stored⟩,
    holds.nrFree⟩
  · exact Function.update_of_ne (freeList_ne_page bound) _ _
  · have different := unlisted ⟨page, order⟩ ((stored _).mpr ⟨bound, member⟩)
    exact Function.update_of_ne (fun same => different (page_injective layout same)) _ _

theorem Holds.carve (holds : Holds layout memory free)
    (once : ∀ point, cover (extents free) point ≤ 1)
    (member : (⟨start, low + rounds⟩ : Block) ∈ free) (flags : Nat) :
    Holds layout
      (setBuddyFlags (buddySplit layout start low (low + rounds)
        (buddyRemoveFree memory (layout.page start)).2) (layout.page start) flags)
      (carve start low rounds (free.erase ⟨start, low + rounds⟩)) := by
  have apart := apart_erase once member
  refine ((holds.removeFree member).2.split (holds.order_le member) apart).setFlags flags ?_
  intro block kept same
  rcases mem_carve.mp kept with kept | ⟨order, _, _, rfl⟩
  · exact apart.start_ne kept same
  · have power : 0 < 2 ^ order := Nat.two_pow_pos order
    simp only at same
    omega

/-- The search ends beyond the top order, or at the least sufficient order of a free block. -/
theorem Holds.findOrder (holds : Holds layout memory free) {need found : Nat}
    (chosen : buddyFindOrder layout memory.links need (MAX_ORDER + 1 - need) = found) :
    (found > MAX_ORDER ∧ ∀ block ∈ free, block.order < need) ∨
      (need ≤ found ∧ found ≤ MAX_ORDER ∧
        (∀ other ∈ free, ¬ (need ≤ other.order ∧ other.order < found)) ∧
        ∃ start, (⟨start, found⟩ : Block) ∈ free ∧
          listNext memory.links (layout.freeList found) = layout.page start) := by
  obtain ⟨lists, lists_, stored⟩ := holds.lists
  by_cases reach : need ≤ MAX_ORDER + 1
  · have spec := findOrder_spec lists_ need (MAX_ORDER + 1 - need) (Nat.add_sub_cancel' reach)
    rw [chosen] at spec
    obtain ⟨above, skipped, some⟩ := spec
    have least : ∀ other ∈ free, ¬ (need ≤ other.order ∧ other.order < found) := by
      intro other member between
      have onList := ((stored other).mp member).2
      rw [skipped other.order between.1 between.2] at onList
      cases onList
    by_cases beyond : found > MAX_ORDER
    · refine .inl ⟨beyond, fun block member => Nat.lt_of_not_le fun large => ?_⟩
      exact least block member ⟨large, (holds.order_le member).trans_lt beyond⟩
    · have bound : found ≤ MAX_ORDER := Nat.le_of_not_lt beyond
      obtain ⟨start, rest, isCons⟩ := List.exists_cons_of_ne_nil (some bound)
      have isList := lists_.isList found bound
      rw [isCons, List.map_cons] at isList
      exact .inr ⟨above, bound, least, start, (stored _).mpr ⟨bound, by simp [isCons]⟩,
        isList.first.1⟩
  · have none : MAX_ORDER + 1 - need = 0 := by omega
    rw [none, buddyFindOrder] at chosen
    refine .inl ⟨by omega, fun block member => ?_⟩
    have bound := holds.order_le member
    omega

theorem allocPages_cases (holds : Holds layout memory free)
    (once : ∀ point, cover (extents free) point ≤ 1) (positive : n ≠ 0)
    (enough : n ≤ memory.nrFree) (fits : n ≤ 2 ^ 31) :
    (Returns (buddyAllocPages layout memory n) (none, memory) ∧
        ∀ block ∈ free, block.order < Nat.clog 2 n) ∨
      ∃ block ∈ free, Nat.clog 2 n ≤ block.order ∧
        (∀ other ∈ free, ¬ (Nat.clog 2 n ≤ other.order ∧ other.order < block.order)) ∧
        ∃ after, Returns (buddyAllocPages layout memory n) (some block.start, after) ∧
          Holds layout after
            (carve block.start (Nat.clog 2 n) (block.order - Nat.clog 2 n) (free.erase block)) := by
  have sized := sizeToOrder_returns fits
  have granted : ¬ (n = 0 ∨ n > memory.nrFree) := not_or.mpr ⟨positive, Nat.not_lt.mpr enough⟩
  unfold buddyAllocPages
  simp only [if_neg granted]
  generalize Nat.clog 2 n = need at sized ⊢
  generalize chosen : buddyFindOrder layout memory.links need (MAX_ORDER + 1 - need) = found
  rcases holds.findOrder chosen with
    ⟨beyond, small⟩ | ⟨above, bound, least, start, member, first⟩
  · refine .inl ⟨sized.bind (.of_constant fun _ => ?_), small⟩
    simp only [chosen, if_pos beyond]
  · obtain ⟨rounds, rfl⟩ := Nat.exists_eq_add_of_le above
    have carved := holds.carve once member (ClearPageProperty (buddyFlags
      (buddySplit layout start need (need + rounds)
        (buddyRemoveFree memory (layout.page start)).2) (layout.page start)))
    refine .inr ⟨⟨start, need + rounds⟩, member, above, least, ?_⟩
    rw [Nat.add_sub_cancel_left]
    refine ⟨_, sized.bind (.of_constant fun _ => ?_), carved⟩
    simp only [chosen, if_neg (Nat.not_lt.mpr bound), first, (holds.removeFree member).1]

theorem allocPages_refuses (refused : n = 0 ∨ n > memory.nrFree) :
    Returns (buddyAllocPages layout memory n) (none, memory) :=
  .of_constant fun fuel => by rw [buddyAllocPages, if_pos refused]

theorem allocPages_diverges (enough : n ≤ memory.nrFree) (large : 2 ^ 31 < n) (fits : n < 2 ^ 32) :
    Diverges (buddyAllocPages layout memory n) := by
  intro fuel
  have granted : ¬ (n = 0 ∨ n > memory.nrFree) := by omega
  rw [buddyAllocPages, if_neg granted, sizeToOrder_diverges large fits fuel]
  rfl

/-! Release. -/

theorem findLoop_returns {starts : List Nat} {target le : Nat} (bound : order ≤ MAX_ORDER)
    (walk : Walk (listNext memory.links) le (starts.map layout.page) (layout.freeList order))
    (stored : ∀ start ∈ starts, memory.blocks (layout.page start) = ⟨order, start⟩) :
    Returns (fun fuel => buddyFindLoop layout memory target order fuel le)
      (if target ∈ starts then
        (some target, (buddyRemoveFree memory (layout.page target)).2) else (none, memory)) := by
  apply Returns.round
  induction starts generalizing le with
  | nil =>
      have ends : listNext memory.links le = layout.freeList order := walk
      simp only [buddyFindLoop, ends, ne_eq, not_true_eq_false, if_false]
      exact .of_constant fun _ => rfl
  | cons start rest ih =>
      have first : listNext memory.links le = layout.page start := walk.1
      have here := stored start (by simp)
      simp only [buddyFindLoop, first, here, ne_eq, (freeList_ne_page bound).symm, not_false_eq_true,
        if_true]
      by_cases isTarget : start = target
      · subst isTarget
        simp only [if_true, List.mem_cons_self]
        exact .of_constant fun _ => rfl
      · have onward := ih walk.2 fun other member => stored other (by simp [member])
        simp only [if_neg isTarget, List.mem_cons, Ne.symm isTarget, false_or]
        exact .round onward

theorem Holds.find_absent (holds : Holds layout memory free) (bound : order ≤ MAX_ORDER)
    (absent : (⟨start, order⟩ : Block).partner ∉ free) :
    Returns (buddyFindAndRemove layout memory start order) (none, memory) := by
  obtain ⟨lists, lists_, stored⟩ := holds.lists
  have search := @findLoop_returns layout memory order _ (start ^^^ 2 ^ order) _ bound
    (lists_.isList order bound).circuit.1 (lists_.block order bound)
  have notListed : start ^^^ 2 ^ order ∉ lists order :=
    fun member => absent ((stored _).mpr ⟨bound, member⟩)
  rwa [if_neg notListed] at search

theorem Holds.find_present (holds : Holds layout memory free) (bound : order ≤ MAX_ORDER)
    (present : (⟨start, order⟩ : Block).partner ∈ free) :
    ∃ after, Returns (buddyFindAndRemove layout memory start order)
        (some (start ^^^ 2 ^ order), after) ∧
      Holds layout after (free.erase (⟨start, order⟩ : Block).partner) := by
  obtain ⟨lists, lists_, stored⟩ := holds.lists
  have search := @findLoop_returns layout memory order _ (start ^^^ 2 ^ order) _ bound
    (lists_.isList order bound).circuit.1 (lists_.block order bound)
  have listed : start ^^^ 2 ^ order ∈ lists order := ((stored _).mp present).2
  rw [if_pos listed] at search
  exact ⟨_, search, (holds.removeFree present).2⟩

theorem merge_start_eq (start order : Nat) :
    (if start > start ^^^ 2 ^ order then start ^^^ 2 ^ order else start) =
      (⟨start, order⟩ : Block).merge.start := by
  simp only [merge]
  split <;> omega

theorem Holds.freeLoop_absent (holds : Holds layout memory free) (bound : order ≤ MAX_ORDER)
    (apart : Apart free ⟨start, order⟩) (absent : (⟨start, order⟩ : Block).partner ∉ free) :
    ∃ after, Returns (fun fuel => buddyFreeLoop layout fuel memory start order) after ∧
      Holds layout after (release rounds free ⟨start, order⟩) := by
  rw [release_absent absent]
  refine ⟨_, .round ?_, holds.addFree bound apart⟩
  simp only [buddyFreeLoop, if_pos bound]
  exact (holds.find_absent bound absent).bind (.of_constant fun _ => rfl)

/-- The loop of `buddy_free_pages` is a release. -/
theorem Holds.freeLoop (holds : Holds layout memory free) (levels : order + rounds = MAX_ORDER)
    (apart : Apart free ⟨start, order⟩) :
    ∃ after, Returns (fun fuel => buddyFreeLoop layout fuel memory start order) after ∧
      Holds layout after (release rounds free ⟨start, order⟩) := by
  have bound : order ≤ MAX_ORDER := Nat.le.intro levels
  induction rounds generalizing memory free start order with
  | zero =>
      by_cases present : (⟨start, order⟩ : Block).partner ∈ free
      · obtain ⟨without, found, removed⟩ := holds.find_present bound present
        obtain rfl : order = MAX_ORDER := levels
        rw [release_top present]
        refine ⟨_, .round ?_, removed.addFree bound (apart.lower present)⟩
        simp only [buddyFreeLoop, le_refl, if_true, if_pos (Nat.lt_succ_self MAX_ORDER)]
        refine found.bind (.of_constant fun _ => ?_)
        simp only [merge_start_eq]
      · exact holds.freeLoop_absent bound apart present
  | succ rounds ih =>
      by_cases present : (⟨start, order⟩ : Block).partner ∈ free
      · obtain ⟨without, found, removed⟩ := holds.find_present bound present
        have higher : (⟨start, order⟩ : Block).merge.order + rounds = MAX_ORDER := by
          simp only [merge_order]
          omega
        obtain ⟨after, rest, merged⟩ := ih removed higher (apart.merge present) (by omega)
        have notLast : ¬ order + 1 > MAX_ORDER := by omega
        rw [release_present present]
        refine ⟨after, .round ?_, merged⟩
        simp only [buddyFreeLoop, if_pos bound, if_neg notLast]
        refine found.bind ?_
        simp only [merge_start_eq]
        exact rest
      · exact holds.freeLoop_absent bound apart present

theorem count_le (bound : Nat.clog 2 n ≤ MAX_ORDER) : n ≤ 2 ^ 31 :=
  calc n
      ≤ 2 ^ Nat.clog 2 n := Nat.le_pow_clog (by decide) n
    _ ≤ 2 ^ MAX_ORDER := Nat.pow_le_pow_right (by decide) bound
    _ ≤ 2 ^ 31 := by decide

theorem freePages_returns (holds : Holds layout memory free) (positive : n ≠ 0)
    (bound : Nat.clog 2 n ≤ MAX_ORDER) (apart : Apart free ⟨start, Nat.clog 2 n⟩) :
    ∃ after, Returns (buddyFreePages layout memory start n) after ∧
      Holds layout after (release (MAX_ORDER - Nat.clog 2 n) free ⟨start, Nat.clog 2 n⟩) := by
  obtain ⟨after, loop, released⟩ := holds.freeLoop (Nat.add_sub_cancel' bound) apart
  refine ⟨after, ?_, released⟩
  unfold buddyFreePages
  simp only [if_neg positive]
  exact (sizeToOrder_returns (count_le bound)).bind loop

end Ucore.Mm.Buddy
