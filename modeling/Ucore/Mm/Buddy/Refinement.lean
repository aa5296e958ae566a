import Ucore.Data.Coalescing
import Ucore.Mm.BuddyPmm

namespace Ucore.Mm.Buddy

open Ucore.Data Ucore.Libs Extent Block

/-! The memory of the buddy system refines a set of free blocks. -/

/-- Each list of the memory holds these blocks, with their order and base stored. -/
structure Lists (layout : Layout) (memory : BuddyMemory) (lists : Nat → List Nat) : Prop where
  isList : ∀ order ≤ MAX_ORDER,
    IsList memory.links (layout.freeList order) ((lists order).map layout.page)
  block : ∀ order ≤ MAX_ORDER, ∀ start ∈ lists order,
    memory.blocks (layout.page start) = ⟨order, start⟩

/-- The lists of the memory hold exactly these blocks, and the counter their pages. -/
structure Holds (layout : Layout) (memory : BuddyMemory) (free : Finset Block) : Prop where
  lists : ∃ lists, Lists layout memory lists ∧
    ∀ block, block ∈ free ↔ block.order ≤ MAX_ORDER ∧ block.start ∈ lists block.order
  nrFree : memory.nrFree = uint32 (total (extents free))

variable {layout : Layout} {memory after : BuddyMemory} {lists : Nat → List Nat}
  {free : Finset Block} {block : Block} {order other start page : Nat}

theorem page_injective (layout : Layout) : Function.Injective layout.page := by
  intro first second same
  simp only [Layout.page] at same
  omega

theorem freeList_ne_page (bound : order ≤ MAX_ORDER) : layout.freeList order ≠ layout.page page := by
  have ordered := layout.ordered
  simp only [Layout.freeList, Layout.page, MAX_ORDER] at *
  omega

theorem freeList_inj : layout.freeList order = layout.freeList other ↔ order = other := by
  simp only [Layout.freeList]
  omega

namespace Lists

theorem notMem_other (lists_ : Lists layout memory lists) (first : order ≤ MAX_ORDER)
    (second : other ≤ MAX_ORDER) (different : order ≠ other) (member : start ∈ lists order) :
    start ∉ lists other := by
  intro again
  have same := (lists_.block order first start member).symm.trans
    (lists_.block other second start again)
  exact different (congrArg BuddyBlock.order same)

theorem nodes_disjoint (lists_ : Lists layout memory lists) (first : order ≤ MAX_ORDER)
    (second : other ≤ MAX_ORDER) (different : order ≠ other) {node : Nat}
    (member : node ∈ layout.freeList order :: (lists order).map layout.page) :
    node ∉ layout.freeList other :: (lists other).map layout.page := by
  simp only [List.mem_cons, List.mem_map, not_or, not_exists, not_and] at member ⊢
  rcases member with rfl | ⟨start, inFirst, rfl⟩
  · exact ⟨fun same => different (freeList_inj.mp same), fun start _ => (freeList_ne_page first).symm⟩
  · refine ⟨(freeList_ne_page second).symm, fun again inSecond same => ?_⟩
    cases page_injective layout same
    exact lists_.notMem_other first second different inFirst inSecond

/-- Links may change at addresses that are on none of the lists. -/
theorem frame {links : Links Nat} (lists_ : Lists layout memory lists)
    (heads : ∀ order ≤ MAX_ORDER, links.entry (layout.freeList order) =
      memory.links.entry (layout.freeList order))
    (pages : ∀ order ≤ MAX_ORDER, ∀ start ∈ lists order,
      links.entry (layout.page start) = memory.links.entry (layout.page start)) :
    Lists layout { memory with links } lists := by
  refine ⟨fun order bound => ?_, lists_.block⟩
  have same : ∀ node ∈ layout.freeList order :: (lists order).map layout.page,
      links.entry node = memory.links.entry node := by
    intro node member
    rcases List.mem_cons.mp member with rfl | member
    · exact heads order bound
    · obtain ⟨start, inside, rfl⟩ := List.mem_map.mp member
      exact pages order bound start inside
  exact (lists_.isList order bound).frame
    (fun node member => congrArg ListEntry.next (same node member))
    (fun node member => congrArg ListEntry.prev (same node member))

theorem addFree_other (lists_ : Lists layout memory lists) (bound : order ≤ MAX_ORDER)
    (within : other ≤ MAX_ORDER) (different : other ≠ order) (fresh : start ∉ lists other) :
    IsList (buddyAddFree layout memory start order).links (layout.freeList other)
      ((lists other).map layout.page) := by
  have away : ∀ node ∈ layout.freeList other :: (lists other).map layout.page,
      node ≠ layout.page start ∧ node ≠ layout.freeList order ∧
        node ≠ listNext memory.links (layout.freeList order) := by
    intro node member
    have head := lists_.isList order bound
    have apart := lists_.nodes_disjoint within bound different member
    refine ⟨?_, ne_of_mem_of_not_mem (List.mem_cons_self ..) apart |>.symm,
      ne_of_mem_of_not_mem (head.next_mem (List.mem_cons_self ..)) apart |>.symm⟩
    intro isStart
    subst isStart
    rcases List.mem_cons.mp member with isHead | member
    · exact freeList_ne_page within isHead.symm
    · obtain ⟨page, inside, same⟩ := List.mem_map.mp member
      exact fresh (page_injective layout same ▸ inside)
  apply (lists_.isList other within).frame
  · intro node member
    obtain ⟨notNew, notHead, _⟩ := away node member
    simp [buddyAddFree, listAdd, listAddAfter, notNew, notHead]
  · intro node member
    obtain ⟨notNew, _, notNext⟩ := away node member
    simp [buddyAddFree, listAdd, listAddAfter, notNew, notNext]

theorem addFree_block (lists_ : Lists layout memory lists) {page : Nat}
    (within : other ≤ MAX_ORDER) (member : page ∈ lists other) (different : page ≠ start) :
    (buddyAddFree layout memory start order).blocks (layout.page page) = ⟨other, page⟩ := by
  have apart : layout.page page ≠ layout.page start :=
    fun same => different (page_injective layout same)
  calc (buddyAddFree layout memory start order).blocks (layout.page page)
      = memory.blocks (layout.page page) := Function.update_of_ne apart _ _
    _ = ⟨other, page⟩ := lists_.block other within page member

theorem addFree (lists_ : Lists layout memory lists) (bound : order ≤ MAX_ORDER)
    (fresh : ∀ other ≤ MAX_ORDER, start ∉ lists other) :
    Lists layout (buddyAddFree layout memory start order)
      (Function.update lists order (start :: lists order)) := by
  have head := lists_.isList order bound
  have new : layout.page start ∉ layout.freeList order :: (lists order).map layout.page := by
    simp only [List.mem_cons, List.mem_map, not_or, not_exists, not_and]
    exact ⟨(freeList_ne_page bound).symm, fun other member same =>
      fresh order bound (page_injective layout same ▸ member)⟩
  refine ⟨fun other within => ?_, fun other within page member => ?_⟩
  · by_cases same : other = order
    · subst same
      rw [Function.update_self, List.map_cons]
      rw [← List.nil_append ((lists other).map layout.page)] at head new
      exact listAdd_isList head new rfl
    · rw [Function.update_of_ne same]
      exact lists_.addFree_other bound within same (fresh other within)
  · by_cases same : other = order
    · subst same
      rw [Function.update_self] at member
      rcases List.mem_cons.mp member with isNew | kept
      · rw [isNew]
        exact Function.update_self ..
      · exact lists_.addFree_block within kept (ne_of_mem_of_not_mem kept (fresh other within))
    · rw [Function.update_of_ne same] at member
      exact lists_.addFree_block within member (ne_of_mem_of_not_mem member (fresh other within))

theorem removeFree (lists_ : Lists layout memory lists) (bound : order ≤ MAX_ORDER)
    (member : start ∈ lists order) :
    (buddyRemoveFree memory (layout.page start)).1 = start ∧
      Lists layout (buddyRemoveFree memory (layout.page start)).2
        (Function.update lists order ((lists order).erase start)) := by
  have stored := lists_.block order bound start member
  have list := lists_.isList order bound
  refine ⟨by simp only [buddyRemoveFree, stored], fun other within => ?_, fun other within page kept => ?_⟩
  · by_cases same : other = order
    · subst same
      have distinct := ((List.nodup_cons.mp list.nodup).2).of_map _
      obtain ⟨left, right, notLeft, split, erased⟩ := List.exists_erase_eq member
      rw [Function.update_self, erased, List.map_append]
      rw [split, List.map_append, List.map_cons] at list
      exact listDel_isList list
    · rw [Function.update_of_ne same]
      have inside : layout.page start ∈ layout.freeList order :: (lists order).map layout.page :=
        List.mem_cons_of_mem _ (List.mem_map_of_mem member)
      refine (lists_.isList other within).frame (fun node onList => ?_) (fun node onList => ?_)
      · have apart := lists_.nodes_disjoint within bound same onList
        have notPrev : node ≠ listPrev memory.links (layout.page start) := by
          intro same
          subst same
          exact apart (list.prev_mem inside)
        simp [buddyRemoveFree, notPrev]
      · have apart := lists_.nodes_disjoint within bound same onList
        have notNext : node ≠ listNext memory.links (layout.page start) := by
          intro same
          subst same
          exact apart (list.next_mem inside)
        simp [buddyRemoveFree, notNext]
  · by_cases same : other = order
    · subst same
      rw [Function.update_self] at kept
      exact lists_.block other within page (List.mem_of_mem_erase kept)
    · rw [Function.update_of_ne same] at kept
      exact lists_.block other within page kept

end Lists

/-! The operations on the set of free blocks. -/

namespace Holds

theorem order_le (holds : Holds layout memory free) (member : block ∈ free) :
    block.order ≤ MAX_ORDER := by
  obtain ⟨lists, _, stored⟩ := holds.lists
  exact ((stored block).mp member).1

theorem addFree (holds : Holds layout memory free) (bound : order ≤ MAX_ORDER)
    (apart : Apart free ⟨start, order⟩) :
    Holds layout (buddyAddFree layout memory start order) (insert ⟨start, order⟩ free) := by
  obtain ⟨lists, lists_, stored⟩ := holds.lists
  have fresh : ∀ other ≤ MAX_ORDER, start ∉ lists other := by
    intro other within member
    have listed : (⟨start, other⟩ : Block) ∈ free := (stored _).mpr ⟨within, member⟩
    have once := apart start
    have covered := cover_pos_of_mem listed (start_mem _)
    have same := cover_start ⟨start, order⟩
    simp only at covered same
    omega
  refine ⟨⟨_, lists_.addFree bound fresh, fun block => ?_⟩, ?_⟩
  · obtain ⟨page, other⟩ := block
    rw [Finset.mem_insert, stored, Block.mk.injEq]
    by_cases same : other = order
    · subst same
      simp only [Function.update_self, List.mem_cons, and_true, bound, true_and]
    · simp only [Function.update_of_ne same, same, and_false, false_or]
  · rw [extents_insert apart.notMem, total_cons]
    simp only [buddyAddFree, holds.nrFree, uint32, extent]
    omega

theorem removeFree (holds : Holds layout memory free) (member : block ∈ free) :
    (buddyRemoveFree memory (layout.page block.start)).1 = block.start ∧
      Holds layout (buddyRemoveFree memory (layout.page block.start)).2 (free.erase block) := by
  obtain ⟨lists, lists_, stored⟩ := holds.lists
  obtain ⟨bound, listed⟩ := (stored block).mp member
  obtain ⟨base, removed⟩ := lists_.removeFree bound listed
  refine ⟨base, ⟨_, removed, fun other => ?_⟩, ?_⟩
  · obtain ⟨page, level⟩ := other
    obtain ⟨start, order⟩ := block
    rw [Finset.mem_erase, stored, ne_eq, Block.mk.injEq]
    by_cases same : level = order
    · subst same
      have distinct := ((List.nodup_cons.mp (lists_.isList level bound).nodup).2).of_map
      simp only [Function.update_self, distinct.mem_erase_iff, and_true, bound, true_and, ne_eq]
    · simp only [Function.update_of_ne same, same, and_false, not_false_eq_true, true_and]
  · have all := holds.nrFree
    rw [extents_erase member, total_cons] at all
    have small : 2 ^ block.order < 2 ^ 32 := by
      apply Nat.pow_lt_pow_right (by decide)
      simp only [MAX_ORDER] at bound
      omega
    have stored := lists_.block block.order bound block.start listed
    simp only [buddyRemoveFree, stored, uint32Sub, all, uint32, extent]
    omega

end Holds

end Ucore.Mm.Buddy
