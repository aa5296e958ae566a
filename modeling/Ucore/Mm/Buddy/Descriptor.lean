import Ucore.Mm.Buddy.Steady

namespace Ucore.Mm.Buddy

open Ucore.Data Ucore.Libs Extent Block

/-! What a page descriptor holds when `buddy_alloc_pages` hands the page out.

No function clears the list entry of a block that leaves its list, so the words
of `ref` and `flags` keep the pointers of the list that the block was taken from.
-/

variable {layout : Layout} {memory after : BuddyMemory} {free : Finset Block} {block : Block}
  {start low order rounds n : Nat}

theorem Holds.addFree_entry (holds : Holds layout memory free) {other : Nat}
    (bound : order ≤ MAX_ORDER) (unlisted : ∀ block ∈ free, block.start ≠ start)
    (different : start ≠ other) :
    (buddyAddFree layout memory other order).links.entry (layout.page start) =
      memory.links.entry (layout.page start) := by
  obtain ⟨lists, lists_, stored⟩ := holds.lists
  have notHead : layout.page start ≠ layout.freeList order := (freeList_ne_page bound).symm
  have notNew : layout.page start ≠ layout.page other :=
    fun same => different (page_injective layout same)
  have notNext : layout.page start ≠ listNext memory.links (layout.freeList order) := by
    intro same
    have member := (lists_.isList order bound).next_mem (List.mem_cons_self ..)
    rw [← same] at member
    rcases List.mem_cons.mp member with isHead | member
    · exact notHead isHead
    · obtain ⟨page, listed, isStart⟩ := List.mem_map.mp member
      have inFree := (stored ⟨page, order⟩).mpr ⟨bound, listed⟩
      exact unlisted _ inFree (page_injective layout isStart)
  simp [buddyAddFree, listAdd, listAddAfter, __listAdd, setNext, setPrev, notHead, notNew, notNext]

theorem Holds.split_entry (holds : Holds layout memory free) (bound : low + rounds ≤ MAX_ORDER)
    (apart : Apart free ⟨start, low + rounds⟩) (unlisted : ∀ block ∈ free, block.start ≠ start) :
    (buddySplit layout start low (low + rounds) memory).links.entry (layout.page start) =
      memory.links.entry (layout.page start) := by
  induction rounds generalizing memory free with
  | zero =>
      cases low with
      | zero => rfl
      | succ low => rw [Nat.add_zero, buddySplit, if_neg (Nat.lt_irrefl _)]
  | succ rounds ih =>
      obtain ⟨upper, lower⟩ := apart.halves
      have power : 0 < 2 ^ (low + rounds) := Nat.two_pow_pos _
      have within : low + rounds ≤ MAX_ORDER := by omega
      have added := holds.addFree within upper
      have same := holds.addFree_entry within unlisted
        (show start ≠ start + 2 ^ (low + rounds) by omega)
      rw [← Nat.add_assoc, buddySplit, if_pos (by omega), ← same]
      apply ih added within lower
      intro block member
      rcases Finset.mem_insert.mp member with isNew | old
      · rw [isNew]
        have different : start + 2 ^ (low + rounds) ≠ start := by omega
        exact different
      · exact unlisted block old

theorem Holds.removeFree_entry (holds : Holds layout memory free) (member : block ∈ free) :
    (buddyRemoveFree memory (layout.page block.start)).2.links.entry (layout.page block.start) =
      memory.links.entry (layout.page block.start) := by
  obtain ⟨lists, lists_, stored⟩ := holds.lists
  obtain ⟨bound, listed⟩ := (stored block).mp member
  have isList := lists_.isList block.order bound
  have onList : layout.page block.start ∈ (lists block.order).map layout.page :=
    List.mem_map_of_mem listed
  have notNext := isList.circuit.next_ne onList
  have notPrev : listPrev memory.links (layout.page block.start) ≠ layout.page block.start := by
    intro same
    have back := isList.next_prev (List.mem_cons_of_mem _ onList)
    rw [same] at back
    exact notNext back
  simp [buddyRemoveFree, listDel, __listDel, setNext, setPrev, notNext.symm, notPrev.symm]

/-- The order of the list that `buddy_alloc_pages(n)` takes its block from. -/
def sourceOrder (layout : Layout) (memory : BuddyMemory) (n : Nat) : Nat :=
  buddyFindOrder layout memory.links (Nat.clog 2 n) (MAX_ORDER + 1 - Nat.clog 2 n)

theorem Holds.granted_eq (holds : Holds layout memory free)
    (once : ∀ point, cover (extents free) point ≤ 1)
    (returns : Returns (buddyAllocPages layout memory n) (some start, after)) :
    (⟨start, sourceOrder layout memory n⟩ : Block) ∈ free ∧
      listNext memory.links (layout.freeList (sourceOrder layout memory n)) = layout.page start ∧
      Nat.clog 2 n ≤ sourceOrder layout memory n ∧
      after = setBuddyFlags (buddySplit layout start (Nat.clog 2 n) (sourceOrder layout memory n)
          (buddyRemoveFree memory (layout.page start)).2) (layout.page start)
        (ClearPageProperty (buddyFlags (buddySplit layout start (Nat.clog 2 n)
          (sourceOrder layout memory n) (buddyRemoveFree memory (layout.page start)).2)
          (layout.page start))) := by
  rcases holds.alloc_inv once returns with
    refused | ⟨_, _, _, positive, enough, fits, _⟩
  · cases refused.1
  · have granted : ¬ (n = 0 ∨ n > memory.nrFree) := not_or.mpr ⟨positive, Nat.not_lt.mpr enough⟩
    obtain ⟨enough, sized⟩ := sizeToOrder_returns fits
    obtain ⟨fuel, done⟩ := returns
    have run := done (max fuel enough) (Nat.le_max_left _ _)
    rw [buddyAllocPages, if_neg granted, sized _ (Nat.le_max_right _ _)] at run
    simp only [Bind.bind, Except.bind] at run
    unfold sourceOrder
    generalize Nat.clog 2 n = need at run ⊢
    generalize chosen : buddyFindOrder layout memory.links need (MAX_ORDER + 1 - need) = found at run ⊢
    rcases holds.findOrder chosen with ⟨beyond, _⟩ | ⟨above, bound, _, first, member, head⟩
    · rw [if_pos beyond] at run
      cases run
    · simp only [if_neg (Nat.not_lt.mpr bound), head, (holds.removeFree member).1] at run
      cases run
      exact ⟨member, head, above, rfl⟩

/-- The page keeps a pointer to the list head in the word of `ref`, and a pointer to the head
or to a page in the word of `flags`. -/
theorem Holds.granted_entry (holds : Holds layout memory free)
    (once : ∀ point, cover (extents free) point ≤ 1)
    (returns : Returns (buddyAllocPages layout memory n) (some start, after)) :
    listPrev after.links (layout.page start) = layout.freeList (sourceOrder layout memory n) ∧
      ∃ next, (next = layout.freeList (sourceOrder layout memory n) ∨
          ∃ other, next = layout.page other) ∧
        buddyFlags after (layout.page start) = ClearPageProperty next := by
  obtain ⟨member, first, above, rfl⟩ := holds.granted_eq once returns
  obtain ⟨rounds, split⟩ := Nat.exists_eq_add_of_le above
  rw [split] at member first ⊢
  have bound := holds.order_le member
  have removed := (holds.removeFree member).2
  have apart := apart_erase once member
  have kept := removed.split_entry bound apart fun block kept => apart.start_ne kept
  rw [holds.removeFree_entry member] at kept
  obtain ⟨lists, lists_, stored⟩ := holds.lists
  have isList := lists_.isList _ bound
  have headPrev : listPrev memory.links (layout.page start) =
      layout.freeList (Nat.clog 2 n + rounds) := by
    rw [← first]
    exact isList.prev_next (List.mem_cons_self ..)
  have nextMember := isList.next_mem
    (List.mem_cons_of_mem _ (List.mem_map_of_mem ((stored _).mp member).2))
  refine ⟨?_, listNext memory.links (layout.page start), ?_, ?_⟩
  · rw [← headPrev]
    simp only [setBuddyFlags, listPrev_setNext]
    exact congrArg ListEntry.prev kept
  · rcases List.mem_cons.mp nextMember with isHead | listed
    · exact .inl isHead
    · obtain ⟨other, _, same⟩ := List.mem_map.mp listed
      exact .inr ⟨other, same.symm⟩
  · simp only [buddyFlags, setBuddyFlags, listNext_setNext, Function.update_self]
    exact congrArg ClearPageProperty (congrArg ListEntry.next kept)

end Ucore.Mm.Buddy
