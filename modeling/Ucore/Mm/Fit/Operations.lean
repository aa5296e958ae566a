import Ucore.Mm.Fit.Refinement

namespace Ucore.Mm.Fit

open Ucore.Data Ucore.Libs Extent

/-! The operations of a fit manager on its sequence of free blocks. -/

variable {memory after : FitMemory} {region block p q : Extent} {blocks left right : List Extent}
  {base n count page : Nat}

theorem setPageProperty_zero : SetPageProperty 0 = 2 := rfl

theorem clearPageProperty_two : ClearPageProperty 2 = 0 := rfl

theorem mem_middle : q ∈ left ++ p :: right ↔ q = p ∨ q ∈ left ++ right := by
  simp [or_left_comm]

theorem mem_heads_middle : page ∈ (left ++ p :: right).map Extent.start ↔
    page = p.start ∨ page ∈ (left ++ right).map Extent.start := by
  simp only [List.map_append, List.map_cons, List.mem_append, List.mem_cons, or_left_comm]

namespace FreeList

theorem distinct (list : FreeList memory region blocks) : (blocks.map Extent.start).Nodup := by
  have nodup := (List.nodup_cons.mp list.isList.nodup).2
  rw [entries_eq] at nodup
  exact nodup.of_map _

theorem start_ne (list : FreeList memory region (left ++ p :: right)) :
    ∀ other ∈ left ++ right, other.start ≠ p.start := by
  intro other member same
  have distinct := list.distinct
  rw [List.map_append, List.map_cons, List.nodup_middle] at distinct
  apply (List.nodup_cons.mp distinct).1
  rw [← List.map_append, ← same]
  exact List.mem_map_of_mem member

theorem join (list : FreeList memory region (left ++ p :: q :: right))
    (fits : p.size + q.size < 2 ^ 32) :
    FreeList (fitJoin memory p.start q.start) region
      (left ++ ⟨p.start, p.size + q.size⟩ :: right) := by
  have sizeP := list.property p (by simp)
  have sizeQ := list.property q (by simp)
  have fromP := list.start_ne
  have fromQ : ∀ other ∈ left ++ [p] ++ right, other.start ≠ q.start := by
    rw [List.append_cons] at list
    exact list.start_ne
  have apart : p.start ≠ q.start := fromQ p (by simp)
  refine ⟨?_, fun other member => ?_, fun page inside => ?_⟩
  · have isList := list.isList
    rw [entries, List.map_append, List.map_cons, List.map_cons, List.append_cons] at isList
    simpa [fitJoin, entries] using listDel_isList isList
  · simp only [fitJoin, modifyPage_pages]
    rcases List.mem_append.mp member with inLeft | inRest
    · rw [if_neg (fromQ other (by simp [inLeft])), if_neg (fromP other (by simp [inLeft]))]
      exact list.property other (by simp [inLeft])
    · rcases List.mem_cons.mp inRest with rfl | inRight
      · rw [if_neg apart, if_pos rfl, sizeP, sizeQ]
        exact uint32_of_lt fits
      · rw [if_neg (fromQ other (by simp [inRight])), if_neg (fromP other (by simp [inRight]))]
        exact list.property other (by simp [inRight])
  · have marked := list.flags page inside
    simp only [fitJoin, modifyPage_pages]
    by_cases isQ : page = q.start
    · subst isQ
      rw [if_pos rfl, if_neg apart.symm, marked, if_pos (by simp), if_neg]
      · exact clearPageProperty_two
      · simp only [List.map_append, List.map_cons, List.mem_append, List.mem_cons, not_or,
          List.mem_map, not_exists, not_and]
        exact ⟨fun other member => fromQ other (by simp [member]), apart.symm,
          fun other member => fromQ other (by simp [member])⟩
    · rw [if_neg isQ]
      have sameFlags : (if page = p.start then
          { memory.pages p.start with
            property := uint32 ((memory.pages p.start).property + (memory.pages q.start).property) }
          else memory.pages page).flags = (memory.pages page).flags := by
        split
        · simp_all
        · rfl
      rw [sameFlags, marked]
      simp [isQ]

theorem mergePrev (list : FreeList memory region (left ++ block :: right))
    (fits : ∀ other ∈ left, other.size + block.size < 2 ^ 32) :
    ∃ after, fitMergePrev memory block.start = (after, (joinPrev left block).2.start) ∧
      after.nrFree = memory.nrFree ∧
      FreeList after region ((joinPrev left block).1 ++ (joinPrev left block).2 :: right) := by
  have isList := list.isList
  rw [entries, List.map_append, List.map_cons] at isList
  rcases List.eq_nil_or_concat left with rfl | ⟨front, p, rfl⟩
  · have first : listPrev memory.links (.page block.start) = .freeList := isList.first.2
    exact ⟨memory, by simp [fitMergePrev, first], rfl, list⟩
  · rw [List.concat_eq_append] at list isList fits ⊢
    have before : listPrev memory.links (.page block.start) = .page p.start := by
      rw [List.map_append, List.append_assoc] at isList
      exact isList.adjacent.2
    have size := list.property p (by simp)
    simp only [fitMergePrev, before, size, joinPrev_concat]
    by_cases touch : p.start + p.size = block.start
    · rw [if_pos touch, if_pos touch]
      refine ⟨_, rfl, rfl, join (by simpa using list) (fits p (by simp))⟩
    · rw [if_neg touch, if_neg touch]
      exact ⟨memory, rfl, rfl, list⟩

theorem mergeNext (list : FreeList memory region (left ++ block :: right))
    (fits : ∀ other ∈ right, block.size + other.size < 2 ^ 32) :
    (fitMergeNext memory block.start).nrFree = memory.nrFree ∧
      FreeList (fitMergeNext memory block.start) region
        (left ++ (joinNext block right).1 :: (joinNext block right).2) := by
  have isList := list.isList
  rw [entries, List.map_append, List.map_cons] at isList
  cases right with
  | nil =>
      have last : listNext memory.links (.page block.start) = .freeList := isList.last.1
      simpa only [fitMergeNext, last, joinNext, true_and] using list
  | cons p right =>
      have after : listNext memory.links (.page block.start) = .page p.start := isList.adjacent.1
      have size := list.property block (by simp)
      simp only [fitMergeNext, after, size, joinNext]
      by_cases touch : block.start + block.size = p.start
      · rw [if_pos touch, if_pos touch]
        exact ⟨rfl, join list (fits p (by simp))⟩
      · rw [if_neg touch, if_neg touch]
        exact ⟨rfl, list⟩

theorem flags_marked (list : FreeList memory region (left ++ block :: right))
    (inside : block.start ∈ region.points) : (memory.pages block.start).flags = 2 := by
  rw [list.flags _ inside, if_pos (by simp)]

theorem flags_clear (list : FreeList memory region blocks) (inside : page ∈ region.points)
    (notHead : ∀ block ∈ blocks, block.start ≠ page) : (memory.pages page).flags = 0 := by
  rw [list.flags page inside, if_neg]
  intro member
  obtain ⟨block, listed, same⟩ := List.mem_map.mp member
  exact notHead block listed same

theorem notListed (list : FreeList memory region (left ++ block :: right)) :
    block.start ∉ (left ++ right).map Extent.start := by
  intro member
  obtain ⟨other, listed, same⟩ := List.mem_map.mp member
  exact list.start_ne other listed same

theorem removed (list : FreeList memory region (left ++ block :: right)) :
    IsList (listDel memory.links (.page block.start)) .freeList (entries (left ++ right)) := by
  have isList := list.isList
  rw [entries, List.map_append, List.map_cons] at isList
  rw [entries, List.map_append]
  exact listDel_isList isList

theorem take_all (list : FreeList memory region (left ++ block :: right))
    (all : ¬ count < block.size) :
    FreeList (fitTake memory block.start count) region (left ++ right) := by
  have size := list.property block (by simp)
  refine ⟨?_, fun other member => ?_, fun page inside => ?_⟩
  · simpa [fitTake, size, all] using list.removed
  · simp only [fitTake, size, if_neg all, modifyPage_pages]
    rw [if_neg (list.start_ne other member)]
    exact list.property other (mem_middle.mpr (.inr member))
  · simp only [fitTake, size, if_neg all, modifyPage_pages]
    by_cases isFirst : page = block.start
    · subst isFirst
      rw [if_pos rfl, list.flags_marked inside, if_neg list.notListed]
      exact clearPageProperty_two
    · rw [if_neg isFirst, list.flags page inside]
      simp only [mem_heads_middle, isFirst, false_or]

theorem take_part (list : FreeList memory region (left ++ block :: right))
    (fresh : ∀ other ∈ left ++ block :: right, other.start ≠ block.start + count)
    (fits : block.size < 2 ^ 32) (more : count < block.size) :
    FreeList (fitTake memory block.start count) region
      (left ++ ⟨block.start + count, block.size - count⟩ :: right) := by
  have size := list.property block (by simp)
  have distinct : block.start + count ≠ block.start := (fresh block (by simp)).symm
  refine ⟨?_, fun other member => ?_, fun page inside => ?_⟩
  · have notListedRest : Link.page (block.start + count) ∉
        Link.freeList :: entries (left ++ right) :=
      fresh_entry fun other member => fresh other (mem_middle.mpr (.inr member))
    have isList := list.isList
    have removed := list.removed
    rw [entries, List.map_append, List.map_cons] at isList
    rw [entries, List.map_append] at notListedRest removed
    have added := listAdd_isList removed notListedRest isList.getLast?_eq_prev
    simpa [fitTake, size, more, entries] using added
  · simp only [fitTake, size, if_pos more, modifyPage_pages]
    rcases mem_middle.mp member with rfl | kept
    · rw [if_neg distinct, if_pos rfl]
      exact uint32_of_lt (by omega)
    · have listed : other ∈ left ++ block :: right := mem_middle.mpr (.inr kept)
      rw [if_neg (list.start_ne other kept), if_neg (fresh other listed)]
      exact list.property other listed
  · simp only [fitTake, size, if_pos more, modifyPage_pages]
    by_cases isFirst : page = block.start
    · subst isFirst
      rw [if_pos rfl, if_neg distinct.symm, list.flags_marked inside, if_neg]
      · exact clearPageProperty_two
      · exact fun member => (mem_heads_middle.mp member).elim distinct.symm list.notListed
    · rw [if_neg isFirst]
      by_cases isRest : page = block.start + count
      · subst isRest
        rw [if_pos rfl, if_pos (by simp), list.flags_clear inside fresh]
        exact setPageProperty_zero
      · rw [if_neg isRest, list.flags page inside]
        simp only [mem_heads_middle, isFirst, isRest, false_or]

theorem take (list : FreeList memory region (left ++ block :: right))
    (fresh : count < block.size →
      ∀ other ∈ left ++ block :: right, other.start ≠ block.start + count)
    (fits : block.size < 2 ^ 32) :
    FreeList (fitTake memory block.start count) region
      (left ++ (remainder block count ++ right)) := by
  by_cases more : count < block.size
  · rw [remainder, if_pos more]
    exact list.take_part (fresh more) fits more
  · rw [remainder, if_neg more]
    exact list.take_all more

/-- Clearing the pages of a block outside the list changes nothing the list stores. -/
theorem clear (list : FreeList memory region blocks) (inside : block.points ⊆ region.points)
    (apart : ∀ other ∈ blocks, other.start ∉ block.points) :
    ∃ cleared, fitClearFreed memory block.start block.size = .ok cleared ∧
      cleared.links = memory.links ∧ cleared.nrFree = memory.nrFree ∧
      FreeList cleared region blocks := by
  have clean : ∀ page ∈ block.points, (memory.pages page).flags = 0 := fun page member =>
    list.flags_clear (inside member) fun other listed same => apart other listed (same ▸ member)
  obtain ⟨cleared, run, links, free, pages⟩ := fitClearFreed_ok fun page low high =>
    clean page (mem_points.mpr ⟨low, high⟩)
  refine ⟨cleared, run, links, free, links ▸ list.isList, fun other member => ?_,
    fun page member => ?_⟩
  · have outside := apart other member
    rw [mem_points] at outside
    rw [pages, if_neg outside]
    exact list.property other member
  · rw [← list.flags page member, pages]
    split
    · rename_i covered
      exact (clean page (mem_points.mpr covered)).symm
    · rfl

theorem insert {links : Links Link} (list : FreeList memory region (left ++ right))
    (fresh : ∀ other ∈ left ++ right, other.start ≠ base)
    (isList : IsList links .freeList (entries (left ++ ⟨base, uint32 n⟩ :: right))) :
    FreeList { fitMarkFree memory base n with links } region
      (left ++ ⟨base, uint32 n⟩ :: right) := by
  refine ⟨isList, fun other member => ?_, fun page inside => ?_⟩
  · simp only [fitMarkFree, modifyPage_pages]
    rcases mem_middle.mp member with rfl | kept
    · rw [if_pos rfl]
    · rw [if_neg (fresh other kept)]
      exact list.property other kept
  · simp only [fitMarkFree, modifyPage_pages]
    by_cases isBase : page = base
    · subst isBase
      rw [if_pos rfl, if_pos (by simp), list.flags_clear inside fresh]
      exact setPageProperty_zero
    · rw [if_neg isBase, list.flags page inside]
      simp only [mem_heads_middle, isBase, false_or]

/-- Freeing a block below some listed one, or into an empty list. -/
theorem free {lower : Nat} (list : FreeList memory region (left ++ right))
    (positive : 0 < block.size) (inside : block.points ⊆ region.points)
    (gapped : Gapped (left ++ right))
    (below : ∀ other ∈ left, other.start + other.size ≤ block.start)
    (above : ∀ other ∈ right, block.start + block.size ≤ other.start)
    (place : right = [] → left = [])
    (within : ∀ other ∈ left ++ block :: right,
      lower ≤ other.start ∧ other.start + other.size < lower + 2 ^ 32) :
    ∃ after, Returns (fitFreePages memory block.start block.size) after ∧
      after.nrFree = uint32 (memory.nrFree + block.size) ∧
      FreeList after region (release left block right) := by
  have lowerBlock := within block (by simp)
  have fits : uint32 block.size = block.size := uint32_of_lt (by omega)
  have lowerLeft : ∀ other ∈ left, other.start < block.start := fun other member => by
    have gap := below other member
    have size := gapped.positive other (by simp [member])
    omega
  have upperRight : ∀ other ∈ right, block.start < other.start := fun other member => by
    have gap := above other member
    omega
  obtain ⟨cleared, clear, links, free, clearedList⟩ := list.clear inside fun other member => by
    rw [mem_points]
    rcases List.mem_append.mp member with inLeft | inRight
    · have lower := lowerLeft other inLeft
      omega
    · have upper := above other inRight
      omega
  obtain ⟨threaded, insertion, isList⟩ := fitInsert_between
    (fitMarkFree cleared block.start block.size) block.start block.size (links ▸ list.isList) lowerLeft
    upperRight place
  have fresh : ∀ other ∈ left ++ right, other.start ≠ block.start := fun other member => by
    rcases List.mem_append.mp member with inLeft | inRight
    · exact Nat.ne_of_lt (lowerLeft other inLeft)
    · exact Nat.ne_of_gt (upperRight other inRight)
  rw [← fits] at isList
  have inserted := clearedList.insert fresh isList
  rw [fits] at inserted
  change FreeList _ region (left ++ block :: right) at inserted
  obtain ⟨merged, mergePrev, mergedFree, mergedList⟩ := inserted.mergePrev fun other member => by
    have lowerOther := within other (by simp [member])
    have gap := below other member
    omega
  obtain ⟨finalFree, finalList⟩ := mergedList.mergeNext fun other member => by
    have lowerOther := within other (by simp [member])
    have gap := above other member
    have joined := joinPrev_bounds lowerBlock.1 fun first inLeft =>
      (within first (List.mem_append_left _ inLeft)).1
    omega
  refine ⟨_, ?_, ?_, finalList⟩
  · have clearing := Returns.of_constant fun _ => clear
    unfold fitFreePages
    simp only [if_neg (Nat.ne_of_gt positive)]
    refine clearing.bind (insertion.bind (.of_constant fun _ => ?_))
    simp only [mergePrev]
  · rw [finalFree, mergedFree, ← free]
    rfl

/-- Freeing a block above every listed one leaves a `prev` link that points to itself. -/
theorem free_last {last : Extent} (list : FreeList memory region (left ++ [last]))
    (positive : 0 < block.size) (fits : block.size < 2 ^ 32)
    (inside : block.points ⊆ region.points)
    (below : ∀ other ∈ left ++ [last], other.start < block.start) :
    ∃ after, Returns (fitFreePages memory block.start block.size) after ∧
      Circuit (listNext after.links) .freeList (entries (left ++ [last, block])) ∧
      listPrev after.links (.page block.start) = .page block.start := by
  obtain ⟨cleared, clear, links, free, clearedList⟩ := list.clear inside fun other member => by
    have lower := below other member
    rw [mem_points]
    omega
  obtain ⟨threaded, good, insertion, isList, forth, back⟩ := fitInsert_last
    (fitMarkFree cleared block.start block.size) block.start block.size (links ▸ list.isList) below
  have selfLink : listPrev threaded (.page block.start) = .page block.start := by
    rw [back, Function.update_self]
  have ends : listNext threaded (.page block.start) = .freeList := by
    rw [entries, List.append_cons, List.map_append, List.map_singleton] at isList
    rw [forth]
    exact isList.last.1
  refine ⟨{ fitMarkFree cleared block.start block.size with links := threaded }, ?_, ?_, selfLink⟩
  · have clearing := Returns.of_constant fun _ => clear
    -- the block finds itself before it, which it does not touch, and nothing after it
    have size : ((fitMarkFree cleared block.start block.size).pages block.start).property
        = block.size := by
      simp [fitMarkFree, uint32_of_lt fits]
    have apart : block.start + block.size ≠ block.start := by omega
    unfold fitFreePages
    simp only [if_neg (Nat.ne_of_gt positive)]
    refine clearing.bind (insertion.bind (.of_constant fun _ => ?_))
    simp only [fitMergePrev, selfLink, size, if_neg apart, fitMergeNext, ends]
  · show Circuit (listNext threaded) _ _
    rw [forth]
    exact isList.circuit

end FreeList

/-- The first region becomes one block, of as many pages as its `property` can hold. -/
theorem fitInitMemmap_ok (result : Returns (fitInitMemmap (fitInit memory) base n) after) :
    0 < n ∧ after.nrFree = uint32 n ∧ FreeList after ⟨base, n⟩ [⟨base, uint32 n⟩] := by
  obtain ⟨fuel, run⟩ := result.some_fuel
  rw [fitInitMemmap] at run
  cases Nat.eq_zero_or_pos n with
  | inl empty =>
      rw [if_pos empty] at run
      cases run
  | inr positive =>
      rw [if_neg (Nat.ne_of_gt positive)] at run
      cases clear : fitClearReserved (fitInit memory) base n with
      | error stop => simp [clear, Bind.bind, Except.bind] at run
      | ok cleared =>
          obtain ⟨links, free, pages⟩ := fitClearReserved_ok clear
          have clearedList : FreeList cleared ⟨base, n⟩ ([] ++ []) := by
            refine ⟨links ▸ listInit_isList memory.links .freeList, by simp, fun page inside => ?_⟩
            rw [pages, if_pos (mem_points.mp inside)]
            simp
          obtain ⟨threaded, insertion, isList⟩ := fitInsert_between
            (fitMarkFree cleared base n) base (uint32 n) clearedList.isList (by simp) (by simp)
            (fun _ => rfl)
          have settled : Returns (fitInitMemmap (fitInit memory) base n)
              { fitMarkFree cleared base n with links := threaded } := by
            have clearing := Returns.of_constant fun _ => clear
            unfold fitInitMemmap
            simp only [if_neg (Nat.ne_of_gt positive)]
            exact clearing.bind insertion
          cases result.unique settled
          refine ⟨positive, ?_, clearedList.insert (by simp) isList⟩
          simp [fitMarkFree, free, fitInit]

end Ucore.Mm.Fit
