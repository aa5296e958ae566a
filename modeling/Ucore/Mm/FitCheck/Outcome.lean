import Ucore.Mm.Fit.Canonical
import Ucore.Mm.FitCheck.Emptied

namespace Ucore.Mm.Fit

open Ucore.Data Ucore.Libs Extent

/-! What the checks of first fit and best fit need to pass, where all pages of the region are vacant. -/

variable {base n start size count npage : Nat} {memory after background : FitMemory}
  {manager : FitManager} {outstanding : List Allocation} {blocks : List Extent} {lent : Extent}
  {text : String}

/-- The blocks of a list, when the vacant pages are one run. -/
def vacantRun (start size : Nat) : List Extent := if 0 < size then [⟨start, size⟩] else []

theorem vacantRun_of_pos (positive : 0 < size) : vacantRun start size = [⟨start, size⟩] :=
  if_pos positive

theorem total_vacantRun : total (vacantRun start size) = size := by
  unfold vacantRun
  split
  · simp [total]
  · simp only [Multiset.coe_nil, total_zero]
    omega

theorem vacantRun_apart (above : lent.start + lent.size ≤ start) :
    ∀ block ∈ vacantRun start size, block.start ∉ lent.points := by
  intro block listed inside
  have bounds := mem_points.mp inside
  unfold vacantRun at listed
  split at listed
  · cases List.mem_singleton.mp listed
    simp only at bounds
    omega
  · cases listed

theorem subset_points (lower : base ≤ start) (upper : start + size ≤ base + n) :
    (⟨start, size⟩ : Extent).points ⊆ (⟨base, n⟩ : Extent).points := by
  intro page inside
  simp only [mem_points] at inside ⊢
  omega

theorem remainder_eq_vacantRun :
    remainder ⟨start, size⟩ count = vacantRun (start + count) (size - count) := by
  unfold remainder vacantRun
  simp only [Nat.sub_pos_iff_lt]

/-! Allocations. -/

theorem empty_refuses (manager : FitManager) (isList : IsList memory.links .freeList [])
    (positive : 0 < count) :
    Returns (manager.pmm.allocPages memory count) (none, memory) := by
  have list : FreeList memory ⟨0, 0⟩ [] := ⟨isList, by simp, by simp⟩
  rcases manager.allocPages_cases list positive with ⟨refused, _⟩ | taken
  · exact refused
  · obtain ⟨left, block, right, same, _⟩ := taken
    simp at same

theorem Sound.run_grants (manager : FitManager)
    (sound : Sound base n ⟨memory, outstanding⟩ (vacantRun start size)) (bounded : uint32 n < 2 ^ 31)
    (positive : 0 < count) (enough : count ≤ size) :
    Returns (manager.pmm.allocPages memory count) (some start, fitTake memory start count) ∧
      Sound base n ⟨fitTake memory start count, ⟨start, count⟩ :: outstanding⟩
        (vacantRun (start + count) (size - count)) := by
  rw [vacantRun_of_pos (positive.trans_le enough)] at sound
  have balance : memory.nrFree + total (owned outstanding) = uint32 n := sound.balance
  have fits : size ≤ memory.nrFree := sound.size_le_nrFree (List.mem_singleton_self _)
  constructor
  · rcases manager.allocPages_cases sound.list positive with ⟨_, missed⟩ | taken
    · have limit := missed (enough.trans fits) ⟨start, size⟩ (List.mem_singleton_self _) enough
      cases manager with
      | firstFit =>
          simp only [FitManager.sizeLimit] at limit
          omega
      | bestFit =>
          simp only [FitManager.sizeLimit] at limit
          rw [uint32_of_lt (by omega)] at limit
          omega
    · obtain ⟨left, block, right, same, _, granted⟩ := taken
      cases left with
      | nil =>
          cases same
          exact granted
      | cons first rest => simp at same
  · have split : Sound base n ⟨memory, outstanding⟩ ([] ++ ⟨start, size⟩ :: []) := sound
    have taken := split.allocated positive enough
    rwa [remainder_eq_vacantRun, List.nil_append, List.append_nil] at taken

theorem Sound.run_refuses (manager : FitManager)
    (sound : Sound base n ⟨memory, outstanding⟩ (vacantRun start size)) (positive : 0 < count)
    (short : size < count) : Returns (manager.pmm.allocPages memory count) (none, memory) := by
  have free : memory.nrFree = size := sound.nrFree_eq.trans total_vacantRun
  rw [FitManager.pmm_allocPages]
  refine fitAllocPages_refuses positive fun enough => ?_
  omega

/-! The list that is set aside and put back. -/

theorem initList_isList (memory : FitMemory) : IsList memory.initList.links .freeList [] :=
  listInit_isList memory.links .freeList

theorem initList_entry (memory : FitMemory) (page : Nat) :
    memory.initList.links.entry (.page page) = memory.links.entry (.page page) := by
  simp [FitMemory.initList, listInit, setNext, setPrev]

/-- The list holds no page that was lent, so it is as it was. -/
theorem Sound.restored (sound : Sound base n ⟨memory, outstanding⟩ blocks) (returned : Lent lent memory after)
    (apart : ∀ block ∈ blocks, block.start ∉ lent.points) :
    Sound base n ⟨after.restore (memory.links.entry .freeList) memory.nrFree, outstanding⟩ blocks := by
  have entry : ∀ x ∈ Link.freeList :: entries blocks,
      (after.restore (memory.links.entry .freeList) memory.nrFree).links.entry x =
        memory.links.entry x := by
    intro x member
    rcases List.mem_cons.mp member with rfl | member
    · simp [FitMemory.restore]
    · obtain ⟨block, listed, rfl⟩ := List.mem_map.mp member
      have same := (returned.outside _ (apart block listed)).1
      simpa [FitMemory.restore] using same
  refine { sound with list := ⟨?_, fun block listed => ?_, fun page inside => ?_⟩ }
  · exact sound.list.isList.frame (fun x member => by rw [listNext, listNext, entry x member])
      fun x member => by rw [listPrev, listPrev, entry x member]
  · have same := (returned.outside _ (apart block listed)).2
    show (after.pages block.start).property = block.size
    rw [same]
    exact sound.list.property block listed
  · show (after.pages page).flags = _
    by_cases isLent : page ∈ lent.points
    · have notHead : page ∉ blocks.map Extent.start := by
        intro isHead
        obtain ⟨block, listed, rfl⟩ := List.mem_map.mp isHead
        exact apart block listed isLent
      rw [returned.unmarked page isLent, if_neg notHead]
    · rw [(returned.outside page isLent).2]
      exact sound.list.flags page inside

/-- What a check works on while the list is set aside. -/
abbrev setAside (memory : FitMemory) : FitMemory := { memory.initList with nrFree := 0 }

theorem Sound.unmarked {page : Nat} (sound : Sound base n ⟨memory, outstanding⟩ blocks)
    (inside : page ∈ (⟨base, n⟩ : Extent).points) (isLent : page ∈ lent.points)
    (apart : ∀ block ∈ blocks, block.start ∉ lent.points) : (memory.pages page).flags = 0 := by
  have notHead : page ∉ blocks.map Extent.start := by
    intro isHead
    obtain ⟨block, listed, rfl⟩ := List.mem_map.mp isHead
    exact apart block listed isLent
  rw [sound.list.flags page inside, if_neg notHead]

theorem Sound.lends (sound : Sound base n ⟨memory, outstanding⟩ blocks)
    (inside : lent.points ⊆ (⟨base, n⟩ : Extent).points)
    (apart : ∀ block ∈ blocks, block.start ∉ lent.points) :
    Mirrored lent.start lent.size (setAside memory) (setAside memory) blankMemory := by
  refine ⟨_, .blank (initList_isList memory) (.singleton rfl rfl) (fun index bound => ?_)
    (fun _ _ => rfl) rfl⟩
  have isLent : lent.start + index ∈ lent.points := mem_points.mpr ⟨by omega, by omega⟩
  exact sound.unmarked (inside isLent) isLent apart

theorem Lent.of_setAside (returned : Lent lent (setAside memory) after) : Lent lent memory after where
  outside := fun page outside =>
    ⟨(returned.outside page outside).1.trans (initList_entry memory page),
      (returned.outside page outside).2⟩
  unmarked := returned.unmarked

/-- The pages in front of the vacant run can be worked on, and the list is put back after that. -/
theorem Sound.lends_first (sound : Sound base n ⟨memory, outstanding⟩ (vacantRun (base + count) size))
    (fits : count ≤ n) :
    Mirrored base count (setAside memory) (setAside memory) blankMemory ∧
      ∀ after, Lent ⟨base, count⟩ (setAside memory) after →
        Sound base n ⟨after.restore (memory.links.entry .freeList) memory.nrFree, outstanding⟩
          (vacantRun (base + count) size) := by
  have apart : ∀ block ∈ vacantRun (base + count) size,
      block.start ∉ (⟨base, count⟩ : Extent).points := vacantRun_apart le_rfl
  have inside : (⟨base, count⟩ : Extent).points ⊆ (⟨base, n⟩ : Extent).points :=
    subset_points le_rfl (Nat.add_le_add_left fits base)
  exact ⟨sound.lends inside apart, fun after returned => sound.restored returned.of_setAside apart⟩

/-! The parts of a check. -/

theorem assert_decides (condition : Bool) (text : String) :
    Decides (condition = true) (fun _ => assert condition text) fun _ => True := by
  cases condition with
  | true => exact .of_returns rfl (asserted rfl) trivial
  | false => exact .of_panic (by simp) (.of_constant fun _ => rfl)

/-- The state after a block was taken from the start of the vacant run. -/
structure Taken (base n start size count : Nat) (outstanding : List Allocation) (memory : FitMemory)
    (answer : Nat × FitMemory) : Prop where
  page : start = answer.1
  sound : Sound base n ⟨answer.2, ⟨start, count⟩ :: outstanding⟩
    (vacantRun (start + count) (size - count))
  confined : (∃ listed, Confined ⟨base, n⟩ memory listed) →
    ∃ listed, Confined ⟨base, n⟩ answer.2 listed

theorem Sound.allocSome_decides (manager : FitManager)
    (sound : Sound base n ⟨memory, outstanding⟩ (vacantRun start size)) (bounded : uint32 n < 2 ^ 31)
    (positive : 0 < count) :
    Decides (count ≤ size) (allocSome manager.pmm count text memory)
      (Taken base n start size count outstanding memory) := by
  by_cases enough : count ≤ size
  · obtain ⟨granted, soundAfter⟩ := sound.run_grants manager bounded positive enough
    refine .of_returns enough (granted.bind (.of_constant fun _ => rfl)) ⟨rfl, soundAfter, ?_⟩
    intro confined
    obtain ⟨listed, confined⟩ := confined
    exact (confined.allocated granted).1
  · have refused := sound.run_refuses manager positive (Nat.not_le.mp enough)
    exact .of_panic enough (Ends.bind refused (.of_constant fun _ => rfl))

theorem allocNone_returns (manager : FitManager) (isList : IsList memory.links .freeList [])
    (text : String) : Returns (allocNone manager.pmm 1 text memory) memory :=
  (empty_refuses manager isList Nat.one_pos).bind (.of_constant fun _ => rfl)

theorem Sound.whole (sound : Sound base n ⟨memory, []⟩ blocks) (some : 0 < uint32 n) :
    blocks = [⟨base, uint32 n⟩] := by
  have single : Gapped [⟨base, uint32 n⟩] := ⟨by simpa using some, by simp⟩
  have covers : ∀ page, (∃ block ∈ [(⟨base, uint32 n⟩ : Extent)], page ∈ block.points) ↔
      Vacant base (uint32 n) [] page := by simp [Vacant]
  exact sound.gapped.unique single fun block =>
    (sound.listed_iff block).trans (single.mem_iff_maximal covers).symm

theorem countBlocks_returns (list : FreeList memory ⟨base, n⟩ [⟨base, size⟩])
    (inside : base ∈ (⟨base, n⟩ : Extent).points) (fits : size < 2 ^ 32) :
    Returns (fun fuel => countBlocks memory fuel .freeList 0 0) (1, size) := by
  have first : listNext memory.links .freeList = .page base := list.isList.first.1
  have ends : listNext memory.links (.page base) = .freeList := list.isList.circuit.1.2
  have property : (memory.pages base).property = size := list.property ⟨base, size⟩ (by simp)
  have flags : (memory.pages base).flags = 2 := by
    rw [list.flags base inside]
    simp
  apply Returns.round
  apply Returns.round
  apply Returns.of_constant
  intro fuel
  simp only [countBlocks, first, ends, property, flags, Nat.zero_add, uint32_of_lt fits]
  rfl

theorem uncountBlocks_returns (list : FreeList memory ⟨base, n⟩ [⟨base, size⟩])
    (fits : size < 2 ^ 32) :
    Returns (fun fuel => uncountBlocks memory fuel .freeList 1 size) (0, 0) := by
  have first : listNext memory.links .freeList = .page base := list.isList.first.1
  have ends : listNext memory.links (.page base) = .freeList := list.isList.circuit.1.2
  have property : (memory.pages base).property = size := list.property ⟨base, size⟩ (by simp)
  apply Returns.round
  apply Returns.round
  apply Returns.of_constant
  intro fuel
  simp only [uncountBlocks, first, ends, property, uint32Sub_of_le fits le_rfl, Nat.sub_self]
  rfl

/-! `basic_check`. -/

theorem Vacant.erase {page : Nat} (vacant : Vacant base n outstanding page) (block : Allocation) :
    Vacant base n (outstanding.erase block) page :=
  ⟨vacant.1, fun other kept => vacant.2 other (List.mem_of_mem_erase kept)⟩

theorem Sound.freed_below (manager : FitManager) {block : Allocation} {page : Nat}
    (sound : Sound base n ⟨memory, outstanding⟩ blocks) (member : block ∈ outstanding)
    (above : block.page < page) (vacant : Vacant base (uint32 n) outstanding page) :
    ∃ after blocks, Returns (manager.pmm.freePages memory block.page block.count) after ∧
      Sound base n ⟨after, outstanding.erase block⟩ blocks := by
  rw [FitManager.pmm_freePages]
  exact sound.freed member ((sound.keepsOrder_iff_vacant member).mpr (.inl ⟨page, above, vacant⟩))

/-- The three pages that `basic_check` allocated, the last one first. -/
abbrev firstThree (base : Nat) : List Allocation := [⟨base + 2, 1⟩, ⟨base + 1, 1⟩, ⟨base, 1⟩]

theorem Sound.freesThree (manager : FitManager)
    (sound : Sound base n ⟨memory, firstThree base⟩ (vacantRun (base + 3) (uint32 n - 3)))
    (enough : 3 ≤ uint32 n) :
    ∃ after, Returns (freeThree manager base (base + 1) (base + 2) memory) after ∧
      after.nrFree = uint32 n ∧ (4 ≤ uint32 n → ∃ blocks, Sound base n ⟨after, []⟩ blocks) := by
  by_cases more : 4 ≤ uint32 n
  · have inside : base + 3 ∈ (⟨base, uint32 n⟩ : Extent).points := by
      simp only [mem_points]
      omega
    have vacant : Vacant base (uint32 n) (firstThree base) (base + 3) :=
      ⟨inside, by simp [Allocation.extent]⟩
    have own : ⟨base, 1⟩ ∈ firstThree base := by simp
    obtain ⟨first, _, freeFirst, soundFirst⟩ := sound.freed_below manager own (by simp) vacant
    have vacant := vacant.erase ⟨base, 1⟩
    have own : ⟨base + 1, 1⟩ ∈ (firstThree base).erase ⟨base, 1⟩ := by simp
    obtain ⟨second, _, freeSecond, soundSecond⟩ :=
      soundFirst.freed_below manager own (by simp) vacant
    have vacant := vacant.erase ⟨base + 1, 1⟩
    have own : ⟨base + 2, 1⟩ ∈ ((firstThree base).erase ⟨base, 1⟩).erase ⟨base + 1, 1⟩ := by simp
    obtain ⟨after, blocks, freeThird, soundAfter⟩ :=
      soundSecond.freed_below manager own (by simp) vacant
    have none : (((firstThree base).erase ⟨base, 1⟩).erase ⟨base + 1, 1⟩).erase ⟨base + 2, 1⟩ = [] := by
      simp
    rw [none] at soundAfter
    have balance : after.nrFree + 0 = uint32 n := soundAfter.balance
    exact ⟨after, freeFirst.bind (freeSecond.bind freeThird), balance, fun _ => ⟨blocks, soundAfter⟩⟩
  · have exactly : uint32 n = 3 := by omega
    rw [exactly] at sound ⊢
    have isList : IsList memory.links .freeList [] := sound.list.isList
    have counter : memory.nrFree = 0 := sound.nrFree_eq
    have notMore := uint32_le n
    have mirrors : Mirrors base 3 memory memory blankMemory {.freeList} := by
      refine .blank isList (.singleton rfl rfl) (fun index bound => ?_) (fun _ _ => rfl) counter
      have inside : base + index ∈ (⟨base, n⟩ : Extent).points := by
        simp only [mem_points]
        omega
      rw [sound.list.flags _ inside]
      rfl
    obtain ⟨after, frees, counted⟩ := freeThree_returns manager ⟨_, mirrors⟩
    exact ⟨after, frees, counted, fun _ => by omega⟩

/-- The pages whose addresses `basic_check` looks at lie below the last page frame. -/
def Framed (npage base : Nat) : Prop :=
  ∀ page, base ≤ page → page < base + 3 → page2pa page < uint64 (npage * PGSIZE)

theorem framed_iff : Framed npage base ↔ page2pa base < uint64 (npage * PGSIZE) ∧
    page2pa (base + 1) < uint64 (npage * PGSIZE) ∧ page2pa (base + 2) < uint64 (npage * PGSIZE) := by
  constructor
  · intro framed
    exact ⟨framed _ (by omega) (by omega), framed _ (by omega) (by omega),
      framed _ (by omega) (by omega)⟩
  · intro each page lower upper
    obtain rfl | rfl | rfl : page = base ∨ page = base + 1 ∨ page = base + 2 := by omega
    · exact each.1
    · exact each.2.1
    · exact each.2.2

theorem basicCheck_decides (manager : FitManager)
    (sound : Sound base n ⟨memory, []⟩ (vacantRun base (uint32 n))) (bounded : uint32 n < 2 ^ 31)
    (confined : ∃ listed, Confined ⟨base, n⟩ memory listed) :
    Decides (3 ≤ uint32 n ∧ Framed npage base) (basicCheck manager.pmm npage memory) fun after =>
      after.nrFree = uint32 n ∧ (4 ≤ uint32 n → ∃ blocks, Sound base n ⟨after, []⟩ blocks) := by
  have passes : Decides (1 ≤ uint32 n ∧ 1 ≤ uint32 n - 1 ∧ 1 ≤ uint32 n - 1 - 1 ∧
      page2pa base < uint64 (npage * PGSIZE) ∧ page2pa (base + 1) < uint64 (npage * PGSIZE) ∧
      page2pa (base + 2) < uint64 (npage * PGSIZE) ∧ True) (basicCheck manager.pmm npage memory)
      fun after => after.nrFree = uint32 n ∧
        (4 ≤ uint32 n → ∃ blocks, Sound base n ⟨after, []⟩ blocks) := by
    unfold basicCheck
    refine (sound.allocSome_decides manager bounded Nat.one_pos).bind fun _ first taken => ?_
    obtain ⟨p0, memory⟩ := first
    obtain ⟨rfl, sound, confine⟩ := taken
    have confined := confine confined
    refine (sound.allocSome_decides manager bounded Nat.one_pos).bind fun _ second taken => ?_
    obtain ⟨p1, memory⟩ := second
    obtain ⟨rfl, sound, confine⟩ := taken
    have confined := confine confined
    refine (sound.allocSome_decides manager bounded Nat.one_pos).bind fun some third taken => ?_
    obtain ⟨p2, memory⟩ := third
    obtain ⟨rfl, sound, confine⟩ := taken
    obtain ⟨listed, confined⟩ := confine confined
    have distinct : base ≠ base + 1 ∧ base ≠ base + 1 + 1 ∧ base + 1 ≠ base + 1 + 1 := by omega
    have notMore := uint32_le n
    have unreferenced {page : Nat} (lower : base ≤ page) (upper : page < base + 3) :
        (memory.pages page).ref = 0 := by
      refine (confined.tame page ?_).ref
      simp only [mem_points]
      omega
    refine .after (asserted (decide_eq_true distinct)) ?_
    refine .after (asserted (decide_eq_true ⟨unreferenced (by omega) (by omega),
      unreferenced (by omega) (by omega), unreferenced (by omega) (by omega)⟩)) ?_
    refine ((assert_decides ..).congr decide_eq_true_iff).bind fun _ _ _ => ?_
    refine ((assert_decides ..).congr decide_eq_true_iff).bind fun _ _ _ => ?_
    refine ((assert_decides ..).congr decide_eq_true_iff).bind fun _ _ _ => ?_
    refine .after (asserted ((listEmpty_iff (initList_isList memory)).mpr rfl)) ?_
    have sound : Sound base n ⟨memory, firstThree base⟩ (vacantRun (base + 3) (uint32 n - 3)) := sound
    obtain ⟨lends, restored⟩ := sound.lends_first (by omega)
    obtain ⟨lent, emptied, returned⟩ := basicCheckEmptied_returns manager lends
    refine .after emptied ?_
    obtain ⟨after, frees, holds⟩ := (restored lent returned).freesThree manager (by omega)
    exact .of_returns trivial frees holds
  refine passes.congr ?_
  rw [framed_iff]
  constructor
  · intro all
    exact ⟨by omega, all.2.2.2.1, all.2.2.2.2.1, all.2.2.2.2.2.1⟩
  · intro both
    exact ⟨by omega, by omega, by omega, both.2.1, both.2.2.1, both.2.2.2, trivial⟩

/-! The whole check. -/

/-- The comparison of an `int` with a `size_t`. -/
theorem signed_total_iff (fits : size < 2 ^ 32) : uint64OfInt (int32 size) = size ↔ size < 2 ^ 31 := by
  unfold uint64OfInt int32
  rw [Int.bmod_def]
  split
  · omega
  · omega

theorem nrFreePages_eq (manager : FitManager) (memory : FitMemory) :
    manager.pmm.nrFreePages memory = memory.nrFree := by
  cases manager <;> rfl

/-- The block of five pages, after `basic_check`. -/
theorem allocFive_decides (manager : FitManager) (bounded : uint32 n < 2 ^ 31)
    (counter : memory.nrFree = uint32 n)
    (intact : 4 ≤ uint32 n → ∃ blocks, Sound base n ⟨memory, []⟩ blocks) :
    Decides (5 ≤ uint32 n) (allocSome manager.pmm 5 text memory)
      (Taken base n base (uint32 n) 5 [] memory) := by
  by_cases enough : 5 ≤ uint32 n
  · obtain ⟨blocks, sound⟩ := intact (Nat.le_of_succ_le enough)
    rw [sound.whole (by omega), ← vacantRun_of_pos (by omega)] at sound
    exact sound.allocSome_decides manager bounded (by decide)
  · have refused : Returns (manager.pmm.allocPages memory 5) (none, memory) := by
      rw [FitManager.pmm_allocPages]
      exact fitAllocPages_refuses (by decide) fun fits => absurd (counter ▸ fits) enough
    exact .of_panic enough (Ends.bind refused (.of_constant fun _ => rfl))

/-- Freeing the first block of the region, when the pages behind it are vacant. -/
theorem Sound.frees_first (manager : FitManager)
    (sound : Sound base n ⟨memory, [⟨base, count⟩]⟩ (vacantRun (base + count) (uint32 n - count)))
    (some : 0 < uint32 n) :
    ∃ after, Returns (manager.pmm.freePages memory base count) after ∧
      Sound base n ⟨after, []⟩ [⟨base, uint32 n⟩] := by
  have own : ⟨base, count⟩ ∈ [(⟨base, count⟩ : Allocation)] := List.mem_singleton_self _
  have positive : 0 < count := sound.positive _ own
  have order : KeepsOrder ⟨memory, [⟨base, count⟩]⟩ (.free ⟨base, count⟩) := by
    rw [sound.keepsOrder_iff_vacant own]
    by_cases more : count < uint32 n
    · refine .inl ⟨base + count, by simpa using positive, ?_, by simp [Allocation.extent]⟩
      simp only [mem_points]
      omega
    · refine .inr fun other vacant => ?_
      have outside := vacant.2 _ own
      have inside := vacant.1
      simp only [mem_points, Allocation.extent] at inside outside
      omega
  obtain ⟨after, blocks, returns, soundAfter⟩ := sound.freed own order
  rw [List.erase_cons_head] at soundAfter
  have isWhole := soundAfter.whole some
  subst isWhole
  rw [← manager.pmm_freePages] at returns
  exact ⟨after, returns, soundAfter⟩

theorem Sound.check_decides (manager : FitManager)
    (sound : Sound base n ⟨memory, []⟩ [⟨base, uint32 n⟩])
    (confined : ∃ listed, Confined ⟨base, n⟩ memory listed) :
    Decides (5 ≤ uint32 n ∧ uint32 n < 2 ^ 31 ∧ Framed npage base) (manager.check npage memory)
      fun after => Sound base n ⟨after, []⟩ [⟨base, uint32 n⟩] := by
  have some : 0 < uint32 n := sound.gapped.positive ⟨base, uint32 n⟩ (by simp)
  have small := uint32_lt n
  have notMore := uint32_le n
  have first : base ∈ (⟨base, n⟩ : Extent).points := by
    simp only [mem_points]
    omega
  have counter : memory.nrFree = uint32 n := sound.nrFree_eq.trans (by simp [total])
  have passes : Decides (uint32 n < 2 ^ 31 ∧ (3 ≤ uint32 n ∧ Framed npage base) ∧ 5 ≤ uint32 n ∧ True)
      (fitCheck manager.pmm manager.checkEmptied npage memory)
      fun after => Sound base n ⟨after, []⟩ [⟨base, uint32 n⟩] := by
    unfold fitCheck
    refine .after (countBlocks_returns sound.list first small) ?_
    have compared : decide (uint64OfInt (int32 (uint32 n)) = manager.pmm.nrFreePages memory) = true ↔
        uint32 n < 2 ^ 31 := by
      rw [decide_eq_true_iff, nrFreePages_eq, counter, signed_total_iff small]
    refine ((assert_decides ..).congr compared).bind fun bounded _ _ => ?_
    have whole : Sound base n ⟨memory, []⟩ (vacantRun base (uint32 n)) := by
      rwa [vacantRun_of_pos some]
    refine (basicCheck_decides manager whole bounded confined).bind fun _ memory checked => ?_
    refine (allocFive_decides manager bounded checked.1 checked.2).bind fun enough answer taken => ?_
    obtain ⟨p0, memory⟩ := answer
    obtain ⟨rfl, sound, _⟩ := taken
    have isLent : base ∈ (⟨base, 5⟩ : Extent).points := by simp [mem_points]
    have unmarked : (memory.pages base).flags = 0 :=
      sound.unmarked first isLent (vacantRun_apart le_rfl)
    refine .after (asserted (by rw [unmarked]; rfl)) ?_
    refine .after (asserted ((listEmpty_iff (initList_isList memory)).mpr rfl)) ?_
    refine .after (allocNone_returns manager (initList_isList memory) _) ?_
    obtain ⟨lends, restored⟩ := sound.lends_first (by omega)
    obtain ⟨lent, emptied, returned⟩ := checkEmptied_returns manager lends
    refine .after emptied ?_
    obtain ⟨after, freed, soundAfter⟩ := (restored lent returned).frees_first manager some
    refine .after freed ?_
    refine .after (uncountBlocks_returns soundAfter.list small) ?_
    refine .after (asserted rfl) ?_
    refine .after (asserted rfl) ?_
    exact .of_returns trivial (.of_constant fun _ => rfl) soundAfter
  rw [manager.check_eq]
  refine passes.congr ⟨fun all => ⟨all.2.2.1, all.1, all.2.1.2⟩, fun all => ?_⟩
  exact ⟨all.2.1, ⟨by omega, all.2.2⟩, all.1, trivial⟩

/-- A region without pages passes the count, and no page can be allocated. -/
theorem Idle.check_decides (manager : FitManager) (idle : Idle base n ⟨memory, outstanding⟩)
    (some : 0 < n) :
    Decides False (manager.check npage memory) fun _ => False := by
  have first : base ∈ (⟨base, n⟩ : Extent).points := by
    simp only [mem_points]
    omega
  have counter : memory.nrFree = 0 := idle.nrFree
  rw [manager.check_eq]
  unfold fitCheck
  refine .after (countBlocks_returns idle.list first (by decide)) ?_
  refine .after (asserted (by rw [nrFreePages_eq, counter]; rfl)) ?_
  have refused : Ends (allocSome manager.pmm 1 "(p0 = alloc_page()) != NULL" memory)
      (.error (.panic ("assertion failed: " ++ "(p0 = alloc_page()) != NULL"))) :=
    Ends.bind (idle.refuses manager Nat.one_pos) (.of_constant fun _ => rfl)
  have stops : Ends (basicCheck manager.pmm npage memory)
      (.error (.panic ("assertion failed: " ++ "(p0 = alloc_page()) != NULL"))) := refused.bind_error
  exact .of_panic id stops.bind_error

variable {client last : Client FitMemory} {start : FitMemory} {trace : List (Client FitMemory × Request)}

/-- Where all pages of the region are vacant, `default_check` and `best_fit_check` pass exactly if
there are at least five pages and fewer than `2 ^ 31`, and the first three lie below the last page
frame.  Then they leave the list as it was, and otherwise they stop in an assertion. -/
theorem check_passes_iff (booted : Booted manager.pmm start base n client)
    (run : Run (Step manager.pmm) client trace last)
    (order : ∀ taken ∈ trace, KeepsOrder taken.1 taken.2) (all : last.outstanding = [])
    (npage : Nat) :
    ((∃ after, Returns (manager.check npage last.memory) after) ↔
      5 ≤ uint32 n ∧ uint32 n < 2 ^ 31 ∧ Framed npage base) ∧
    (∀ after, Returns (manager.check npage last.memory) after →
      SameList last.memory after ∧ fitNrFreePages last.memory = fitNrFreePages after) ∧
    ((¬ ∃ after, Returns (manager.check npage last.memory) after) →
      ∃ message, Ends (manager.check npage last.memory) (.error (.panic message))) := by
  have confined := (confined_run booted run).memory
  obtain ⟨memory, outstanding⟩ := last
  cases all
  by_cases empty : uint32 n = 0
  · have idle := idle_run booted run empty
    have decides := @Idle.check_decides _ _ npage _ _ manager idle (booted_positive booted)
    refine ⟨decides.returns_iff.trans (iff_of_false id ?_), fun after returns => ?_,
      fun _ => decides.panics id⟩
    · omega
    · exact (decides.post_of_returns returns).elim
  · obtain ⟨_, blocks, sound⟩ := sound_run empty booted run order
    have isWhole := sound.whole (Nat.pos_of_ne_zero empty)
    subst isWhole
    have decides := @Sound.check_decides _ _ npage _ manager sound confined
    refine ⟨decides.returns_iff, fun after returns => ?_, fun stops => ?_⟩
    · exact (sound.same_iff (decides.post_of_returns returns)).mpr fun _ => Iff.rfl
    · exact decides.panics fun passes => stops (decides.returns_iff.mpr passes)

theorem check_passes_six :
    (∃ client after, Booted defaultPmmManager bootMemory 7 6 client ∧
      Returns (defaultCheck 0x88000 client.memory) after ∧ SameList client.memory after) ∧
    ∃ client after, Booted bestFitPmmManager bootMemory 7 6 client ∧
      Returns (bestFitCheck 0x88000 client.memory) after ∧ SameList client.memory after := by
  have passes (manager : FitManager) : ∃ client after, Booted manager.pmm bootMemory 7 6 client ∧
      Returns (manager.check 0x88000 client.memory) after ∧ SameList client.memory after := by
    obtain ⟨client, booted⟩ := @bootMemory_booted 7 6 manager (by decide)
    obtain ⟨passes, restores, _⟩ :=
      check_passes_iff booted (.done client) (by simp) booted.2 0x88000
    have framed : Framed 0x88000 7 := framed_iff.mpr (by decide +kernel)
    obtain ⟨after, returns⟩ := passes.mpr ⟨by decide, by decide, framed⟩
    exact ⟨client, after, booted, returns, (restores after returns).1⟩
  exact ⟨passes .firstFit, passes .bestFit⟩

end Ucore.Mm.Fit
