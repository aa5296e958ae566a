import Mathlib.Order.Bounds.Basic
import Ucore.Mm.Fit.BestFit
import Ucore.Mm.Fit.Progress
import Ucore.Mm.Fit.Structure

namespace Ucore.Mm.Fit

open Ucore.Data Ucore.Libs Extent

/-! As long as every free keeps the order, the list holds the longest runs of vacant pages. -/

variable {base n count page : Nat} {memory memoryOther after : FitMemory}
  {client last clientOther lastOther : Client FitMemory} {manager managerOther : FitManager}
  {blocks others : List Extent} {region : Extent} {outstanding : List Allocation}
  {trace traceOther : List (Client FitMemory × Request)} {allocation : Allocation}

/-- The page lies in the region and belongs to no outstanding block. -/
def Vacant (base n : Nat) (outstanding : List Allocation) (page : Nat) : Prop :=
  page ∈ (⟨base, n⟩ : Extent).points ∧ ∀ block ∈ outstanding, page ∉ block.extent.points

instance (base n : Nat) (outstanding : List Allocation) (page : Nat) :
    Decidable (Vacant base n outstanding page) :=
  inferInstanceAs (Decidable (_ ∧ _))

/-- Both memories store the same blocks in the same order. -/
def SameList (memory other : FitMemory) : Prop :=
  ∃ heads : List Nat, IsList memory.links .freeList (heads.map .page) ∧
    IsList other.links .freeList (heads.map .page) ∧
    ∀ head ∈ heads, (memory.pages head).property = (other.pages head).property

theorem Sound.vacant_iff (sound : Sound base n client blocks) (page : Nat) :
    (∃ block ∈ blocks, page ∈ block.points) ↔ Vacant base (uint32 n) client.outstanding page := by
  have packs := sound.tiles.packs
  rw [Multiset.coe_add] at packs
  have apart := (List.pairwise_append.mp packs.pairwise).2.2
  constructor
  · intro free
    obtain ⟨block, listed, inside⟩ := free
    refine ⟨sound.within (List.mem_append_left _ listed) inside, fun allocation outstanding => ?_⟩
    exact disjoint_iff.mp (apart block listed _ (List.mem_map_of_mem outstanding)) page inside
  · intro vacant
    obtain ⟨extent, member, inside⟩ := sound.tiles.mem_iff.mpr vacant.1
    rcases Multiset.mem_add.mp member with listed | own
    · exact ⟨extent, Multiset.mem_coe.mp listed, inside⟩
    · obtain ⟨allocation, outstanding, rfl⟩ := List.mem_map.mp (Multiset.mem_coe.mp own)
      exact absurd inside (vacant.2 allocation outstanding)

/-- The blocks of the list are the longest runs of vacant pages. -/
theorem Sound.listed_iff (sound : Sound base n client blocks) (block : Extent) :
    block ∈ blocks ↔ Maximal (Vacant base (uint32 n) client.outstanding) block :=
  sound.gapped.mem_iff_maximal sound.vacant_iff

theorem FreeList.sameList_iff (list : FreeList memory region blocks)
    (listOther : FreeList memoryOther region others) :
    SameList memory memoryOther ↔ blocks = others := by
  constructor
  · intro same
    obtain ⟨heads, isList, isListOther, properties⟩ := same
    have starts := (circuit_iff list).mp isList.circuit
    have startsOther := (circuit_iff listOther).mp isListOther.circuit
    rw [← list.listed_eq, ← listOther.listed_eq, ← starts, ← startsOther]
    exact List.map_congr_left fun head member => by rw [listed, listed, properties head member]
  · intro same
    subst same
    refine ⟨blocks.map Extent.start, entries_eq blocks ▸ list.isList,
      entries_eq blocks ▸ listOther.isList, fun head member => ?_⟩
    obtain ⟨block, listed, rfl⟩ := List.mem_map.mp member
    rw [list.property block listed, listOther.property block listed]

theorem Sound.blocks_eq (sound : Sound base n client blocks)
    (soundOther : Sound base n clientOther others)
    (same : ∀ page, Vacant base (uint32 n) client.outstanding page ↔
      Vacant base (uint32 n) clientOther.outstanding page) : blocks = others := by
  refine sound.gapped.unique soundOther.gapped fun block => ?_
  rw [sound.listed_iff, soundOther.listed_iff, funext fun page => propext (same page)]

theorem Sound.same_iff (sound : Sound base n client blocks)
    (soundOther : Sound base n clientOther others) :
    (SameList client.memory clientOther.memory ∧
        fitNrFreePages client.memory = fitNrFreePages clientOther.memory) ↔
      ∀ page, Vacant base (uint32 n) client.outstanding page ↔
        Vacant base (uint32 n) clientOther.outstanding page := by
  rw [sound.list.sameList_iff soundOther.list]
  constructor
  · intro same page
    rw [← sound.vacant_iff, ← soundOther.vacant_iff, same.1]
  · intro same
    have equal := sound.blocks_eq soundOther same
    refine ⟨equal, ?_⟩
    rw [fitNrFreePages, fitNrFreePages, sound.nrFree_eq, soundOther.nrFree_eq, equal]

theorem not_vacant_empty (empty : uint32 n = 0) : ¬ Vacant base (uint32 n) outstanding page := by
  intro vacant
  have bounds := mem_points.mp vacant.1
  simp only at bounds
  omega

theorem idle_run (booted : Booted manager.pmm memory base n client)
    (run : Run (Step manager.pmm) client trace last) (empty : uint32 n = 0) : Idle base n last := by
  have preserved {state next : Client FitMemory} {request : Request} (idle : Idle base n state)
      (_ : True) (step : Step manager.pmm state request next) : Idle base n next :=
    idle.step step
  exact (run.invariant _ preserved (Idle.initial booted empty) fun _ _ => trivial).2

/-- Whichever requests were served, and by either manager, the vacant pages determine the list. -/
theorem same_list_iff (booted : Booted manager.pmm memory base n client)
    (run : Run (Step manager.pmm) client trace last)
    (order : ∀ taken ∈ trace, KeepsOrder taken.1 taken.2)
    (bootedOther : Booted managerOther.pmm memoryOther base n clientOther)
    (runOther : Run (Step managerOther.pmm) clientOther traceOther lastOther)
    (orderOther : ∀ taken ∈ traceOther, KeepsOrder taken.1 taken.2) :
    (SameList last.memory lastOther.memory ∧
        fitNrFreePages last.memory = fitNrFreePages lastOther.memory) ↔
      ∀ page, Vacant base (uint32 n) last.outstanding page ↔
        Vacant base (uint32 n) lastOther.outstanding page := by
  by_cases empty : uint32 n = 0
  · have idle := idle_run booted run empty
    have idleOther := idle_run bootedOther runOther empty
    refine iff_of_true ⟨(idle.list.sameList_iff idleOther.list).mpr rfl, ?_⟩ fun page =>
      iff_of_false (not_vacant_empty empty) (not_vacant_empty empty)
    exact idle.nrFree.trans idleOther.nrFree.symm
  · obtain ⟨_, _, sound⟩ := sound_run empty booted run order
    obtain ⟨_, _, soundOther⟩ := sound_run empty bootedOther runOther orderOther
    exact sound.same_iff soundOther

/-- A run on six pages that leaves page 3 with the client, and what a request for two pages gets. -/
theorem third_left (manager : FitManager) (requests : List Request) (page : Nat)
    (computed : (script manager.pmm 9 (keepsOrder 9) bootMemory 0 6 requests).toOption.any
      (fun client => decide (client.outstanding = [⟨3, 1⟩]) &&
        (manager.pmm.allocPages client.memory 2 9).toOption.any (·.1 == some page)) = true) :
    ∃ client trace last after, Booted manager.pmm bootMemory 0 6 client ∧
      Run (Step manager.pmm) client trace last ∧ trace.map Prod.snd = requests ∧
      (∀ taken ∈ trace, KeepsOrder taken.1 taken.2) ∧ last.outstanding = [⟨3, 1⟩] ∧
      Returns (manager.pmm.allocPages last.memory 2) (some page, after) := by
  obtain ⟨client, trace, last, booted, run, labels, checked, reached⟩ :=
    script_run manager.steady _ computed
  obtain ⟨left, granted⟩ := Bool.and_eq_true_iff.mp reached
  obtain ⟨⟨found, after⟩, returns, isPage⟩ := (manager.steady.allocPages _ _).computed granted
  cases beq_iff_eq.mp isPage
  exact ⟨client, trace, last, after, booted, run, labels,
    fun taken member => keepsOrder_sound (checked taken member), of_decide_eq_true left, returns⟩

theorem same_list_third : ∃ client trace last clientOther traceOther lastOther,
    Booted defaultPmmManager bootMemory 0 6 client ∧ Run (Step defaultPmmManager) client trace last ∧
    trace.map Prod.snd = [.alloc 2, .alloc 1, .alloc 1, .free ⟨2, 1⟩, .free ⟨0, 2⟩] ∧
    Booted bestFitPmmManager bootMemory 0 6 clientOther ∧
    Run (Step bestFitPmmManager) clientOther traceOther lastOther ∧
    traceOther.map Prod.snd = [.alloc 3, .alloc 1, .free ⟨0, 3⟩] ∧
    SameList last.memory lastOther.memory := by
  obtain ⟨client, trace, last, _, booted, run, labels, order, left, _⟩ := third_left .firstFit
    [.alloc 2, .alloc 1, .alloc 1, .free ⟨2, 1⟩, .free ⟨0, 2⟩] 0 (by decide +kernel)
  obtain ⟨clientOther, traceOther, lastOther, _, bootedOther, runOther, labelsOther, orderOther,
    leftOther, _⟩ := third_left .bestFit [.alloc 3, .alloc 1, .free ⟨0, 3⟩] 4 (by decide +kernel)
  refine ⟨client, trace, last, clientOther, traceOther, lastOther, booted, run, labels, bootedOther,
    runOther, labelsOther, ?_⟩
  refine ((same_list_iff booted run order bootedOther runOther orderOther).mpr fun page => ?_).1
  rw [left, leftOther]

/-! Giving a block back right away. -/

/-- A free breaks the list exactly if pages are vacant, but none above the block. -/
theorem Sound.keepsOrder_iff_vacant (sound : Sound base n client blocks)
    (member : allocation ∈ client.outstanding) :
    KeepsOrder client (.free allocation) ↔
      (∃ other, allocation.page < other ∧ Vacant base (uint32 n) client.outstanding other) ∨
        ∀ other, ¬ Vacant base (uint32 n) client.outstanding other := by
  obtain ⟨left, right, rfl, below, above⟩ := sound.place member
  have positive := sound.positive allocation member
  have first {block : Extent} (listed : block ∈ left ++ right) :
      Vacant base (uint32 n) client.outstanding block.start := by
    have size := sound.gapped.positive block listed
    exact (sound.vacant_iff _).mp ⟨block, listed, mem_points.mpr ⟨le_rfl, by omega⟩⟩
  rw [sound.keepsOrder_iff positive below above]
  constructor
  · intro place
    cases right with
    | nil =>
        obtain rfl := place rfl
        refine .inr fun other vacant => ?_
        obtain ⟨block, listed, _⟩ := (sound.vacant_iff other).mpr vacant
        simp at listed
    | cons block right =>
        have gap := above block (by simp)
        exact .inl ⟨block.start, by omega, first (by simp)⟩
  · intro vacancy empty
    subst empty
    rcases vacancy with ⟨other, higher, vacant⟩ | none
    · obtain ⟨block, listed, inside⟩ := (sound.vacant_iff other).mpr vacant
      have lower := below block (by simpa using listed)
      rw [mem_points] at inside
      omega
    · refine List.eq_nil_iff_forall_not_mem.mpr fun block listed => ?_
      exact none block.start (first (by simp [listed]))

theorem vacant_cons : Vacant base n (⟨page, count⟩ :: outstanding) = fun other =>
    Vacant base n outstanding other ∧ ¬ (page ≤ other ∧ other < page + count) := by
  funext other
  simp only [Vacant, List.forall_mem_cons, Allocation.extent, mem_points, eq_iff_iff]
  tauto

/-- Giving a block back right away restores the list and the counter, unless the other vacant
pages all lie below the block.  Then the page is its own predecessor. -/
theorem refree_iff (booted : Booted manager.pmm memory base n client)
    (run : Run (Step manager.pmm) client trace last)
    (order : ∀ taken ∈ trace, KeepsOrder taken.1 taken.2)
    (granted : Returns (manager.pmm.allocPages last.memory count) (some page, after)) :
    ∃ final, Returns (manager.pmm.freePages after page count) final ∧
      ((SameList last.memory final ∧ fitNrFreePages last.memory = fitNrFreePages final) ↔
        (∃ other, page + count ≤ other ∧ Vacant base (uint32 n) last.outstanding other) ∨
          ∀ other, Vacant base (uint32 n) last.outstanding other →
            page ≤ other ∧ other < page + count) ∧
      (SelfLinked final page ↔
        ¬ (SameList last.memory final ∧ fitNrFreePages last.memory = fitNrFreePages final)) := by
  by_cases empty : uint32 n = 0
  · have idle := idle_run booted run empty
    cases (idle.refuses manager (manager.allocPages_positive granted)).unique granted
  obtain ⟨_, blocks, sound⟩ := sound_run empty booted run order
  obtain ⟨memory, outstanding⟩ := last
  have positive := manager.allocPages_positive granted
  have order : KeepsOrder ⟨memory, outstanding⟩ (.alloc count) := trivial
  obtain ⟨_, soundAfter⟩ := sound.step order (.allocated granted)
  have member : ⟨page, count⟩ ∈ (⟨page, count⟩ :: outstanding : List Allocation) :=
    List.mem_cons_self ..
  have order_iff : KeepsOrder ⟨after, ⟨page, count⟩ :: outstanding⟩ (.free ⟨page, count⟩) ↔
      (∃ other, page + count ≤ other ∧ Vacant base (uint32 n) outstanding other) ∨
        ∀ other, Vacant base (uint32 n) outstanding other → page ≤ other ∧ other < page + count := by
    rw [soundAfter.keepsOrder_iff_vacant member]
    simp only [vacant_cons, not_and_not_right]
    refine or_congr_left ⟨fun above => ?_, fun above => ?_⟩
    · obtain ⟨other, higher, vacant, outside⟩ := above
      exact ⟨other, by omega, vacant⟩
    · obtain ⟨other, higher, vacant⟩ := above
      exact ⟨other, by omega, vacant, by omega⟩
  rw [FitManager.pmm_freePages]
  by_cases keeps : KeepsOrder ⟨after, ⟨page, count⟩ :: outstanding⟩ (.free ⟨page, count⟩)
  · obtain ⟨final, again, returns, soundFinal⟩ := soundAfter.freed member keeps
    rw [List.erase_cons_head] at soundFinal
    have restored := (sound.same_iff soundFinal).mpr fun _ => Iff.rfl
    have isList := soundFinal.list.isList
    exact ⟨final, returns, iff_of_true restored (order_iff.mp keeps),
      iff_of_false (fun broken => broken.one_way isList.circuit isList.reverse.circuit)
        (not_not_intro restored)⟩
  · obtain ⟨final, returns, broken⟩ := soundAfter.spoiled member keeps
    have spoiled : ¬ SameList memory final := by
      intro same
      obtain ⟨_, _, isList, _⟩ := same
      exact broken.one_way isList.circuit isList.reverse.circuit
    exact ⟨final, returns,
      iff_of_false (fun same => spoiled same.1) fun vacancy => keeps (order_iff.mpr vacancy),
      iff_of_true broken fun same => spoiled same.1⟩

/-- First fit takes pages 0 and 1, and page 4 is vacant above them.  Best fit takes pages 4 and 5. -/
theorem refree_third :
    (∃ client trace last after final, Booted defaultPmmManager bootMemory 0 6 client ∧
      Run (Step defaultPmmManager) client trace last ∧
      trace.map Prod.snd = [.alloc 3, .alloc 1, .free ⟨0, 3⟩] ∧
      Returns (defaultAllocPages last.memory 2) (some 0, after) ∧
      Returns (defaultFreePages after 0 2) final ∧ SameList last.memory final) ∧
    ∃ client trace last after final, Booted bestFitPmmManager bootMemory 0 6 client ∧
      Run (Step bestFitPmmManager) client trace last ∧
      trace.map Prod.snd = [.alloc 3, .alloc 1, .free ⟨0, 3⟩] ∧
      Returns (bestFitAllocPages last.memory 2) (some 4, after) ∧
      Returns (bestFitFreePages after 4 2) final ∧ SelfLinked final 4 := by
  constructor
  · obtain ⟨client, trace, last, after, booted, run, labels, order, left, granted⟩ :=
      third_left .firstFit [.alloc 3, .alloc 1, .free ⟨0, 3⟩] 0 (by decide +kernel)
    obtain ⟨final, returns, restored, _⟩ := refree_iff booted run order granted
    refine ⟨client, trace, last, after, final, booted, run, labels, granted, returns, ?_⟩
    rw [left] at restored
    exact (restored.mpr (.inl ⟨4, by decide, by decide⟩)).1
  · obtain ⟨client, trace, last, after, booted, run, labels, order, left, granted⟩ :=
      third_left .bestFit [.alloc 3, .alloc 1, .free ⟨0, 3⟩] 4 (by decide +kernel)
    obtain ⟨final, returns, restored, broken⟩ := refree_iff booted run order granted
    refine ⟨client, trace, last, after, final, booted, run, labels, granted, returns,
      broken.mpr fun same => ?_⟩
    rw [left] at restored
    rcases restored.mp same with ⟨other, higher, vacant⟩ | within
    · have bounds := mem_points.mp vacant.1
      have limit : uint32 6 = 6 := rfl
      simp only [limit] at bounds
      omega
    · exact absurd (within 0 (by decide)) (by decide)

/-! Which of the vacant runs a request gets. -/

theorem Sound.freeArea (sound : Sound base n client blocks) : FreeArea client.memory blocks where
  isList := sound.list.isList
  sorted := by
    refine sound.gapped.apart.imp fun gap => ⟨?_, gap.le⟩
    omega
  property := sound.list.property
  marked := fun block listed => by
    rw [sound.list.flags _ (sound.head_mem listed), if_pos (List.mem_map_of_mem listed)]
    rfl
  counter := by
    rw [sound.nrFree_eq]
    simp [total]
  width := by
    have balance := sound.balance
    have small := uint32_lt n
    omega

/-- Where so many consecutive vacant pages start. -/
def vacantRuns (base n : Nat) (outstanding : List Allocation) (count : Nat) : Set Nat :=
  {start | ∀ page, start ≤ page → page < start + count → Vacant base n outstanding page}

/-- A vacant run lies in a block of the list. -/
theorem Sound.run_listed {start : Nat} (sound : Sound base n client blocks) (positive : 0 < count)
    (vacant : start ∈ vacantRuns base (uint32 n) client.outstanding count) :
    ∃ block ∈ blocks, block.start ≤ start ∧ start + count ≤ block.start + block.size :=
  sound.gapped.one_block positive fun other low high => (sound.vacant_iff other).mpr (vacant other low high)

theorem Sound.head_vacant {block : Extent} (sound : Sound base n client blocks)
    (listed : block ∈ blocks) (fits : count ≤ block.size) :
    block.start ∈ vacantRuns base (uint32 n) client.outstanding count := fun other low high =>
  (sound.vacant_iff other).mp ⟨block, listed, mem_points.mpr ⟨low, by omega⟩⟩

theorem sound_last (manager : FitManager) (booted : Booted manager.pmm memory base n client)
    (run : Run (Step manager.pmm) client trace last) (fits : n < 2 ^ 32)
    (order : ∀ taken ∈ trace, KeepsOrder taken.1 taken.2) : ∃ blocks, Sound base n last blocks := by
  have some : uint32 n ≠ 0 := by
    rw [uint32_of_lt fits]
    exact Nat.ne_of_gt (booted_positive booted)
  exact (sound_run some booted run order).2

theorem Sound.firstFit_finds (sound : Sound base n client blocks) (positive : 0 < count) :
    ((∀ block ∈ blocks, block.size < count) ∧
        Returns (defaultAllocPages client.memory count) (none, client.memory)) ∨
      ∃ block ∈ blocks, count ≤ block.size ∧
        (∀ other ∈ blocks, count ≤ other.size → block.start ≤ other.start) ∧
        Returns (defaultAllocPages client.memory count)
          (some block.start, fitTake client.memory block.start count) := by
  cases found : blocks.find? fun block => count ≤ block.size with
  | none =>
      have small : ∀ block ∈ blocks, block.size < count := by simpa using List.find?_eq_none.mp found
      exact .inl ⟨small, fitAllocPages_refuses positive fun _ => sound.freeArea.search_none small⟩
  | some block =>
      obtain ⟨fits, left, right, rfl, small⟩ := List.find?_eq_some_iff_append.mp found
      have large : count ≤ block.size := of_decide_eq_true fits
      have small : ∀ other ∈ left, other.size < count := by simpa using small
      have listed : block ∈ left ++ block :: right := by simp
      refine .inr ⟨block, listed, large, fun other member fitsOther => ?_,
        fitAllocPages_takes positive (large.trans (sound.freeArea.size_le listed))
          (sound.freeArea.search_returns small large)⟩
      rcases mem_middle.mp member with rfl | apart
      · exact le_rfl
      · rcases List.mem_append.mp apart with inLeft | inRight
        · exact absurd (small other inLeft) (Nat.not_lt.mpr fitsOther)
        · have sorted := (List.pairwise_append.mp sound.gapped.apart).2.1
          have gap := (List.pairwise_cons.mp sorted).1 other inRight
          omega

/-- First fit hands out the lowest run of vacant pages that is long enough. -/
theorem first_fit_lowest (booted : Booted defaultPmmManager memory base n client)
    (run : Run (Step defaultPmmManager) client trace last) (fits : n < 2 ^ 32)
    (order : ∀ taken ∈ trace, KeepsOrder taken.1 taken.2) (positive : 0 < count) (page : Nat) :
    (∃ after, Returns (defaultAllocPages last.memory count) (some page, after)) ↔
      IsLeast (vacantRuns base n last.outstanding count) page := by
  obtain ⟨blocks, sound⟩ := sound_last .firstFit booted run fits order
  rw [← uint32_of_lt fits]
  rcases sound.firstFit_finds positive with ⟨short, refused⟩ | ⟨block, listed, enough, lowest, granted⟩
  · refine iff_of_false (fun served => ?_) fun least => ?_
    · obtain ⟨after, served⟩ := served
      cases refused.unique served
    · obtain ⟨block, listed, _⟩ := sound.run_listed positive least.1
      have size := short block listed
      omega
  · have least : IsLeast (vacantRuns base (uint32 n) last.outstanding count) block.start := by
      refine ⟨sound.head_vacant listed enough, fun start vacant => ?_⟩
      obtain ⟨other, listedOther, low, high⟩ := sound.run_listed positive vacant
      exact (lowest other listedOther (by omega)).trans low
    constructor
    · intro served
      obtain ⟨after, served⟩ := served
      cases granted.unique served
      exact least
    · intro other
      rw [other.unique least]
      exact ⟨_, granted⟩

theorem first_fit_lowest_third : ∃ client trace last after,
    Booted defaultPmmManager bootMemory 0 6 client ∧ Run (Step defaultPmmManager) client trace last ∧
    trace.map Prod.snd = [.alloc 3, .alloc 1, .free ⟨0, 3⟩] ∧
    Returns (defaultAllocPages last.memory 2) (some 0, after) ∧
    IsLeast (vacantRuns 0 6 last.outstanding 2) 0 := by
  obtain ⟨client, trace, last, after, booted, run, labels, order, _, granted⟩ :=
    third_left .firstFit [.alloc 3, .alloc 1, .free ⟨0, 3⟩] 0 (by decide +kernel)
  exact ⟨client, trace, last, after, booted, run, labels, granted,
    (first_fit_lowest booted run (by decide) order (by decide) 0).mp ⟨after, granted⟩⟩

theorem Sound.bestFit_finds (sound : Sound base n client blocks) (bounded : uint32 n + 1 < 2 ^ 32)
    (positive : 0 < count) :
    ((∀ block ∈ blocks, block.size < count) ∧
        Returns (bestFitAllocPages client.memory count) (none, client.memory)) ∨
      ∃ block ∈ blocks, count ≤ block.size ∧
        (∀ other ∈ blocks, count ≤ other.size → block.size < other.size ∨
          block.size = other.size ∧ block.start ≤ other.start) ∧
        Returns (bestFitAllocPages client.memory count)
          (some block.start, fitTake client.memory block.start count) := by
  have balance := sound.balance
  have counter : client.memory.nrFree + 1 < 2 ^ 32 := by omega
  by_cases short : ∀ block ∈ blocks, block.size < count
  · exact .inl ⟨short, fitAllocPages_refuses positive fun _ => sound.freeArea.bestFitSearch_none short⟩
  · obtain ⟨candidate, member, large⟩ : ∃ block ∈ blocks, count ≤ block.size := by
      simpa only [not_forall, Nat.not_lt, exists_prop] using short
    obtain ⟨left, block, right, rfl, found, fits, before, behind⟩ :=
      sound.freeArea.bestFitSearch_some counter member large
    have listed : block ∈ left ++ block :: right := by simp
    refine .inr ⟨block, listed, fits, fun other member fitsOther => ?_,
      fitAllocPages_takes positive (fits.trans (sound.freeArea.size_le listed)) found⟩
    rcases mem_middle.mp member with rfl | apart
    · exact .inr ⟨rfl, le_rfl⟩
    · rcases List.mem_append.mp apart with inLeft | inRight
      · exact .inl (before other inLeft fitsOther)
      · have sorted := (List.pairwise_append.mp sound.gapped.apart).2.1
        have gap := (List.pairwise_cons.mp sorted).1 other inRight
        have size := behind other inRight fitsOther
        omega

/-- Best fit hands out the start of the shortest longest run of vacant pages that is long enough,
and the lowest of those. -/
theorem best_fit_shortest (booted : Booted bestFitPmmManager memory base n client)
    (run : Run (Step bestFitPmmManager) client trace last) (fits : n < 2 ^ 32 - 1)
    (order : ∀ taken ∈ trace, KeepsOrder taken.1 taken.2) (positive : 0 < count) (page : Nat) :
    (∃ after, Returns (bestFitAllocPages last.memory count) (some page, after)) ↔
      ∃ size, Maximal (Vacant base n last.outstanding) ⟨page, size⟩ ∧ count ≤ size ∧
        ∀ other, Maximal (Vacant base n last.outstanding) other → count ≤ other.size →
          size < other.size ∨ size = other.size ∧ page ≤ other.start := by
  have small : uint32 n = n := uint32_of_lt (by omega)
  obtain ⟨blocks, sound⟩ := sound_last .bestFit booted run (by omega) order
  rw [← small]
  simp only [← sound.listed_iff]
  rcases sound.bestFit_finds (by omega) positive with
    ⟨short, refused⟩ | ⟨block, listed, enough, best, granted⟩
  · refine iff_of_false (fun served => ?_) fun found => ?_
    · obtain ⟨after, served⟩ := served
      cases refused.unique served
    · obtain ⟨size, listed, enough, _⟩ := found
      exact absurd (short _ listed) (Nat.not_lt.mpr enough)
  · constructor
    · intro served
      obtain ⟨after, served⟩ := served
      cases granted.unique served
      exact ⟨block.size, listed, enough, best⟩
    · intro found
      obtain ⟨size, listedPage, enoughPage, bestPage⟩ := found
      have one := best _ listedPage enoughPage
      have two := bestPage block listed enough
      obtain rfl : page = block.start := by
        simp only at one two
        omega
      exact ⟨_, granted⟩

theorem best_fit_shortest_third : ∃ client trace last after,
    Booted bestFitPmmManager bootMemory 0 6 client ∧ Run (Step bestFitPmmManager) client trace last ∧
    trace.map Prod.snd = [.alloc 3, .alloc 1, .free ⟨0, 3⟩] ∧
    Returns (bestFitAllocPages last.memory 2) (some 4, after) ∧
    ∃ size, Maximal (Vacant 0 6 last.outstanding) ⟨4, size⟩ ∧ 2 ≤ size := by
  obtain ⟨client, trace, last, after, booted, run, labels, order, _, granted⟩ :=
    third_left .bestFit [.alloc 3, .alloc 1, .free ⟨0, 3⟩] 4 (by decide +kernel)
  obtain ⟨size, maximal, enough, _⟩ :=
    (best_fit_shortest booted run (by decide) order (show 0 < 2 by decide) 4).mp ⟨after, granted⟩
  exact ⟨client, trace, last, after, booted, run, labels, granted, size, maximal, enough⟩

end Ucore.Mm.Fit
