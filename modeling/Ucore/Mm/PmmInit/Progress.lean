import Ucore.Driver.Dtb.Discovery
import Ucore.Mm.PmmInit.Initialised

namespace Ucore.Mm.PmmInit

open Ucore.Data Ucore.Driver Ucore.Libs Buddy BuddyCheck PageInit Extent

/-! When `pmm_init` returns. -/

variable {layout : Layout} {kernelEnd memEnd freemem pages base n : Nat} {info : MemoryInfo}
  {memory after : BuddyMemory} {descriptors : Nat → Page}

/-- The number of the first frame behind the descriptors. -/
def firstFrame (kernelEnd memEnd : Nat) : Nat :=
  PPN (ROUNDUP (arrayEnd kernelEnd memEnd - va_pa_offset) PGSIZE)

/-- The number of frames from there to the end of the memory. -/
def frameCount (kernelEnd memEnd : Nat) : Nat := memEnd / PGSIZE - firstFrame kernelEnd memEnd

theorem roundUp_eq (a : Nat) : ROUNDUP a PGSIZE = PGSIZE * PPN (ROUNDUP a PGSIZE) := by
  rw [ROUNDUP, roundDown_eq, PageArray.PPN_eq, Nat.mul_div_cancel_left _ (by decide)]

theorem handOver_first (fits : memEnd < 2 ^ 64) (above : DRAM_BASE ≤ freemem)
    (before : freemem + PGSIZE ≤ ROUNDDOWN memEnd PGSIZE) :
    nbase ≤ PPN (ROUNDUP freemem PGSIZE) ∧ PPN (ROUNDUP freemem PGSIZE) < memEnd / PGSIZE ∧
    handOver (memEnd / PGSIZE) pages descriptors freemem memEnd =
      .ok ⟨memEnd / PGSIZE, pages, descriptors, some (pageAt pages (PPN (ROUNDUP freemem PGSIZE) - nbase),
        memEnd / PGSIZE - PPN (ROUNDUP freemem PGSIZE))⟩ := by
  have below : freemem < ROUNDDOWN memEnd PGSIZE := lt_of_lt_of_le (by simp [PGSIZE]) before
  have bounds : freemem ≤ ROUNDUP freemem PGSIZE ∧ ROUNDUP freemem PGSIZE < freemem + PGSIZE := by
    have lower := roundDown_le memEnd PGSIZE
    rcases roundUp_cases (show freemem < 2 ^ 64 by omega) with wraps | rounded
    · omega
    · exact ⟨rounded.1, rounded.2.1⟩
  rw [roundDown_eq] at before below
  have rounded := roundUp_eq freemem
  generalize PPN (ROUNDUP freemem PGSIZE) = first at *
  rw [rounded] at bounds
  simp only [handOver, roundDown_eq memEnd, if_pos below, rounded]
  have frame : PPN (PGSIZE * first) = first := by
    rw [PageArray.PPN_eq]
    exact Nat.mul_div_cancel_left _ (by decide)
  have start : nbase ≤ first := by
    simp only [nbase, DRAM_BASE, PGSIZE] at *
    omega
  have inside : first < memEnd / PGSIZE := by
    simp only [PGSIZE] at *
    omega
  have offset : uint64Sub first nbase = first - nbase :=
    uint64Sub_of_le (by simp only [PGSIZE] at *; omega) start
  have count : uint64Sub (PGSIZE * (memEnd / PGSIZE)) (PGSIZE * first) / PGSIZE =
      memEnd / PGSIZE - first := by
    rw [uint64Sub_of_le (by simp only [PGSIZE] at *; omega) (by simp only [PGSIZE] at *; omega)]
    simp only [PGSIZE]
    omega
  refine ⟨start, inside, ?_⟩
  simp only [pa2page, frame, if_neg (Nat.not_le.mpr inside), offset, count, ok_bind]

/-! Eight pages are enough for the check. -/

theorem eight_le_iff (aligned : 2 ^ min MAX_ORDER (Nat.log 2 n) ∣ base) :
    4 ≤ (vacancies base n [] 1).card ∧ (vacancies base n [] 2).Nonempty ↔ 8 ≤ n := by
  have vacant {start order : Nat} : start ∈ vacancies base n [] order ↔
      2 ^ order ∣ start ∧ base ≤ start ∧ start + 2 ^ order ≤ base + n := by
    have power := Nat.two_pow_pos order
    rw [mem_vacancies]
    refine and_congr_right fun _ => ⟨fun inside => ?_, fun bounds point inside => ?_⟩
    · have first := inside start (Block.start_mem ⟨start, order⟩)
      have last := inside (start + 2 ^ order - 1)
        (mem_points.mpr ⟨by simp only [Block.extent]; omega, by simp only [Block.extent]; omega⟩)
      omega
    · simp only [Block.extent, mem_points] at inside
      exact ⟨by omega, by omega, by simp [Taken]⟩
  constructor
  · intro enough
    by_contra few
    have three : (vacancies base n [] 1).card ≤ (Finset.range 3).card := by
      refine Finset.card_le_card_of_injOn (fun start => (start - base) / 2) (fun start member => ?_)
        fun first inFirst second inSecond same => ?_
      · have bounds := vacant.mp member
        simp only [Finset.coe_range, Set.mem_Iio]
        omega
      · have boundsFirst := vacant.mp inFirst
        have boundsSecond := vacant.mp inSecond
        simp only at same
        omega
    rw [Finset.card_range] at three
    omega
  · intro enough
    have eighth : 2 ^ 3 ∣ base := by
      refine (Nat.pow_dvd_pow 2 (le_min (by decide) ?_)).trans aligned
      exact Nat.le_log_of_pow_le (by decide) enough
    have four : {base, base + 2, base + 4, base + 6} ⊆ vacancies base n [] 1 := by
      intro start member
      simp only [Finset.mem_insert, Finset.mem_singleton] at member
      exact vacant.mpr ⟨by omega, by omega, by omega⟩
    have size := Finset.card_le_card four
    have distinct : ({base, base + 2, base + 4, base + 6} : Finset Nat).card = 4 := by
      simp [Finset.card_insert_of_notMem]
    exact ⟨distinct ▸ size, base, vacant.mpr ⟨by omega, le_rfl, by omega⟩⟩

theorem freemem_bounds (fits : ArrayFits kernelEnd memEnd) :
    DRAM_BASE ≤ arrayEnd kernelEnd memEnd - va_pa_offset ∧
      arrayEnd kernelEnd memEnd - va_pa_offset ≤ PGSIZE * firstFrame kernelEnd memEnd := by
  obtain ⟨placed, ends⟩ := fits
  have kernel : KERNBASE ≤ arrayEnd kernelEnd memEnd := placed.trans (Nat.le_add_right _ _)
  have small : arrayEnd kernelEnd memEnd - va_pa_offset < 2 ^ 63 := by
    simp only [va_pa_offset, PHYSICAL_MEMORY_OFFSET]
    omega
  rw [firstFrame, ← roundUp_eq]
  constructor
  · simp only [KERNBASE, va_pa_offset, PHYSICAL_MEMORY_OFFSET, DRAM_BASE] at *
    omega
  · rcases roundUp_cases (show arrayEnd kernelEnd memEnd - va_pa_offset < 2 ^ 64 by omega) with
      wraps | rounded
    · rw [PGSIZE] at wraps
      omega
    · exact rounded.1

theorem frames_lt (fits : ArrayFits kernelEnd memEnd) : memEnd / PGSIZE < 2 ^ 32 := by
  obtain ⟨placed, ends⟩ := fits
  simp only [arrayEnd, KERNBASE, sizeofPage, nbase, DRAM_BASE, PGSIZE] at *
  omega

/-- The check runs on the region that `page_init` hands over. -/
theorem handed_decides {result : Mm.PageInit} {index : Nat}
    (initialised : Initialised kernelEnd info (descriptorOf (buddyInit layout memory)) result)
    (placed : layout.pages = ROUNDUP kernelEnd PGSIZE) (few : result.npage < 2 ^ 32)
    (call : result.initMemmap = some (pageAt result.pages index, n))
    (inside : index + n ≤ result.npage - nbase)
    (aligned : 2 ^ min MAX_ORDER (Nat.log 2 n) ∣ index)
    (full : vacancies index n [] (MAX_ORDER + 1) = ∅) :
    Decides (8 ≤ n)
      (fun fuel => do
        let memory ← initMemmap layout (storeFlags (buddyInit layout memory) result.descriptors)
          result fuel
        let memory ← buddyCheck (buddyPmmManager layout) memory fuel
        .ok (result, memory))
      fun final => Intact layout index n final.2 [] := by
  generalize isStart : storeFlags (buddyInit layout memory) result.descriptors = start
  have fixed : buddyInit layout start = start := isStart ▸ storeFlags_init initialised placed
  obtain ⟨positive, other, isBase, most, marked, _⟩ := initialised.handover _ n call
  cases pageAt_inj (by omega) (by omega) isBase
  have reserved : ∀ page, index ≤ page → page < index + n →
      PageReserved (buddyFlags start (layout.page page)) = true := by
    intro page lower upper
    have mark := marked (page - index) (by omega)
    rw [Nat.add_sub_cancel' lower, initialised.pageAt_eq (by omega), initialised.pages, ← placed] at mark
    rw [← isStart]
    exact mark
  obtain ⟨middle, memmap⟩ := initMemmap_returns positive (show n < 2 ^ 42 by omega) reserved
  have booted : Booted (buddyPmmManager layout) start index n ⟨middle, []⟩ := ⟨memmap, rfl⟩
  have intact : Intact layout index n middle [] := canonical_run booted (.done _) aligned (by simp)
  have width : n < 2 ^ 32 := by omega
  have called : Returns (initMemmap layout start result) middle := by
    rw [fixed] at memmap
    simp only [initMemmap, call, index_eq initialised (Nat.le_of_add_right_le inside)]
    exact memmap
  have check := (buddyCheck_decides intact full width).congr (eight_le_iff aligned)
  refine .after called ((check.bind fun _ after intactAfter => ?_).congr (iff_of_eq (and_true _)))
  exact .of_returns trivial (.of_constant fun _ => rfl) intactAfter

/-- With no frames handed over, the check panics. -/
theorem pmmInit_nothing {result : Mm.PageInit} (map : MemoryMap kernelEnd info)
    (placed : layout.pages = ROUNDUP kernelEnd PGSIZE)
    (page : pageInit (descriptorOf (buddyInit layout memory)) kernelEnd info = .ok result)
    (nothing : result.initMemmap = none) :
    Ends (pmmInit layout kernelEnd info memory)
      (.error (.panic "assertion failed: a && b && c")) := by
  have failed := buddyCheck_none (storeFlags_holds (pageInit_initialised map page) placed)
  have skipped (fuel : Nat) : initMemmap layout (storeFlags (buddyInit layout memory)
      result.descriptors) result fuel = .ok (storeFlags (buddyInit layout memory) result.descriptors) := by
    simp only [initMemmap, nothing]
  refine Ends.bind (.of_constant fun _ => page) (Ends.bind (.of_constant skipped) ?_)
  exact Ends.bind_error (.of_constant failed)

/-- Without eight frames behind the descriptors `pmm_init` stops in a panic. -/
theorem pmmInit_decides (map : MemoryMap kernelEnd info)
    (placed : layout.pages = ROUNDUP kernelEnd PGSIZE)
    (isEnd : info.memoryBase + info.memorySize = memEnd)
    (aligned : 2 ^ min MAX_ORDER (Nat.log 2 (frameCount kernelEnd memEnd)) ∣
      firstFrame kernelEnd memEnd - nbase)
    (full : vacancies (firstFrame kernelEnd memEnd - nbase) (frameCount kernelEnd memEnd) []
      (MAX_ORDER + 1) = ∅) :
    Decides (ArrayFits kernelEnd memEnd ∧ 8 ≤ frameCount kernelEnd memEnd)
      (pmmInit layout kernelEnd info memory)
      fun final => Intact layout (firstFrame kernelEnd memEnd - nbase) (frameCount kernelEnd memEnd)
        final.2 [] := by
  have range := map.range
  have panics {message : String}
      (stops : pageInit (descriptorOf (buddyInit layout memory)) kernelEnd info =
        .error (.panic message)) :
      Ends (pmmInit layout kernelEnd info memory) (.error (.panic message)) :=
    Ends.bind_error (.of_constant fun _ => stops)
  by_cases fits : ArrayFits kernelEnd memEnd
  · obtain ⟨above, first⟩ := freemem_bounds fits
    obtain ⟨marked, _, run⟩ := pageInit_fits map (descriptorOf (buddyInit layout memory)) (isEnd ▸ fits)
    rw [isEnd] at run
    by_cases before : arrayEnd kernelEnd memEnd - va_pa_offset + PGSIZE ≤ ROUNDDOWN memEnd PGSIZE
    · obtain ⟨start, inside, called⟩ := @handOver_first memEnd _ (ROUNDUP kernelEnd PGSIZE) marked
        (isEnd ▸ range) above before
      have page := run.trans called
      have initialised := pageInit_initialised map page
      have upTo : firstFrame kernelEnd memEnd - nbase + frameCount kernelEnd memEnd ≤
          memEnd / PGSIZE - nbase := by
        simp only [frameCount, firstFrame]
        omega
      have check := handed_decides initialised placed (frames_lt fits) rfl upTo aligned full
      exact (Decides.after (.of_constant fun _ => page) check).congr
        ⟨fun enough => ⟨fits, enough⟩, fun enough => enough.2⟩
    · have few : ¬ 8 ≤ frameCount kernelEnd memEnd := by
        intro enough
        rw [roundDown_eq] at before
        simp only [frameCount, PGSIZE] at *
        omega
      by_cases below : arrayEnd kernelEnd memEnd - va_pa_offset < ROUNDDOWN memEnd PGSIZE
      · exact .of_panic (fun enough => few enough.2)
          (panics (run.trans (handOver_lastFrame (isEnd ▸ range) below (Nat.lt_of_not_le before))))
      · simp only [handOver, if_neg below] at run
        exact .of_panic (fun enough => few enough.2) (pmmInit_nothing map placed run rfl)
  · rw [← isEnd] at fits
    rcases @pageInit_misfit _ _ (descriptorOf (buddyInit layout memory)) map fits with fault | invalid
    · exact .of_panic (fun enough => fits (isEnd ▸ enough.1)) (panics fault)
    · exact .of_panic (fun enough => fits (isEnd ▸ enough.1)) (panics invalid)

section Tree

variable {blob : KernelMemory} {bootDtb structOffset stringsOffset size : Nat} {nodes : Dtb.Nodes}
  {items : List Dtb.Item} (present : bootDtb ≠ 0)
  (magic : Dtb.Word blob.image (uint64 (bootDtb + PHYSICAL_MEMORY_OFFSET)) FDT_MAGIC)
  (serialises : Dtb.Serialises nodes items)
  (laid : Dtb.Laid blob (uint64 (bootDtb + PHYSICAL_MEMORY_OFFSET)) structOffset stringsOffset items)
  (unmistaken : Dtb.Unmistaken nodes) (found : nodes.memoryRegs.head? = some (base, size))
  (map : MemoryMap kernelEnd ⟨base, size⟩) (placed : layout.pages = ROUNDUP kernelEnd PGSIZE)
  (aligned : 2 ^ min MAX_ORDER (Nat.log 2 (frameCount kernelEnd (base + size))) ∣
    firstFrame kernelEnd (base + size) - nbase)
  (full : vacancies (firstFrame kernelEnd (base + size) - nbase) (frameCount kernelEnd (base + size)) []
    (MAX_ORDER + 1) = ∅)

include present magic serialises laid unmistaken found map placed aligned full

theorem kernInit_decides (memory : BuddyMemory) :
    Decides (ArrayFits kernelEnd (base + size) ∧ 8 ≤ frameCount kernelEnd (base + size))
      (kernInit layout blob bootDtb kernelEnd memory)
      fun final => final.1 = ⟨base, size⟩ ∧ Intact layout (firstFrame kernelEnd (base + size) - nbase)
        (frameCount kernelEnd (base + size)) final.2.2 [] := by
  have discovered : Returns (dtbInit blob ⟨0, 0⟩ bootDtb) (Dtb.saved ⟨0, 0⟩ nodes.memoryRegs.head?) :=
    Dtb.dtbInit_memory present magic serialises laid unmistaken
  rw [found] at discovered
  have initialises := @pmmInit_decides layout kernelEnd _ ⟨base, size⟩ memory map placed rfl aligned full
  refine .after discovered ((initialises.bind fun _ final intact => ?_).congr (iff_of_eq (and_true _)))
  exact .of_returns trivial (.of_constant fun _ => rfl) ⟨rfl, intact⟩

/-- From a device tree whose memory leaves an aligned region, without an aligned run of twice the top
order, the set-up of the memory returns exactly if there are eight frames for the check.  Then the
range is that of the tree, and all the frames are free again. -/
theorem kernInit_returns_iff (memory : BuddyMemory) :
    ((∃ final, Returns (kernInit layout blob bootDtb kernelEnd memory) final) ↔
      ArrayFits kernelEnd (base + size) ∧ 8 ≤ frameCount kernelEnd (base + size)) ∧
    ∀ info result after, Returns (kernInit layout blob bootDtb kernelEnd memory) (info, result, after) →
      info = ⟨base, size⟩ ∧ buddyNrFreePages after = frameCount kernelEnd (base + size) := by
  have decides := kernInit_decides present magic serialises laid unmistaken found map placed aligned
    full memory
  refine ⟨decides.returns_iff, fun info result after returns => ?_⟩
  obtain ⟨range, intact⟩ := decides.post_of_returns returns
  have fits := (decides.returns_iff.mp ⟨_, returns⟩).1
  exact ⟨range, intact.counted ((Nat.sub_le _ _).trans_lt (frames_lt fits))⟩

end Tree

/-! A machine with 2176 KiB of memory, of which a kernel of 40 KiB leaves sixteen frames. -/

theorem smallName_noZero : 0 ∉ memoryName ++ [64, 56, 48, 48, 48, 48, 48, 48, 48] := by decide

def smallTree : Dtb.Nodes :=
  .node ⟨[], Dtb.rootName_noZero⟩ Dtb.cellProps
    (.node ⟨_, smallName_noZero⟩ [Dtb.rangeProp 0x80000000 0x220000] .none .none) .none

theorem small_fits :
    (Dtb.encode (smallTree.items ++ [.finish])).length + Dtb.cellStrings.length ≤ 2 ^ 20 := by
  decide +kernel

def smallBlob : KernelMemory := Dtb.treeBlob _ Dtb.cellStrings small_fits

def smallLayout : Layout := ⟨0, 0xFFFFFFFFC020A000, by decide⟩

theorem small_map : MemoryMap 0xFFFFFFFFC020A000 ⟨0x80000000, 0x220000⟩ :=
  ⟨by decide, by decide, by decide, by decide, by decide, by decide⟩

theorem small_placed : smallLayout.pages = ROUNDUP 0xFFFFFFFFC020A000 PGSIZE := by decide

theorem small_found : smallTree.memoryRegs.head? = some (0x80000000, 0x220000) := by decide

theorem small_room : ArrayFits 0xFFFFFFFFC020A000 (0x80000000 + 0x220000) ∧
    8 ≤ frameCount 0xFFFFFFFFC020A000 (0x80000000 + 0x220000) :=
  ⟨⟨by decide, by decide⟩, by decide +kernel⟩

theorem small_serialises : Dtb.Serialises smallTree (smallTree.items ++ [.finish]) :=
  Dtb.tree_serialises smallTree (by decide)

theorem small_magic : Dtb.Word smallBlob.image (uint64 (0x82200000 + PHYSICAL_MEMORY_OFFSET)) FDT_MAGIC := by
  have all : smallBlob.image.Holds Dtb.dtbAddress _ := Image.ofBytes_holds _ _
  simp only [Dtb.fdtHeader, Image.holds_append] at all
  exact ⟨by decide, all.1.1.1.1⟩

theorem small_laid : Dtb.Laid smallBlob (uint64 (0x82200000 + PHYSICAL_MEMORY_OFFSET)) 56
    (56 + (Dtb.encode (smallTree.items ++ [.finish])).length) (smallTree.items ++ [.finish]) :=
  Dtb.treeBlob_laid small_fits (by
    simp [smallTree, Dtb.Nodes.items, Dtb.cellProps, Dtb.rangeProp, Dtb.regProperty, Dtb.cellStrings,
      regName])

theorem small_unmistaken : Dtb.Unmistaken smallTree := by
  intro value first
  cases first

theorem kernInit_returns_small : ∃ info result after,
    Returns (kernInit smallLayout smallBlob 0x82200000 0xFFFFFFFFC020A000 bootMemory)
      (info, result, after) ∧ info = ⟨0x80000000, 0x220000⟩ ∧ buddyNrFreePages after = 16 := by
  obtain ⟨returns, counts⟩ := kernInit_returns_iff (by decide) small_magic small_serialises small_laid
    small_unmistaken small_found small_map small_placed (by decide +kernel) (by decide +kernel)
    bootMemory
  obtain ⟨final, done⟩ := returns.mpr small_room
  exact ⟨final.1, final.2.1, final.2.2, done, counts _ _ _ done⟩

/-- The same without the count. -/
theorem small_state : ∃ final,
    Returns (kernInit smallLayout smallBlob 0x82200000 0xFFFFFFFFC020A000 bootMemory) final ∧
      final.1 = ⟨0x80000000, 0x220000⟩ ∧ Intact smallLayout 528 16 final.2.2 [] :=
  (kernInit_decides (by decide) small_magic small_serialises small_laid small_unmistaken small_found
    small_map small_placed (by decide +kernel) (by decide +kernel) bootMemory).returns small_room

end Ucore.Mm.PmmInit
