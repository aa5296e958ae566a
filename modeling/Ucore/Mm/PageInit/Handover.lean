import Ucore.Data.Extent
import Ucore.Mm.PageInit

namespace Ucore.Mm.PageInit

open Ucore.Data Ucore.Driver Extent

/-! Which frames `page_init` hands over to the manager. -/

/-- The kernel ends inside the memory that the device tree reports. -/
structure MemoryMap (kernelEnd : Nat) (info : MemoryInfo) : Prop where
  image : KERNBASE ≤ kernelEnd
  width : kernelEnd < 2 ^ 64
  dram : DRAM_BASE ≤ info.memoryBase
  loaded : info.memoryBase ≤ kernelEnd - va_pa_offset
  room : kernelEnd - va_pa_offset < info.memoryBase + info.memorySize
  range : info.memoryBase + info.memorySize < 2 ^ 64

/-- The frames of this many descriptors, as physical addresses. -/
def frames (index n : Nat) : Extent := ⟨page2pa index, n * PGSIZE⟩

/-- The kernel from its first byte to `end`, as physical addresses. -/
def kernelImage (kernelEnd : Nat) : Extent :=
  ⟨uint64Sub KERNBASE va_pa_offset, kernelEnd - KERNBASE⟩

def descriptorArray (pages npage : Nat) : Extent :=
  ⟨uint64Sub pages va_pa_offset, sizeofPage * (npage - nbase)⟩

/-- The `n` frames from `base` on are usable memory with reserved descriptors, and free. -/
structure Handover (kernelEnd : Nat) (info : MemoryInfo) (result : PageInit) (base n : Nat) :
    Prop where
  positive : 1 ≤ n
  usable : ∃ index, base = pageAt result.pages index ∧ index + n ≤ result.npage - nbase ∧
    (∀ i < n, PageReserved (result.descriptors (pageAt result.pages (index + i))).flags = true) ∧
    (frames index n).points ⊆ (⟨info.memoryBase, info.memorySize⟩ : Extent).points ∧
    Disjoint (frames index n).points (kernelImage kernelEnd).points ∧
    Disjoint (frames index n).points (descriptorArray result.pages result.npage).points

/-- There is no call with other frames, and no panic in `pa2page`. -/
def Safe (kernelEnd : Nat) (info : MemoryInfo) (outcome : Except Stop PageInit) : Prop :=
  outcome ≠ .error (.panic "pa2page called with invalid pa") ∧
    ∀ result base n, outcome = .ok result → result.initMemmap = some (base, n) →
      Handover kernelEnd info result base n

/-- The address of the first byte behind the descriptors of all frames up to `memEnd`. -/
def arrayEnd (kernelEnd memEnd : Nat) : Nat :=
  ROUNDUP kernelEnd PGSIZE + sizeofPage * (memEnd / PGSIZE - nbase)

/-- The descriptors of all frames up to `memEnd` fit between the kernel and the end of the address
space. -/
def ArrayFits (kernelEnd memEnd : Nat) : Prop :=
  KERNBASE ≤ ROUNDUP kernelEnd PGSIZE ∧ arrayEnd kernelEnd memEnd < 2 ^ 64

/-- The array of descriptors fits and ends strictly inside the last whole frame below `memEnd`. -/
def EndsInLastFrame (kernelEnd memEnd : Nat) : Prop :=
  ArrayFits kernelEnd memEnd ∧
    arrayEnd kernelEnd memEnd - va_pa_offset < ROUNDDOWN memEnd PGSIZE ∧
    ROUNDDOWN memEnd PGSIZE < arrayEnd kernelEnd memEnd - va_pa_offset + PGSIZE

instance (kernelEnd memEnd : Nat) : Decidable (EndsInLastFrame kernelEnd memEnd) :=
  inferInstanceAs (Decidable ((_ ∧ _) ∧ _ ∧ _))

variable {kernelEnd pages index rounds i : Nat} {info : MemoryInfo} {descriptors after : Nat → Page}

theorem uint64_add_inj {first second : Nat} (firstFits : first < 2 ^ 64)
    (secondFits : second < 2 ^ 64) (same : uint64 (pages + first) = uint64 (pages + second)) :
    first = second := by
  simp only [uint64] at same
  omega

theorem pageAt_inj {first second : Nat} (firstFits : first < 2 ^ 52) (secondFits : second < 2 ^ 52)
    (same : pageAt pages first = pageAt pages second) : first = second := by
  have equal := uint64_add_inj (by rw [sizeofPage]; omega) (by rw [sizeofPage]; omega) same
  exact Nat.eq_of_mul_eq_mul_left (by decide) equal

theorem reservePages_ok (fits : i + rounds < 2 ^ 52)
    (done : reservePages pages i descriptors rounds = .ok after) :
    (∀ index, i ≤ index → index < i + rounds →
      PageReserved (after (pageAt pages index)).flags = true) ∧
    ∀ index < i, after (pageAt pages index) = descriptors (pageAt pages index) := by
  induction rounds generalizing i descriptors with
  | zero =>
      cases done
      exact ⟨fun index above below => by omega, fun index below => rfl⟩
  | succ rounds ih =>
      simp only [reservePages] at done
      split at done
      · cases done
      · obtain ⟨marked, kept⟩ := ih (by omega) done
        refine ⟨fun index above below => ?_, fun index below => ?_⟩
        · rcases Nat.eq_or_lt_of_le above with rfl | later
          · rw [kept i (Nat.lt_succ_self i), Function.update_self]
            exact pageReserved_set _
          · exact marked index later (by omega)
        · have different : pageAt pages index ≠ pageAt pages i := fun same => by
            have equal := pageAt_inj (by omega) (by omega) same
            omega
          rw [kept index (by omega), Function.update_of_ne different]

theorem reservePages_cases (pages i : Nat) (descriptors : Nat → Page) (rounds : Nat) :
    reservePages pages i descriptors rounds = .error (.panic "store page fault") ∨
      ∃ after, reservePages pages i descriptors rounds = .ok after := by
  induction rounds generalizing i descriptors with
  | zero => exact .inr ⟨descriptors, rfl⟩
  | succ rounds ih =>
      simp only [reservePages]
      split
      · exact .inl rfl
      · exact ih _ _

theorem reservePages_returns (mapped : mappedBase ≤ pages)
    (fits : pages + sizeofPage * (i + rounds) ≤ 2 ^ 64) :
    ∃ after, reservePages pages i descriptors rounds = .ok after := by
  induction rounds generalizing i descriptors with
  | zero => exact ⟨descriptors, rfl⟩
  | succ rounds ih =>
      simp only [sizeofPage] at fits
      have inside : ¬ uint64 (pageAt pages i + 8) < mappedBase := by
        simp only [pageAt, sizeofPage, uint64]
        omega
      simp only [reservePages, if_neg inside]
      exact ih (by simp only [sizeofPage]; omega)

theorem roundDown_le (a n : Nat) : ROUNDDOWN a n ≤ a :=
  Nat.sub_le _ _

theorem roundDown_eq (a n : Nat) : ROUNDDOWN a n = n * (a / n) := by
  have split := Nat.mod_add_div a n
  rw [ROUNDDOWN]
  omega

theorem roundUp_cases {a : Nat} (fits : a < 2 ^ 64) :
    ROUNDUP a PGSIZE = 0 ∧ 2 ^ 64 < a + PGSIZE ∨
      a ≤ ROUNDUP a PGSIZE ∧ ROUNDUP a PGSIZE < a + PGSIZE ∧ ROUNDUP a PGSIZE < 2 ^ 64 := by
  by_cases wraps : 2 ^ 64 < a + PGSIZE
  · left
    simp only [ROUNDUP, ROUNDDOWN, uint64, PGSIZE] at *
    omega
  · right
    simp only [ROUNDUP, ROUNDDOWN, uint64, PGSIZE] at *
    omega

/-- An array that is not placed behind the kernel, or wraps around, ends far below the kernel. -/
theorem uint64_end {pages bytes : Nat} (placed : pages = 0 ∨ KERNBASE ≤ pages ∧ pages < 2 ^ 64)
    (small : bytes < 2 ^ 58) :
    KERNBASE ≤ uint64 (pages + bytes) ↔ KERNBASE ≤ pages ∧ pages + bytes < 2 ^ 64 := by
  simp only [uint64, KERNBASE] at *
  omega

theorem npageOf_lt (memEnd : Nat) : npageOf memEnd < 2 ^ 52 := by
  unfold npageOf
  by_cases clamped : memEnd > KERNTOP
  · rw [if_pos clamped]
    decide
  · rw [if_neg clamped]
    simp only [KERNTOP, KERNBASE, KMEMSIZE, PGSIZE] at *
    omega

/-- The clamp to `KERNTOP` only concerns ranges whose descriptors do not fit anyway. -/
theorem arrayFits_iff {memEnd : Nat} : ArrayFits kernelEnd memEnd ↔
    KERNBASE ≤ ROUNDUP kernelEnd PGSIZE ∧
      ROUNDUP kernelEnd PGSIZE + sizeofPage * (npageOf memEnd - nbase) < 2 ^ 64 := by
  simp only [ArrayFits, arrayEnd, npageOf]
  by_cases clamped : memEnd > KERNTOP
  · rw [if_pos clamped]
    simp only [KERNBASE, KERNTOP, KMEMSIZE, PGSIZE, sizeofPage, nbase, DRAM_BASE] at *
    omega
  · rw [if_neg clamped]

theorem npageOf_eq {memEnd : Nat} (fits : ArrayFits kernelEnd memEnd) :
    npageOf memEnd = memEnd / PGSIZE := by
  obtain ⟨placed, ends⟩ := fits
  have unclamped : ¬ memEnd > KERNTOP := by
    simp only [arrayEnd, KERNBASE, KERNTOP, KMEMSIZE, PGSIZE, sizeofPage, nbase, DRAM_BASE] at *
    omega
  rw [npageOf, if_neg unclamped]

theorem nbase_le_npageOf (map : MemoryMap kernelEnd info) :
    nbase ≤ npageOf (info.memoryBase + info.memorySize) := by
  have image := map.image
  have room := map.room
  unfold npageOf
  by_cases clamped : info.memoryBase + info.memorySize > KERNTOP
  · simp only [if_pos clamped]
    decide
  · simp only [if_neg clamped]
    simp only [KERNBASE, PGSIZE, nbase, DRAM_BASE, va_pa_offset, PHYSICAL_MEMORY_OFFSET] at *
    omega

/-- What is left of `page_init` once the size of the memory is known. -/
theorem pageInit_eq (map : MemoryMap kernelEnd info) :
    pageInit descriptors kernelEnd info = (do
      let npage := npageOf (info.memoryBase + info.memorySize)
      let pages := ROUNDUP kernelEnd PGSIZE
      let descriptors ← reservePages pages 0 descriptors (npage - nbase)
      let freemem ← PADDR (uint64 (pages + sizeofPage * (npage - nbase)))
      handOver npage pages descriptors freemem (info.memoryBase + info.memorySize)) := by
  have loaded := map.loaded
  have room := map.room
  have some : info.memorySize ≠ 0 := by omega
  have few := npageOf_lt (info.memoryBase + info.memorySize)
  have count := uint64Sub_of_le (few.trans (by decide)) (nbase_le_npageOf map)
  unfold pageInit
  simp only [if_neg some, uint64_of_lt map.range, count]

/-- Without room for the array the loop faults, or the end of the array is no kernel address. -/
theorem pageInit_misfit (map : MemoryMap kernelEnd info)
    (misfit : ¬ ArrayFits kernelEnd (info.memoryBase + info.memorySize)) :
    pageInit descriptors kernelEnd info = .error (.panic "store page fault") ∨
      pageInit descriptors kernelEnd info = .error (.panic "PADDR called with invalid kva") := by
  have image := map.image
  have few := npageOf_lt (info.memoryBase + info.memorySize)
  have placed := roundUp_cases map.width
  rw [arrayFits_iff, ← uint64_end (by omega) (by rw [sizeofPage]; omega)] at misfit
  rw [pageInit_eq map]
  rcases reservePages_cases (ROUNDUP kernelEnd PGSIZE) 0 descriptors
    (npageOf (info.memoryBase + info.memorySize) - nbase) with fault | ⟨after, reserved⟩
  · left
    simp only [fault, error_bind]
  · right
    simp only [reserved, PADDR, if_pos (Nat.lt_of_not_le misfit), ok_bind, error_bind]

theorem PADDR_arrayEnd {memEnd : Nat} (fits : ArrayFits kernelEnd memEnd) :
    PADDR (uint64 (arrayEnd kernelEnd memEnd)) = .ok (arrayEnd kernelEnd memEnd - va_pa_offset) := by
  obtain ⟨placed, ends⟩ := fits
  have kernel : KERNBASE ≤ arrayEnd kernelEnd memEnd := placed.trans (Nat.le_add_right _ _)
  have offset : va_pa_offset ≤ arrayEnd kernelEnd memEnd := Nat.le_trans (by decide) kernel
  rw [uint64_of_lt ends, PADDR, if_neg (Nat.not_lt.mpr kernel), uint64Sub_of_le ends offset]

theorem pageInit_fits (map : MemoryMap kernelEnd info) (descriptors : Nat → Page)
    (fits : ArrayFits kernelEnd (info.memoryBase + info.memorySize)) :
    ∃ after, (∀ index < (info.memoryBase + info.memorySize) / PGSIZE - nbase,
        PageReserved (after (pageAt (ROUNDUP kernelEnd PGSIZE) index)).flags = true) ∧
      pageInit descriptors kernelEnd info =
        handOver ((info.memoryBase + info.memorySize) / PGSIZE) (ROUNDUP kernelEnd PGSIZE) after
          (arrayEnd kernelEnd (info.memoryBase + info.memorySize) - va_pa_offset)
          (info.memoryBase + info.memorySize) := by
  have count := npageOf_eq fits
  have few := npageOf_lt (info.memoryBase + info.memorySize)
  have ends := PADDR_arrayEnd fits
  have room : ROUNDUP kernelEnd PGSIZE +
      sizeofPage * (0 + ((info.memoryBase + info.memorySize) / PGSIZE - nbase)) ≤ 2 ^ 64 := by
    rw [Nat.zero_add]
    exact fits.2.le
  obtain ⟨after, reserved⟩ := @reservePages_returns _ _ _ descriptors
    (Nat.le_trans (by decide) fits.1) room
  rw [count] at few
  have marked := (reservePages_ok (by omega) reserved).1
  refine ⟨after, fun index below => marked index (Nat.zero_le _) (by omega), ?_⟩
  rw [arrayEnd] at ends
  rw [pageInit_eq map]
  simp only [count, reserved]
  rw [ok_bind, ends, ok_bind, arrayEnd]

/-- In the last whole frame `freemem` is rounded up to the end of the memory. -/
theorem handOver_lastFrame {freemem memEnd : Nat} (fits : memEnd < 2 ^ 64)
    (below : freemem < ROUNDDOWN memEnd PGSIZE)
    (last : ROUNDDOWN memEnd PGSIZE < freemem + PGSIZE) :
    handOver (memEnd / PGSIZE) pages descriptors freemem memEnd =
      .error (.panic "pa2page called with invalid pa") := by
  have rounded : ROUNDUP freemem PGSIZE = ROUNDDOWN memEnd PGSIZE := by
    simp only [ROUNDUP, ROUNDDOWN, uint64, PGSIZE] at *
    omega
  have beyond : PPN (ROUNDDOWN memEnd PGSIZE) ≥ memEnd / PGSIZE := by
    rw [PPN, Nat.shiftRight_eq_div_pow, roundDown_eq]
    simp only [PGSIZE, PGSHIFT]
    omega
  simp only [handOver, if_pos below, rounded, pa2page, if_pos beyond, error_bind]

theorem handOver_frames {freemem memEnd : Nat} (fits : memEnd < 2 ^ 64)
    (above : DRAM_BASE ≤ freemem) (before : freemem + PGSIZE ≤ ROUNDDOWN memEnd PGSIZE) :
    ∃ index n, handOver (memEnd / PGSIZE) pages descriptors freemem memEnd =
        .ok ⟨memEnd / PGSIZE, pages, descriptors, some (pageAt pages index, n)⟩ ∧
      1 ≤ n ∧ index + n = memEnd / PGSIZE - nbase ∧ freemem ≤ page2pa index ∧
      page2pa index + n * PGSIZE = ROUNDDOWN memEnd PGSIZE := by
  have below : freemem < ROUNDDOWN memEnd PGSIZE := lt_of_lt_of_le (by simp [PGSIZE]) before
  have divides : ∃ first, ROUNDUP freemem PGSIZE = PGSIZE * first ∧
      freemem ≤ PGSIZE * first ∧ PGSIZE * first < freemem + PGSIZE := by
    refine ⟨uint64 (freemem + PGSIZE - 1) / PGSIZE, roundDown_eq _ _, ?_⟩
    simp only [ROUNDDOWN, uint64, PGSIZE] at *
    omega
  obtain ⟨first, rounded, lower, upper⟩ := divides
  have start : nbase ≤ first := by
    simp only [nbase, DRAM_BASE, PGSIZE] at *
    omega
  rw [roundDown_eq] at below before ⊢
  have frame : PPN (PGSIZE * first) = first := by
    rw [PPN, Nat.shiftRight_eq_div_pow]
    exact Nat.mul_div_cancel_left _ (by decide)
  have inside : ¬ PPN (PGSIZE * first) ≥ memEnd / PGSIZE := by
    simp only [frame, PGSIZE] at *
    omega
  have address : page2pa (first - nbase) = PGSIZE * first := by
    rw [page2pa, page2ppn, Nat.sub_add_cancel start, Nat.shiftLeft_eq, Nat.mul_comm]
    exact uint64_of_lt (by simp only [PGSIZE, PGSHIFT] at *; omega)
  refine ⟨first - nbase, memEnd / PGSIZE - first, ?_, ?_, ?_, ?_, ?_⟩
  · have count : uint64Sub (PGSIZE * (memEnd / PGSIZE)) (PGSIZE * first) / PGSIZE =
        memEnd / PGSIZE - first := by
      rw [uint64Sub_of_le (by simp only [PGSIZE] at *; omega) (by simp only [PGSIZE] at *; omega)]
      simp only [PGSIZE]
      omega
    have offset : uint64Sub (PPN (PGSIZE * first)) nbase = first - nbase := by
      rw [frame, uint64Sub_of_le (by simp only [PGSIZE] at *; omega) start]
    simp only [handOver, roundDown_eq memEnd, if_pos below, rounded, pa2page, if_neg inside, offset,
      count, ok_bind]
  · simp only [PGSIZE] at *
    omega
  · simp only [PGSIZE] at *
    omega
  · rw [address]
    exact lower
  · rw [address]
    simp only [PGSIZE] at *
    omega

theorem pageInit_lastFrame (map : MemoryMap kernelEnd info)
    (ends : EndsInLastFrame kernelEnd (info.memoryBase + info.memorySize)) :
    pageInit descriptors kernelEnd info = .error (.panic "pa2page called with invalid pa") := by
  obtain ⟨fits, below, last⟩ := ends
  obtain ⟨after, _, run⟩ := pageInit_fits map descriptors fits
  rw [run]
  exact handOver_lastFrame map.range below last

theorem safe_of_panic {message : String} (other : message ≠ "pa2page called with invalid pa") :
    Safe kernelEnd info (.error (.panic message)) := by
  refine ⟨fun same => ?_, fun result base n done => ?_⟩
  · injection same with same
    injection same with same
    exact other same
  · cases done

theorem handover_frames {index n memEnd : Nat} (map : MemoryMap kernelEnd info)
    (isEnd : memEnd = info.memoryBase + info.memorySize) (fits : ArrayFits kernelEnd memEnd)
    (positive : 1 ≤ n) (array : index + n = memEnd / PGSIZE - nbase)
    (behind : arrayEnd kernelEnd memEnd - va_pa_offset ≤ page2pa index)
    (upTo : page2pa index + n * PGSIZE = ROUNDDOWN memEnd PGSIZE)
    (marked : ∀ index < memEnd / PGSIZE - nbase,
      PageReserved (after (pageAt (ROUNDUP kernelEnd PGSIZE) index)).flags = true) :
    Handover kernelEnd info ⟨memEnd / PGSIZE, ROUNDUP kernelEnd PGSIZE, after,
      some (pageAt (ROUNDUP kernelEnd PGSIZE) index, n)⟩ (pageAt (ROUNDUP kernelEnd PGSIZE) index) n := by
  have image := map.image
  have loaded := map.loaded
  have width := map.width
  have upper := roundDown_le memEnd PGSIZE
  obtain ⟨placed, ends⟩ := fits
  have rounded := roundUp_cases width
  have offset : uint64Sub (ROUNDUP kernelEnd PGSIZE) va_pa_offset =
      ROUNDUP kernelEnd PGSIZE - va_pa_offset :=
    uint64Sub_of_le (lt_of_le_of_lt (Nat.le_add_right _ _) ends) (Nat.le_trans (by decide) placed)
  refine ⟨positive, index, rfl, array.le, fun i below => marked _ (by omega), ?_, ?_, ?_⟩
  · intro address inside
    simp only [frames, mem_points] at inside ⊢
    simp only [arrayEnd, KERNBASE, va_pa_offset, PHYSICAL_MEMORY_OFFSET] at *
    omega
  · rw [disjoint_iff]
    intro address inFrames inImage
    simp only [frames, kernelImage, mem_points] at inFrames inImage
    have start : uint64Sub KERNBASE va_pa_offset = KERNBASE - va_pa_offset := by decide
    simp only [arrayEnd, KERNBASE, va_pa_offset, PHYSICAL_MEMORY_OFFSET] at *
    omega
  · rw [disjoint_iff]
    intro address inFrames inArray
    simp only [frames, descriptorArray, mem_points, offset] at inFrames inArray
    simp only [arrayEnd, KERNBASE, va_pa_offset, PHYSICAL_MEMORY_OFFSET] at *
    omega

/-- `page_init` hands over usable frames, or none, unless the array of descriptors ends inside the
last whole frame.  Then it panics in `pa2page`. -/
theorem pageInit_safe_iff (map : MemoryMap kernelEnd info) (descriptors : Nat → Page) :
    Safe kernelEnd info (pageInit descriptors kernelEnd info) ↔
      ¬ EndsInLastFrame kernelEnd (info.memoryBase + info.memorySize) := by
  constructor
  · intro safe ends
    exact safe.1 (pageInit_lastFrame map ends)
  · intro outside
    by_cases fits : ArrayFits kernelEnd (info.memoryBase + info.memorySize)
    · obtain ⟨after, marked, run⟩ := pageInit_fits map descriptors fits
      have range := map.range
      rw [run]
      generalize isEnd : info.memoryBase + info.memorySize = memEnd at *
      by_cases below : arrayEnd kernelEnd memEnd - va_pa_offset < ROUNDDOWN memEnd PGSIZE
      · have before : arrayEnd kernelEnd memEnd - va_pa_offset + PGSIZE ≤ ROUNDDOWN memEnd PGSIZE :=
          Nat.le_of_not_lt fun last => outside ⟨fits, below, last⟩
        have above : DRAM_BASE ≤ arrayEnd kernelEnd memEnd - va_pa_offset := by
          have placed := fits.1
          simp only [arrayEnd, KERNBASE, va_pa_offset, PHYSICAL_MEMORY_OFFSET, DRAM_BASE] at *
          omega
        obtain ⟨index, n, called, positive, array, behind, upTo⟩ :=
          @handOver_frames (ROUNDUP kernelEnd PGSIZE) after _ _ range above before
        rw [called]
        refine ⟨by simp, fun result base count done call => ?_⟩
        cases done
        cases call
        exact handover_frames map isEnd.symm fits positive array behind upTo marked
      · have none : handOver (memEnd / PGSIZE) (ROUNDUP kernelEnd PGSIZE) after
            (arrayEnd kernelEnd memEnd - va_pa_offset) memEnd =
              .ok ⟨memEnd / PGSIZE, ROUNDUP kernelEnd PGSIZE, after, none⟩ := by
          simp only [handOver, if_neg below]
        rw [none]
        refine ⟨by simp, fun result base count done call => ?_⟩
        cases done
        cases call
    · rcases pageInit_misfit map fits with fault | invalid
      · rw [fault]
        exact safe_of_panic (by decide)
      · rw [invalid]
        exact safe_of_panic (by decide)

def noDescriptors : Nat → Page := fun _ => { ref := 0, flags := 0, property := 0 }

theorem memoryMap_128M : MemoryMap 0xFFFFFFFFC0208000 ⟨0x80000000, 0x8000000⟩ :=
  ⟨by decide, by decide, by decide, by decide, by decide, by decide⟩

/-- With 128 MiB of memory behind a kernel of 32 KiB. -/
theorem pageInit_safe_128M : Safe 0xFFFFFFFFC0208000 ⟨0x80000000, 0x8000000⟩
    (pageInit noDescriptors 0xFFFFFFFFC0208000 ⟨0x80000000, 0x8000000⟩) :=
  (pageInit_safe_iff memoryMap_128M noDescriptors).mpr (by decide)

/-- The same kernel with memory up to `0x8020E000`: the array ends at `0x8020D230`. -/
theorem pageInit_panics :
    MemoryMap 0xFFFFFFFFC0208000 ⟨0x80000000, 0x20E000⟩ ∧
      ¬ Safe 0xFFFFFFFFC0208000 ⟨0x80000000, 0x20E000⟩
        (pageInit noDescriptors 0xFFFFFFFFC0208000 ⟨0x80000000, 0x20E000⟩) := by
  have map : MemoryMap 0xFFFFFFFFC0208000 ⟨0x80000000, 0x20E000⟩ :=
    ⟨by decide, by decide, by decide, by decide, by decide, by decide⟩
  exact ⟨map, fun safe => safe.1 (pageInit_lastFrame map (by decide))⟩

end Ucore.Mm.PageInit
