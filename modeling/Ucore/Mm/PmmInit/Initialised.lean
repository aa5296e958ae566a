import Ucore.Mm.BuddyCheck.Outcome
import Ucore.Mm.PageArray
import Ucore.Mm.PageInit.Handover
import Ucore.Mm.PmmInit

namespace Ucore.Mm.PmmInit

open Ucore.Data Ucore.Driver Ucore.Libs Buddy BuddyCheck PageInit Extent

/-! What `page_init` leaves behind, and the memory that the manager starts in. -/

variable {layout : Layout} {kernelEnd pages rounds i base n address : Nat} {info : MemoryInfo}
  {memory middle after : BuddyMemory} {result : Mm.PageInit} {descriptors marked : Nat → Page}

theorem reservePages_frame (done : reservePages pages i descriptors rounds = .ok marked)
    (away : ∀ index, i ≤ index → index < i + rounds → address ≠ pageAt pages index) :
    marked address = descriptors address := by
  induction rounds generalizing i descriptors with
  | zero =>
      cases done
      rfl
  | succ rounds ih =>
      simp only [reservePages] at done
      split at done
      · cases done
      · rw [ih done fun index above below => away index (by omega) (by omega),
          Function.update_of_ne (away i le_rfl (by omega))]

/-- What is known of `page_init` once it returns. -/
structure Initialised (kernelEnd : Nat) (info : MemoryInfo) (descriptors : Nat → Page)
    (result : Mm.PageInit) : Prop where
  fits : ArrayFits kernelEnd (info.memoryBase + info.memorySize)
  pages : result.pages = ROUNDUP kernelEnd PGSIZE
  npage : result.npage = (info.memoryBase + info.memorySize) / PGSIZE
  reserved : reservePages result.pages 0 descriptors (result.npage - nbase) = .ok result.descriptors
  handover : ∀ base n, result.initMemmap = some (base, n) → Handover kernelEnd info result base n

theorem pageInit_initialised (map : MemoryMap kernelEnd info)
    (done : pageInit descriptors kernelEnd info = .ok result) :
    Initialised kernelEnd info descriptors result := by
  have fits : ArrayFits kernelEnd (info.memoryBase + info.memorySize) := by
    by_contra misfit
    rcases @pageInit_misfit _ _ descriptors map misfit with fault | invalid
    · rw [fault] at done
      cases done
    · rw [invalid] at done
      cases done
  rw [pageInit_eq map] at done
  simp only [bind_eq_ok] at done
  obtain ⟨marked, reserved, freemem, physical, handed⟩ := done
  have few := npageOf_lt (info.memoryBase + info.memorySize)
  rw [npageOf_eq fits] at reserved physical handed few
  have freeFrom := Except.ok.inj (physical.symm.trans (PADDR_arrayEnd fits))
  rw [freeFrom] at handed
  have marks := (reservePages_ok (by omega) reserved).1
  have range := map.range
  generalize isEnd : info.memoryBase + info.memorySize = memEnd at *
  by_cases below : arrayEnd kernelEnd memEnd - va_pa_offset < ROUNDDOWN memEnd PGSIZE
  · have before : arrayEnd kernelEnd memEnd - va_pa_offset + PGSIZE ≤ ROUNDDOWN memEnd PGSIZE := by
      refine Nat.le_of_not_lt fun last => ?_
      rw [handOver_lastFrame range below last] at handed
      cases handed
    have above : DRAM_BASE ≤ arrayEnd kernelEnd memEnd - va_pa_offset := by
      have placed := fits.1
      simp only [arrayEnd, KERNBASE, va_pa_offset, PHYSICAL_MEMORY_OFFSET, DRAM_BASE] at *
      omega
    obtain ⟨index, n, called, positive, array, behind, upTo⟩ :=
      @handOver_frames (ROUNDUP kernelEnd PGSIZE) marked _ _ range above before
    rw [called] at handed
    cases handed
    refine ⟨isEnd ▸ fits, rfl, congrArg (· / PGSIZE) isEnd.symm, reserved, fun base count call => ?_⟩
    cases call
    exact handover_frames map isEnd.symm fits positive array behind upTo
      fun index below => marks index (Nat.zero_le _) (by omega)
  · simp only [handOver, if_neg below] at handed
    cases handed
    exact ⟨isEnd ▸ fits, rfl, congrArg (· / PGSIZE) isEnd.symm, reserved, fun _ _ call => by cases call⟩

namespace Initialised

variable (initialised : Initialised kernelEnd info descriptors result)

include initialised

theorem array_fits : result.pages + sizeofPage * (result.npage - nbase) < 2 ^ 64 := by
  rw [initialised.pages, initialised.npage]
  exact initialised.fits.2

theorem pageAt_eq {index : Nat} (inside : index ≤ result.npage - nbase) :
    pageAt result.pages index = result.pages + sizeofPage * index := by
  have fits := initialised.array_fits
  simp only [pageAt, sizeofPage] at fits ⊢
  exact uint64_of_lt (by omega)

/-- The heads of the free lists are no descriptors. -/
theorem head_kept (placed : layout.pages = ROUNDUP kernelEnd PGSIZE) {order : Nat}
    (bound : order ≤ MAX_ORDER) :
    result.descriptors (layout.freeList order) = descriptors (layout.freeList order) := by
  refine reservePages_frame initialised.reserved fun index _ below same => ?_
  have ordered := layout.ordered
  rw [initialised.pageAt_eq (by omega), initialised.pages, ← placed] at same
  simp only [Layout.freeList, MAX_ORDER] at *
  omega

end Initialised

/-! The memory that `init_memmap` is called in. -/

theorem listInit_self {links : Links Nat} {elm : Nat} (self : links.entry elm = ⟨elm, elm⟩) :
    listInit links elm = links := by
  have kept : (setNext links elm elm).entry = links.entry := by
    simp only [setNext, self]
    exact self ▸ Function.update_eq_self elm links.entry
  have again : (setPrev (setNext links elm elm) elm elm).entry = links.entry := by
    simp only [setPrev, kept, self]
    exact self ▸ Function.update_eq_self elm links.entry
  exact congrArg Links.mk again

/-- Initialising the heads a second time changes nothing. -/
theorem buddyInit_fixed (heads : ∀ order ≤ MAX_ORDER,
      memory.links.entry (layout.freeList order) = ⟨layout.freeList order, layout.freeList order⟩)
    (empty : memory.nrFree = 0) (lowest : memory.maxOrderInited = 0) :
    buddyInit layout memory = memory := by
  have links (orders : List Nat) (bound : ∀ order ∈ orders, order ≤ MAX_ORDER) :
      orders.foldl (fun links i => listInit links (layout.freeList i)) memory.links =
        memory.links := by
    induction orders with
    | nil => rfl
    | cons order orders ih =>
        rw [List.foldl_cons, listInit_self (heads order (bound order (by simp)))]
        exact ih fun other member => bound other (by simp [member])
  have same := links (List.range (MAX_ORDER + 1)) fun order member =>
    Nat.le_of_lt_succ (List.mem_range.mp member)
  obtain ⟨_, _, _, _⟩ := memory
  simp only at empty lowest same
  simp only [buddyInit, same, empty, lowest]

theorem initHeads_self {order : Nat} (bound : order ≤ MAX_ORDER) :
    (buddyInit layout memory).links.entry (layout.freeList order) =
      ⟨layout.freeList order, layout.freeList order⟩ := by
  obtain ⟨next, prev⟩ := ((buddyInit_holds layout memory).head_isList bound).linked
  exact congrArg₂ ListEntry.mk prev next

theorem storeFlags_init (initialised : Initialised kernelEnd info
      (descriptorOf (buddyInit layout memory)) result)
    (placed : layout.pages = ROUNDUP kernelEnd PGSIZE) :
    buddyInit layout (storeFlags (buddyInit layout memory) result.descriptors) =
      storeFlags (buddyInit layout memory) result.descriptors := by
  refine buddyInit_fixed (fun order bound => ?_) rfl rfl
  have self := @initHeads_self layout memory order bound
  simp only [storeFlags, initialised.head_kept placed bound, descriptorOf, buddyFlags, listNext, self]

/-! The whole of `pmm_init`. -/

theorem index_eq {index : Nat} (initialised : Initialised kernelEnd info descriptors result)
    (inside : index ≤ result.npage - nbase) :
    (pageAt result.pages index - result.pages) / sizeofPage = index := by
  rw [initialised.pageAt_eq inside, Nat.add_sub_cancel_left]
  exact Nat.mul_div_cancel_left _ (by decide)

/-- Without free frames the first test of the check fails. -/
theorem buddyCheck_none (holds : Holds layout memory ∅) (fuel : Nat) :
    buddyCheck (buddyPmmManager layout) memory fuel =
      .error (.panic "assertion failed: a && b && c") := by
  have empty : memory.nrFree = 0 := holds.nrFree
  have refused : (buddyPmmManager layout).allocPages memory 1 fuel = .ok (none, memory) :=
    if_pos (.inr (by omega))
  simp only [buddyCheck, buddyDeterministicTests, testSinglePages, refused, ok_bind, error_bind]

theorem storeFlags_holds (initialised : Initialised kernelEnd info
      (descriptorOf (buddyInit layout memory)) result)
    (placed : layout.pages = ROUNDUP kernelEnd PGSIZE) :
    Holds layout (storeFlags (buddyInit layout memory) result.descriptors) ∅ :=
  storeFlags_init initialised placed ▸ buddyInit_holds layout _

/-- When `pmm_init` returns, its check was a run of a client in a region that `page_init` handed
over. -/
theorem pmmInit_run (map : MemoryMap kernelEnd info)
    (placed : layout.pages = ROUNDUP kernelEnd PGSIZE)
    {fuel : Nat} (done : pmmInit layout kernelEnd info memory fuel = .ok (result, after)) :
    ∃ start index n client trace, Initialised kernelEnd info
        (descriptorOf (buddyInit layout memory)) result ∧
      result.initMemmap = some (pageAt result.pages index, n) ∧ index + n ≤ result.npage - nbase ∧
      Booted (buddyPmmManager layout) start index n client ∧
      Run (Step (buddyPmmManager layout)) client trace ⟨after, []⟩ := by
  simp only [pmmInit, bind_eq_ok] at done
  obtain ⟨initial, page, ready, memmap, checked, check, same⟩ := done
  cases same
  have initialised := pageInit_initialised map page
  cases call : result.initMemmap with
  | none =>
      simp only [initMemmap, call] at memmap
      cases memmap
      have failed := buddyCheck_none (storeFlags_holds initialised placed) fuel
      cases check.symm.trans failed
  | some region =>
      obtain ⟨base, n⟩ := region
      obtain ⟨_, index, isBase, inside, _⟩ := initialised.handover base n call
      simp only [initMemmap, call, isBase, index_eq initialised (Nat.le_of_add_right_le inside)] at memmap
      have booted := (steady layout).initMemmap _ _ _ |>.returns memmap
      have calls : Calls (buddyPmmManager layout) ready [] after [] :=
        buddyCheck_calls (steady layout) check
      obtain ⟨trace, final, run, isFinal⟩ := calls [] (.refl _)
      rw [isFinal.eq_nil] at run
      refine ⟨storeFlags (buddyInit layout memory) result.descriptors, index, n, ⟨ready, []⟩, trace,
        initialised, isBase ▸ rfl, inside, ⟨?_, rfl⟩, run⟩
      change Returns (buddyInitMemmap layout (buddyInit layout _) index n) ready
      rw [storeFlags_init initialised placed]
      exact booted

end Ucore.Mm.PmmInit
