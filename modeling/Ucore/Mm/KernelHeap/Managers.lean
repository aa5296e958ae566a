import Ucore.Mm.Buddy.Recovery
import Ucore.Mm.Fit.Steady
import Ucore.Mm.KernelHeap.Script
import Ucore.Mm.KernelHeap.Sharing
import Ucore.Mm.Slub.Backing

namespace Ucore.Mm.Slub

open Ucore.Data Ucore.Libs Extent

/-! The kernel heap over each of the page allocators. -/

variable {layout : Layout} {memory : BuddyMemory} {base n size place : Nat}
  {client next last : HeapClient BuddyMemory} {trace : List (HeapClient BuddyMemory × HeapRequest)}
  {request : HeapRequest} {outstanding others : List Allocation}

theorem cover_allocations_le (outstanding : List Allocation) (point : Nat) :
    cover (outstanding.map Allocation.extent) point ≤ cover (Buddy.owned outstanding) point := by
  induction outstanding with
  | nil => exact Nat.le_refl _
  | cons allocation outstanding ih =>
      rw [Buddy.cover_owned_cons, List.map_cons, ← Multiset.cons_coe, cover_cons]
      refine Nat.add_le_add ?_ ih
      rw [cover_singleton, cover_singleton]
      split
      · rename_i inside
        rw [if_pos (allocation_subset allocation inside)]
      · exact Nat.zero_le _

theorem consistent_packs {free : Finset Block}
    (consistent : Buddy.Consistent base n free outstanding) :
    Packs (outstanding.map Allocation.extent) ⟨base, n⟩ := by
  refine consistent.packs.mono fun point => ?_
  rw [cover_add]
  exact (cover_allocations_le outstanding point).trans (Nat.le_add_left _ _)

/-- The buddy system serves its users whatever they ask. -/
def buddyService (layout : Layout) (base n : Nat) :
    PageService (buddyPmmManager layout) ⟨base, n⟩ where
  Inv client := ∃ free, Buddy.Sound layout base n client free
  allowed _ _ := True
  steady := Buddy.steady layout
  alloc_allowed _ _ := trivial
  preserved reached _ step := by
    obtain ⟨free, sound⟩ := reached
    obtain ⟨after, _, sound⟩ := sound.step step
    exact ⟨after, sound⟩
  packs reached := by
    obtain ⟨free, sound⟩ := reached
    exact consistent_packs sound.consistent
  positive reached := by
    obtain ⟨free, sound⟩ := reached
    exact sound.consistent.positive

/-- It loses no page while no merge goes beyond the top order. -/
def conservingService (layout : Layout) (base n : Nat) :
    PageService (buddyPmmManager layout) ⟨base, n⟩ where
  Inv client := ∃ free, Buddy.Whole layout base n client free
  allowed pages request := ¬ Buddy.MergesAtTop layout ⟨pages, []⟩ request
  steady := Buddy.steady layout
  alloc_allowed _ _ := not_false
  preserved {client request next} reached uncapped step := by
    refine Buddy.Whole.preserved reached ?_ step
    cases request <;> exact uncapped
  packs reached := by
    obtain ⟨free, whole⟩ := reached
    exact consistent_packs whole.consistent
  positive reached := by
    obtain ⟨free, whole⟩ := reached
    exact whole.consistent.positive

/-- First fit and best fit serve them while every free keeps the order of the list. -/
def fitService (manager : Fit.FitManager) (base n : Nat) :
    PageService manager.pmm ⟨base, uint32 n⟩ where
  Inv client := ∃ blocks, Fit.Sound base n client blocks
  allowed pages request := Fit.KeepsOrder ⟨pages, []⟩ request
  steady := manager.steady
  alloc_allowed _ _ := trivial
  preserved {client request next} reached order step := by
    obtain ⟨blocks, sound⟩ := reached
    refine sound.step ?_ step
    cases request <;> exact order
  packs reached := by
    obtain ⟨blocks, sound⟩ := reached
    refine sound.tiles.packs.mono fun point => ?_
    rw [cover_add]
    exact Nat.le_add_left _ _
  positive reached := by
    obtain ⟨blocks, sound⟩ := reached
    exact fun block member => Nat.ne_of_gt (sound.positive block member)

theorem buddy_heap_run (booted : HeapBooted (buddyPmmManager layout) memory base n client)
    (run : Run (HeapStep (buddyPmmManager layout)) client trace last)
    (mapped : base + n ≤ mappedPages) :
    (∀ taken ∈ trace, ∃ slabs use, HeapSound (buddyService layout base n) taken.1 slabs use) ∧
      ∃ slabs use, HeapSound (buddyService layout base n) last slabs use := by
  refine heap_run (heap_booted_sound booted fun started => ?_) mapped run
    fun taken member asked same => trivial
  obtain ⟨_, free, sound, _⟩ := Buddy.booted_cut started
  exact ⟨free, sound⟩

/-- Three pages are handed out to somebody, and one to the object allocator for a first object. -/
theorem shared_run : ∃ client trace last ptr, HeapBooted Buddy.bootManager Buddy.bootMemory 4 6 client ∧
    Run (HeapStep Buddy.bootManager) client trace last ∧
    trace.map Prod.snd = [.pages (.alloc 3), .slub (.kmalloc 8)] ∧
    last.direct = [⟨4, 3⟩] ∧ last.live = [⟨ptr, 8⟩] := by
  have computed : (heapScript Buddy.bootManager 60 (fun _ _ => true) Buddy.bootMemory 4 6
      [.pages (.alloc 3), .slub (.kmalloc 8)]).toOption.any (fun last =>
        last.direct = [⟨4, 3⟩] ∧ last.live = [⟨kva 8 + 4088, 8⟩]) = true := by
    decide +kernel
  obtain ⟨client, trace, last, booted, run, labels, _, reached⟩ :=
    heapScript_run (Buddy.steady Buddy.bootLayout) _ computed
  obtain ⟨direct, live⟩ := of_decide_eq_true reached
  exact ⟨client, trace, last, _, booted, run, labels, direct, live⟩

/-- Whatever the order of the calls, no byte of the kernel heap ever has two owners. -/
theorem heap_separate (booted : HeapBooted (buddyPmmManager layout) memory base n client)
    (run : Run (HeapStep (buddyPmmManager layout)) client trace last)
    (mapped : base + n ≤ mappedPages) :
    (∀ taken ∈ trace, Separate ⟨base, n⟩ taken.1) ∧ Separate ⟨base, n⟩ last := by
  obtain ⟨passed, slabs, use, sound⟩ := buddy_heap_run booted run mapped
  refine ⟨fun taken member => ?_, sound.separate⟩
  obtain ⟨slabs, use, sound⟩ := passed taken member
  exact sound.separate

theorem heap_separate_served : ∃ client trace last ptr,
    HeapBooted Buddy.bootManager Buddy.bootMemory 4 6 client ∧
    Run (HeapStep Buddy.bootManager) client trace last ∧
    trace.map Prod.snd = [.pages (.alloc 3), .slub (.kmalloc 8)] ∧
    last.direct = [⟨4, 3⟩] ∧ last.live = [⟨ptr, 8⟩] ∧ Separate ⟨4, 6⟩ last := by
  obtain ⟨client, trace, last, ptr, booted, run, labels, direct, live⟩ := shared_run
  exact ⟨client, trace, last, ptr, booted, run, labels, direct, live,
    (heap_separate booted run (by decide)).2⟩

/-- No call of the object allocator and no write changes what somebody else has. -/
theorem heap_untouched (booted : HeapBooted (buddyPmmManager layout) memory base n client)
    (run : Run (HeapStep (buddyPmmManager layout)) client trace last)
    (mapped : base + n ≤ mappedPages) (step : HeapStep (buddyPmmManager layout) last request next) :
    Untouching last request next := by
  obtain ⟨_, slabs, use, sound⟩ := buddy_heap_run booted run mapped
  exact sound.untouching mapped (fun asked same => trivial) step

theorem heap_untouched_served : ∃ client trace last next ptr,
    HeapBooted Buddy.bootManager Buddy.bootMemory 4 6 client ∧
    Run (HeapStep Buddy.bootManager) client trace last ∧
    trace.map Prod.snd = [.pages (.alloc 3), .slub (.kmalloc 8)] ∧
    last.direct = [⟨4, 3⟩] ∧ HeapStep Buddy.bootManager last (.slub (.kfree ⟨ptr, 8⟩)) next ∧
    Untouching last (.slub (.kfree ⟨ptr, 8⟩)) next := by
  obtain ⟨client, trace, ⟨heap, direct, live⟩, ptr, booted, run, labels, rfl, rfl⟩ := shared_run
  have step : HeapStep Buddy.bootManager ⟨heap, [⟨4, 3⟩], [⟨ptr, 8⟩]⟩ (.slub (.kfree ⟨ptr, 8⟩)) _ :=
    .freed (List.mem_singleton_self _)
  exact ⟨client, trace, _, _, ptr, booted, run, labels, rfl, step,
    heap_untouched booted run (by decide) step⟩

/-! Progress. -/

/-- The free pages, those that others hold and those of the object allocator add up. -/
def Accounted (n : Nat) (client : HeapClient BuddyMemory) : Prop :=
  buddyNrFreePages client.heap.pages + Buddy.handedOut client.direct +
    Buddy.handedOut (slubBlocks client.heap.slub) = n

theorem handedOut_perm (perm : outstanding.Perm others) :
    Buddy.handedOut outstanding = Buddy.handedOut others :=
  (perm.map _).sum_eq

theorem handedOut_append (outstanding others : List Allocation) :
    Buddy.handedOut (outstanding ++ others) = Buddy.handedOut outstanding + Buddy.handedOut others := by
  rw [Buddy.handedOut, List.map_append, List.sum_append]
  rfl

theorem accounted_iff (perm : outstanding.Perm (client.direct ++ slubBlocks client.heap.slub)) :
    Accounted n client ↔
      buddyNrFreePages client.heap.pages + Buddy.handedOut outstanding = n := by
  rw [handedOut_perm perm, handedOut_append, ← Nat.add_assoc, Accounted]

theorem kmalloc_suffix {heap after : KernelHeap BuddyMemory} {ptr : Nat}
    (result : Returns (kernelKmalloc (buddyPmmManager layout) heap size) (ptr, after)) :
    slubBlocks heap.slub <:+ slubBlocks after.slub := by
  obtain ⟨fuel, done⟩ := result.some_fuel
  rcases kernelKmalloc_ok done with ⟨_, _, same⟩ | ⟨answer, _, _, frames⟩
  · rw [slubBlocks_congr same]
  · cases answer with
    | none => rw [slubBlocks_congr frames]; exact List.suffix_refl _
    | some page =>
        have blocks :
            slubBlocks after.slub = ⟨page, neededPages size⟩ :: slubBlocks heap.slub := by
          rw [slubBlocks, frames]
          rfl
        rw [blocks]
        exact List.suffix_cons _ _

theorem step_suffix (step : HeapStep (buddyPmmManager layout) client request next) :
    slubBlocks client.heap.slub <:+ slubBlocks next.heap.slub := by
  cases step with
  | pages => exact List.suffix_refl _
  | filled => exact List.suffix_refl _
  | allocated _ result => exact kmalloc_suffix result
  | refused _ result => exact kmalloc_suffix result
  | freed => rw [slubBlocks_congr (kfree_frames _ _)]
  | wrote => exact List.suffix_refl _

theorem run_suffix (run : Run (HeapStep (buddyPmmManager layout)) client trace last) :
    slubBlocks client.heap.slub <:+ slubBlocks last.heap.slub := by
  induction run with
  | done => exact List.suffix_refl _
  | step first rest ih => exact (step_suffix first).trans ih

theorem HeapSound.accounted {slabs : Nat → List Nat} {use : Nat → Option Use}
    (sound : HeapSound (conservingService layout base n) client slabs use) (fits : n < 2 ^ 32) :
    Accounted n client := by
  obtain ⟨outstanding, perm, free, whole⟩ := sound.owners
  exact (accounted_iff perm).mpr (whole.conserved fits).sum

/-- A merge beyond the top order loses pages for good. -/
theorem HeapSound.not_accounted {slabs : Nat → List Nat} {use : Nat → Option Use}
    (sound : HeapSound (conservingService layout base n) client slabs use) (fits : n < 2 ^ 32)
    (capped : ¬ (conservingService layout base n).permits client request)
    (step : HeapStep (buddyPmmManager layout) client request next) : ¬ Accounted n next := by
  obtain ⟨asked, isAsked, merges⟩ : ∃ asked, request = .pages asked ∧
      Buddy.MergesAtTop layout ⟨client.heap.pages, []⟩ asked := by
    simpa [PageService.permits, conservingService] using capped
  subst isAsked
  obtain ⟨outstanding, perm, free, whole⟩ := sound.owners
  cases step with
  | @pages heap pages direct remaining live asked step =>
      generalize isPages : heap.pages = before at merges step whole
      cases step with
      | allocated => exact absurd merges not_false
      | refused => exact absurd merges not_false
      | @freed _ _ _ block member result =>
          have listed : block ∈ outstanding := perm.mem_iff.mpr (List.mem_append_left _ member)
          have step : Step (buddyPmmManager layout) ⟨before, outstanding⟩ (.free block)
            ⟨pages, outstanding.erase block⟩ := .freed listed result
          obtain ⟨after, _, next⟩ := whole.toSound.step step
          have fewer := perm.erase block
          rw [List.erase_append_left _ member] at fewer
          intro accounted
          have sum : buddyNrFreePages pages + Buddy.handedOut (outstanding.erase block) = n := by
            rw [handedOut_perm fewer, handedOut_append, ← Nat.add_assoc]
            exact accounted
          exact whole.spoiled fits step merges ⟨fun _ kept => next.consistent.sized kept, sum⟩

/-- The pages add up throughout a run exactly if no free merges beyond the top order; those that the
object allocator has got it keeps. -/
theorem heap_accounting (booted : HeapBooted (buddyPmmManager layout) memory base n client)
    (run : Run (HeapStep (buddyPmmManager layout)) client trace last)
    (mapped : base + n ≤ mappedPages) :
    (((∀ taken ∈ trace, Accounted n taken.1) ∧ Accounted n last) ↔
      ∀ taken ∈ trace, ∀ asked, taken.2 = .pages asked →
        ¬ Buddy.MergesAtTop layout ⟨taken.1.heap.pages, []⟩ asked) ∧
    slubBlocks client.heap.slub <:+ slubBlocks last.heap.slub := by
  have fits : n < 2 ^ 32 := by
    simp only [mappedPages] at mapped
    omega
  have initial : HeapSound (conservingService layout base n) client (fun _ => []) (fun _ => none) := by
    refine heap_booted_sound booted fun started => ?_
    obtain ⟨free, whole, _⟩ := Buddy.Whole.initial started
    exact ⟨free, whole⟩
  have exact : ((∀ taken ∈ trace, Accounted n taken.1) ∧ Accounted n last) ↔
      ∀ taken ∈ trace, (conservingService layout base n).permits taken.1 taken.2 := by
    refine run.good_iff
      (fun client => ∃ slabs use, HeapSound (conservingService layout base n) client slabs use)
      (Accounted n) (fun reached permits step => ?_) (fun reached => ?_)
      (fun reached capped step => ?_) ⟨_, _, initial⟩
    · obtain ⟨slabs, use, sound⟩ := reached
      exact sound.step mapped permits step
    · obtain ⟨slabs, use, sound⟩ := reached
      exact sound.accounted fits
    · obtain ⟨slabs, use, sound⟩ := reached
      exact sound.not_accounted fits capped step
  exact ⟨exact, run_suffix run⟩

theorem heap_accounting_served : ∃ client trace last,
    HeapBooted Buddy.bootManager Buddy.bootMemory 4 6 client ∧
    Run (HeapStep Buddy.bootManager) client trace last ∧
    trace.map Prod.snd = [.pages (.alloc 3), .slub (.kmalloc 8)] ∧
    (∀ taken ∈ trace, Accounted 6 taken.1) ∧ Accounted 6 last := by
  obtain ⟨client, trace, last, ptr, booted, run, labels, _⟩ := shared_run
  refine ⟨client, trace, last, booted, run, labels,
    (heap_accounting booted run (by decide)).1.mpr fun taken member asked isAsked => ?_⟩
  have listed := List.mem_map_of_mem (f := Prod.snd) member
  rw [labels, isAsked] at listed
  obtain rfl : asked = .alloc 3 := by simpa using listed
  exact not_false

/-! The other page allocators. -/

def keepsHeapOrder (client : HeapClient FitMemory) : HeapRequest → Bool
  | .pages asked => Fit.keepsOrder 9 ⟨client.heap.pages, []⟩ asked
  | _ => true

theorem keepsHeapOrder_sound {client : HeapClient FitMemory} {request : HeapRequest}
    (keeps : keepsHeapOrder client request = true) :
    ∀ asked, request = .pages asked → Fit.KeepsOrder ⟨client.heap.pages, []⟩ asked := by
  intro asked isAsked
  subst isAsked
  exact Fit.keepsOrder_sound keeps

/-- Over first fit and best fit the same holds while no block is freed behind the last entry of the
list. -/
theorem fit_heap_separate {manager : Fit.FitManager} {memory : FitMemory}
    {client last : HeapClient FitMemory} {trace : List (HeapClient FitMemory × HeapRequest)}
    (booted : HeapBooted manager.pmm memory base n client)
    (run : Run (HeapStep manager.pmm) client trace last) (some : uint32 n ≠ 0)
    (mapped : base + uint32 n ≤ mappedPages)
    (order : ∀ taken ∈ trace, ∀ asked, taken.2 = .pages asked →
      Fit.KeepsOrder ⟨taken.1.heap.pages, []⟩ asked) :
    ((∀ taken ∈ trace, Separate ⟨base, uint32 n⟩ taken.1) ∧ Separate ⟨base, uint32 n⟩ last) ∧
      ∀ request next, HeapStep manager.pmm last request next →
        (∀ asked, request = .pages asked → Fit.KeepsOrder ⟨last.heap.pages, []⟩ asked) →
        Untouching last request next := by
  have initial : HeapSound (fitService manager base n) client (fun _ => []) (fun _ => none) :=
    heap_booted_sound booted fun started => ⟨_, Fit.Sound.initial started some⟩
  obtain ⟨passed, slabs, use, sound⟩ := heap_run initial mapped run order
  refine ⟨⟨fun taken member => ?_, sound.separate⟩, fun request next step kept => ?_⟩
  · obtain ⟨slabs, use, sound⟩ := passed taken member
    exact sound.separate
  · exact sound.untouching mapped kept step

/-- Three pages are handed out to somebody who writes into them, and two to the object allocator; the
pages come back, one of them goes to somebody else, and of three objects two are left. -/
theorem fit_heap_separate_served : ∃ client trace last first second,
    HeapBooted Fit.FitManager.firstFit.pmm Fit.bootMemory 0 6 client ∧
    Run (HeapStep Fit.FitManager.firstFit.pmm) client trace last ∧
    trace.map Prod.snd = [.pages (.alloc 3), .slub (.kmalloc 2048), .fill ⟨0, 3⟩ 5 1,
      .slub (.kmalloc 2048), .slub (.kfree ⟨first, 2048⟩), .pages (.free ⟨0, 3⟩), .pages (.alloc 1),
      .slub (.kmalloc 2000)] ∧
    last.direct = [⟨0, 1⟩] ∧ last.live = [⟨first, 2000⟩, ⟨second, 2048⟩] ∧
    (∀ taken ∈ trace, Separate ⟨0, 6⟩ taken.1) ∧ Separate ⟨0, 6⟩ last := by
  have computed : (heapScript Fit.FitManager.firstFit.pmm 9 keepsHeapOrder Fit.bootMemory 0 6
      [.pages (.alloc 3), .slub (.kmalloc 2048), .fill ⟨0, 3⟩ 5 1, .slub (.kmalloc 2048),
        .slub (.kfree ⟨kva 3 + 2048, 2048⟩), .pages (.free ⟨0, 3⟩), .pages (.alloc 1),
        .slub (.kmalloc 2000)]).toOption.any (fun last => last.direct = [⟨0, 1⟩] ∧
          last.live = [⟨kva 3 + 2048, 2000⟩, ⟨kva 4 + 2048, 2048⟩]) = true := by
    decide +kernel
  obtain ⟨client, trace, last, booted, run, labels, checked, reached⟩ :=
    heapScript_run Fit.FitManager.firstFit.steady _ computed
  obtain ⟨direct, live⟩ := of_decide_eq_true reached
  refine ⟨client, trace, last, _, _, booted, run, labels, direct, live,
    (fit_heap_separate booted run (by decide) (by decide) ?_).1⟩
  exact fun taken member => keepsHeapOrder_sound (checked taken member)

end Ucore.Mm.Slub
