import Ucore.Mm.Fit.Steady

namespace Ucore.Mm.Fit

open Ucore.Data Ucore.Libs Extent

/-! Termination of the list traversals. -/

variable {base n count : Nat} {memory : FitMemory} {client last next : Client FitMemory}
  {manager : FitManager} {blocks : List Extent} {region : Extent}
  {trace : List (Client FitMemory × Request)} {request : Request}

structure NeverHangs (manager : FitManager) (client : Client FitMemory) : Prop where
  circuit : ∃ nodes, Circuit (listNext client.memory.links) .freeList nodes
  alloc : ∀ m, 1 ≤ m → ∃ result, Returns (manager.pmm.allocPages client.memory m) result
  free : ∀ block ∈ client.outstanding,
    ∃ after, Returns (manager.pmm.freePages client.memory block.page block.count) after

theorem alloc_returns (manager : FitManager) (list : FreeList memory region blocks)
    (positive : 1 ≤ count) : ∃ result, Returns (manager.pmm.allocPages memory count) result := by
  rcases manager.allocPages_cases list positive with ⟨returns, _⟩ | taken
  · exact ⟨_, returns⟩
  · obtain ⟨_, _, _, _, _, returns⟩ := taken
    exact ⟨_, returns⟩

/-- Every further call returns, also the free that breaks the list. -/
theorem Sound.neverHangs (manager : FitManager) (sound : Sound base n client blocks) :
    NeverHangs manager client where
  circuit := ⟨_, sound.list.isList.circuit⟩
  alloc := fun _ => alloc_returns manager sound.list
  free := by
    intro block member
    rw [FitManager.pmm_freePages]
    cases Classical.em (KeepsOrder client (.free block)) with
    | inl order =>
        obtain ⟨after, _, returns, _⟩ := sound.freed member order
        exact ⟨after, returns⟩
    | inr disorder =>
        obtain ⟨after, returns, _⟩ := sound.spoiled member disorder
        exact ⟨after, returns⟩

/-- A region whose page count is a multiple of `2^32`: one listed block of no pages. -/
structure Idle (base n : Nat) (client : Client FitMemory) : Prop where
  list : FreeList client.memory ⟨base, n⟩ [⟨base, 0⟩]
  nrFree : client.memory.nrFree = 0
  outstanding : client.outstanding = []

theorem Idle.initial (booted : Booted manager.pmm memory base n client) (empty : uint32 n = 0) :
    Idle base n client := by
  obtain ⟨result, none⟩ := booted
  rw [FitManager.pmm_initMemmap, FitManager.pmm_init] at result
  obtain ⟨_, free, list⟩ := fitInitMemmap_ok result
  rw [empty] at free list
  exact ⟨list, free, none⟩

theorem Idle.refuses (manager : FitManager) (idle : Idle base n client) (positive : 0 < count) :
    Returns (manager.pmm.allocPages client.memory count) (none, client.memory) := by
  rw [FitManager.pmm_allocPages]
  apply Returns.of_constant
  intro fuel
  rw [fitAllocPages, if_neg (Nat.ne_of_gt positive), if_pos (idle.nrFree ▸ positive)]

theorem Idle.step (idle : Idle base n client) (step : Step manager.pmm client request next) :
    Idle base n next := by
  cases step with
  | allocated result =>
      cases (idle.refuses manager (manager.allocPages_positive result)).unique result
  | refused result =>
      cases (idle.refuses manager (manager.allocPages_positive result)).unique result
      exact idle
  | @freed memory after outstanding block member result =>
      have none : outstanding = [] := idle.outstanding
      simp [none] at member

theorem Idle.neverHangs (manager : FitManager) (idle : Idle base n client) :
    NeverHangs manager client where
  circuit := ⟨_, idle.list.isList.circuit⟩
  alloc := fun _ => alloc_returns manager idle.list
  free := by simp [idle.outstanding]

/-- As long as every free keeps the order of the list, every call returns. -/
theorem never_hangs (booted : Booted manager.pmm memory base n client)
    (run : Run (Step manager.pmm) client trace last)
    (order : ∀ taken ∈ trace, KeepsOrder taken.1 taken.2) :
    (∀ taken ∈ trace, NeverHangs manager taken.1) ∧ NeverHangs manager last := by
  cases Classical.em (uint32 n = 0) with
  | inl empty =>
      obtain ⟨passed, final⟩ := run.invariant (Idle base n) (fun idle _ step => idle.step step)
        (Idle.initial booted empty) order
      exact ⟨fun taken member => (passed taken member).neverHangs manager, final.neverHangs manager⟩
  | inr some =>
      obtain ⟨passed, blocks, final⟩ := sound_run some booted run order
      refine ⟨fun taken member => ?_, final.neverHangs manager⟩
      obtain ⟨blocks, sound⟩ := passed taken member
      exact sound.neverHangs manager

theorem never_hangs_served : ∃ client trace last,
    Booted FitManager.firstFit.pmm bootMemory 0 6 client ∧
      Run (Step FitManager.firstFit.pmm) client trace last ∧
      trace.map Prod.snd = [.alloc 2, .alloc 1, .alloc 1, .free ⟨2, 1⟩, .free ⟨0, 2⟩] ∧
      (∀ taken ∈ trace, NeverHangs .firstFit taken.1) ∧ NeverHangs .firstFit last := by
  obtain ⟨client, trace, last, booted, run, labels, order⟩ := ordered_run
  exact ⟨client, trace, last, booted, run, labels, never_hangs booted run order⟩

/-! A traversal that never meets the head again. -/

/-- From each of these entries `next` leads to one of them again, which is too small. -/
def trapped (memory : FitMemory) (count : Nat) (entries : List Link) : Bool :=
  entries.all fun le =>
    match listNext memory.links le with
    | .freeList => false
    | .page p => decide ((memory.pages p).property < count) && entries.contains (.page p)

theorem trapped_next {entries : List Link} {le : Link} (stuck : trapped memory count entries = true)
    (member : le ∈ entries) : ∃ p, listNext memory.links le = .page p ∧
      (memory.pages p).property < count ∧ .page p ∈ entries := by
  have moves := List.all_eq_true.mp stuck le member
  cases next : listNext memory.links le with
  | freeList => simp [next] at moves
  | page p =>
      simp only [next, Bool.and_eq_true, decide_eq_true_eq, List.contains_iff_mem] at moves
      exact ⟨p, rfl, moves⟩

theorem defaultSearchLoop_trapped {entries : List Link} {le : Link}
    (stuck : trapped memory count entries = true) (member : le ∈ entries) (fuel : Nat) :
    defaultSearchLoop memory count fuel le = .error .outOfFuel := by
  induction fuel generalizing le with
  | zero => rfl
  | succ fuel ih =>
      obtain ⟨p, next, small, inside⟩ := trapped_next stuck member
      simp only [defaultSearchLoop, next, ge_iff_le, if_neg (Nat.not_le.mpr small)]
      exact ih inside

theorem bestFitSearchLoop_trapped {entries : List Link} {le : Link} {page : Option Nat}
    {minSize : Nat} (stuck : trapped memory count entries = true) (member : le ∈ entries)
    (fuel : Nat) :
    bestFitSearchLoop memory count fuel le page minSize = .error .outOfFuel := by
  induction fuel generalizing le page minSize with
  | zero => rfl
  | succ fuel ih =>
      obtain ⟨p, next, small, inside⟩ := trapped_next stuck member
      have notEnough : ¬ (count ≤ (memory.pages p).property ∧ (memory.pages p).property < minSize) :=
        fun fits => absurd fits.1 (Nat.not_le.mpr small)
      simp only [bestFitSearchLoop, next, ge_iff_le, if_neg notEnough]
      exact ih inside

theorem allocPages_diverges (manager : FitManager) {entries : List Link}
    (stuck : trapped memory count entries = true) (member : .freeList ∈ entries)
    (positive : 0 < count) (enough : count ≤ memory.nrFree) :
    Diverges (manager.pmm.allocPages memory count) := by
  intro fuel
  have searching : manager.search memory count fuel = .error .outOfFuel := by
    cases manager with
    | firstFit => exact defaultSearchLoop_trapped stuck member fuel
    | bestFit => exact bestFitSearchLoop_trapped stuck member fuel
  rw [FitManager.pmm_allocPages, fitAllocPages, if_neg (Nat.ne_of_gt positive),
    if_neg (Nat.not_lt.mpr enough), searching]
  rfl

/-- Three single pages freed in the order 0, 2, 1, and `next` never leaves page 1 again. -/
theorem alloc_hangs :
    Reaches defaultPmmManager bootMemory 0 3
      [.alloc 1, .alloc 1, .alloc 1, .free ⟨0, 1⟩, .free ⟨2, 1⟩, .free ⟨1, 1⟩]
      (fun client => ¬ NeverHangs .firstFit client ∧
        Diverges (defaultPmmManager.allocPages client.memory 3)) ∧
    Reaches bestFitPmmManager bootMemory 0 3
      [.alloc 1, .alloc 1, .alloc 1, .free ⟨0, 1⟩, .free ⟨2, 1⟩, .free ⟨1, 1⟩]
      (fun client => ¬ NeverHangs .bestFit client ∧
        Diverges (bestFitPmmManager.allocPages client.memory 3)) := by
  have broken (manager : FitManager) (client : Client FitMemory)
      (reached : (trapped client.memory 3 [.freeList, .page 0, .page 1, .page 2] &&
        decide (client.memory.nrFree = 3)) = true) :
      ¬ NeverHangs manager client ∧ Diverges (manager.pmm.allocPages client.memory 3) := by
    obtain ⟨stuck, free⟩ := Bool.and_eq_true_iff.mp reached
    have diverges := allocPages_diverges manager stuck (by simp) (by decide)
      (of_decide_eq_true free).ge
    refine ⟨fun returns => ?_, diverges⟩
    obtain ⟨result, returns⟩ := returns.alloc 3 (by decide)
    exact diverges.not_returns returns
  constructor
  · exact script_reaches FitManager.firstFit.steady _ (broken .firstFit)
      (show (script _ 9 _ _ _ _ _).toOption.any _ = true by decide +kernel)
  · exact script_reaches FitManager.bestFit.steady _ (broken .bestFit)
      (show (script _ 9 _ _ _ _ _).toOption.any _ = true by decide +kernel)

end Ucore.Mm.Fit
