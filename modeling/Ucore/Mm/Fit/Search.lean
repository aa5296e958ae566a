import Ucore.Mm.DefaultPmm
import Ucore.Mm.BestFitPmm
import Ucore.Mm.Fit.Refinement

namespace Ucore.Mm.Fit

open Ucore.Data Ucore.Libs

/-! What the two searches find in a free list. -/

variable {memory : FitMemory} {region : Extent} {blocks : List Extent} {le : Link}
  {n minSize : Nat} {page : Option Nat}

theorem defaultSearchLoop_returns
    (walk : Walk (listNext memory.links) le (entries blocks) .freeList)
    (property : ∀ block ∈ blocks, (memory.pages block.start).property = block.size) :
    Returns (fun fuel => defaultSearchLoop memory n fuel le)
      ((blocks.find? fun block => n ≤ block.size).map Extent.start) := by
  apply Returns.round
  induction blocks generalizing le with
  | nil =>
      have ends : listNext memory.links le = .freeList := walk
      simp only [defaultSearchLoop, ends]
      exact .of_constant fun _ => rfl
  | cons block rest ih =>
      have first : listNext memory.links le = .page block.start := walk.1
      have size := property block (by simp)
      simp only [defaultSearchLoop, first, size]
      by_cases fits : n ≤ block.size
      · rw [List.find?_cons_of_pos (by simpa using fits)]
        simp only [ge_iff_le, if_pos fits]
        exact .of_constant fun _ => rfl
      · have onward := ih walk.2 fun other member => property other (by simp [member])
        rw [List.find?_cons_of_neg (by simpa using fits)]
        simp only [ge_iff_le, if_neg fits]
        exact .round onward

theorem defaultSearch_returns (list : FreeList memory region blocks) :
    Returns (defaultSearch memory n)
      ((blocks.find? fun block => n ≤ block.size).map Extent.start) :=
  defaultSearchLoop_returns list.isList.circuit.1 list.property

/-- The head best fit settles on, given the one it has and the size to beat. -/
def bestOf (n : Nat) : List Extent → Option Nat → Nat → Option Nat
  | [], page, _ => page
  | block :: rest, page, minSize =>
      if n ≤ block.size ∧ block.size < minSize then bestOf n rest (some block.start) block.size
      else bestOf n rest page minSize

theorem bestFitSearchLoop_returns
    (walk : Walk (listNext memory.links) le (entries blocks) .freeList)
    (property : ∀ block ∈ blocks, (memory.pages block.start).property = block.size) :
    Returns (fun fuel => bestFitSearchLoop memory n fuel le page minSize)
      (bestOf n blocks page minSize) := by
  apply Returns.round
  induction blocks generalizing le page minSize with
  | nil =>
      have ends : listNext memory.links le = .freeList := walk
      simp only [bestFitSearchLoop, ends, bestOf]
      exact .of_constant fun _ => rfl
  | cons block rest ih =>
      have first : listNext memory.links le = .page block.start := walk.1
      have size := property block (by simp)
      have others := fun other (member : other ∈ rest) =>
        property other (List.mem_cons_of_mem _ member)
      simp only [bestFitSearchLoop, first, size, bestOf, ge_iff_le]
      by_cases better : n ≤ block.size ∧ block.size < minSize
      · simp only [if_pos better]
        exact .round (ih walk.2 others)
      · simp only [if_neg better]
        exact .round (ih walk.2 others)

/-- Nothing listed beats the size to beat, or the first of the smallest blocks that fit is chosen. -/
theorem bestOf_split (n : Nat) (blocks : List Extent) (page : Option Nat) (minSize : Nat) :
    (bestOf n blocks page minSize = page ∧
        ∀ block ∈ blocks, n ≤ block.size → minSize ≤ block.size) ∨
      ∃ left block right, blocks = left ++ block :: right ∧
        bestOf n blocks page minSize = some block.start ∧ n ≤ block.size ∧ block.size < minSize ∧
        (∀ other ∈ left, n ≤ other.size → block.size < other.size) ∧
        ∀ other ∈ right, n ≤ other.size → block.size ≤ other.size := by
  induction blocks generalizing page minSize with
  | nil => exact .inl ⟨rfl, by simp⟩
  | cons first rest ih =>
      rw [bestOf]
      by_cases better : n ≤ first.size ∧ first.size < minSize
      · rw [if_pos better]
        right
        rcases ih (some first.start) first.size with ⟨kept, none⟩ | found
        · exact ⟨[], first, rest, rfl, kept, better.1, better.2, by simp, none⟩
        · obtain ⟨left, block, right, rfl, chosen, fits, smaller, before, behind⟩ := found
          refine ⟨first :: left, block, right, rfl, chosen, fits, smaller.trans better.2,
            fun other member fitsOther => ?_, behind⟩
          rcases List.mem_cons.mp member with rfl | later
          · exact smaller
          · exact before other later fitsOther
      · rw [if_neg better]
        rcases ih page minSize with ⟨kept, none⟩ | found
        · refine .inl ⟨kept, fun other member fits => ?_⟩
          rcases List.mem_cons.mp member with rfl | later
          · omega
          · exact none other later fits
        · obtain ⟨left, block, right, rfl, chosen, fits, smaller, before, behind⟩ := found
          refine .inr ⟨first :: left, block, right, rfl, chosen, fits, smaller,
            fun other member fitsOther => ?_, behind⟩
          rcases List.mem_cons.mp member with rfl | later
          · omega
          · exact before other later fitsOther

theorem bestFitSearch_returns (list : FreeList memory region blocks) :
    Returns (bestFitSearch memory n) (bestOf n blocks none (uint32 (memory.nrFree + 1))) :=
  bestFitSearchLoop_returns list.isList.circuit.1 list.property

/-- An allocation that finds nothing, or is larger than `nr_free`, changes nothing. -/
theorem fitAllocPages_refuses {search : FitMemory → Nat → Bounded (Option Nat)} (positive : 0 < n)
    (missed : n ≤ memory.nrFree → Returns (search memory n) none) :
    Returns (fitAllocPages search memory n) (none, memory) := by
  unfold fitAllocPages
  simp only [if_neg positive.ne']
  by_cases tooMany : n > memory.nrFree
  · simp only [if_pos tooMany]
    exact .of_constant fun _ => rfl
  · simp only [if_neg tooMany]
    exact (missed (Nat.not_lt.mp tooMany)).bind (.of_constant fun _ => rfl)

theorem fitAllocPages_takes {search : FitMemory → Nat → Bounded (Option Nat)} (positive : 0 < n)
    {first : Nat} (enough : n ≤ memory.nrFree)
    (found : Returns (search memory n) (some first)) :
    Returns (fitAllocPages search memory n) (some first, fitTake memory first n) := by
  unfold fitAllocPages
  simp only [if_neg positive.ne', if_neg (Nat.not_lt.mpr enough)]
  exact found.bind (.of_constant fun _ => rfl)

/-- The managers that keep one list of free blocks in address order. -/
inductive FitManager where
  | firstFit
  | bestFit
deriving DecidableEq

namespace FitManager

def pmm : FitManager → PmmManager FitMemory
  | firstFit => defaultPmmManager
  | bestFit => bestFitPmmManager

def search : FitManager → FitMemory → Nat → Bounded (Option Nat)
  | firstFit => defaultSearch
  | bestFit => bestFitSearch

/-- Blocks from this size on are invisible to the search. -/
def sizeLimit (memory : FitMemory) : FitManager → Nat
  | firstFit => 2 ^ 32
  | bestFit => uint32 (memory.nrFree + 1)

@[simp] theorem pmm_init (manager : FitManager) : manager.pmm.init = fitInit := by
  cases manager <;> rfl

@[simp] theorem pmm_initMemmap (manager : FitManager) :
    manager.pmm.initMemmap = fitInitMemmap := by
  cases manager <;> rfl

@[simp] theorem pmm_allocPages (manager : FitManager) :
    manager.pmm.allocPages = fitAllocPages manager.search := by
  cases manager <;> rfl

@[simp] theorem pmm_freePages (manager : FitManager) :
    manager.pmm.freePages = fitFreePages := by
  cases manager <;> rfl

theorem search_returns (manager : FitManager) (list : FreeList memory region blocks) (n : Nat) :
    ∃ found, Returns (manager.search memory n) found ∧
      (∀ page, found = some page → ∃ block ∈ blocks, block.start = page ∧ n ≤ block.size) ∧
      (found = none → ∀ block ∈ blocks, n ≤ block.size → manager.sizeLimit memory ≤ block.size) := by
  cases manager with
  | firstFit =>
      refine ⟨_, defaultSearch_returns list, fun page found => ?_, fun missed block member fits => ?_⟩
      · obtain ⟨block, chosen, same⟩ := Option.map_eq_some_iff.mp found
        exact ⟨block, List.mem_of_find?_eq_some chosen, same,
          by simpa using List.find?_some chosen⟩
      · have none := List.find?_eq_none.mp (Option.map_eq_none_iff.mp missed) block member
        exact absurd (decide_eq_true fits) none
  | bestFit =>
      refine ⟨_, bestFitSearch_returns list, ?_⟩
      rcases bestOf_split n blocks none (uint32 (memory.nrFree + 1)) with ⟨missed, none⟩ | found
      · rw [missed]
        exact ⟨by simp, fun _ => none⟩
      · obtain ⟨left, block, right, rfl, chosen, fits, _⟩ := found
        rw [chosen]
        exact ⟨fun page same => ⟨block, by simp, Option.some.inj same, fits⟩, by simp⟩

theorem allocPages_cases (manager : FitManager) (list : FreeList memory region blocks)
    (positive : 0 < n) :
    (Returns (manager.pmm.allocPages memory n) (none, memory) ∧
        (n ≤ memory.nrFree → ∀ block ∈ blocks, n ≤ block.size →
          manager.sizeLimit memory ≤ block.size)) ∨
      ∃ left block right, blocks = left ++ block :: right ∧ n ≤ block.size ∧
        Returns (manager.pmm.allocPages memory n)
          (some block.start, fitTake memory block.start n) := by
  rw [pmm_allocPages]
  obtain ⟨found, searched, hit, miss⟩ := manager.search_returns list n
  by_cases enough : n ≤ memory.nrFree
  · cases found with
    | none => exact .inl ⟨fitAllocPages_refuses positive fun _ => searched, fun _ => miss rfl⟩
    | some page =>
        obtain ⟨block, member, rfl, fits⟩ := hit page rfl
        obtain ⟨left, right, split⟩ := List.append_of_mem member
        exact .inr ⟨left, block, right, split, fits, fitAllocPages_takes positive enough searched⟩
  · exact .inl ⟨fitAllocPages_refuses positive fun fits => absurd fits enough,
      fun fits => absurd fits enough⟩

theorem allocPages_positive (manager : FitManager) {result : Option Nat × FitMemory}
    (returns : Returns (manager.pmm.allocPages memory n) result) : 0 < n := by
  obtain ⟨fuel, run⟩ := returns.some_fuel
  rw [pmm_allocPages, fitAllocPages] at run
  by_contra zero
  rw [if_pos (by omega)] at run
  cases run

end FitManager

end Ucore.Mm.Fit
