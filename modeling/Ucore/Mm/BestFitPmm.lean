import Ucore.Mm.FitPmm

namespace Ucore.Mm

open Ucore.Data Ucore.Libs

/-! `kern/mm/best_fit_pmm.c`: best fit. -/

/-- The search loop of `best_fit_alloc_pages`. -/
def bestFitSearchLoop (memory : FitMemory) (n : Nat) :
    Nat → Link → (page : Option Nat) → (minSize : Nat) → Except Stop (Option Nat)
  | 0, _, _, _ => .error .outOfFuel
  | fuel + 1, le, page, minSize =>
      match listNext memory.links le with
      | .freeList => .ok page
      | .page p =>
          if (memory.pages p).property ≥ n ∧ (memory.pages p).property < minSize then
            bestFitSearchLoop memory n fuel (.page p) (some p) (memory.pages p).property
          else
            bestFitSearchLoop memory n fuel (.page p) page minSize

/-- `nr_free + 1` is computed in `unsigned int` before it is stored in `min_size`. -/
def bestFitSearch (memory : FitMemory) (n : Nat) : Bounded (Option Nat) := fun fuel =>
  bestFitSearchLoop memory n fuel .freeList none (uint32 (memory.nrFree + 1))

def bestFitInit : FitMemory → FitMemory := fitInit

def bestFitInitMemmap : FitMemory → (base n : Nat) → Bounded FitMemory := fitInitMemmap

def bestFitAllocPages : FitMemory → (n : Nat) → Bounded (Option Nat × FitMemory) :=
  fitAllocPages bestFitSearch

def bestFitFreePages : FitMemory → (base n : Nat) → Bounded FitMemory := fitFreePages

def bestFitNrFreePages : FitMemory → Nat := fitNrFreePages

def bestFitPmmManager : PmmManager FitMemory where
  name := "best_fit_pmm_manager"
  init := bestFitInit
  initMemmap := bestFitInitMemmap
  allocPages := bestFitAllocPages
  freePages := bestFitFreePages
  nrFreePages := bestFitNrFreePages

end Ucore.Mm
